import StreamLexer.Byte

/-! # Text as bytes -/

namespace StreamLexer.Text

def utf8 (s : String) : List Byte := s.toUTF8.data.toList

end StreamLexer.Text
