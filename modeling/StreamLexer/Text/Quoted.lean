import StreamLexer.Text.Hex

/-!
# Quoted text

Characters and strings as diagnostics quote them. The quote in use, the backslash and control
characters are escaped; all other characters stand for themselves.
-/

namespace StreamLexer.Text

/-- One character inside quotes of the kind `quote`. -/
def escape (quote c : Char) : String :=
  if c = '\x00' then "\\0"
  else if c = '\t' then "\\t"
  else if c = '\n' then "\\n"
  else if c = '\r' then "\\r"
  else if c = '\\' then "\\\\"
  else if c = quote then String.ofList ['\\', c]
  else if c.toNat < 32 ∨ c.toNat = 127 then "\\u\x7b" ++ hexNumeral c.toNat ++ "\x7d"
  else String.ofList [c]

def quoteChar (c : Char) : String := "'" ++ escape '\'' c ++ "'"

def quoteString (s : String) : String := "\"" ++ String.join (s.toList.map (escape '"')) ++ "\""

end StreamLexer.Text
