/-!
# Bytes and their lexical classes

The stream is ASCII. The byte `0x80` cannot occur in it and marks the end of loaded input.
-/

namespace StreamLexer

abbrev Byte := UInt8

namespace Byte

/-- The first byte value outside ASCII. -/
def sentinel : Byte := 0x80

def isAscii (b : Byte) : Bool := b < sentinel

def isLetter (b : Byte) : Bool :=
  ('a'.toUInt8 ≤ b && b ≤ 'z'.toUInt8) || ('A'.toUInt8 ≤ b && b ≤ 'Z'.toUInt8)

def isDigit (b : Byte) : Bool := '0'.toUInt8 ≤ b && b ≤ '9'.toUInt8

/-- The bytes a word may go on with after its first letter. -/
def isWordPart (b : Byte) : Bool := b.isLetter || b.isDigit

def isLayout (b : Byte) : Bool :=
  b == ' '.toUInt8 || b == '\t'.toUInt8 || b == '\n'.toUInt8 || b == '\r'.toUInt8

def isSign (b : Byte) : Bool := b == '+'.toUInt8 || b == '-'.toUInt8

/-- Reads every byte as the character of that code. -/
def text (bytes : List Byte) : String := String.ofList (bytes.map Char.ofUInt8)

end Byte

end StreamLexer
