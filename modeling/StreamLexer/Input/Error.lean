import StreamLexer.Byte
import StreamLexer.Fault
import StreamLexer.Text.Hex

/-! # Errors of buffered input -/

namespace StreamLexer

inductive InputError where
  | zeroCapacity
  | read (fault : Fault)
  /-- A lexeme that reaches past two halves of `capacity` bytes. -/
  | lexemeTooLong (capacity : Nat)
  | nonAscii (byte : Byte) (offset : Nat)
deriving DecidableEq

namespace InputError

def message : InputError → String
  | .zeroCapacity => "buffer capacity must be at least 1 byte"
  | .read fault => "failed to read input: " ++ fault.message
  | .lexemeTooLong capacity => "lexeme does not fit in two " ++ toString capacity ++ "-byte buffers"
  | .nonAscii byte offset =>
    "non-ASCII byte 0x" ++ Text.hexByte byte ++ " at offset " ++ toString offset

/-- The texts of the errors behind this one. -/
def causes : InputError → List String
  | .read fault => [fault.message]
  | _ => []

end InputError

end StreamLexer
