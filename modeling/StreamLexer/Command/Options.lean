import StreamLexer.Lexer.Run
import StreamLexer.Text.Numeral

/-!
# Options of a report

The capacity of a buffer half and whether layout is shown. Of several capacities the last one
counts, and the first bad argument decides the error.
-/

namespace StreamLexer

structure Options where
  capacity : Nat
  showWhitespace : Bool
deriving DecidableEq, Repr

inductive OptionError where
  | badSize (text : String) (reason : Text.NumeralError)
  | zeroSize
  | unknown (arg : String)
deriving DecidableEq, Repr

def OptionError.message : OptionError → String
  | .badSize text reason => "invalid --buffer-size '" ++ text ++ "': " ++ reason.message
  | .zeroSize => "--buffer-size must be at least 1"
  | .unknown arg => "unknown option '" ++ arg ++ "'"

namespace Options

def initial : Options := ⟨Lexer.defaultCapacity, false⟩

/-- The greatest capacity that can be asked for. -/
def maxCapacity : Nat := 18446744073709551615

def sizeFlag : String := "--buffer-size="

def whitespaceFlag : String := "--show-whitespace"

def withSize (o : Options) (size : List Char) : Except OptionError Options :=
  match Text.readNumeral maxCapacity size with
  | .ok 0 => .error .zeroSize
  | .ok capacity => .ok { o with capacity }
  | .error reason => .error (.badSize (String.ofList size) reason)

def apply (o : Options) (arg : String) : Except OptionError Options :=
  match sizeFlag.toList.isPrefixOf? arg.toList with
  | some size => o.withSize size
  | none => if arg = whitespaceFlag then .ok { o with showWhitespace := true } else .error (.unknown arg)

def applyAll (o : Options) : List String → Except OptionError Options
  | [] => .ok o
  | arg :: args =>
    match o.apply arg with
    | .ok o' => o'.applyAll args
    | .error e => .error e

def parse (args : List String) : Except OptionError Options := initial.applyAll args

end Options

end StreamLexer
