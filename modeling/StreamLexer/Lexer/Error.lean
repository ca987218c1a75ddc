import StreamLexer.Input.Error
import StreamLexer.Position
import StreamLexer.Text.Quoted
import StreamLexer.Token.Lexicon

/-! # Lexical errors -/

namespace StreamLexer

/-- The part of the grammar being matched. -/
inductive Context where
  | topLevel
  | fraction
  | exponent
deriving DecidableEq, Repr

namespace Context

def all : List Context := [.topLevel, .fraction, .exponent]

def phrase : Context → String
  | .topLevel => "at start of token"
  | .fraction => "in fractional part of number"
  | .exponent => "in exponent of number"

end Context

instance : Inhabited Context := ⟨.topLevel⟩

/-- What would have let a token go on, and the context it was wanted in. -/
structure Expectation where
  context : Context
  expected : String
deriving DecidableEq, Repr

inductive LexError where
  | input (error : InputError)
  | lexiconFull (error : LexiconFull)
  | unexpectedChar (found : Char) (expectation : Expectation) (position : Position)
  | unexpectedEof (expectation : Expectation) (position : Position)
  /-- The lexer has failed before. -/
  | poisoned
deriving DecidableEq

namespace LexError

def message : LexError → String
  | .input error => error.message
  | .lexiconFull error => error.message
  | .unexpectedChar found want position =>
    position.render ++ ": unexpected " ++ Text.quoteChar found ++ " " ++ want.context.phrase
      ++ ", expected " ++ want.expected
  | .unexpectedEof want position =>
    position.render ++ ": unexpected end of input " ++ want.context.phrase ++ ", expected " ++ want.expected
  | .poisoned => "lexer already failed; no further tokens"

/-- Where the error was detected, if the text itself is at fault. -/
def position? : LexError → Option Position
  | .unexpectedChar _ _ position => some position
  | .unexpectedEof _ position => some position
  | _ => none

/-- The texts of the errors behind this one. -/
def causes : LexError → List String
  | .input error => error.causes
  | _ => []

end LexError

end StreamLexer
