import StreamLexer.Token.Lexicon

/-! # Tokens -/

namespace StreamLexer

inductive Operator where
  | lt
  | le
  | eq
  | ne
  | gt
  | ge
deriving DecidableEq, Repr

namespace Operator

def all : List Operator := [.lt, .le, .eq, .ne, .gt, .ge]

def spelling : Operator → String
  | .lt => "<"
  | .le => "<="
  | .eq => "="
  | .ne => "<>"
  | .gt => ">"
  | .ge => ">="

def mnemonic : Operator → String
  | .lt => "LT"
  | .le => "LE"
  | .eq => "EQ"
  | .ne => "NE"
  | .gt => "GT"
  | .ge => "GE"

end Operator

inductive Token where
  | word (word : Word)
  | number (text : String)
  | operator (op : Operator)
  /-- A whole run of layout. -/
  | whitespace
  | eof
deriving DecidableEq, Repr

namespace Token

def isEof : Token → Bool
  | .eof => true
  | _ => false

/-- Whether the token means nothing to a parser. -/
def isTrivia : Token → Bool
  | .whitespace => true
  | _ => false

def lexeme (t : Lexicon) : Token → Option String
  | .word w => some (t.text w.name)
  | .number text => some text
  | .operator op => some op.spelling
  | .whitespace => none
  | .eof => none

def render (t : Lexicon) : Token → String
  | .word w => (if w.isKeyword then "Keyword(" else "Ident(") ++ t.text w.name ++ ")"
  | .number text => "Number(" ++ text ++ ")"
  | .operator op => "RelOp(" ++ op.spelling ++ ", " ++ op.mnemonic ++ ")"
  | .whitespace => "Whitespace"
  | .eof => "Eof"

/-- Refuses a word whose name the table does not hold. -/
def check (t : Lexicon) : Token → Except RangeError Token
  | .word w =>
    match t.lookup w.name with
    | .ok _ => .ok (.word w)
    | .error e => .error e
  | token => .ok token

end Token

end StreamLexer
