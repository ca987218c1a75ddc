/-!
# Names and keywords

A word is known by its name, its index in the table of words. The keywords hold the first names.
-/

namespace StreamLexer

structure Name where
  index : Nat
deriving DecidableEq, Repr

inductive Keyword where
  | kwIf
  | kwThen
  | kwElse
  | kwWhile
  | kwDo
  | kwFor
deriving DecidableEq, Repr

namespace Keyword

/-- All keywords in the order of their names. -/
def all : List Keyword := [.kwIf, .kwThen, .kwElse, .kwWhile, .kwDo, .kwFor]

def spelling : Keyword → String
  | .kwIf => "if"
  | .kwThen => "then"
  | .kwElse => "else"
  | .kwWhile => "while"
  | .kwDo => "do"
  | .kwFor => "for"

def ofName? (n : Name) : Option Keyword := all[n.index]?

end Keyword

end StreamLexer
