import StreamLexer.Input.Cursor

/-!
# Walks

The moves a user of a cursor can make, one by one. Taking a character back is refused where the
lexeme under way holds none.
-/

namespace StreamLexer

inductive Move where
  | next
  | pushBack
  | take
deriving DecidableEq

inductive Answer where
  | reading (reading : Reading)
  | pushedBack
  | refused
  | lexeme (bytes : List Byte)
deriving DecidableEq

/-- The answer to a move, and the lexeme under way behind it. -/
structure Step where
  answer : Answer
  length : Nat
  offset : Nat
deriving DecidableEq

namespace Cursor

variable {σ : Type} [Cursor σ]

def perform (s : σ) : Move → Answer × σ
  | .next => (.reading (next s).1, (next s).2)
  | .pushBack => if length s = 0 then (.refused, s) else (.pushedBack, pushBack s)
  | .take => (.lexeme (take s).1, (take s).2)

/-- What a list of moves shows, and where it leads. -/
def walk (s : σ) : List Move → List Step × σ
  | [] => ([], s)
  | move :: moves =>
    match perform s move with
    | (answer, s') =>
      match walk s' moves with
      | (steps, s'') => (⟨answer, length s', offset s'⟩ :: steps, s'')

end Cursor

end StreamLexer
