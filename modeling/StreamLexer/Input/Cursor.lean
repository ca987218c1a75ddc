import StreamLexer.Input.Error

/-!
# Cursors

A cursor walks over a byte stream and keeps the bytes of one lexeme under way, from its start up
to the cursor. `remaining` bounds the characters still to come; it is what loops over a cursor
end by.
-/

namespace StreamLexer

/-- What a cursor finds in front of it. Only a character moves it. -/
inductive Reading where
  | char (b : Byte)
  | eof
  | failed (error : InputError)
deriving DecidableEq

class Cursor (σ : Type) where
  next : σ → Reading × σ
  /-- Takes the last character back. -/
  pushBack : σ → σ
  /-- The lexeme under way; the next one starts at the cursor. -/
  take : σ → List Byte × σ
  length : σ → Nat
  /-- Stream offset of the start of the lexeme under way. -/
  offset : σ → Nat
  /-- Whether a lexeme that need not be kept should be taken before it outgrows the cursor. -/
  crowded : σ → Bool
  remaining : σ → Nat
  remaining_next {s s' : σ} {b : Byte} : next s = (.char b, s') → remaining s' < remaining s
  remaining_eof {s s' : σ} : next s = (.eof, s') → remaining s' ≤ remaining s
  remaining_pushBack {s s' : σ} {b : Byte} :
    next s = (.char b, s') → remaining (pushBack s') ≤ remaining s
  remaining_take (s : σ) : remaining (take s).2 ≤ remaining s

namespace Cursor

variable {σ : Type} [Cursor σ]

/-- Takes characters off one by one until there is none, collecting them behind `taken`. -/
def drainFrom (taken : Array Byte) (s : σ) : Array Byte × Reading × σ :=
  match _h : next s with
  | (.char _, s') => drainFrom (taken ++ (take s').1) (take s').2
  | (reading, s') => (taken, reading, s')
termination_by remaining s
decreasing_by exact Nat.lt_of_le_of_lt (remaining_take _) (remaining_next _h)

/-- The rest of the stream as one piece, and the reading that ends it. -/
def drain (s : σ) : List Byte × Reading × σ :=
  match drainFrom #[] s with
  | (taken, reading, s') => (taken.toList, reading, s')

end Cursor

end StreamLexer
