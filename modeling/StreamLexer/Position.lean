import StreamLexer.Byte

/-!
# Positions in a byte stream

A position is an offset with a line and a column, both counted from 1. Lines and columns are
tallies: counts that stay at `2 ^ 32 - 1` once they have reached it.
-/

namespace StreamLexer

def Tally.limit : Nat := 4294967295

/-- A count that never exceeds `Tally.limit`. -/
structure Tally where
  val : Nat
  le_limit : val ≤ Tally.limit
deriving DecidableEq

namespace Tally

@[ext] theorem ext {s t : Tally} (h : s.val = t.val) : s = t := by
  cases s; cases t; simp_all

/-- The tally nearest to `n`. -/
def clamp (n : Nat) : Tally := ⟨min n limit, Nat.min_le_right _ _⟩

def add (t : Tally) (n : Nat) : Tally := clamp (t.val + n)

def one : Tally := clamp 1

@[simp] theorem val_clamp (n : Nat) : (clamp n).val = min n limit := rfl

@[simp] theorem val_add (t : Tally) (n : Nat) : (t.add n).val = min (t.val + n) limit := rfl

theorem add_add (t : Tally) (m n : Nat) : (t.add m).add n = t.add (m + n) := by
  ext; simp only [val_add]; omega

@[simp] theorem add_zero (t : Tally) : t.add 0 = t := by
  have := t.le_limit
  ext; simp only [val_add]; omega

end Tally

structure Position where
  offset : Nat
  line : Tally
  column : Tally
deriving DecidableEq

namespace Position

def start : Position := ⟨0, .one, .one⟩

/-- Moves past one byte. A line feed begins a line; every other byte takes one column. -/
def step (p : Position) (b : Byte) : Position :=
  if b = '\n'.toUInt8 then ⟨p.offset + 1, p.line.add 1, .one⟩
  else ⟨p.offset + 1, p.line, p.column.add 1⟩

def advance (p : Position) (bytes : List Byte) : Position := bytes.foldl step p

/-- The position `n` bytes further on the same line. -/
def shift (p : Position) (n : Nat) : Position := ⟨p.offset + n, p.line, p.column.add n⟩

/-- Line and column, as diagnostics show them. -/
def render (p : Position) : String := toString p.line.val ++ ":" ++ toString p.column.val

@[simp] theorem advance_nil (p : Position) : p.advance [] = p := rfl

@[simp] theorem advance_cons (p : Position) (b : Byte) (bytes : List Byte) :
    p.advance (b :: bytes) = (p.step b).advance bytes := rfl

theorem advance_append (p : Position) (a b : List Byte) : p.advance (a ++ b) = (p.advance a).advance b :=
  List.foldl_append

theorem offset_advance : ∀ (bytes : List Byte) (p : Position),
    (p.advance bytes).offset = p.offset + bytes.length
  | [], p => rfl
  | b :: bytes, p => by
    rw [advance_cons, offset_advance bytes, List.length_cons]
    unfold step
    split <;> simp only <;> omega

end Position

end StreamLexer
