import StreamLexer.Input.Cursor

/-!
# The flat cursor

The whole stream in one array with two indices into it: the simplest cursor there is. With a
window of `n` bytes it refuses lexemes that reach past the block of `n` bytes after the one
they start in.
-/

namespace StreamLexer

structure Flat where
  data : Array Byte
  window : Option Nat
  start : Nat
  pos : Nat
deriving DecidableEq

namespace Flat

def ofBytes (data : List Byte) (window : Option Nat) : Flat := ⟨data.toArray, window, 0, 0⟩

/-- The offset that a lexeme under way must not reach past, if there is one. -/
def bound (f : Flat) : Option Nat := f.window.map fun n => (f.start / n + 2) * n

def next (f : Flat) : Reading × Flat :=
  if f.bound = some f.pos then (.failed (.lexemeTooLong (f.window.getD 0)), f)
  else
    match f.data[f.pos]? with
    | none => (.eof, f)
    | some b =>
      if b.isAscii then (.char b, { f with pos := f.pos + 1 }) else (.failed (.nonAscii b f.pos), f)

def pushBack (f : Flat) : Flat := { f with pos := f.pos - 1 }

def take (f : Flat) : List Byte × Flat :=
  ((f.data.extract f.start f.pos).toList, { f with start := f.pos })

def remaining (f : Flat) : Nat := f.data.size - f.pos

theorem next_keeps (f : Flat) : f.next.2.start = f.start ∧ f.next.2.data = f.data := by
  unfold next
  split
  · exact ⟨rfl, rfl⟩
  · split
    · exact ⟨rfl, rfl⟩
    · split <;> exact ⟨rfl, rfl⟩

theorem next_eq_char {f f' : Flat} {b : Byte} (h : f.next = (.char b, f')) :
    f.pos < f.data.size ∧ f' = { f with pos := f.pos + 1 } := by
  unfold next at h
  split at h
  · simp at h
  · split at h
    · simp at h
    · rename_i hb
      split at h <;> simp only [Prod.mk.injEq, reduceCtorEq, false_and] at h
      exact ⟨(Array.getElem?_eq_some_iff.mp hb).1, h.2.symm⟩

theorem next_eq_eof {f f' : Flat} (h : f.next = (.eof, f')) : f' = f := by
  unfold next at h
  split at h
  · simp at h
  · split at h
    · simp only [Prod.mk.injEq, true_and] at h; exact h.symm
    · split at h <;> simp at h

end Flat

instance : Cursor Flat where
  next := Flat.next
  pushBack := Flat.pushBack
  take := Flat.take
  length f := f.pos - f.start
  offset := Flat.start
  crowded _ := false
  remaining := Flat.remaining
  remaining_next h := by
    obtain ⟨hlt, rfl⟩ := Flat.next_eq_char h
    simp only [Flat.remaining]; omega
  remaining_eof h := Nat.le_of_eq (congrArg Flat.remaining (Flat.next_eq_eof h))
  remaining_pushBack h := by
    obtain ⟨_, rfl⟩ := Flat.next_eq_char h
    exact Nat.le_refl _
  remaining_take _ := Nat.le_refl _

end StreamLexer
