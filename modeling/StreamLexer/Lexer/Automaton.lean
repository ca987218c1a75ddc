import StreamLexer.Input.Cursor

/-!
# Automata over a cursor

An automaton is a partial step function. It runs on the characters of a cursor for as long as
there are steps, and halts with the state reached and what stopped it.
-/

namespace StreamLexer

inductive Halt (Q : Type) where
  /-- No step on this character, which has been read. -/
  | char (state : Q) (b : Byte)
  | eof (state : Q)
  | failed (error : InputError)
deriving DecidableEq

namespace Cursor

variable {σ Q : Type} [Cursor σ]

def run (step : Q → Byte → Option Q) (q : Q) (s : σ) : Halt Q × σ :=
  match _h : next s with
  | (.char b, s') =>
    match step q b with
    | some q' => run step q' s'
    | none => (.char q b, s')
  | (.eof, s') => (.eof q, s')
  | (.failed error, s') => (.failed error, s')
termination_by remaining s
decreasing_by exact remaining_next _h

theorem remaining_run_char (step : Q → Byte → Option Q) {q q' : Q} {s s' : σ} {b : Byte}
    (h : run step q s = (.char q' b, s')) : remaining (pushBack s') ≤ remaining s := by
  fun_induction run step q s with
  | case1 q s b s' hn q' _ ih => exact Nat.le_trans (ih h) (Nat.le_of_lt (remaining_next hn))
  | case2 q s b s' hn _ =>
    simp only [Prod.mk.injEq, Halt.char.injEq] at h
    rw [← h.2]; exact remaining_pushBack hn
  | case3 => simp at h
  | case4 => simp at h

theorem remaining_run_eof (step : Q → Byte → Option Q) {q q' : Q} {s s' : σ}
    (h : run step q s = (.eof q', s')) : remaining s' ≤ remaining s := by
  fun_induction run step q s with
  | case1 q s b s' hn q' _ ih => exact Nat.le_trans (ih h) (Nat.le_of_lt (remaining_next hn))
  | case2 => simp at h
  | case3 q s s' hn =>
    simp only [Prod.mk.injEq] at h
    rw [← h.2]; exact remaining_eof hn
  | case4 => simp at h

end Cursor

end StreamLexer
