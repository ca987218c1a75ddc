import StreamLexer.Input.BufferPair
import StreamLexer.Lexer.Basic

/-!
# Whole runs of a lexer

Every token but the last takes something from the cursor, so a run comes to the end of the input
or to an error.
-/

namespace StreamLexer

namespace Lexer

variable {σ : Type} [Cursor σ]

theorem remaining_finishWord (l : Lexer σ) :
    Cursor.remaining l.finishWord.2.cursor ≤ Cursor.remaining l.cursor := by
  simp only [finishWord]
  split <;> exact remaining_takeLexeme l

theorem remaining_scanWord {l l' : Lexer σ} {t : Token} (h : l.scanWord = (.ok t, l')) :
    Cursor.remaining l'.cursor ≤ Cursor.remaining l.cursor := by
  unfold scanWord at h
  split at h
  · rename_i s hr
    have := remaining_finishWord (l.moveTo (Cursor.pushBack s))
    rw [h] at this
    exact Nat.le_trans this (Cursor.remaining_run_char _ hr)
  · rename_i s hr
    have := remaining_finishWord (l.moveTo s)
    rw [h] at this
    exact Nat.le_trans this (Cursor.remaining_run_eof _ hr)
  · simp at h

theorem remaining_scanNumber {l l' : Lexer σ} {t : Token} (h : l.scanNumber = (.ok t, l')) :
    Cursor.remaining l'.cursor ≤ Cursor.remaining l.cursor := by
  unfold scanNumber at h
  split at h
  · rename_i s hr
    split at h
    · have := remaining_takeLexeme (l.moveTo (Cursor.pushBack s))
      simp only [finishNumber, Prod.mk.injEq] at h
      rw [h.2] at this
      exact Nat.le_trans this (Cursor.remaining_run_char _ hr)
    · simp at h
  · rename_i s hr
    split at h
    · have := remaining_takeLexeme (l.moveTo s)
      simp only [finishNumber, Prod.mk.injEq] at h
      rw [h.2] at this
      exact Nat.le_trans this (Cursor.remaining_run_eof _ hr)
    · simp at h
  · simp at h

theorem remaining_scanOperator {l l' : Lexer σ} {op : Operator} {t : Token}
    (h : l.scanOperator op = (.ok t, l')) : Cursor.remaining l'.cursor ≤ Cursor.remaining l.cursor := by
  unfold scanOperator at h
  split at h
  · split at h
    · rename_i hn
      split at h <;> simp only [finishOperator, Prod.mk.injEq] at h <;> rw [← h.2]
      · exact Nat.le_trans (remaining_takeLexeme _) (Nat.le_of_lt (Cursor.remaining_next hn))
      · exact Nat.le_trans (remaining_takeLexeme _) (Cursor.remaining_pushBack hn)
    · rename_i hn
      simp only [finishOperator, Prod.mk.injEq] at h
      rw [← h.2]
      exact Nat.le_trans (remaining_takeLexeme _) (Cursor.remaining_eof hn)
    · simp at h
  · simp only [finishOperator, Prod.mk.injEq] at h
    rw [← h.2]
    exact remaining_takeLexeme l

theorem remaining_scanLayout {l l' : Lexer σ} {t : Token} (h : l.scanLayout = (.ok t, l')) :
    Cursor.remaining l'.cursor ≤ Cursor.remaining l.cursor := by
  fun_induction scanLayout l with
  | case1 l b s hn _ ih =>
    exact Nat.le_trans (ih h) (Nat.le_trans (Nat.le_of_lt (Cursor.remaining_next hn)) (remaining_relieve l))
  | case2 l b s hn _ =>
    simp only [Prod.mk.injEq] at h
    rw [← h.2]
    exact Nat.le_trans (remaining_takeLexeme _)
      (Nat.le_trans (Cursor.remaining_pushBack hn) (remaining_relieve l))
  | case3 l s hn =>
    simp only [Prod.mk.injEq] at h
    rw [← h.2]
    exact Nat.le_trans (remaining_takeLexeme _)
      (Nat.le_trans (Cursor.remaining_eof hn) (remaining_relieve l))
  | case4 => simp at h

theorem remaining_scan {l l' : Lexer σ} {t : Token} (h : l.scan = (.ok t, l')) (ht : t ≠ .eof) :
    Cursor.remaining l'.cursor < Cursor.remaining l.cursor := by
  unfold scan at h
  split at h
  · rename_i hn
    have hlt := Cursor.remaining_next hn
    split at h
    · exact Nat.lt_of_le_of_lt (remaining_scanWord h) hlt
    · split at h
      · exact Nat.lt_of_le_of_lt (remaining_scanNumber h) hlt
      · split at h
        · exact Nat.lt_of_le_of_lt (remaining_scanLayout h) hlt
        · split at h
          · exact Nat.lt_of_le_of_lt (remaining_scanOperator h) hlt
          · simp at h
  · simp only [Prod.mk.injEq, Except.ok.injEq] at h
    exact absurd h.1.symm ht
  · simp at h

theorem remaining_nextLocated {l l' : Lexer σ} {row : Located} (h : l.nextLocated = (.ok row, l'))
    (ht : row.token ≠ .eof) : Cursor.remaining l'.cursor < Cursor.remaining l.cursor := by
  unfold nextLocated at h
  split at h
  · simp at h
  · split at h
    · rename_i hs
      simp only [Prod.mk.injEq, Except.ok.injEq] at h
      rw [← h.1] at ht
      rw [← h.2]
      exact remaining_scan hs ht
    · simp at h

end Lexer

/-- How a run ends. -/
inductive Ending where
  | eof (start : Position)
  | failed (error : LexError)
deriving DecidableEq

/-- The tokens of a run before its ending, and the lexer it leaves behind. -/
structure Transcript (σ : Type) where
  rows : Array Located
  ending : Ending
  lexer : Lexer σ

namespace Lexer

variable {σ : Type} [Cursor σ]

def runFrom (seen : Array Located) (l : Lexer σ) : Transcript σ :=
  match _h : l.nextLocated with
  | (.ok row, l') =>
    if _ht : row.token = .eof then ⟨seen, .eof row.start, l'⟩ else runFrom (seen.push row) l'
  | (.error error, l') => ⟨seen, .failed error, l'⟩
termination_by Cursor.remaining l.cursor
decreasing_by exact remaining_nextLocated _h _ht

/-- Reads tokens up to the end of the input or the first error. -/
def run (l : Lexer σ) : Transcript σ := runFrom #[] l

/-- Bytes in each half unless something else is asked for. -/
def defaultCapacity : Nat := 4096

/-- A lexer over a buffer pair that is filled from `source`. -/
def ofSource (capacity : Nat) (source : Source) : Except LexError (Lexer BufferPair) :=
  match BufferPair.ofSource capacity source with
  | .ok pair => .ok (ofCursor pair)
  | .error (error, _) => .error (.input error)

end Lexer

end StreamLexer
