import Mathlib.Algebra.Group.Nat.Defs
import Mathlib.Data.List.DropRight
import StreamLexer.Position

/-!
# Lines and columns in closed form

A position is moved byte by byte, and its tallies stop at their limit. What comes out can be told
at once: the line counts the line feeds, and the column the bytes behind the last of them. On one
line, moving past bytes is the same as shifting by their number. So it does not matter into which
pieces the bytes are cut, nor that a tally may have stopped before a line feed sets it back.
-/

namespace StreamLexer

namespace Position

/-- The bytes behind the last line feed, all of them where there is none. -/
def lastLine (bytes : List Byte) : List Byte := bytes.rtakeWhile (· != '\n'.toUInt8)

def behind (bytes : List Byte) : Position :=
  ⟨bytes.length, .clamp (1 + bytes.count '\n'.toUInt8), .clamp (1 + (lastLine bytes).length)⟩

theorem behind_concat (bytes : List Byte) (b : Byte) : behind (bytes ++ [b]) = (behind bytes).step b := by
  unfold behind step lastLine
  by_cases hb : b = '\n'.toUInt8
  · subst hb
    rw [if_pos rfl, List.rtakeWhile_concat_neg _ _ _ (by simp)]
    refine congr (congrArg₂ _ ?_ ?_) rfl
    · simp
    · ext
      simp only [List.count_append, List.count_singleton_self, Tally.val_add, Tally.val_clamp]
      omega
  · rw [if_neg hb, List.rtakeWhile_concat_pos _ _ _ (by simpa using hb)]
    refine congr (congrArg₂ _ ?_ ?_) ?_
    · simp
    · simp [List.count_append, hb]
    · ext
      simp only [List.length_append, List.length_singleton, Tally.val_add, Tally.val_clamp]
      omega

theorem advance_behind (a b : List Byte) : (behind a).advance b = behind (a ++ b) := by
  induction b using List.reverseRecOn with
  | nil => rw [advance_nil, List.append_nil]
  | append_singleton b c ih => rw [advance_append, ih, ← List.append_assoc, behind_concat]; rfl

theorem advance_of_not_mem {bytes : List Byte} (h : '\n'.toUInt8 ∉ bytes) (p : Position) :
    p.advance bytes = p.shift bytes.length := by
  induction bytes generalizing p with
  | nil => simp [shift]
  | cons b bytes ih =>
    have hb : b ≠ '\n'.toUInt8 := (List.ne_of_not_mem_cons h).symm
    rw [advance_cons, ih (List.not_mem_of_not_mem_cons h)]
    simp only [step, hb, if_false, shift, Tally.add_add, List.length_cons, Nat.add_assoc, Nat.add_comm bytes.length]

/-! ## From any position on -/

theorem line_advance : ∀ (bytes : List Byte) (p : Position),
    (p.advance bytes).line = p.line.add (bytes.count '\n'.toUInt8)
  | [], p => by simp
  | b :: bytes, p => by
    rw [advance_cons, line_advance bytes, step]
    by_cases hb : b = '\n'.toUInt8
    · simp [hb, Tally.add_add, Nat.add_comm 1]
    · simp [hb]

theorem column_advance (p : Position) (bytes : List Byte) :
    (p.advance bytes).column =
      if '\n'.toUInt8 ∈ bytes then .clamp (1 + (lastLine bytes).length) else p.column.add bytes.length := by
  induction bytes using List.reverseRecOn with
  | nil => simp
  | append_singleton bytes b ih =>
    rw [advance_append, advance_cons, advance_nil, step]
    by_cases hb : b = '\n'.toUInt8
    -- whatever the column was, a line feed sets it back
    · simp [hb, lastLine, List.rtakeWhile_concat_neg, Tally.one]
    · have hlast : lastLine (bytes ++ [b]) = lastLine bytes ++ [b] :=
        List.rtakeWhile_concat_pos _ _ _ (by simpa using hb)
      have hmem : '\n'.toUInt8 ∈ bytes ++ [b] ↔ '\n'.toUInt8 ∈ bytes := by simp [Ne.symm hb]
      simp only [hb, if_false, ih, hlast, hmem, List.length_append, List.length_singleton]
      by_cases hn : '\n'.toUInt8 ∈ bytes
      · simp only [hn, if_true]
        ext
        simp only [Tally.val_add, Tally.val_clamp]
        omega
      · simp only [hn, if_false, Tally.add_add]

theorem shift_eq_clamped (p : Position) (n : Nat) :
    p.shift n = ⟨p.offset + n, p.line, p.column.add (Tally.clamp n).val⟩ := by
  have hcolumn : p.column.add n = p.column.add (Tally.clamp n).val := by
    ext
    simp only [Tally.val_add, Tally.val_clamp]
    omega
  rw [shift, hcolumn]

/-- Bytes act on positions, and what they do can be told at once, also where a tally has stopped or stops on
the way: the line moves by the number of line feeds, the column by that of the bytes or to their place behind
the last line feed. Without a line feed, only the number of the bytes counts, however large. -/
theorem advance_acts (p : Position) (a b text : List Byte) :
    p.advance (a ++ b) = (p.advance a).advance b ∧
      (p.advance text).offset = p.offset + text.length ∧
      (p.advance text).line.val = min (2 ^ 32 - 1) (p.line.val + text.count '\n'.toUInt8) ∧
      (p.advance text).column.val =
        (if text.count '\n'.toUInt8 = 0 then min (2 ^ 32 - 1) (p.column.val + text.length)
        else min (2 ^ 32 - 1) (1 + (lastLine text).length)) ∧
      (∀ n, p.shift n = ⟨p.offset + n, p.line, p.column.add (Tally.clamp n).val⟩) ∧
      ∀ n bytes, bytes.length = n → '\n'.toUInt8 ∉ bytes → p.shift n = p.advance bytes := by
  have hlimit : Tally.limit = 2 ^ 32 - 1 := rfl
  refine ⟨advance_append p a b, offset_advance text p, ?_, ?_, shift_eq_clamped p, ?_⟩
  · rw [line_advance, Tally.val_add, hlimit, Nat.min_comm]
  · rw [column_advance]
    by_cases hn : '\n'.toUInt8 ∈ text
    · have hcount : text.count '\n'.toUInt8 ≠ 0 := fun h => List.count_eq_zero.mp h hn
      rw [if_pos hn, if_neg hcount, Tally.val_clamp, hlimit, Nat.min_comm]
    · have hcount : text.count '\n'.toUInt8 = 0 := List.count_eq_zero.mpr hn
      rw [if_neg hn, if_pos hcount, Tally.val_add, hlimit, Nat.min_comm]
  · intro n bytes hlength hn
    rw [advance_of_not_mem hn, hlength]

theorem advance_acts_past_limit :
    ((⟨7, .clamp (2 ^ 32), .clamp (2 ^ 32)⟩ : Position).advance [97, 10, 98, 99]).column.val = 3 ∧
      (⟨7, .clamp (2 ^ 32), .clamp (2 ^ 32)⟩ : Position).shift (2 ^ 32 + 5) =
        (⟨7, .clamp (2 ^ 32), .clamp (2 ^ 32)⟩ : Position).advance (List.replicate (2 ^ 32 + 5) 97) := by
  obtain ⟨_, _, _, hcolumn, _, hshift⟩ :=
    advance_acts ⟨7, .clamp (2 ^ 32), .clamp (2 ^ 32)⟩ [] [] [97, 10, 98, 99]
  refine ⟨hcolumn.trans (by decide), hshift _ _ List.length_replicate ?_⟩
  intro h
  exact absurd (List.eq_of_mem_replicate h) (by decide)

end Position

end StreamLexer
