import StreamLexer.Lexer.Basic

/-!
# The classes of bytes

Each class is a few ranges of codes. All of them are ASCII, and a token's first byte belongs to
one class only.
-/

namespace StreamLexer

namespace Byte

theorem eq_iff_toNat (b : Byte) (c : Char) (n : Nat) (h : c.toUInt8.toNat = n := by decide) :
    b = c.toUInt8 ↔ b.toNat = n := by
  rw [← h, UInt8.toNat_inj]

theorem isAscii_iff (b : Byte) : b.isAscii = true ↔ b.toNat < 128 := by
  have : sentinel.toNat = 128 := by decide
  simp only [isAscii, decide_eq_true_eq, UInt8.lt_iff_toNat_lt, this]

theorem isLetter_iff (b : Byte) :
    b.isLetter = true ↔ (97 ≤ b.toNat ∧ b.toNat ≤ 122) ∨ (65 ≤ b.toNat ∧ b.toNat ≤ 90) := by
  have ha : 'a'.toUInt8.toNat = 97 := by decide
  have hz : 'z'.toUInt8.toNat = 122 := by decide
  have hA : 'A'.toUInt8.toNat = 65 := by decide
  have hZ : 'Z'.toUInt8.toNat = 90 := by decide
  simp only [isLetter, Bool.or_eq_true, Bool.and_eq_true, decide_eq_true_eq, UInt8.le_iff_toNat_le, ha, hz, hA, hZ]

theorem isDigit_iff (b : Byte) : b.isDigit = true ↔ 48 ≤ b.toNat ∧ b.toNat ≤ 57 := by
  have h0 : '0'.toUInt8.toNat = 48 := by decide
  have h9 : '9'.toUInt8.toNat = 57 := by decide
  simp only [isDigit, Bool.and_eq_true, decide_eq_true_eq, UInt8.le_iff_toNat_le, h0, h9]

theorem isLayout_iff (b : Byte) :
    b.isLayout = true ↔ b.toNat = 32 ∨ b.toNat = 9 ∨ b.toNat = 10 ∨ b.toNat = 13 := by
  simp only [isLayout, Bool.or_eq_true, beq_iff_eq, or_assoc, eq_iff_toNat b ' ' 32, eq_iff_toNat b '\t' 9,
    eq_iff_toNat b '\n' 10, eq_iff_toNat b '\r' 13]

theorem isSign_iff (b : Byte) : b.isSign = true ↔ b.toNat = 43 ∨ b.toNat = 45 := by
  simp only [isSign, Bool.or_eq_true, beq_iff_eq, eq_iff_toNat b '+' 43, eq_iff_toNat b '-' 45]

theorem isWordPart_iff (b : Byte) : b.isWordPart = true ↔ b.isLetter = true ∨ b.isDigit = true := by
  simp only [isWordPart, Bool.or_eq_true]

theorem isAscii_of_isWordPart {b : Byte} (h : b.isWordPart = true) : b.isAscii = true := by
  rw [isWordPart_iff, isLetter_iff, isDigit_iff] at h
  rw [isAscii_iff]; omega

theorem isAscii_of_isLayout {b : Byte} (h : b.isLayout = true) : b.isAscii = true := by
  rw [isLayout_iff] at h
  rw [isAscii_iff]; omega

theorem not_isLetter_of_isDigit {b : Byte} (h : b.isDigit = true) : b.isLetter = false := by
  rw [isDigit_iff] at h
  rw [Bool.eq_false_iff, Ne, isLetter_iff]; omega

theorem not_isWordPart_of_isLayout {b : Byte} (h : b.isLayout = true) : b.isLetter = false ∧ b.isDigit = false := by
  rw [isLayout_iff] at h
  rw [Bool.eq_false_iff, Bool.eq_false_iff, Ne, Ne, isLetter_iff, isDigit_iff]; omega

end Byte

theorem Lexer.isAscii_of_wordStep (q : Unit) (b : Byte) (q' : Unit) (h : wordStep q b = some q') :
    b.isAscii = true := by
  unfold wordStep at h
  split at h
  · rename_i hb
    exact Byte.isAscii_of_isWordPart hb
  · cases h

theorem NumberState.byte_of_step {q q' : NumberState} {b : Byte} (h : q.step b = some q') :
    b.isDigit = true ∨ b = '.'.toUInt8 ∨ b = 'E'.toUInt8 ∨ b.isSign = true := by
  cases q <;> simp only [step] at h <;> grind

theorem NumberState.ne_newline_of_step {q q' : NumberState} {b : Byte} (h : q.step b = some q') :
    b ≠ '\n'.toUInt8 := by
  rintro rfl
  exact absurd (byte_of_step h) (by decide)

theorem NumberState.isAscii_of_step (q : NumberState) (b : Byte) (q' : NumberState) (h : q.step b = some q') :
    b.isAscii = true := by
  have := byte_of_step h
  rw [Byte.isDigit_iff, Byte.isSign_iff, Byte.eq_iff_toNat b '.' 46, Byte.eq_iff_toNat b 'E' 69] at this
  rw [Byte.isAscii_iff]; omega

end StreamLexer
