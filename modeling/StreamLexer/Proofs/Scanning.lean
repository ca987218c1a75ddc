import StreamLexer.Proofs.Alphabet
import StreamLexer.Proofs.Reach

/-!
# Scanning the whole stream

Where a lexer has the whole stream before it and no window, each kind of token can be told from
the stream: it goes as far as its automaton reaches, and what stands behind it decides between a
token and an error.
-/

namespace StreamLexer

namespace Lexer

theorem isAscii_of_stay_isLayout (q : Unit) (b : Byte) (q' : Unit) (h : stay Byte.isLayout q b = some q') :
    b.isAscii = true := by
  unfold stay at h
  split at h
  · rename_i hb
    exact Byte.isAscii_of_isLayout hb
  · cases h

theorem scanLayout_eq {σ : Type} [Cursor σ] (l : Lexer σ) :
    l.scanLayout =
      match Cursor.next l.relieve.cursor with
      | (.char b, s) =>
        if b.isLayout then (l.relieve.moveTo s).scanLayout
        else (.ok .whitespace, (l.relieve.moveTo (Cursor.pushBack s)).takeLexeme.2)
      | (.eof, s) => (.ok .whitespace, (l.relieve.moveTo s).takeLexeme.2)
      | (.failed error, s) => (.error (.input error), l.relieve.moveTo s) := by
  rw [scanLayout]
  split <;> rename_i h <;> rw [h]

def seek (m : Lexer Flat) (pos : Nat) : Lexer Flat := m.moveTo (m.cursor.goto pos)

/-- What comes of a token that ends at an offset, unless the byte that stands there cannot be read. -/
def unlessFailed (m : Lexer Flat) (n : Nat) (r : Except LexError Token × Lexer Flat) :
    Except LexError Token × Lexer Flat :=
  match m.cursor.peek n with
  | .failed e => (.error (.input e), m.seek n)
  | _ => r

/-- What comes of a number that ends at an offset in some state. -/
def endNumber (m : Lexer Flat) (n : Nat) (q : NumberState) : Except LexError Token × Lexer Flat :=
  match q.expectation, m.cursor.peek n with
  | none, _ => (m.seek n).finishNumber
  | some want, .char b =>
    (.error (.unexpectedChar (Char.ofUInt8 b) want (m.position.shift (n - m.cursor.start))), m.seek (n + 1))
  | some want, _ => (.error (.unexpectedEof want (m.position.shift (n - m.cursor.start))), m.seek n)

section
variable {m : Lexer Flat} {n : Nat} {r : Except LexError Token × Lexer Flat}

theorem unlessFailed_eq (h : ∀ e, m.cursor.peek n ≠ .failed e) : m.unlessFailed n r = r := by
  unfold unlessFailed
  split
  · rename_i e hp
    exact absurd hp (h e)
  · rfl

theorem unlessFailed_ok {t : Token} (h : (m.unlessFailed n r).1 = .ok t) : m.unlessFailed n r = r := by
  apply unlessFailed_eq
  intro e hp
  simp [unlessFailed, hp] at h

theorem endNumber_eq {q : NumberState} (h : q.expectation = none) : m.endNumber n q = (m.seek n).finishNumber := by
  simp only [endNumber, h]

theorem endNumber_ok {q : NumberState} {t : Token} (h : (m.endNumber n q).1 = .ok t) : q.expectation = none := by
  unfold endNumber at h
  split at h
  · assumption
  · cases h
  · cases h

theorem unlessFailed_error {e : InputError} (h : (m.unlessFailed n r).1 = .error (.input e)) :
    (∃ b, e = .nonAscii b n) ∨ r.1 = .error (.input e) := by
  unfold unlessFailed at h
  split at h
  · rename_i hp
    obtain ⟨b, _, _, hb⟩ := Flat.peek_eq_failed hp
    cases h
    exact Or.inl ⟨b, hb⟩
  · exact Or.inr h

end

section
variable (m : Lexer Flat) (hw : m.cursor.window = none)
include hw

theorem scanWord_flat {n : Nat} (hn : m.cursor.pos + reach wordStep () m.cursor.rest = n) :
    m.scanWord = m.unlessFailed n (m.seek n).finishWord := by
  unfold scanWord unlessFailed
  rw [Flat.run_eq isAscii_of_wordStep () m.cursor hw, hn]
  cases m.cursor.peek n <;> rfl

theorem scanNumber_flat {n : Nat} {q : NumberState}
    (hn : m.cursor.pos + reach NumberState.step .integer m.cursor.rest = n)
    (hq : halt NumberState.step .integer m.cursor.rest = q) :
    m.scanNumber = m.unlessFailed n (m.endNumber n q) := by
  unfold scanNumber unlessFailed endNumber
  rw [Flat.run_eq NumberState.isAscii_of_step .integer m.cursor hw, hn, hq]
  cases m.cursor.peek n with
  | failed e => rfl
  | eof => cases hx : q.expectation <;> simp only [hx] <;> rfl
  | char b =>
    cases hx : q.expectation with
    | none => simp only [hx]; rfl
    | some want =>
      have hlen : Cursor.length (m.cursor.goto (n + 1)) - 1 = n - m.cursor.start := by
        show n + 1 - m.cursor.start - 1 = n - m.cursor.start
        omega
      simp only [hx, hlen]; rfl

theorem scanOperator_flat (op : Operator) :
    m.scanOperator op =
      if op.isOpen then
        match m.cursor.peek m.cursor.pos with
        | .failed e => (.error (.input e), m)
        | .eof => m.finishOperator op
        | .char b =>
          match op.extend b with
          | some op' => (m.seek (m.cursor.pos + 1)).finishOperator op'
          | none => m.finishOperator op
      else m.finishOperator op := by
  have hn : Cursor.next m.cursor = _ := Flat.next_of_window_none hw
  unfold scanOperator
  rw [hn]
  cases m.cursor.peek m.cursor.pos <;> rfl

theorem scanLayout_flat {n : Nat} (hn : m.cursor.pos + reach (stay Byte.isLayout) () m.cursor.rest = n) :
    m.scanLayout = m.unlessFailed n (.ok .whitespace, (m.seek n).takeLexeme.2) := by
  -- each byte of layout leaves less of the stream before the cursor
  induction hk : m.cursor.data.size - m.cursor.pos using Nat.strongRecOn generalizing m n with
  | ind k ih =>
    have hfree : m.relieve = m := rfl
    have hnext : Cursor.next m.cursor = _ := Flat.next_of_window_none hw
    rw [scanLayout_eq m, hfree, hnext]
    cases hp : m.cursor.peek m.cursor.pos with
    | failed e =>
      rw [Flat.reach_of_failed isAscii_of_stay_isLayout () hp, Nat.add_zero] at hn
      rw [← hn, unlessFailed, hp]
      rfl
    | eof =>
      rw [Flat.rest_of_eof hp, reach, Nat.add_zero] at hn
      rw [← hn, unlessFailed, hp]
      rfl
    | char b =>
      have hb := (Flat.peek_eq_char hp).1
      have hin := (Array.getElem?_eq_some_iff.mp hb).1
      rw [Flat.rest_of_peek hb] at hn
      by_cases hl : b.isLayout = true
      · have hs : stay Byte.isLayout () b = some () := by simp [stay, hl]
        rw [(reach_cons_some _ hs).1] at hn
        have hlt : (m.seek (m.cursor.pos + 1)).cursor.data.size - (m.seek (m.cursor.pos + 1)).cursor.pos < k := by
          show m.cursor.data.size - (m.cursor.pos + 1) < k
          omega
        simp only [Flat.moved, hl, if_true]
        refine ih _ hlt (m.seek (m.cursor.pos + 1)) hw ?_ rfl
        show m.cursor.pos + 1 + reach (stay Byte.isLayout) () (m.cursor.goto (m.cursor.pos + 1)).rest = n
        omega
      · have hs : stay Byte.isLayout () b = none := by simp [stay, hl]
        rw [(reach_cons_none _ hs).1, Nat.add_zero] at hn
        rw [← hn, unlessFailed, hp]
        simp only [hl]
        rfl

theorem scan_flat :
    m.scan =
      match m.cursor.peek m.cursor.pos with
      | .failed e => (.error (.input e), m)
      | .eof => (.ok .eof, m)
      | .char b =>
        let m' := m.seek (m.cursor.pos + 1)
        if b.isLetter then m'.scanWord
        else if b.isDigit then m'.scanNumber
        else if b.isLayout then m'.scanLayout
        else
          match Operator.ofByte? b with
          | some op => m'.scanOperator op
          | none => (.error (.unexpectedChar (Char.ofUInt8 b) tokenStart m.position), m') := by
  have hn : Cursor.next m.cursor = _ := Flat.next_of_window_none hw
  unfold scan
  rw [hn]
  cases m.cursor.peek m.cursor.pos <;> rfl

omit hw in
theorem finishWord_ne_input (e : InputError) : m.finishWord.1 ≠ .error (.input e) := by
  intro h
  simp only [finishWord] at h
  split at h <;> cases h

omit hw in
theorem endNumber_ne_input (n : Nat) (q : NumberState) (e : InputError) :
    (m.endNumber n q).1 ≠ .error (.input e) := by
  intro h
  unfold endNumber at h
  split at h <;> cases h

theorem scanOperator_input_error {op : Operator} {e : InputError} (h : (m.scanOperator op).1 = .error (.input e)) :
    ∃ b pos, e = .nonAscii b pos := by
  rw [scanOperator_flat m hw] at h
  split at h
  · split at h
    · rename_i hp
      obtain ⟨b, _, _, hb⟩ := Flat.peek_eq_failed hp
      cases h
      exact ⟨b, _, hb⟩
    · cases h
    · split at h <;> cases h
  · cases h

theorem scan_flat_input_error {e : InputError} (h : m.scan.1 = .error (.input e)) :
    ∃ b pos, e = .nonAscii b pos := by
  rw [scan_flat m hw] at h
  split at h
  · rename_i hp
    obtain ⟨b, _, _, hb⟩ := Flat.peek_eq_failed hp
    cases h
    exact ⟨b, _, hb⟩
  · cases h
  · simp only at h
    split at h
    · rw [scanWord_flat (m.seek (m.cursor.pos + 1)) hw rfl] at h
      rcases unlessFailed_error h with ⟨b, hb⟩ | h
      · exact ⟨b, _, hb⟩
      · exact absurd h (finishWord_ne_input _ e)
    · split at h
      · rw [scanNumber_flat (m.seek (m.cursor.pos + 1)) hw rfl rfl] at h
        rcases unlessFailed_error h with ⟨b, hb⟩ | h
        · exact ⟨b, _, hb⟩
        · exact absurd h (endNumber_ne_input _ _ _ e)
      · split at h
        · rw [scanLayout_flat (m.seek (m.cursor.pos + 1)) hw rfl] at h
          rcases unlessFailed_error h with ⟨b, hb⟩ | h
          · exact ⟨b, _, hb⟩
          · cases h
        · split at h
          · exact scanOperator_input_error (m.seek (m.cursor.pos + 1)) hw h
          · cases h

end

end Lexer

end StreamLexer
