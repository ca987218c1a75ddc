import StreamLexer.Command.Report
import StreamLexer.Proofs.Interleaving
import StreamLexer.Proofs.Tiling

/-!
# Every loop comes to its end

A report asks a lexer in a loop, the lexer reads characters in a loop, a character may have to be read
again behind a boundary, and a half is filled by reads that may have to be repeated. Here each of these
loops is cut into its turns, with nothing that would stop them from going on for ever. The reads are
bounded by what is left of the script, the characters of a token by what remains ahead of the cursor,
and the calls by the bytes of the stream.
-/

namespace StreamLexer

inductive Turn (σ ρ : Type) where
  | stop (result : ρ)
  | again (state : σ)

/-- From `s` on, the loop stops with `r` behind `n` turns that went on. -/
inductive Finishes {σ ρ : Type} (turn : σ → Turn σ ρ) : σ → Nat → ρ → Prop where
  | stop {s r} : turn s = .stop r → Finishes turn s 0 r
  | again {s s' n r} : turn s = .again s' → Finishes turn s' n r → Finishes turn s (n + 1) r

/-- A turn from `s` that stops has found the value of `s`, and one that goes on keeps the value and gets
smaller. -/
def Turn.Nears {σ ρ : Type} (value : σ → ρ) (measure : σ → Nat) (s : σ) : Turn σ ρ → Prop
  | .stop r => r = value s
  | .again s' => value s' = value s ∧ measure s' < measure s

theorem finishes_of_nears {σ ρ : Type} {turn : σ → Turn σ ρ} {value : σ → ρ} {measure : σ → Nat}
    (h : ∀ s, (turn s).Nears value measure s) (s : σ) : ∃ n ≤ measure s, Finishes turn s n (value s) := by
  induction hm : measure s using Nat.strongRecOn generalizing s with
  | ind m ih =>
    have hs := h s
    cases ht : turn s with
    | stop r =>
      rw [ht] at hs
      exact ⟨0, Nat.zero_le _, .stop (hs ▸ ht)⟩
    | again s' =>
      rw [ht] at hs
      obtain ⟨hvalue, hlt⟩ := hs
      obtain ⟨n, hn, hfinishes⟩ := ih _ (hm ▸ hlt) s' rfl
      rw [hvalue] at hfinishes
      exact ⟨n + 1, by omega, .again ht hfinishes⟩

theorem Finishes.eq_value {σ ρ : Type} {turn : σ → Turn σ ρ} {value : σ → ρ} {measure : σ → Nat}
    (h : ∀ s, (turn s).Nears value measure s) {s : σ} {n : Nat} {r : ρ} (hf : Finishes turn s n r) : r = value s := by
  induction hf with
  | @stop s r ht =>
    have hs := h s
    rw [ht] at hs
    exact hs
  | @again s s' n r ht _ ih =>
    have hs := h s
    rw [ht] at hs
    rw [ih, hs.1]

/-! ## Reads -/

namespace Source

def fillTurn (capacity : Nat) : Array Byte × Source → Turn (Array Byte × Source) (Except Fault (Array Byte) × Source)
  | (loaded, s) =>
    if loaded.size < capacity ∧ s.ended = false then
      match s.read (capacity - loaded.size) with
      | (.ok [], s') => .again (loaded, { s' with ended := true })
      | (.ok (b :: bytes), s') => .again (loaded ++ (b :: bytes), s')
      | (.error fault, s') => if fault.isFatal then .stop (.error fault, s') else .again (loaded, s')
    else .stop (.ok loaded, s)

/-- A bound on the reads that a source will still be asked for: all that its script holds, and its end
once. -/
def patience (s : Source) : Nat := s.weight + if s.ended then 0 else 1

theorem patience_le (s : Source) : s.patience ≤ s.weight + 1 := by
  unfold patience
  split <;> omega

theorem ended_of_read {s s' : Source} {want : Nat} {r : Except Fault (List Byte)} (h : s.read want = (r, s')) :
    s'.ended = s.ended := by
  unfold read at h
  split at h <;> cases h <;> rfl

section
variable {s s' : Source} {want : Nat}

theorem patience_of_read {b : Byte} {bytes : List Byte} (h : s.read want = (.ok (b :: bytes), s')) :
    s'.patience < s.patience := by
  have hweight := weight_of_read h
  rw [List.length_cons] at hweight
  simp only [patience, ended_of_read h]
  omega

theorem patience_of_read_error {fault : Fault} (h : s.read want = (.error fault, s')) : s'.patience < s.patience := by
  have hweight := weight_of_read_error h
  simp only [patience, ended_of_read h]
  omega

theorem patience_of_read_nil (hended : s.ended = false) (h : s.read want = (.ok [], s')) :
    patience { s' with ended := true } < s.patience := by
  have hweight := weight_of_read_nil h
  simp only [patience, hended, Bool.false_eq_true, if_false, if_true]
  exact Nat.lt_succ_of_le hweight

end

theorem fillFrom_eq (capacity : Nat) (loaded : Array Byte) (s : Source) :
    fillFrom capacity loaded s =
      if loaded.size < capacity ∧ s.ended = false then
        match s.read (capacity - loaded.size) with
        | (.ok [], s') => (.ok loaded, { s' with ended := true })
        | (.ok (b :: bytes), s') => fillFrom capacity (loaded ++ (b :: bytes)) s'
        | (.error fault, s') => if fault.isFatal then (.error fault, s') else fillFrom capacity loaded s'
      else (.ok loaded, s) := by
  rw [fillFrom]
  split
  · split <;> simp_all
  · rfl

theorem nears_fillTurn (capacity : Nat) (x : Array Byte × Source) :
    (fillTurn capacity x).Nears (fun x => fillFrom capacity x.1 x.2) (fun x => x.2.patience) x := by
  obtain ⟨loaded, s⟩ := x
  have heq := fillFrom_eq capacity loaded s
  by_cases hmore : loaded.size < capacity ∧ s.ended = false
  · rw [if_pos hmore] at heq
    simp only [fillTurn, if_pos hmore]
    rcases hread : s.read (capacity - loaded.size) with ⟨r, s'⟩
    rw [hread] at heq
    cases r with
    | ok bytes =>
      cases bytes with
      | nil =>
        -- the loop goes on once more, only to see that the source has ended
        refine ⟨?_, patience_of_read_nil hmore.2 hread⟩
        show fillFrom capacity loaded { s' with ended := true } = fillFrom capacity loaded s
        rw [heq, fillFrom_eq, if_neg (by simp)]
      | cons b bytes => exact ⟨heq.symm, patience_of_read hread⟩
    | error fault =>
      by_cases hfatal : fault.isFatal = true
      · simp only [hfatal, if_true] at heq ⊢
        exact heq.symm
      · simp only [hfatal] at heq ⊢
        exact ⟨heq.symm, patience_of_read_error hread⟩
  · rw [if_neg hmore] at heq
    simp only [fillTurn, if_neg hmore]
    exact heq.symm

theorem finishes_fill (capacity : Nat) (s : Source) :
    ∃ n ≤ s.weight + 1, Finishes (fillTurn capacity) (#[], s) n (s.fill capacity) := by
  obtain ⟨n, hn, hfinishes⟩ := finishes_of_nears (nears_fillTurn capacity) (#[], s)
  exact ⟨n, Nat.le_trans hn s.patience_le, hfinishes⟩

theorem reads_fillFrom_le (capacity : Nat) (loaded : Array Byte) (s : Source) :
    (fillFrom capacity loaded s).2.reads + (fillFrom capacity loaded s).2.patience ≤ s.reads + s.patience := by
  have hreads : ∀ {s s' : Source} {want r}, s.read want = (r, s') → s'.reads = s.reads + 1 := by
    intro s s' want r h
    rw [← reads_of_read s want, h]
  fun_induction fillFrom capacity loaded s with
  | case1 loaded s hmore s' h =>
    have hone := hreads h
    have hless := patience_of_read_nil hmore.2 h
    show s'.reads + patience { s' with ended := true } ≤ s.reads + s.patience
    omega
  | case2 loaded s _ b bytes s' h ih =>
    have hone := hreads h
    have hless := patience_of_read h
    omega
  | case3 loaded s _ fault s' h _ =>
    have hone := hreads h
    have hless := patience_of_read_error h
    show s'.reads + s'.patience ≤ _
    omega
  | case4 loaded s _ fault s' h _ ih =>
    have hone := hreads h
    have hless := patience_of_read_error h
    omega
  | case5 loaded s _ => exact Nat.le_refl _

theorem reads_fills_le (s : Source) (capacity : Nat) : ∀ k,
    (s.fills capacity k).2.reads + (s.fills capacity k).2.patience ≤ s.reads + s.patience
  | 0 => Nat.le_refl _
  | k + 1 => by
    have hfill := reads_fillFrom_le capacity #[] (s.fills capacity k).2
    rcases hf : (s.fills capacity k).2.fill capacity with ⟨r, t⟩
    rw [show fillFrom capacity #[] (s.fills capacity k).2 = (r, t) from hf] at hfill
    have ih := reads_fills_le s capacity k
    cases r with
    | ok half =>
      rw [fills_ok hf]
      exact Nat.le_trans hfill ih
    | error fault =>
      rw [fills_error hf]
      exact Nat.le_trans hfill ih

end Source

/-! ## Boundaries -/

namespace BufferPair

/-- One look at the slot under the cursor. Behind a boundary it is looked at again. -/
def nextTurn (p : BufferPair) : Turn BufferPair (Reading × BufferPair) :=
  if p.active.slot p.forward = Byte.sentinel ∧ p.forward = p.capacity then
    match p.cross with
    | (.ok _, p') => .again p'
    | (.error error, p') => .stop (.failed error, p')
  else .stop p.readSlot

theorem finishes_next {p : BufferPair} (hcap : 0 < p.capacity) : ∃ n ≤ 1, Finishes nextTurn p n p.next := by
  by_cases hb : p.active.slot p.forward = Byte.sentinel ∧ p.forward = p.capacity
  · rcases hc : p.cross with ⟨r, p'⟩
    cases r with
    | ok u =>
      obtain ⟨hforward, hcap'⟩ := cross_eq_ok hc
      -- a half has room, so its first slot is no boundary
      have hinside : p'.forward ≠ p'.capacity := by omega
      have hnext : p.next = p'.readSlot := by simp only [next, if_pos hb, hc]
      rw [hnext]
      have hagain : p.nextTurn = .again p' := by simp only [nextTurn, if_pos hb, hc]
      have hstop : p'.nextTurn = .stop p'.readSlot := by simp only [nextTurn, hinside, and_false, if_false]
      exact ⟨1, Nat.le_refl 1, .again hagain (.stop hstop)⟩
    | error e =>
      refine ⟨0, Nat.zero_le 1, .stop ?_⟩
      simp only [nextTurn, next, if_pos hb, hc]
  · refine ⟨0, Nat.zero_le 1, .stop ?_⟩
    simp only [nextTurn, next, if_neg hb]

end BufferPair

/-! ## Characters -/

namespace Lexer

section
variable {σ : Type} [Cursor σ]

inductive Phase (σ : Type) where
  | start (l : Lexer σ)
  | word (l : Lexer σ)
  | number (q : NumberState) (l : Lexer σ)
  | operator (op : Operator) (isOpen : op.isOpen = true) (l : Lexer σ)
  | layout (l : Lexer σ)

def haltNumber (l : Lexer σ) : Halt NumberState × σ → Except LexError Token × Lexer σ
  | (.char q b, s) =>
    match q.expectation with
    | none => (l.moveTo (Cursor.pushBack s)).finishNumber
    | some want =>
      (.error (.unexpectedChar (Char.ofUInt8 b) want (l.position.shift (Cursor.length s - 1))), l.moveTo s)
  | (.eof q, s) =>
    match q.expectation with
    | none => (l.moveTo s).finishNumber
    | some want => (.error (.unexpectedEof want (l.position.shift (Cursor.length s))), l.moveTo s)
  | (.failed error, s) => (.error (.input error), l.moveTo s)

theorem scanNumber_eq (l : Lexer σ) :
    l.scanNumber = l.haltNumber (Cursor.run NumberState.step .integer l.cursor) := rfl

namespace Phase

def lexer : Phase σ → Lexer σ
  | .start l => l
  | .word l => l
  | .number _ l => l
  | .operator _ _ l => l
  | .layout l => l.relieve

def value : Phase σ → Except LexError Token × Lexer σ
  | .start l => l.scan
  | .word l => l.scanWord
  | .number q l => l.haltNumber (Cursor.run NumberState.step q l.cursor)
  | .operator op _ l => l.scanOperator op
  | .layout l => l.scanLayout

def step (b : Byte) (s : σ) : Phase σ → Turn (Phase σ) (Except LexError Token × Lexer σ)
  | .start l =>
    if b.isLetter then .again (.word (l.moveTo s))
    else if b.isDigit then .again (.number .integer (l.moveTo s))
    else if b.isLayout then .again (.layout (l.moveTo s))
    else
      match Operator.ofByte? b with
      | some op =>
        if h : op.isOpen = true then .again (.operator op h (l.moveTo s)) else .stop ((l.moveTo s).finishOperator op)
      | none => .stop (.error (.unexpectedChar (Char.ofUInt8 b) tokenStart l.position), l.moveTo s)
  | .word l => if b.isWordPart then .again (.word (l.moveTo s)) else .stop (l.moveTo (Cursor.pushBack s)).finishWord
  | .number q l =>
    match q.step b with
    | some q' => .again (.number q' (l.moveTo s))
    | none => .stop (l.haltNumber (.char q b, s))
  | .operator op _ l =>
    match op.extend b with
    | some op' => .stop ((l.moveTo s).finishOperator op')
    | none => .stop ((l.moveTo (Cursor.pushBack s)).finishOperator op)
  | .layout l =>
    if b.isLayout then .again (.layout (l.relieve.moveTo s))
    else .stop (.ok .whitespace, (l.relieve.moveTo (Cursor.pushBack s)).takeLexeme.2)

def close (s : σ) : Phase σ → Except LexError Token × Lexer σ
  | .start l => (.ok .eof, l.moveTo s)
  | .word l => (l.moveTo s).finishWord
  | .number q l => l.haltNumber (.eof q, s)
  | .operator op _ l => (l.moveTo s).finishOperator op
  | .layout l => (.ok .whitespace, (l.relieve.moveTo s).takeLexeme.2)

def turn (p : Phase σ) : Turn (Phase σ) (Except LexError Token × Lexer σ) :=
  match Cursor.next p.lexer.cursor with
  | (.char b, s) => p.step b s
  | (.eof, s) => .stop (p.close s)
  | (.failed error, s) => .stop (.error (.input error), p.lexer.moveTo s)

theorem nears_start (l : Lexer σ) :
    (turn (.start l)).Nears value (fun p => Cursor.remaining p.lexer.cursor) (.start l) := by
  rcases hn : Cursor.next l.cursor with ⟨reading, s⟩
  cases reading with
  | eof => simp [turn, lexer, hn, close, Turn.Nears, value, scan]
  | failed e => simp [turn, lexer, hn, Turn.Nears, value, scan]
  | char b =>
    have hless : Cursor.remaining s < Cursor.remaining l.cursor := Cursor.remaining_next hn
    simp only [turn, lexer, hn, step]
    by_cases hletter : b.isLetter = true
    · simp [hletter, Turn.Nears, value, scan, hn, moveTo, hless]
    by_cases hdigit : b.isDigit = true
    · simp [hletter, hdigit, Turn.Nears, value, scan, hn, moveTo, hless, scanNumber_eq]
    by_cases hlayout : b.isLayout = true
    · have hrelieved := Nat.lt_of_le_of_lt (remaining_relieve (l.moveTo s)) hless
      simp [hletter, hdigit, hlayout, Turn.Nears, value, scan, hn, hrelieved]
    cases hop : Operator.ofByte? b with
    | none => simp [hletter, hdigit, hlayout, hop, Turn.Nears, value, scan, hn]
    | some op =>
      by_cases hopen : op.isOpen = true
      · simp [hletter, hdigit, hlayout, hop, hopen, Turn.Nears, value, scan, hn, moveTo, hless]
      · simp [hletter, hdigit, hlayout, hop, hopen, Turn.Nears, value, scan, hn, scanOperator]

theorem nears_turn (p : Phase σ) : p.turn.Nears value (fun p => Cursor.remaining p.lexer.cursor) p := by
  cases p with
  | start l => exact nears_start l
  | word l =>
    rcases hn : Cursor.next l.cursor with ⟨reading, s⟩
    cases reading with
    | eof => simp [turn, lexer, hn, close, Turn.Nears, value, scanWord, Cursor.run_unfold]
    | failed e => simp [turn, lexer, hn, Turn.Nears, value, scanWord, Cursor.run_unfold]
    | char b =>
      have hless := Cursor.remaining_next hn
      by_cases hb : b.isWordPart = true
      · have hrun : Cursor.run wordStep () l.cursor = Cursor.run wordStep () s :=
          Cursor.run_char_some hn (by simp [wordStep, hb])
        simp [turn, lexer, hn, step, hb, Turn.Nears, value, scanWord, hrun, moveTo, hless]
      · simp [turn, lexer, hn, step, hb, Turn.Nears, value, scanWord, Cursor.run_unfold, wordStep]
  | number q l =>
    rcases hn : Cursor.next l.cursor with ⟨reading, s⟩
    cases reading with
    | eof => simp [turn, lexer, hn, close, Turn.Nears, value, Cursor.run_unfold]
    | failed e => simp [turn, lexer, hn, Turn.Nears, value, haltNumber, Cursor.run_unfold]
    | char b =>
      have hless := Cursor.remaining_next hn
      cases hs : q.step b with
      | none => simp [turn, lexer, hn, step, hs, Turn.Nears, value, Cursor.run_unfold]
      | some q' =>
        have hrun := Cursor.run_char_some hn hs
        simp only [turn, lexer, hn, step, hs, Turn.Nears, value, hrun]
        exact ⟨rfl, hless⟩
  | operator op hopen l =>
    rcases hn : Cursor.next l.cursor with ⟨reading, s⟩
    cases reading with
    | eof => simp [turn, lexer, hn, close, Turn.Nears, value, scanOperator, hopen]
    | failed e => simp [turn, lexer, hn, Turn.Nears, value, scanOperator, hopen]
    | char b => cases he : op.extend b <;> simp [turn, lexer, hn, step, he, Turn.Nears, value, scanOperator, hopen]
  | layout l =>
    rcases hn : Cursor.next l.relieve.cursor with ⟨reading, s⟩
    cases reading with
    | eof => simp [turn, lexer, hn, close, Turn.Nears, value, scanLayout_eq l]
    | failed e => simp [turn, lexer, hn, Turn.Nears, value, scanLayout_eq l]
    | char b =>
      have hless := Nat.lt_of_le_of_lt (remaining_relieve (l.relieve.moveTo s)) (Cursor.remaining_next hn)
      by_cases hb : b.isLayout = true
      · simp [turn, lexer, hn, step, hb, Turn.Nears, value, scanLayout_eq l, hless]
      · simp [turn, lexer, hn, step, hb, Turn.Nears, value, scanLayout_eq l]

end Phase

theorem finishes_scan (l : Lexer σ) :
    ∃ n ≤ Cursor.remaining l.cursor, Finishes Phase.turn (.start l) n l.scan :=
  finishes_of_nears Phase.nears_turn (.start l)

/-! ## Calls -/

def itemTurn : List (Except LexError Token) × Lexer σ →
    Turn (List (Except LexError Token) × Lexer σ) (List (Except LexError Token) × Lexer σ)
  | (items, l) =>
    match l.nextItem with
    | (some item, l') => .again (items ++ [item], l')
    | (none, l') => .stop (items, l')

/-- A call of `l` leaves `l'`, and it is one that a loop may go on behind: the lexer had not failed before,
and the call does not give out the end of the input. -/
structure GoesOn (l l' : Lexer σ) : Prop where
  called : l' = l.nextLocated.2
  sound : l.poisoned = false
  inside {row : Located} : l.nextLocated.1 = .ok row → row.token ≠ .eof

/-- A loop that makes a call in every turn stops with the final result or in the turn behind it. -/
theorem finishes_of_final {S R : Type} {turn : S → Turn S R} (lexer : S → Lexer σ)
    (hagain : ∀ {s s'}, turn s = .again s' → GoesOn (lexer s) (lexer s')) {n : Nat} {s : S}
    (hf : Final ((lexer s).result n)) : ∃ k ≤ n + 1, ∃ r, Finishes turn s k r := by
  induction n generalizing s with
  | zero =>
    cases ht : turn s with
    | stop r => exact ⟨0, by omega, r, .stop ht⟩
    | again s' =>
      cases ht' : turn s' with
      | stop r => exact ⟨1, by omega, r, .again ht (.stop ht')⟩
      | again s'' =>
        -- the result is final but not the end of the input, so it has poisoned the lexer
        have hp := (hagain ht').sound
        cases hr : (lexer s).nextLocated.1 with
        | ok row =>
          have hfinal : Final (lexer s).nextLocated.1 := hf
          rw [hr] at hfinal
          exact absurd hfinal ((hagain ht).inside hr)
        | error e =>
          rw [(hagain ht).called, poisoned_of_nextLocated_error hr] at hp
          cases hp
  | succ n ih =>
    cases ht : turn s with
    | stop r => exact ⟨0, by omega, r, .stop ht⟩
    | again s' =>
      rw [result_succ, ← (hagain ht).called] at hf
      obtain ⟨k, hk, r, hfinishes⟩ := ih hf
      exact ⟨k + 1, by omega, r, .again ht hfinishes⟩

theorem goesOn_of_nextItem {l l' : Lexer σ} {item : Except LexError Token} (h : l.nextItem = (some item, l')) :
    GoesOn l l' := by
  have hask : l.ask .item = (.item (some item), l') := by rw [ask, h]
  have hsnd := ask_snd l .item
  rw [hask] at hsnd
  cases hp : l.poisoned with
  | true =>
    rw [ask_of_poisoned hp] at hask
    cases hask
  | false =>
    refine ⟨hsnd, hp, ?_⟩
    intro row hr heof
    rw [ask_of_not_poisoned hp, hr] at hask
    simp [Call.shows, heof] at hask

theorem finishes_items {l : Lexer σ} {n : Nat} (hf : Final (l.result n)) :
    ∃ k ≤ n + 1, ∃ r, Finishes itemTurn ([], l) k r := by
  apply finishes_of_final (S := List (Except LexError Token) × Lexer σ) Prod.snd ?_ hf
  intro s s' ht
  obtain ⟨items, l⟩ := s
  simp only [itemTurn] at ht
  split at ht
  · rename_i hitem
    cases ht
    exact goesOn_of_nextItem hitem
  · cases ht

end

end Lexer

namespace Report

variable {σ τ : Type} [Cursor σ] [Sink τ]

def bodyTurn (options : Options) : Summary × Lexer σ × τ →
    Turn (Summary × Lexer σ × τ) (Except CommandError Summary × τ)
  | (seen, l, out) =>
    match l.nextLocated with
    | (.error error, _) => .stop (.error (.lex error), out)
    | (.ok row, l') =>
      if row.token = .eof then .stop (emit out (footer seen.printed) fun out' => (.ok seen, out'))
      else if shown options row.token then
        match Sink.write out (Text.utf8 (line l'.words row)) with
        | (.ok _, out') => .again (⟨seen.printed + 1, seen.scanned + 1⟩, l', out')
        | (.error fault, out') => .stop (.error (.write fault), out')
      else .again (⟨seen.printed, seen.scanned + 1⟩, l', out)

theorem nears_bodyTurn (options : Options) (x : Summary × Lexer σ × τ) :
    (bodyTurn options x).Nears (fun x => body options x.1 x.2.1 x.2.2) (fun x => Cursor.remaining x.2.1.cursor) x := by
  obtain ⟨seen, l, out⟩ := x
  rcases hr : l.nextLocated with ⟨r, l'⟩
  have hsnd : l.nextLocated.2 = l' := by rw [hr]
  cases r with
  | error e =>
    simp only [bodyTurn, hr, Turn.Nears]
    rw [body_error (by rw [hr])]
  | ok row =>
    have hrow : l.nextLocated.1 = .ok row := by rw [hr]
    by_cases heof : row.token = .eof
    · simp only [bodyTurn, hr, heof, if_true, Turn.Nears]
      rw [body_eof hrow heof]
    have hless := Lexer.remaining_nextLocated hr heof
    by_cases hs : shown options row.token = true
    · have hbody : body options seen l out = _ := body_shown hrow heof hs
      rw [hsnd] at hbody
      rcases hw : Sink.write out (Text.utf8 (line l'.words row)) with ⟨w, out'⟩
      cases w with
      | ok u =>
        simp only [emit, hw] at hbody
        simp only [bodyTurn, hr, heof, hs, hw, if_true, if_false, Turn.Nears]
        exact ⟨hbody.symm, hless⟩
      | error fault =>
        simp only [emit, hw] at hbody
        simp only [bodyTurn, hr, heof, hs, hw, if_true, if_false, Turn.Nears]
        exact hbody.symm
    · rw [Bool.not_eq_true] at hs
      have hbody : body options seen l out = _ := body_hidden hrow heof hs
      rw [hsnd] at hbody
      simp only [bodyTurn, hr, heof, hs, Bool.false_eq_true, if_false, Turn.Nears]
      exact ⟨hbody.symm, hless⟩

theorem goesOn_of_bodyTurn {options : Options} {x x' : Summary × Lexer σ × τ} (h : bodyTurn options x = .again x') :
    Lexer.GoesOn x.2.1 x'.2.1 := by
  obtain ⟨seen, l, out⟩ := x
  rcases hr : l.nextLocated with ⟨r, l'⟩
  cases r with
  | error e => simp [bodyTurn, hr] at h
  | ok row =>
    have hp := (Lexer.poisoned_of_nextLocated_ok (l := l) (by rw [hr])).1
    by_cases heof : row.token = .eof
    · simp [bodyTurn, hr, heof] at h
    have hlexer : x'.2.1 = l' := by
      simp only [bodyTurn, hr, if_neg heof] at h
      split at h
      · split at h <;> cases h
        rfl
      · cases h
        rfl
    refine ⟨by rw [hlexer, hr], hp, ?_⟩
    intro row' hrow
    rw [hr] at hrow
    cases hrow
    exact heof

theorem finishes_body {l : Lexer σ} {n : Nat} (hf : Lexer.Final (l.result n)) (options : Options) (seen : Summary)
    (out : τ) : ∃ k ≤ n + 1, Finishes (bodyTurn options) (seen, l, out) k (body options seen l out) := by
  obtain ⟨k, hk, r, hfinishes⟩ := Lexer.finishes_of_final (S := Summary × Lexer σ × τ) (fun x => x.2.1)
    goesOn_of_bodyTurn (s := (seen, l, out)) hf
  rw [hfinishes.eq_value (nears_bodyTurn options)] at hfinishes
  exact ⟨k, hk, hfinishes⟩

end Report

/-! ## The length of a run -/

theorem Tiles.length_le {words : Lexicon} {data : List Byte} {rows : List (Located × Position)} {o : Nat}
    (ht : Tiles words data rows o) : rows.length ≤ o ∧ o ≤ data.length := by
  induction ht with
  | none => simp
  | more _ _ hc ih =>
    have hless := hc.nonempty
    rw [List.length_append, List.length_singleton]
    exact ⟨by omega, hc.inside⟩

namespace Lexer

theorem rows_succ {σ : Type} [Cursor σ] {l : Lexer σ} {i : Nat} {row : Located} (hr : l.result i = .ok row)
    (ht : row.token ≠ .eof) : l.rows (i + 1) = l.rows i ++ [(row, (l.after (i + 1)).position)] := by
  have hnot : row.token.isEof = false := by
    cases htoken : row.token with
    | eof => exact absurd htoken ht
    | _ => rfl
  show addRow (l.rows i) (l.after i).nextLocated = _
  rw [addRow_ok hr, hnot]
  rfl

theorem length_rows {σ : Type} [Cursor σ] {l : Lexer σ} {n : Nat} (h : ∀ i < n, ¬ Final (l.result i)) :
    (l.rows n).length = n := by
  induction n with
  | zero => rfl
  | succ n ih =>
    have hn := h n (Nat.lt_succ_self n)
    cases hr : l.result n with
    | error e =>
      rw [hr] at hn
      exact absurd trivial hn
    | ok row =>
      rw [hr] at hn
      rw [rows_succ hr hn, List.length_append, ih fun i hi => h i (Nat.lt_succ_of_lt hi)]
      rfl

section
variable {capacity : Nat} {source : Source} {l : Lexer BufferPair} (h : ofSource capacity source = .ok l)
include h

theorem exists_final : ∃ n ≤ source.pending.length, Final (l.result n) ∧ ∀ i < n, ¬ Final (l.result i) := by
  rcases first_or_none (fun n => Final (l.result n)) (source.pending.length + 1) with hnone | ⟨n, hn, hfinal⟩
  -- every token takes a byte of the stream, so this many calls are too many
  · obtain ⟨o, ht⟩ := (progress_after h (source.pending.length + 1)).tiles_pending
    obtain ⟨hrows, ho⟩ := ht.length_le
    rw [length_rows hnone] at hrows
    omega
  · exact ⟨n, Nat.le_of_lt_succ hn, hfinal⟩

theorem offset_lt_of_row {i : Nat} {row : Located} (hr : l.result i = .ok row) (ht : row.token ≠ .eof) :
    (l.after i).position.offset < (l.after (i + 1)).position.offset := by
  obtain ⟨o, htiles⟩ := (progress_after h (i + 1)).tiles_pending
  have hstart := (scan_of_nextLocated (poisoned_of_nextLocated_ok hr).1 hr).2
  have hcovers := htiles.covers (r := (row, (l.after (i + 1)).position)) (by rw [rows_succ hr ht]; simp)
  rw [← hstart]
  exact hcovers.nonempty

theorem capacity_after (i : Nat) : (l.after i).cursor.capacity = capacity := by
  obtain ⟨p, hp, rfl⟩ := ofSource_eq_ok h
  have hcap : p.capacity = capacity := (BufferPair.loaded_ofSource hp).1
  refine (after_invariant (P := fun p => p.capacity = capacity) ?_ ?_ ?_ (fun _ h => h) (ofCursor p) hcap i).2
  · intro q hq
    unfold Reads
    split <;> exact q.next_source.1.trans hq
  · intro q hq
    exact q.pushBack_source.1.trans hq
  · intro q hq
    exact hq

theorem reads_after_le (i : Nat) : (l.after i).cursor.source.reads ≤ source.reads + source.weight + 1 := by
  obtain ⟨k, _, hk, _⟩ := (progress_after h i).tiles
  have hreads := source.reads_fills_le capacity k
  have hpatience := source.patience_le
  rw [hk]
  omega

theorem tokens_le_loaded {n : Nat} (hrun : ∀ i < n, ¬ Final (l.result i)) :
    ∃ k, (l.after n).cursor.source = (source.fills capacity k).2 ∧
      (source.fills capacity k).1 <+: source.pending ∧ n ≤ (source.fills capacity k).1.length := by
  obtain ⟨k, o, hk, ht⟩ := (progress_after h n).tiles
  obtain ⟨hrows, ho⟩ := ht.length_le
  rw [length_rows hrun] at hrows
  obtain ⟨p, hp, rfl⟩ := ofSource_eq_ok h
  have hl := BufferPair.loaded_ofSource hp
  obtain ⟨j, hj, hfront, _⟩ :=
    ((BufferPair.respected_loaded capacity source 0).after (ofCursor p) (fun _ => hl) hl.hasLoaded n).2
  rw [Source.fills_unique (hj.symm.trans hk)] at hfront
  exact ⟨k, hk, hfront, by omega⟩

end

/-- No loop goes on for ever, whatever the source does. A fill makes at most one read for each thing in
the script and one more, a reading crosses one boundary at most, and a call reads no more characters
than remain. Every token moves the position, so there are no more tokens than loaded bytes, and then the
end of the input or an error; a sequence of items and a report stop there too. -/
theorem loops_end (capacity : Nat) (source : Source) (hcap : 0 < capacity) :
    (∀ s : Source, ∃ n ≤ s.weight + 1, Finishes (Source.fillTurn capacity) (#[], s) n (s.fill capacity)) ∧
      (∀ p : BufferPair, p.capacity = capacity →
        (∃ n ≤ 1, Finishes BufferPair.nextTurn p n p.next) ∧
          p.next.2.capacity = capacity ∧ p.pushBack.capacity = capacity ∧ p.take.2.capacity = capacity) ∧
      ∀ l, ofSource capacity source = .ok l →
        (∀ i, (l.after i).cursor.capacity = capacity ∧
          (l.after i).cursor.source.reads ≤ source.reads + source.weight + 1 ∧
          (∃ n ≤ (l.after i).cursor.remaining, Finishes Phase.turn (.start (l.after i)) n (l.after i).scan) ∧
          ∀ row, l.result i = .ok row → row.token ≠ .eof →
            (l.after i).position.offset < (l.after (i + 1)).position.offset) ∧
        ∃ n, Final (l.result n) ∧ (∀ i < n, ¬ Final (l.result i)) ∧
          (∃ k, (l.after n).cursor.source = (source.fills capacity k).2 ∧
            (source.fills capacity k).1 <+: source.pending ∧ n ≤ (source.fills capacity k).1.length) ∧
          (∃ k ≤ n + 1, ∃ r, Finishes itemTurn ([], l) k r) ∧
          ∀ {τ : Type} [Sink τ] (options : Options) (seen : Summary) (out : τ), ∃ k ≤ n + 1,
            Finishes (Report.bodyTurn options) (seen, l, out) k (Report.body options seen l out) := by
  refine ⟨Source.finishes_fill capacity, ?_, ?_⟩
  · intro p hp
    refine ⟨BufferPair.finishes_next (hp ▸ hcap), ?_, ?_, hp⟩
    · exact p.next_source.1.trans hp
    · exact p.pushBack_source.1.trans hp
  · intro l h
    obtain ⟨n, _, hfinal, hrun⟩ := exists_final h
    refine ⟨?_, n, hfinal, hrun, tokens_le_loaded h hrun, finishes_items hfinal, Report.finishes_body hfinal⟩
    intro i
    exact ⟨capacity_after h i, reads_after_le h i, finishes_scan (l.after i), fun row => offset_lt_of_row h⟩

theorem loops_end_interrupted :
    ∃ l n, ofSource 1 (.ofEvents [.fail ⟨.interrupted, ""⟩, .data [32, 32, 97]] (some 1)) = .ok l ∧
      n ≤ 3 ∧ Final (l.result n) ∧ (l.after n).cursor.source.reads ≤ 6 ∧
      ∃ k ≤ n + 1, ∃ r, Finishes itemTurn ([], l) k r := by
  have hmade :
      (ofSource 1 (.ofEvents [.fail ⟨.interrupted, ""⟩, .data [32, 32, 97]] (some 1))).toOption.isSome = true := by
    decide +kernel
  obtain ⟨_, _, hrun⟩ := loops_end 1 (.ofEvents [.fail ⟨.interrupted, ""⟩, .data [32, 32, 97]] (some 1)) (by decide)
  cases h : ofSource 1 (.ofEvents [.fail ⟨.interrupted, ""⟩, .data [32, 32, 97]] (some 1)) with
  | error e =>
    rw [h] at hmade
    cases hmade
  | ok l =>
    obtain ⟨hcalls, n, hfinal, _, ⟨k, _, hfront, hle⟩, hitems, _⟩ := hrun l h
    exact ⟨l, n, rfl, Nat.le_trans hle hfront.length_le, hfinal, (hcalls n).2.1, hitems⟩

end Lexer

end StreamLexer
