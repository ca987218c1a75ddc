import StreamLexer.Lexer.Run
import StreamLexer.Proofs.Framing
import StreamLexer.Proofs.Scanning

/-!
# A lexer over halves and a lexer over the whole stream

Two lexers run side by side: one over a buffer pair, one over a flat cursor without a window. They
give the same tokens until the source fails or a word or number grows past two halves. In a run
of layout the first one gives up its lexeme from time to time, so its lexeme starts later than
that of the second; at the end of every token they are together again.
-/

namespace StreamLexer

theorem extract_append (data : Array Byte) {i j k : Nat} (hij : i ≤ j) (hjk : j ≤ k) :
    (data.extract i k).toList = (data.extract i j).toList ++ (data.extract j k).toList := by
  simp only [Array.toList_extract, List.extract_eq_take_drop]
  have hk : k - i = (j - i) + (k - j) := by omega
  have hj : i + (j - i) = j := by omega
  rw [hk, List.take_add, List.drop_drop, hj]

namespace Flat

def startAt (f : Flat) (start : Nat) : Flat := { f with start }

theorem pos_lt_limit {f : Flat} {capacity : Nat} (hcap : 0 < capacity) (h : f.pos ≤ f.start + capacity) :
    f.pos < f.limit capacity := by
  have hmod := Nat.mod_lt f.start hcap
  have hdiv := Nat.div_add_mod f.start capacity
  rw [Nat.mul_comm] at hdiv
  unfold limit
  rw [Nat.add_mul]
  omega

theorem limit_le_iff (f : Flat) (capacity n : Nat) :
    f.limit capacity ≤ f.start + n ↔ 2 * capacity ≤ f.start % capacity + n := by
  have hdiv := Nat.div_add_mod f.start capacity
  rw [Nat.mul_comm] at hdiv
  unfold limit
  rw [Nat.add_mul]
  omega

end Flat

theorem Flat.next_startAt {f : Flat} (h : f.window = none) (start : Nat) :
    (f.startAt start).next = (f.next.1, f.next.2.startAt start) := by
  have hs : (f.startAt start).window = none := h
  rw [Flat.next_of_window_none h, Flat.next_of_window_none hs]
  show (f.peek f.pos, (f.startAt start).moved (f.peek f.pos)) = (f.peek f.pos, (f.moved (f.peek f.pos)).startAt start)
  cases f.peek f.pos <;> rfl

namespace Lexer

/-- The lexer `l` over halves has come as far as the lexer `m` over the whole stream, and has given
up what `m` keeps of the lexeme before the start of its own. -/
structure Follows (capacity : Nat) (l : Lexer BufferPair) (m : Lexer Flat) : Prop where
  cursor : l.cursor.Mirrors ((m.cursor.startAt l.cursor.offset).framed capacity)
  free : m.cursor.window = none
  words : l.words = m.words
  poisoned : l.poisoned = m.poisoned
  offset : m.position.offset = m.cursor.start
  given : m.cursor.start ≤ l.cursor.offset
  position : l.position = m.position.advance (m.cursor.data.extract m.cursor.start l.cursor.offset).toList

structure AtRest (capacity : Nat) (l : Lexer BufferPair) (m : Lexer Flat) : Prop extends Follows capacity l m where
  rest : m.cursor.start = m.cursor.pos

namespace Follows

variable {capacity : Nat} {l : Lexer BufferPair} {m : Lexer Flat}

theorem offset_le (h : Follows capacity l m) : l.cursor.offset ≤ m.cursor.pos := h.cursor.start_le

theorem length_eq (h : Follows capacity l m) : l.cursor.length = m.cursor.pos - l.cursor.offset := h.cursor.length_eq

theorem whole (h : Follows capacity l m) (ho : l.cursor.offset = m.cursor.start) :
    l.cursor.Mirrors (m.cursor.framed capacity) ∧ l.position = m.position := by
  have hc := h.cursor
  have hp := h.position
  rw [ho] at hc hp
  refine ⟨hc, ?_⟩
  rw [hp, Array.toList_extract, List.extract_eq_take_drop, Nat.sub_self]
  rfl

theorem moveTo (h : Follows capacity l m) {p : BufferPair} {f : Flat}
    (hp : p.Mirrors ((f.startAt l.cursor.offset).framed capacity)) (hw : f.window = none)
    (hs : f.start = m.cursor.start) (hd : f.data = m.cursor.data) :
    Follows capacity (l.moveTo p) (m.moveTo f) := by
  have ho : p.offset = l.cursor.offset := hp.offset_eq
  refine ⟨?_, hw, h.words, h.poisoned, ?_, ?_, ?_⟩
  · simp only [Lexer.moveTo, ho]; exact hp
  · simp only [Lexer.moveTo, hs]; exact h.offset
  · simp only [Lexer.moveTo, hs, ho]; exact h.given
  · simp only [Lexer.moveTo, hs, hd, ho]; exact h.position

theorem giveUp (h : Follows capacity l m) :
    Follows capacity l.takeLexeme.2 m ∧ l.takeLexeme.2.cursor.offset = m.cursor.pos := by
  obtain ⟨hb, hm⟩ := h.cursor.take
  have ho : l.cursor.take.2.offset = m.cursor.pos := hm.offset_eq
  refine ⟨⟨?_, h.free, h.words, h.poisoned, h.offset, ?_, ?_⟩, ho⟩
  · show l.cursor.take.2.Mirrors ((m.cursor.startAt l.cursor.take.2.offset).framed capacity)
    rw [ho]; exact hm
  · show m.cursor.start ≤ l.cursor.take.2.offset
    rw [ho]; exact Nat.le_trans h.given h.offset_le
  · show l.position.advance l.cursor.take.1 =
      m.position.advance (m.cursor.data.extract m.cursor.start l.cursor.take.2.offset).toList
    rw [ho, hb, h.position, ← Position.advance_append, extract_append m.cursor.data h.given h.offset_le]
    rfl

theorem catchUp (h : Follows capacity l m) (ho : l.cursor.offset = m.cursor.pos) :
    AtRest capacity l m.takeLexeme.2 := by
  have hpos : m.cursor.pos ≤ m.cursor.data.size := h.cursor.pos_le
  have hle := Nat.le_trans h.given h.offset_le
  refine ⟨⟨h.cursor, h.free, h.words, h.poisoned, ?_, ?_, ?_⟩, rfl⟩
  · show (m.position.advance m.cursor.take.1).offset = m.cursor.pos
    rw [Position.offset_advance, h.offset]
    simp only [Flat.take, Array.length_toList, Array.size_extract]
    omega
  · exact Nat.le_of_eq ho.symm
  · show l.position = (m.position.advance m.cursor.take.1).advance
      (m.cursor.data.extract m.cursor.pos l.cursor.offset).toList
    rw [h.position, ho]
    simp [Flat.take, List.extract_eq_take_drop]

theorem takeLexeme (h : Follows capacity l m) : AtRest capacity l.takeLexeme.2 m.takeLexeme.2 :=
  h.giveUp.1.catchUp h.giveUp.2

theorem takeLexeme_fst (h : Follows capacity l m) (ho : l.cursor.offset = m.cursor.start) :
    l.takeLexeme.1 = m.takeLexeme.1 := (h.whole ho).1.take.1

end Follows

theorem AtRest.offset_eq {capacity : Nat} {l : Lexer BufferPair} {m : Lexer Flat} (h : AtRest capacity l m) :
    l.cursor.offset = m.cursor.start :=
  Nat.le_antisymm (by rw [h.rest]; exact h.offset_le) h.given

theorem AtRest.position_offset {capacity : Nat} {l : Lexer BufferPair} {m : Lexer Flat} (h : AtRest capacity l m) :
    l.position.offset = m.cursor.pos := by
  rw [(h.whole h.offset_eq).2, h.offset, h.rest]

/-! ## One token -/

/-- What the lexer over halves makes of a token, against what the lexer over the whole stream makes
of it. -/
inductive Outcome (capacity : Nat) (long : Prop) (fatals : List Fault) :
    Except LexError Token × Lexer BufferPair → Except LexError Token × Lexer Flat → Prop where
  | tooLong {l r} : long → Outcome capacity long fatals (.error (.input (.lexemeTooLong capacity)), l) r
  | fault {fault l r} : fatals.head? = some fault → Outcome capacity long fatals (.error (.input (.read fault)), l) r
  | token {t l m} : ¬ long → AtRest capacity l m → l.cursor.source.fatals = fatals →
      Outcome capacity long fatals (.ok t, l) (.ok t, m)
  | error {e l m} : ¬ long → Outcome capacity long fatals (.error e, l) (.error e, m)

namespace Follows

variable {capacity : Nat} {l : Lexer BufferPair} {m : Lexer Flat} {long : Prop} {fatals : List Fault}

theorem finishWord (h : Follows capacity l m) (ho : l.cursor.offset = m.cursor.start) (hlong : ¬ long)
    (hfat : l.cursor.source.fatals = fatals) : Outcome capacity long fatals l.finishWord m.finishWord := by
  have htext := h.takeLexeme_fst ho
  have hrest := h.takeLexeme
  have hwords := hrest.words
  simp only [Lexer.finishWord, ← htext, hwords]
  cases m.takeLexeme.2.words.resolve (Byte.text l.takeLexeme.1) with
  | error e => exact .error hlong
  | ok r =>
    refine .token hlong ⟨⟨?_, ?_, ?_, ?_, ?_, ?_, ?_⟩, ?_⟩ hfat
    · exact hrest.cursor
    · exact hrest.free
    · rfl
    · exact hrest.poisoned
    · exact hrest.offset
    · exact hrest.given
    · exact hrest.position
    · exact hrest.rest

theorem finishNumber (h : Follows capacity l m) (ho : l.cursor.offset = m.cursor.start) (hlong : ¬ long)
    (hfat : l.cursor.source.fatals = fatals) : Outcome capacity long fatals l.finishNumber m.finishNumber := by
  simp only [Lexer.finishNumber, h.takeLexeme_fst ho]
  exact .token hlong h.takeLexeme hfat

theorem finishOperator (h : Follows capacity l m) (op : Operator) (hlong : ¬ long)
    (hfat : l.cursor.source.fatals = fatals) :
    Outcome capacity long fatals (l.finishOperator op) (m.finishOperator op) :=
  .token hlong h.takeLexeme hfat

theorem pushBack (h : Follows capacity l m) (hlt : l.cursor.offset < m.cursor.pos) :
    Follows capacity (l.moveTo l.cursor.pushBack) (m.moveTo m.cursor.pushBack) ∧
      l.cursor.pushBack.offset = l.cursor.offset ∧ l.cursor.pushBack.source = l.cursor.source := by
  obtain ⟨hm, hs⟩ := h.cursor.pushBack hlt
  exact ⟨h.moveTo hm h.free rfl rfl, hm.offset_eq, hs⟩

theorem advance (h : Follows capacity l m) (ho : l.cursor.offset = m.cursor.start) {p : BufferPair} {f : Flat}
    (hp : p.Mirrors (f.framed capacity)) (hf : f = m.cursor.goto f.pos) :
    Follows capacity (l.moveTo p) (m.moveTo f) ∧ p.offset = f.start := by
  have hs : f.start = m.cursor.start := by rw [hf]; rfl
  have hfs : f.startAt l.cursor.offset = f := by rw [ho, ← hs]; rfl
  refine ⟨h.moveTo (by rw [hfs]; exact hp) ?_ hs ?_, hp.offset_eq⟩
  · rw [hf]; exact h.free
  · rw [hf]; rfl

end Follows

theorem scanWord_of_failed {σ : Type} [Cursor σ] {l : Lexer σ} {e : InputError}
    (h : (Cursor.run wordStep () l.cursor).1 = .failed e) :
    l.scanWord = (.error (.input e), l.moveTo (Cursor.run wordStep () l.cursor).2) := by
  unfold scanWord
  split <;> simp_all

theorem scanNumber_of_failed {σ : Type} [Cursor σ] {l : Lexer σ} {e : InputError}
    (h : (Cursor.run NumberState.step .integer l.cursor).1 = .failed e) :
    l.scanNumber = (.error (.input e), l.moveTo (Cursor.run NumberState.step .integer l.cursor).2) := by
  unfold scanNumber
  split <;> simp_all

namespace Follows

variable {capacity : Nat} {l : Lexer BufferPair} {m : Lexer Flat}

theorem run {Q : Type} {step : Q → Byte → Option Q} (hstep : ∀ q b q', step q b = some q' → b.isAscii = true)
    (q : Q) (h : Follows capacity l m) (ho : l.cursor.offset = m.cursor.start)
    (he : (Cursor.run step q l.cursor).1 = (Cursor.run step q m.cursor).1)
    (hm : (Cursor.run step q l.cursor).2.Mirrors ((Cursor.run step q m.cursor).2.framed capacity)) :
    ∃ r p f, Cursor.run step q l.cursor = (r, p) ∧ Cursor.run step q m.cursor = (r, f) ∧
      Follows capacity (l.moveTo p) (m.moveTo f) ∧ p.offset = f.start ∧
      ∀ q' b, r = .char q' b → f.start < f.pos := by
  have hle := h.offset_le
  rcases hl : Cursor.run step q l.cursor with ⟨r, p⟩
  rcases hf : Cursor.run step q m.cursor with ⟨r', f⟩
  rw [hl, hf] at he hm
  cases he
  obtain ⟨hgoto, _, hlt⟩ := Flat.run_kept hstep q h.free hf
  obtain ⟨hmoved, ho'⟩ := h.advance ho hm hgoto
  refine ⟨r, p, f, rfl, rfl, hmoved, ho', fun q' b hr => ?_⟩
  have hpos := hlt q' b hr
  have hs : f.start = m.cursor.start := by rw [hgoto]; rfl
  omega

theorem scanWord (h : Follows capacity l m) (ho : l.cursor.offset = m.cursor.start) :
    Outcome capacity (m.cursor.limit capacity ≤ m.cursor.pos + reach wordStep () m.cursor.rest)
      l.cursor.source.fatals l.scanWord m.scanWord := by
  cases BufferPair.run_outcome isAscii_of_wordStep () m.cursor h.free (h.whole ho).1 with
  | tooLong hlong he => rw [scanWord_of_failed he]; exact .tooLong hlong
  | fault hf he => rw [scanWord_of_failed he]; exact .fault hf
  | same hshort he hm hfat =>
    have hlong := Nat.not_le.mpr hshort
    obtain ⟨r, p, f, hl, hf, hmoved, ho', hlt⟩ := h.run isAscii_of_wordStep () ho he hm
    rw [hl] at hfat
    simp only [Lexer.scanWord, hl, hf]
    cases r with
    | char q b =>
      obtain ⟨hback, hbo, hs⟩ := hmoved.pushBack (ho' ▸ hlt q b rfl)
      exact hback.finishWord (hbo.trans ho') hlong ((congrArg Source.fatals hs).trans hfat)
    | eof q => exact hmoved.finishWord ho' hlong hfat
    | failed e => exact .error hlong

theorem scanNumber (h : Follows capacity l m) (ho : l.cursor.offset = m.cursor.start) :
    Outcome capacity (m.cursor.limit capacity ≤ m.cursor.pos + reach NumberState.step .integer m.cursor.rest)
      l.cursor.source.fatals l.scanNumber m.scanNumber := by
  cases BufferPair.run_outcome NumberState.isAscii_of_step .integer m.cursor h.free (h.whole ho).1 with
  | tooLong hlong he => rw [scanNumber_of_failed he]; exact .tooLong hlong
  | fault hf he => rw [scanNumber_of_failed he]; exact .fault hf
  | same hshort he hm hfat =>
    have hlong := Nat.not_le.mpr hshort
    obtain ⟨r, p, f, hl, hf, hmoved, ho', hlt⟩ := h.run NumberState.isAscii_of_step .integer ho he hm
    have hlen : Cursor.length p = Cursor.length f := by
      have := hmoved.length_eq
      rw [show (l.moveTo p).cursor.offset = f.start from ho'] at this
      exact this
    rw [hl] at hfat
    simp only [Lexer.scanNumber, hl, hf, (h.whole ho).2]
    cases r with
    | char q b =>
      cases hq : q.expectation with
      | some want =>
        simp only [hq, hlen]
        exact .error hlong
      | none =>
        obtain ⟨hback, hbo, hs⟩ := hmoved.pushBack (ho' ▸ hlt q b rfl)
        simp only [hq]
        exact hback.finishNumber (hbo.trans ho') hlong ((congrArg Source.fatals hs).trans hfat)
    | eof q =>
      cases hq : q.expectation with
      | some want =>
        simp only [hq, hlen]
        exact .error hlong
      | none =>
        simp only [hq]
        exact hmoved.finishNumber ho' hlong hfat
    | failed e => exact .error hlong

theorem next (h : Follows capacity l m) (hshort : m.cursor.pos ≤ l.cursor.offset + capacity) :
    (∃ fault p, Cursor.next l.cursor = (.failed (.read fault), p) ∧
      l.cursor.source.fatals.head? = some fault) ∨
    (∃ r p, Cursor.next l.cursor = (r, p) ∧ Cursor.next m.cursor = (r, m.cursor.moved r) ∧
      p.source.fatals = l.cursor.source.fatals ∧ p.offset = l.cursor.offset ∧
      Follows capacity (l.moveTo p) (m.moveTo (m.cursor.moved r))) := by
  have hlt := Flat.pos_lt_limit (f := m.cursor.startAt l.cursor.offset) h.cursor.capacity_pos hshort
  have hnext := Flat.next_of_window_none h.free
  rcases h.cursor.next_free h.free with ⟨hl, _⟩ | ⟨fault, hr, hf⟩ | ⟨_, hr, hm, hfat⟩
  · exact absurd hl (Nat.ne_of_lt hlt)
  · exact Or.inl ⟨fault, l.cursor.next.2, Prod.ext hr rfl, hf⟩
  · rw [Flat.next_startAt h.free, hnext] at hr hm
    refine Or.inr ⟨m.cursor.peek m.cursor.pos, l.cursor.next.2, Prod.ext hr rfl, hnext, hfat, hm.offset_eq, ?_⟩
    refine h.moveTo hm ?_ ?_ ?_ <;> cases m.cursor.peek m.cursor.pos
    all_goals first | exact h.free | rfl

theorem scanOperator {long : Prop} (h : Follows capacity l m) (ho : l.cursor.offset = m.cursor.start)
    (hone : m.cursor.pos = m.cursor.start + 1) (hlong : ¬ long) (op : Operator) :
    Outcome capacity long l.cursor.source.fatals (l.scanOperator op) (m.scanOperator op) := by
  have hcap : 0 < capacity := h.cursor.capacity_pos
  unfold Lexer.scanOperator
  by_cases hop : op.isOpen = true
  · simp only [hop, if_true]
    rcases h.next (by omega) with ⟨fault, p, hl, hf⟩ | ⟨r, p, hl, hm, hfat, hpo, hmoved⟩
    · rw [hl]; exact .fault hf
    · rw [hl, hm]
      cases r with
      | char b =>
        cases he : op.extend b with
        | some op' =>
          simp only [he]
          exact hmoved.finishOperator op' hlong hfat
        | none =>
          have hlt : p.offset < m.cursor.pos + 1 := by omega
          obtain ⟨hback, _, hs⟩ := hmoved.pushBack hlt
          simp only [he]
          exact hback.finishOperator op hlong ((congrArg Source.fatals hs).trans hfat)
      | eof => exact hmoved.finishOperator op hlong hfat
      | failed e => exact .error hlong
  · simp only [hop]
    exact h.finishOperator op hlong rfl

/-! ## Layout -/

theorem relieve (h : Follows capacity l m) :
    Follows capacity l.relieve m ∧ m.cursor.pos ≤ l.relieve.cursor.offset + capacity ∧
      l.relieve.cursor.source = l.cursor.source := by
  have hcap := h.cursor.capacity_eq
  have hlen := h.length_eq
  unfold Lexer.relieve
  split
  · obtain ⟨hgiven, ho⟩ := h.giveUp
    exact ⟨hgiven, by omega, rfl⟩
  · rename_i hc
    have hc : ¬ l.cursor.capacity ≤ l.cursor.length := by simpa [Cursor.crowded] using hc
    exact ⟨h, by omega, rfl⟩

theorem scanLayout {long : Prop} {fatals : List Fault} (hlong : ¬ long) (h : Follows capacity l m)
    (hfat : l.cursor.source.fatals = fatals) : Outcome capacity long fatals l.scanLayout m.scanLayout := by
  induction hn : m.cursor.data.size - m.cursor.pos using Nat.strongRecOn generalizing l m with
  | ind n ih =>
    obtain ⟨hrel, hroom, hsrc⟩ := h.relieve
    have hfree : m.relieve = m := rfl
    rw [scanLayout_eq l, scanLayout_eq m, hfree]
    rcases hrel.next hroom with ⟨fault, p, hl, hf⟩ | ⟨r, p, hl, hm, hpfat, hpo, hmoved⟩
    · rw [hl]
      rw [hsrc, hfat] at hf
      exact .fault hf
    · rw [hl, hm]
      rw [hsrc, hfat] at hpfat
      cases r with
      | char b =>
        have hin : m.cursor.pos < m.cursor.data.size := (Flat.next_eq_char hm).1
        by_cases hb : b.isLayout = true
        · simp only [hb, if_true]
          refine ih _ ?_ hmoved hpfat rfl
          show m.cursor.data.size - (m.cursor.pos + 1) < n
          omega
        · have hlt : p.offset < m.cursor.pos + 1 := by
            have := hrel.offset_le
            omega
          obtain ⟨hback, _, hs⟩ := hmoved.pushBack hlt
          simp only [hb]
          exact .token hlong hback.takeLexeme ((congrArg Source.fatals hs).trans hpfat)
      | eof => exact .token hlong hmoved.takeLexeme hpfat
      | failed e => exact .error hlong

end Follows

/-! ## Words and numbers that outgrow the halves -/

def extent (data : List Byte) (o : Nat) : Option Nat :=
  match data.drop o with
  | [] => none
  | b :: rest =>
    if b.isLetter then some (reach wordStep () rest + 1)
    else if b.isDigit then some (reach NumberState.step .integer rest + 1)
    else none

/-- A word or number starts at the offset that reaches to the end of the second half or beyond. -/
def Overlong (capacity : Nat) (data : List Byte) (o : Nat) : Prop :=
  ∃ n, extent data o = some n ∧ 2 * capacity ≤ o % capacity + n

section
variable {data rest : List Byte} {o : Nat} {b : Byte}

theorem extent_letter (h : data.drop o = b :: rest) (hb : b.isLetter = true) :
    extent data o = some (reach wordStep () rest + 1) := by
  simp only [extent, h, hb, if_true]

theorem extent_digit (h : data.drop o = b :: rest) (hl : b.isLetter = false) (hb : b.isDigit = true) :
    extent data o = some (reach NumberState.step .integer rest + 1) := by
  simp only [extent, h, hl, hb, if_true, Bool.false_eq_true, if_false]

theorem extent_other (h : data.drop o = b :: rest) (hl : b.isLetter = false) (hd : b.isDigit = false) :
    extent data o = none := by
  simp only [extent, h, hl, hd, Bool.false_eq_true, if_false]

end

theorem Outcome.congr {capacity : Nat} {long long' : Prop} {fatals : List Fault} {a b} (h : long ↔ long')
    (ho : Outcome capacity long fatals a b) : Outcome capacity long' fatals a b := by
  rw [← h]; exact ho

theorem overlong_iff {capacity : Nat} {f : Flat} {n : Nat} (h : f.start = f.pos)
    (he : extent f.data.toList f.pos = some (n + 1)) :
    f.limit capacity ≤ f.pos + 1 + n ↔ Overlong capacity f.data.toList f.pos := by
  have hlim := f.limit_le_iff capacity (n + 1)
  rw [h] at hlim
  rw [show f.pos + 1 + n = f.pos + (n + 1) by omega, hlim]
  refine ⟨fun hle => ⟨n + 1, he, hle⟩, fun hov => ?_⟩
  obtain ⟨k, hk, hle⟩ := hov
  rw [he] at hk
  cases hk
  exact hle

theorem not_overlong {capacity : Nat} {data : List Byte} {o : Nat} (h : extent data o = none) :
    ¬ Overlong capacity data o := by
  intro hov
  obtain ⟨n, hn, _⟩ := hov
  rw [h] at hn
  cases hn

/-- One token: the lexers agree unless the source fails or the token is overlong. -/
theorem AtRest.scan {capacity : Nat} {l : Lexer BufferPair} {m : Lexer Flat} (h : AtRest capacity l m) :
    Outcome capacity (Overlong capacity m.cursor.data.toList m.cursor.pos) l.cursor.source.fatals l.scan m.scan := by
  have ho := h.offset_eq
  have hrest := h.rest
  unfold Lexer.scan
  rcases h.next (by omega) with ⟨fault, p, hl, hf⟩ | ⟨r, p, hl, hm, hfat, hpo, hmoved⟩
  · rw [hl]; exact .fault hf
  · rw [hl, hm]
    have hpeek := (Flat.next_eq h.free hm).1
    have hpo' : (l.moveTo p).cursor.offset = m.cursor.start := hpo.trans ho
    cases r with
    | char b =>
      have hdrop : m.cursor.data.toList.drop m.cursor.pos = b :: (m.cursor.goto (m.cursor.pos + 1)).rest :=
        Flat.rest_of_peek (Flat.peek_eq_char hpeek).1
      rw [← hfat]
      cases hletter : b.isLetter with
      | true =>
        simp only [hletter, if_true]
        exact (hmoved.scanWord hpo').congr (overlong_iff hrest (extent_letter hdrop hletter))
      | false =>
        cases hdigit : b.isDigit with
        | true =>
          simp only [hletter, hdigit, Bool.false_eq_true, if_false, if_true]
          exact (hmoved.scanNumber hpo').congr (overlong_iff hrest (extent_digit hdrop hletter hdigit))
        | false =>
          have hlong : ¬ Overlong capacity _ _ := not_overlong (extent_other hdrop hletter hdigit)
          simp only [hletter, hdigit, Bool.false_eq_true, if_false]
          cases hlayout : b.isLayout with
          | true =>
            simp only [if_true]
            exact hmoved.scanLayout hlong rfl
          | false =>
            simp only [Bool.false_eq_true, if_false]
            cases Operator.ofByte? b with
            | some op => exact hmoved.scanOperator hpo' (congrArg (· + 1) hrest.symm) hlong op
            | none =>
              rw [(h.whole ho).2]
              exact .error hlong
    | eof =>
      have hnil : m.cursor.data.toList.drop m.cursor.pos = [] := Flat.rest_of_eof hpeek
      have hnone : extent m.cursor.data.toList m.cursor.pos = none := by
        simp only [extent, hnil]
      exact .token (not_overlong hnone) ⟨hmoved, hrest⟩ hfat
    | failed e =>
      obtain ⟨b, hb, ha, _⟩ := Flat.peek_eq_failed hpeek
      have hword : b.isWordPart = false := by
        cases hw : b.isWordPart with
        | false => rfl
        | true => rw [Byte.isAscii_of_isWordPart hw] at ha; cases ha
      have hclass := Bool.or_eq_false_iff.mp hword
      exact .error (not_overlong (extent_other (Flat.rest_of_peek hb) hclass.1 hclass.2))

end Lexer

end StreamLexer
