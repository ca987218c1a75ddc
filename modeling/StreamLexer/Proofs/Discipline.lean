import StreamLexer.Proofs.Grammar
import StreamLexer.Proofs.Interleaving
import StreamLexer.Proofs.Placement

/-!
# What a lexer asks of its cursor

Taking a character back is right only behind the reading that gave it, while the lexeme under way
still holds it. A recorded cursor keeps a list of the moves made of it, each with the state it was
made from, and a lexer cannot tell it from the cursor it records. So the moves of a lexer can be
read off the record, over all its calls.
-/

namespace StreamLexer

structure Made (σ : Type) where
  before : σ
  answer : Answer

/-- A cursor with the moves made of it, the last one first. -/
structure Recorded (σ : Type) where
  cursor : σ
  made : List (Made σ)

namespace Recorded

variable {σ : Type} [Cursor σ]

def next (r : Recorded σ) : Reading × Recorded σ :=
  match Cursor.next r.cursor with
  | (reading, s) => (reading, ⟨s, ⟨r.cursor, .reading reading⟩ :: r.made⟩)

def pushBack (r : Recorded σ) : Recorded σ := ⟨Cursor.pushBack r.cursor, ⟨r.cursor, .pushedBack⟩ :: r.made⟩

def take (r : Recorded σ) : List Byte × Recorded σ :=
  match Cursor.take r.cursor with
  | (text, s) => (text, ⟨s, ⟨r.cursor, .lexeme text⟩ :: r.made⟩)

theorem next_eq {r r' : Recorded σ} {reading : Reading} (h : r.next = (reading, r')) :
    Cursor.next r.cursor = (reading, r'.cursor) ∧ r'.made = ⟨r.cursor, .reading reading⟩ :: r.made := by
  cases h
  exact ⟨rfl, rfl⟩

end Recorded

instance {σ : Type} [Cursor σ] : Cursor (Recorded σ) where
  next := Recorded.next
  pushBack := Recorded.pushBack
  take := Recorded.take
  length r := Cursor.length r.cursor
  offset r := Cursor.offset r.cursor
  crowded r := Cursor.crowded r.cursor
  remaining r := Cursor.remaining r.cursor
  remaining_next h := Cursor.remaining_next (Recorded.next_eq h).1
  remaining_eof h := Cursor.remaining_eof (Recorded.next_eq h).1
  remaining_pushBack h := Cursor.remaining_pushBack (Recorded.next_eq h).1
  remaining_take r := Cursor.remaining_take r.cursor

theorem Operator.length_bytes (op : Operator) : op.bytes.length = op.spelling.utf8ByteSize := by
  cases op <;> decide

namespace Lexer

/-! ## A record changes nothing -/

section
variable {σ : Type}

def recorded (l : Lexer σ) : Lexer (Recorded σ) := ⟨⟨l.cursor, []⟩, l.words, l.position, l.poisoned⟩

def forget (l : Lexer (Recorded σ)) : Lexer σ := ⟨l.cursor.cursor, l.words, l.position, l.poisoned⟩

@[simp] theorem forget_cursor (l : Lexer (Recorded σ)) : l.forget.cursor = l.cursor.cursor := rfl

@[simp] theorem forget_position (l : Lexer (Recorded σ)) : l.forget.position = l.position := rfl

@[simp] theorem forget_poisoned (l : Lexer (Recorded σ)) : l.forget.poisoned = l.poisoned := rfl

theorem moveTo_forget (l : Lexer (Recorded σ)) (s : Recorded σ) : l.forget.moveTo s.cursor = (l.moveTo s).forget :=
  rfl

variable [Cursor σ]

theorem pushBack_forget (l : Lexer (Recorded σ)) (s : Recorded σ) :
    l.forget.moveTo (Cursor.pushBack s.cursor) = (l.moveTo (Cursor.pushBack s)).forget := rfl

theorem takeLexeme_forget (l : Lexer (Recorded σ)) : l.forget.takeLexeme = l.takeLexeme.map id forget := rfl

theorem run_forget {Q : Type} (step : Q → Byte → Option Q) (q : Q) (r : Recorded σ) :
    Cursor.run step q r.cursor = ((Cursor.run step q r).1, (Cursor.run step q r).2.cursor) := by
  fun_induction Cursor.run step q r with
  | case1 q r b r' hn q' hs ih =>
    have hn := (Recorded.next_eq hn).1
    rw [Cursor.run_char_some hn hs]
    exact ih
  | case2 q r b r' hn hs =>
    have hn := (Recorded.next_eq hn).1
    simp [Cursor.run_unfold, hn, hs]
  | case3 q r r' hn =>
    have hn := (Recorded.next_eq hn).1
    simp [Cursor.run_unfold, hn]
  | case4 q r e r' hn =>
    have hn := (Recorded.next_eq hn).1
    simp [Cursor.run_unfold, hn]

theorem finishWord_forget (l : Lexer (Recorded σ)) : l.forget.finishWord = l.finishWord.map id forget := by
  have hwords : l.takeLexeme.2.forget.words = l.takeLexeme.2.words := rfl
  simp only [finishWord, takeLexeme_forget, Prod.map, id, hwords]
  cases l.takeLexeme.2.words.resolve (Byte.text l.takeLexeme.1) <;> rfl

theorem scanWord_forget (l : Lexer (Recorded σ)) : l.forget.scanWord = l.scanWord.map id forget := by
  have hrun := run_forget wordStep () l.cursor
  rcases hr : Cursor.run wordStep () l.cursor with ⟨halt, s⟩
  rw [hr] at hrun
  cases halt with
  | char q b => simp [scanWord, hr, hrun, pushBack_forget, finishWord_forget]
  | eof q => simp [scanWord, hr, hrun, moveTo_forget, finishWord_forget]
  | failed e => simp [scanWord, hr, hrun, moveTo_forget]

theorem scanNumber_forget (l : Lexer (Recorded σ)) : l.forget.scanNumber = l.scanNumber.map id forget := by
  have hrun := run_forget NumberState.step .integer l.cursor
  rcases hr : Cursor.run NumberState.step .integer l.cursor with ⟨halt, s⟩
  have hlength : Cursor.length s.cursor = Cursor.length s := rfl
  rw [hr] at hrun
  cases halt with
  | char q b =>
    cases hq : q.expectation with
    | none => simp [scanNumber, hr, hrun, hq, pushBack_forget, finishNumber, takeLexeme_forget]
    | some want => simp [scanNumber, hr, hrun, hq, moveTo_forget, hlength]
  | eof q =>
    cases hq : q.expectation with
    | none => simp [scanNumber, hr, hrun, hq, moveTo_forget, finishNumber, takeLexeme_forget]
    | some want => simp [scanNumber, hr, hrun, hq, moveTo_forget, hlength]
  | failed e => simp [scanNumber, hr, hrun, moveTo_forget]

theorem scanOperator_forget (l : Lexer (Recorded σ)) (op : Operator) :
    l.forget.scanOperator op = (l.scanOperator op).map id forget := by
  rcases hn : Cursor.next l.cursor with ⟨reading, s⟩
  have hn' := (Recorded.next_eq hn).1
  by_cases hop : op.isOpen = true
  · cases reading with
    | char b =>
      cases he : op.extend b with
      | none => simp [scanOperator, hn, hn', hop, he, pushBack_forget, finishOperator, takeLexeme_forget]
      | some op' => simp [scanOperator, hn, hn', hop, he, moveTo_forget, finishOperator, takeLexeme_forget]
    | eof => simp [scanOperator, hn, hn', hop, moveTo_forget, finishOperator, takeLexeme_forget]
    | failed e => simp [scanOperator, hn, hn', hop, moveTo_forget]
  · simp [scanOperator, hop, finishOperator, takeLexeme_forget]

theorem relieve_forget (l : Lexer (Recorded σ)) : l.forget.relieve = l.relieve.forget := by
  have hcrowded : Cursor.crowded l.cursor.cursor = Cursor.crowded l.cursor := rfl
  by_cases hc : Cursor.crowded l.cursor = true
  · simp [relieve, hcrowded, hc, takeLexeme_forget]
  · simp [relieve, hcrowded, hc]

theorem scanLayout_forget (l : Lexer (Recorded σ)) : l.forget.scanLayout = l.scanLayout.map id forget := by
  fun_induction scanLayout l with
  | case1 l b s hn hb ih =>
    have hn' := (Recorded.next_eq hn).1
    rw [← ih, scanLayout_eq, relieve_forget]
    simp [hn', hb, moveTo_forget]
  | case2 l b s hn hb =>
    have hn' := (Recorded.next_eq hn).1
    rw [scanLayout_eq, relieve_forget]
    simp [hn', hb, pushBack_forget, takeLexeme_forget]
  | case3 l s hn =>
    have hn' := (Recorded.next_eq hn).1
    rw [scanLayout_eq, relieve_forget]
    simp [hn', moveTo_forget, takeLexeme_forget]
  | case4 l e s hn =>
    have hn' := (Recorded.next_eq hn).1
    rw [scanLayout_eq, relieve_forget]
    simp [hn', moveTo_forget]

theorem scan_forget (l : Lexer (Recorded σ)) : l.forget.scan = l.scan.map id forget := by
  rcases hn : Cursor.next l.cursor with ⟨reading, s⟩
  have hn' := (Recorded.next_eq hn).1
  cases reading with
  | eof => simp [scan, hn, hn', moveTo_forget]
  | failed e => simp [scan, hn, hn', moveTo_forget]
  | char b =>
    by_cases hletter : b.isLetter = true
    · simp [scan, hn, hn', hletter, moveTo_forget, scanWord_forget]
    by_cases hdigit : b.isDigit = true
    · simp [scan, hn, hn', hletter, hdigit, moveTo_forget, scanNumber_forget]
    by_cases hlayout : b.isLayout = true
    · simp [scan, hn, hn', hletter, hdigit, hlayout, moveTo_forget, scanLayout_forget]
    cases hop : Operator.ofByte? b with
    | none => simp [scan, hn, hn', hletter, hdigit, hlayout, hop, moveTo_forget]
    | some op => simp [scan, hn, hn', hletter, hdigit, hlayout, hop, moveTo_forget, scanOperator_forget]

theorem nextLocated_forget (l : Lexer (Recorded σ)) : l.forget.nextLocated = l.nextLocated.map id forget := by
  by_cases hp : l.poisoned = true
  · simp [nextLocated, hp]
  · have hscan := scan_forget l
    rcases hs : l.scan with ⟨r, l'⟩
    rw [hs] at hscan
    cases r with
    | ok token => simp [nextLocated, hp, hs, hscan]
    | error e =>
      simp [nextLocated, hp, hs, hscan]
      rfl

theorem ask_forget (l : Lexer (Recorded σ)) (call : Call) : l.forget.ask call = (l.ask call).map id forget := by
  by_cases hp : l.poisoned = true
  · rw [ask_of_poisoned hp, ask_of_poisoned (l := l.forget) hp]
    rfl
  · rw [Bool.not_eq_true] at hp
    rw [ask_of_not_poisoned hp, ask_of_not_poisoned (l := l.forget) hp, nextLocated_forget]
    rfl

/-- A lexer gives the same replies whether its moves are recorded or not. -/
theorem askAll_forget (calls : List Call) (l : Lexer (Recorded σ)) :
    l.forget.askAll calls = (l.askAll calls).map id forget := by
  induction calls generalizing l with
  | nil => rfl
  | cons call calls ih => simp [askAll, ask_forget, ih]

end

/-! ## The lexeme under way -/

/-- Where `P` holds, the lexeme under way grows by every character read and by nothing else. -/
structure Counts {σ : Type} [Cursor σ] (P : σ → Position → Prop) : Prop where
  char {s s' b here} : P s here → Cursor.next s = (.char b, s') →
    Cursor.length s' = Cursor.length s + 1 ∧ Cursor.length (Cursor.pushBack s') = Cursor.length s
  eof {s s' here} : P s here → Cursor.next s = (.eof, s') → Cursor.length s' = Cursor.length s

section
variable {σ : Type} [Cursor σ] {l l' : Lexer σ} {t : Token}

theorem kind?_of_scanWord (h : l.scanWord = (.ok t, l')) : t.kind? = some .word := by
  have hfinish : ∀ {m : Lexer σ}, m.finishWord = (.ok t, l') → t.kind? = some .word := by
    intro m hm
    simp only [finishWord] at hm
    split at hm <;> cases hm
    rfl
  unfold scanWord at h
  split at h
  · exact hfinish h
  · exact hfinish h
  · cases h

theorem kind?_of_scanNumber (h : l.scanNumber = (.ok t, l')) : t.kind? = some .number := by
  unfold scanNumber at h
  split at h
  · split at h <;> cases h
    rfl
  · split at h <;> cases h
    rfl
  · cases h

theorem kind?_of_scanLayout (h : l.scanLayout = (.ok t, l')) : t.kind? = some .layout := by
  fun_induction scanLayout l with
  | case1 l b s hn hb ih => exact ih h
  | case2 l b s hn hb => cases h; rfl
  | case3 l s hn => cases h; rfl
  | case4 l e s hn => cases h

theorem scan_eq_operator {op : Operator} (h : l.scan = (.ok (.operator op), l')) :
    ∃ b s first, Cursor.next l.cursor = (.char b, s) ∧ Operator.ofByte? b = some first ∧
      (l.moveTo s).scanOperator first = (.ok (.operator op), l') := by
  unfold scan at h
  split at h
  · rename_i b s hn
    split at h
    · cases kind?_of_scanWord h
    · split at h
      · cases kind?_of_scanNumber h
      · split at h
        · cases kind?_of_scanLayout h
        · split at h
          · exact ⟨b, s, _, hn, ‹_›, h⟩
          · cases h
  · cases h
  · cases h

end

section
variable {σ : Type} [Cursor σ] {Q P E : σ → Position → Prop} (h : Respected Q P E) (hc : Counts P)
  {l l' : Lexer σ}
include h hc

theorem length_of_operator {op : Operator} (hl : P l.cursor l.position) (hlen : Cursor.length l.cursor = 0)
    (hs : l.scan = (.ok (.operator op), l')) :
    ∃ s, l' = (l.moveTo s).takeLexeme.2 ∧ Cursor.length s = op.bytes.length := by
  obtain ⟨b, s, first, hn, hb, hs⟩ := scan_eq_operator hs
  have hfirst : Cursor.length s = first.bytes.length := by
    rw [(hc.char hl hn).1, hlen, Operator.bytes_of_ofByte? hb]
    rfl
  have hp := (h.char hl hn).1
  unfold scanOperator at hs
  split at hs
  · split at hs <;> rename_i hn'
    · rename_i c s'
      split at hs <;> rename_i he <;> cases hs
      · refine ⟨s', rfl, ?_⟩
        rw [(hc.char hp hn').1, (Operator.bytes_of_extend he).2.2, List.length_append]
        exact congrArg (· + 1) hfirst
      · exact ⟨_, rfl, (hc.char hp hn').2.trans hfirst⟩
    · cases hs
      exact ⟨_, rfl, (hc.eof hp hn').trans hfirst⟩
    · cases hs
  · cases hs
    exact ⟨s, rfl, hfirst⟩

theorem length_of_unexpectedChar {found : Char} {want : Expectation} {place : Position}
    (hl : P l.cursor l.position) (hlen : Cursor.length l.cursor = 0)
    (hs : l.scan = (.error (.unexpectedChar found want place), l')) :
    1 ≤ Cursor.length l'.cursor ∧ place = l.position.shift (Cursor.length l'.cursor - 1) := by
  obtain ⟨b, s, hn, hcase⟩ := scan_of_position? hs rfl
  have hone := (hc.char hl hn).1
  rw [hlen] at hone
  rcases hcase with ⟨he, rfl⟩ | ⟨_, hnumber⟩
  · cases he
    have hcursor : Cursor.length (l.moveTo s).cursor = 1 := hone
    rw [hcursor]
    exact ⟨Nat.le_refl 1, by simp [Position.shift]⟩
  · obtain ⟨_, q, s', rfl, hhalt⟩ := scanNumber_of_position? hnumber rfl
    obtain ⟨s₀, hs₀, hlast⟩ := run_ends NumberState.step (R := fun s => P s l.position)
      (fun hs hn _ => (h.char hs hn).1) .integer (h.char hl hn).1
    rcases hhalt with ⟨c, hrun, he⟩ | ⟨_, he⟩
    · cases he
      have hrun : Cursor.run NumberState.step .integer s = (.char q c, s') := hrun
      rw [hrun] at hlast
      have hgrown : Cursor.length s' = Cursor.length s₀ + 1 := (hc.char hs₀ hlast).1
      exact ⟨by show 1 ≤ Cursor.length s'; omega, rfl⟩
    · cases he

end

/-! ## Records of a lexer -/

/-- What may be asked behind the moves made `earlier`: a character is taken back only right after it was
read, out of a lexeme that holds it. -/
def Licensed {σ : Type} [Cursor σ] (m : Made σ) (earlier : List (Made σ)) : Prop :=
  m.answer = .pushedBack → 1 ≤ Cursor.length m.before ∧
    ∃ s b rest, earlier = ⟨s, .reading (.char b)⟩ :: rest ∧ Cursor.next s = (.char b, m.before)

def Disciplined {σ : Type} [Cursor σ] (made : List (Made σ)) : Prop :=
  ∀ m earlier, m :: earlier <:+ made → Licensed m earlier

section
variable {σ : Type} [Cursor σ]

theorem disciplined_cons {m : Made σ} {made : List (Made σ)} (hm : Licensed m made) (h : Disciplined made) :
    Disciplined (m :: made) := by
  intro m' earlier hsuffix
  rcases List.suffix_cons_iff.mp hsuffix with heq | hsuffix
  · cases heq
    exact hm
  · exact h m' earlier hsuffix

theorem disciplined_next {r r' : Recorded σ} {reading : Reading} (h : Disciplined r.made)
    (hn : Cursor.next r = (reading, r')) : Disciplined r'.made := by
  rw [(Recorded.next_eq hn).2]
  exact disciplined_cons (fun hb => by cases hb) h

theorem Respected.recorded {Q P E : σ → Position → Prop} (h : Respected Q P E) (hc : Counts P) :
    Respected (fun (r : Recorded σ) here => Q r.cursor here ∧ Disciplined r.made)
      (fun r here => P r.cursor here ∧ Disciplined r.made) (fun r here => E r.cursor here ∧ Disciplined r.made) where
  begin := fun ⟨hq, hd⟩ => ⟨h.begin hq, hd⟩
  char := by
    rintro r r' b here ⟨hp, hd⟩ hn
    have hd' := disciplined_next hd hn
    obtain ⟨hn, hmade⟩ := Recorded.next_eq hn
    obtain ⟨hp', hback⟩ := h.char hp hn
    -- the character is in the lexeme now, so it may be taken back, and it is the last thing on record
    have hheld : 1 ≤ Cursor.length r'.cursor := by
      rw [(hc.char hp hn).1]
      exact Nat.le_add_left 1 _
    exact ⟨⟨hp', hd'⟩, hback, disciplined_cons (fun _ => ⟨hheld, r.cursor, b, r.made, hmade, hn⟩) hd'⟩
  eof := fun ⟨hp, hd⟩ hn => ⟨h.eof hp (Recorded.next_eq hn).1, disciplined_next hd hn⟩
  atEnd := fun ⟨hq, hd⟩ hn => ⟨h.atEnd hq (Recorded.next_eq hn).1, disciplined_next hd hn⟩
  failed := fun ⟨hp, hd⟩ hn => ⟨h.failed hp (Recorded.next_eq hn).1, disciplined_next hd hn⟩
  take := fun ⟨hp, hd⟩ => ⟨h.take hp, disciplined_cons (fun hb => by cases hb) hd⟩
  stop := fun ⟨hp, hd⟩ => ⟨h.stop hp, hd⟩

theorem Counts.recorded {P : σ → Position → Prop} (hc : Counts P) (made : List (Made σ) → Prop) :
    Counts (fun (r : Recorded σ) here => P r.cursor here ∧ made r.made) where
  char := fun ⟨hp, _⟩ hn => hc.char hp (Recorded.next_eq hn).1
  eof := fun ⟨hp, _⟩ hn => hc.eof hp (Recorded.next_eq hn).1

end

theorem counts_placed (capacity : Nat) (source : Source) :
    Counts (fun p here => ∃ f, BufferPair.Placed capacity source p f here) where
  char := by
    rintro p p' b here ⟨f, hf⟩ hn
    have hf' := (hf.char hn).2
    have hle := hf.mirrors.start_le
    have hlen : p.length = f.pos - f.start := hf.mirrors.length_eq
    have hlen' : p'.length = f.pos + 1 - f.start := hf'.mirrors.length_eq
    have hback : p'.pushBack.length = f.pos + 1 - 1 - f.start :=
      (hf'.pushBack (Nat.lt_succ_of_le hle)).mirrors.length_eq
    refine ⟨?_, ?_⟩
    · show p'.length = p.length + 1
      omega
    · show p'.pushBack.length = p.length
      omega
  eof := by
    rintro p p' here ⟨f, hf⟩ hn
    exact (hf.eof hn).2.mirrors.length_eq.trans hf.mirrors.length_eq.symm

theorem empty_of_atStart {capacity : Nat} {source : Source} {p : BufferPair} {here : Position}
    (h : p.AtStart capacity source here) :
    here.offset = p.offset ∧ p.length = 0 ∧ p.crossed = false ∧ p.start = p.forward := by
  obtain ⟨f, hf, hrest⟩ := h
  have hpos := hf.pos_le
  have hoffset : here.offset = p.offset := by
    rw [hf.here, hf.mirrors.offset_eq, hrest]
    exact List.length_take_of_le hpos
  have hlength : p.length = 0 := by
    rw [hf.mirrors.length_eq, hrest, Nat.sub_self]
  obtain ⟨k, ht⟩ := hf.mirrors
  have hp := ht.pos
  cases hc : p.crossed with
  | true =>
    -- a crossed lexeme holds the bytes before the boundary
    obtain ⟨hlt, _, j, rfl, hstart, _⟩ := ht.crossed hc
    rw [Nat.succ_mul] at hp
    omega
  | false =>
    obtain ⟨hstart, hle⟩ := ht.whole hc
    exact ⟨hoffset, hlength, rfl, by omega⟩

section
variable {capacity : Nat} {source : Source} {l : Lexer BufferPair} (h : ofSource capacity source = .ok l)
include h

theorem recorded_after (n : Nat) :
    ((l.recorded.after n).poisoned = false →
        (l.recorded.after n).cursor.cursor.AtStart capacity source (l.recorded.after n).position) ∧
      Disciplined (l.recorded.after n).cursor.made := by
  have hl := atStart_ofSource h
  have hresp := BufferPair.respected_placed capacity source
  have hnil : Disciplined ([] : List (Made BufferPair)) := by
    intro m earlier hsuffix
    simp at hsuffix
  have hafter := (hresp.recorded (counts_placed capacity source)).after l.recorded (fun _ => ⟨hl, hnil⟩)
    ⟨hresp.stop (hresp.begin hl), hnil⟩ n
  exact ⟨fun hp => (hafter.1 hp).1, hafter.2.2⟩

end

/-- Over all calls of a lexer, however they are mixed, a character is taken back only right after it was
read and while the lexeme under way holds it. Every scan begins with an empty lexeme at the position of
the lexer, an operator is made of a lexeme as long as its spelling, and where a character is unexpected
there is one to step back over. The record of the moves that says so changes nothing in the replies. -/
theorem calls_keep_contract (capacity : Nat) (source : Source) (l : Lexer BufferPair)
    (h : ofSource capacity source = .ok l) (calls : List Call) :
    (l.recorded.askAll calls).1 = (l.askAll calls).1 ∧
      (l.recorded.askAll calls).2.forget = (l.askAll calls).2 ∧
      (∀ m earlier, m :: earlier <:+ (l.recorded.askAll calls).2.cursor.made → m.answer = .pushedBack →
        1 ≤ m.before.length ∧ (m.before.crossed = false → m.before.start < m.before.forward) ∧
        ∃ p b rest, earlier = ⟨p, .reading (.char b)⟩ :: rest ∧ p.next = (.char b, m.before)) ∧
      ∀ r, (l.recorded.askAll calls).2 = r → r.poisoned = false →
        (r.position.offset = r.cursor.cursor.offset ∧ r.cursor.cursor.length = 0 ∧
          r.cursor.cursor.crossed = false ∧ r.cursor.cursor.start = r.cursor.cursor.forward) ∧
        (∀ op r', r.scan = (.ok (.operator op), r') → ∃ p text earlier,
          r'.cursor.made = ⟨p, .lexeme text⟩ :: earlier ∧ p.length = op.spelling.utf8ByteSize) ∧
        ∀ found want place r', r.scan = (.error (.unexpectedChar found want place), r') →
          1 ≤ r'.cursor.cursor.length ∧ place = r.position.shift (r'.cursor.cursor.length - 1) := by
  have hforget := askAll_forget calls l.recorded
  have hl : l.recorded.forget = l := rfl
  rw [hl] at hforget
  obtain ⟨hstart, hmade⟩ := recorded_after h calls.length
  rw [← askAll_snd] at hstart hmade
  refine ⟨by rw [hforget]; rfl, by rw [hforget]; rfl, ?_, ?_⟩
  · intro m earlier hm hback
    obtain ⟨hheld, hread⟩ := hmade m earlier hm hback
    have hheld : 1 ≤ m.before.length := hheld
    refine ⟨hheld, fun hc => ?_, hread⟩
    simp only [BufferPair.length, hc, Bool.false_eq_true, if_false] at hheld
    omega
  · rintro r rfl hp
    have hempty := empty_of_atStart (hstart hp)
    obtain ⟨f, hf, _⟩ := hstart hp
    have hresp := (BufferPair.respected_placed capacity source).recorded (counts_placed capacity source)
    have hcounts := (counts_placed capacity source).recorded Disciplined
    refine ⟨hempty, ?_, ?_⟩
    · intro op r' hs
      obtain ⟨s, rfl, hlen⟩ := length_of_operator hresp hcounts ⟨⟨f, hf⟩, hmade⟩ hempty.2.1 hs
      exact ⟨s.cursor, s.cursor.take.1, s.made, rfl, hlen.trans (op.length_bytes)⟩
    · intro found want place r' hs
      exact length_of_unexpectedChar hresp hcounts ⟨⟨f, hf⟩, hmade⟩ hempty.2.1 hs

theorem calls_keep_contract_behind_flush :
    ∃ l m, ∃ p : BufferPair, ofSource 1 (.ofBytes [32, 32, 97]) = .ok l ∧
      (l.recorded.askAll [.located]).2.cursor.made.map Made.answer =
        [.lexeme [], .pushedBack, .reading (.char 97), .lexeme [32], .reading (.char 32), .lexeme [32],
          .reading (.char 32)] ∧
      (l.recorded.askAll [.located]).2.cursor.made[1]? = some m ∧
      1 ≤ m.before.length ∧ p.next = (.char 97, m.before) := by
  have hanswers : ((ofSource 1 (.ofBytes [32, 32, 97])).toOption.map
      fun l => (l.recorded.askAll [.located]).2.cursor.made.map Made.answer) =
        some [.lexeme [], .pushedBack, .reading (.char 97), .lexeme [32], .reading (.char 32), .lexeme [32],
          .reading (.char 32)] := by decide +kernel
  cases h : ofSource 1 (.ofBytes [32, 32, 97]) with
  | error e =>
    rw [h] at hanswers
    cases hanswers
  | ok l =>
    rw [h] at hanswers
    have hanswers := Option.some.inj hanswers
    obtain ⟨last, made, hmade, _, htail⟩ := List.map_eq_cons_iff.mp hanswers
    obtain ⟨m, earlier, rfl, hm, hread⟩ := List.map_eq_cons_iff.mp htail
    obtain ⟨hheld, _, p, b, rest, rfl, hp⟩ := (calls_keep_contract 1 _ l h [.located]).2.2.1 m earlier
      (by rw [hmade]; exact List.suffix_cons last _) hm
    cases (List.cons.inj hread).1
    exact ⟨l, m, p, rfl, hanswers, by rw [hmade]; rfl, hheld, hp⟩

end Lexer

end StreamLexer
