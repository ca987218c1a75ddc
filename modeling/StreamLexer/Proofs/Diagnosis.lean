import StreamLexer.Proofs.LongestMatch
import StreamLexer.Proofs.Transparency

/-!
# Numbers and what is wrong with them

Where a number starts, the automaton goes on for as long as what it has read can still become a number.
If it is one already, it is the token; if not, its last byte tells what is missing, and the byte
that stands in its place is the error. A number is not cut back to a shorter one.
-/

namespace StreamLexer

def IsFront (text : List Byte) : Prop := ∃ more, IsNumber (text ++ more)

/-- `text` is the longest front of a number that the bytes start with, and `tail` is behind it. -/
structure LongestFront (bytes text tail : List Byte) : Prop where
  split : bytes = text ++ tail
  front : IsFront text
  longest : ∀ text', text' <+: bytes → IsFront text' → text'.length ≤ text.length

/-- What is missing behind a front that is no number, as its last byte tells. -/
structure Lacks (text : List Byte) (want : Expectation) : Prop where
  point : want = ⟨.fraction, "a digit after '.'"⟩ ↔ text.getLast? = some '.'.toUInt8
  mark : want = ⟨.exponent, "a digit or sign after 'E'"⟩ ↔ text.getLast? = some 'E'.toUInt8
  sign : want = ⟨.exponent, "a digit in the exponent"⟩ ↔ ∃ b, text.getLast? = some b ∧ b.isSign = true
  known : want = ⟨.fraction, "a digit after '.'"⟩ ∨ want = ⟨.exponent, "a digit or sign after 'E'"⟩ ∨
    want = ⟨.exponent, "a digit in the exponent"⟩

/-! ## The automaton and the fronts of numbers -/

theorem length_le_reach {Q : Type} {step : Q → Byte → Option Q} : ∀ {text bytes : List Byte} {q q' : Q},
    text <+: bytes → text.foldlM step q = some q' → text.length ≤ reach step q bytes
  | [], _, _, _, _, _ => Nat.zero_le _
  | c :: text, bytes, q, q', hprefix, hrun => by
    obtain ⟨tail, rfl⟩ := hprefix
    rw [List.foldlM_cons] at hrun
    cases hs : step q c with
    | none => simp [hs] at hrun
    | some p =>
      rw [hs] at hrun
      rw [List.cons_append, (reach_cons_some _ hs).1]
      exact Nat.succ_le_succ (length_le_reach (List.prefix_append text tail) hrun)

namespace NumberState

theorem exists_foldlM (q : NumberState) :
    ∃ (more : List Byte) (q' : NumberState), more.foldlM step q = some q' ∧ q'.expectation = none := by
  cases q with
  | integer => exact ⟨[], .integer, rfl, rfl⟩
  | fractionStart => exact ⟨['0'.toUInt8], .fraction, by decide, rfl⟩
  | fraction => exact ⟨[], .fraction, rfl, rfl⟩
  | exponentStart => exact ⟨['0'.toUInt8], .exponent, by decide, rfl⟩
  | exponentSign => exact ⟨['0'.toUInt8], .exponent, by decide, rfl⟩
  | exponent => exact ⟨[], .exponent, rfl, rfl⟩

def Ends : NumberState → Byte → Prop
  | .fractionStart, b => b = '.'.toUInt8
  | .exponentStart, b => b = 'E'.toUInt8
  | .exponentSign, b => b.isSign = true
  | _, b => b.isDigit = true

theorem ends_of_step {q q' : NumberState} {b : Byte} (h : q.step b = some q') : q'.Ends b := by
  cases q with
  | integer =>
    simp only [step] at h
    split at h
    · rename_i hb
      cases h
      exact hb
    · split at h
      · rename_i hb
        cases h
        exact hb
      · split at h <;> cases h
        assumption
  | fraction | exponentStart =>
    simp only [step] at h
    split at h
    · rename_i hb
      cases h
      exact hb
    · split at h <;> cases h
      assumption
  | fractionStart | exponentSign | exponent =>
    simp only [step] at h
    split at h <;> cases h
    assumption

theorem ends_of_foldlM {q' : NumberState} : ∀ {text : List Byte} {q : NumberState} {b : Byte}, q.Ends b →
    text.foldlM step q = some q' → ∃ c, (b :: text).getLast? = some c ∧ q'.Ends c
  | [], q, b, hb, h => by
    obtain rfl : q = q' := by simpa using h
    exact ⟨b, rfl, hb⟩
  | c :: text, q, b, hb, h => by
    rw [List.foldlM_cons] at h
    cases hs : q.step c with
    | none => simp [hs] at h
    | some p =>
      rw [hs] at h
      obtain ⟨d, hd, hends⟩ := ends_of_foldlM (ends_of_step hs) h
      exact ⟨d, by rw [List.getLast?_cons_cons]; exact hd, hends⟩

theorem lacks_of_ends {q : NumberState} {text : List Byte} {b : Byte} {want : Expectation}
    (hb : text.getLast? = some b) (hends : q.Ends b) (h : q.expectation = some want) : Lacks text want := by
  cases q with
  | integer | fraction | exponent => cases h
  | fractionStart =>
    cases h
    obtain rfl : b = '.'.toUInt8 := hends
    have hmark : '.'.toUInt8 ≠ 'E'.toUInt8 := by decide
    have hsign : Byte.isSign '.'.toUInt8 = false := by decide
    exact ⟨by simp [hb], by simp [hb, hmark], by simp [hb, hsign], by simp⟩
  | exponentStart =>
    cases h
    obtain rfl : b = 'E'.toUInt8 := hends
    have hpoint : 'E'.toUInt8 ≠ '.'.toUInt8 := by decide
    have hsign : Byte.isSign 'E'.toUInt8 = false := by decide
    exact ⟨by simp [hb, hpoint], by simp [hb], by simp [hb, hsign], by simp⟩
  | exponentSign =>
    cases h
    have hsign : b.isSign = true := hends
    have hpoint : b ≠ '.'.toUInt8 := by
      rintro rfl
      exact absurd hsign (by decide)
    have hmark : b ≠ 'E'.toUInt8 := by
      rintro rfl
      exact absurd hsign (by decide)
    exact ⟨by simp [hb, hpoint], by simp [hb, hmark], by simp [hb, hsign], by simp⟩

end NumberState

theorem isFront_cons_iff {b : Byte} {text : List Byte} :
    IsFront (b :: text) ↔ b.isDigit = true ∧ ∃ q, text.foldlM NumberState.step .integer = some q := by
  constructor
  · rintro ⟨more, hnum⟩
    obtain ⟨c, rest, q, hsplit, hc, hrun, _⟩ := isNumber_iff.mp hnum
    obtain ⟨rfl, rfl⟩ : b = c ∧ text ++ more = rest := by simpa using hsplit
    refine ⟨hc, ?_⟩
    rw [List.foldlM_append] at hrun
    cases hfront : text.foldlM NumberState.step .integer with
    | none => simp [hfront] at hrun
    | some p => exact ⟨p, rfl⟩
  · rintro ⟨hb, q, hrun⟩
    obtain ⟨more, q', hmore, he⟩ := q.exists_foldlM
    refine ⟨more, isNumber_iff.mpr ⟨b, text ++ more, q', rfl, hb, ?_, he⟩⟩
    rw [List.foldlM_append, hrun]
    exact hmore

theorem longestFront_of_reach {b : Byte} {bytes text tail : List Byte} {q : NumberState} (hb : b.isDigit = true)
    (hsplit : bytes = text ++ tail) (hlen : text.length = reach NumberState.step .integer bytes)
    (hrun : text.foldlM NumberState.step .integer = some q) :
    LongestFront (b :: bytes) (b :: text) tail ∧ (IsNumber (b :: text) ↔ q.expectation = none) := by
  refine ⟨⟨by rw [hsplit]; rfl, isFront_cons_iff.mpr ⟨hb, q, hrun⟩, ?_⟩, ?_⟩
  · intro text' hprefix hfront
    cases text' with
    | nil => exact Nat.zero_le _
    | cons c text' =>
      obtain ⟨_, q', hrun'⟩ := isFront_cons_iff.mp hfront
      have hle := length_le_reach (List.cons_prefix_cons.mp hprefix).2 hrun'
      simp only [List.length_cons, hlen]
      omega
  · constructor
    · intro hnum
      obtain ⟨c, rest, q', hcons, _, hrun', he⟩ := isNumber_iff.mp hnum
      cases hcons
      rw [hrun] at hrun'
      cases hrun'
      exact he
    · intro he
      exact isNumber_iff.mpr ⟨b, text, q, rfl, hb, hrun, he⟩

/-! ## One number over the whole stream -/

theorem Flat.peek_behind {f : Flat} {text tail : List Byte} (h : f.rest = text ++ tail) :
    f.peek (f.pos + text.length) =
      match tail.head? with
      | none => .eof
      | some b => if b.isAscii then .char b else .failed (.nonAscii b (f.pos + text.length)) := by
  have hdata := data_of_rest h
  cases hb : tail.head? <;> rw [hb] at hdata <;> simp [peek, hdata]

namespace Lexer

/-- What is said of a number, told by its start, the longest front there and the bytes behind it. -/
structure Diagnosed (start : Position) (text tail : List Byte) (result : Except LexError Located) : Prop where
  stray : ∀ b ∈ tail.head?, b.isAscii = false →
    result = .error (.input (.nonAscii b (start.offset + text.length)))
  token : (∀ b ∈ tail.head?, b.isAscii = true) → IsNumber text → result = .ok ⟨.number (Byte.text text), start⟩
  error : (∀ b ∈ tail.head?, b.isAscii = true) → ¬ IsNumber text → ∃ want, Lacks text want ∧
    result = match tail.head? with
      | some b => .error (.unexpectedChar (Char.ofUInt8 b) want (start.shift text.length))
      | none => .error (.unexpectedEof want (start.shift text.length))

theorem nextLocated_fst {σ : Type} [Cursor σ] {l : Lexer σ} (hp : l.poisoned = false) :
    l.nextLocated.1 = l.scan.1.map (Located.mk · l.position) := by
  rw [nextLocated_of_scan hp]
  rcases l.scan with ⟨_ | _, l'⟩ <;> rfl

section
variable {m : Lexer Flat} (hstart : m.cursor.start = m.cursor.pos) (hoffset : m.position.offset = m.cursor.start)
include hstart hoffset

theorem diagnosed_end {text tail : List Byte} {q : NumberState} (hrest : m.cursor.rest = text ++ tail)
    (hnum : IsNumber text ↔ q.expectation = none) (hlacks : ∀ want, q.expectation = some want → Lacks text want) :
    Diagnosed m.position text tail
      ((m.unlessFailed (m.cursor.pos + text.length) (m.endNumber (m.cursor.pos + text.length) q)).1.map
        (Located.mk · m.position)) := by
  have hpeek := Flat.peek_behind hrest
  refine ⟨?_, ?_, ?_⟩
  · intro b hb ha
    rw [show tail.head? = some b from hb] at hpeek
    simp only [ha] at hpeek
    rw [unlessFailed, hpeek, hoffset, hstart]
    rfl
  · intro ha hnumber
    rw [unlessFailed_eq (Flat.peek_ne_failed hrest ha), endNumber_eq (hnum.mp hnumber)]
    show Except.ok (Located.mk (.number (Byte.text (Cursor.take (m.seek _).cursor).1)) m.position) = _
    rw [take_seek hstart hrest]
  · intro ha hnumber
    rw [unlessFailed_eq (Flat.peek_ne_failed hrest ha)]
    have hshift : m.cursor.pos + text.length - m.cursor.start = text.length := by omega
    cases he : q.expectation with
    | none => exact absurd (hnum.mpr he) hnumber
    | some want =>
      refine ⟨want, hlacks want he, ?_⟩
      cases hb : tail.head? with
      | none =>
        rw [hb] at hpeek
        simp only [endNumber, he, hpeek, hshift, Except.map]
      | some b =>
        rw [hb] at hpeek
        simp only [ha b hb, if_true] at hpeek
        simp only [endNumber, he, hpeek, hshift, Except.map]

theorem diagnosed_call (hw : m.cursor.window = none) (hp : m.poisoned = false) {b : Byte} {bytes : List Byte}
    (hrest : m.cursor.rest = b :: bytes) (hb : b.isDigit = true) :
    ∃ text tail, LongestFront (b :: bytes) text tail ∧ Diagnosed m.position text tail m.nextLocated.1 ∧
      ∀ row, m.nextLocated.1 = .ok row → m.nextLocated.2.cursor.pos = m.cursor.pos + text.length := by
  obtain ⟨text, tail, hsplit, hlen, hrun, _⟩ := reach_split NumberState.step .integer bytes
  obtain ⟨hfront, hnum⟩ := longestFront_of_reach hb hsplit hlen hrun
  have hscan := scan_number hw hrest hb (n := m.cursor.pos + (b :: text).length) (by rw [← hlen]; rfl) rfl
  generalize halt NumberState.step .integer bytes = q at hrun hnum hscan
  refine ⟨b :: text, tail, hfront, ?_, ?_⟩
  · rw [nextLocated_fst hp, hscan]
    apply diagnosed_end hstart hoffset (by rw [hrest, hfront.split]) hnum
    intro want he
    obtain ⟨c, hlast, hends⟩ := NumberState.ends_of_foldlM (q := .integer) hb hrun
    exact NumberState.lacks_of_ends hlast hends he
  · intro row hrow
    have hok := (scan_of_nextLocated hp hrow).1
    rw [hscan] at hok
    have hend := unlessFailed_ok (congrArg Prod.fst hok)
    rw [hend] at hok
    rw [endNumber_eq (endNumber_ok (congrArg Prod.fst hok))] at hok
    rw [← congrArg Prod.snd hok]
    rfl

end

/-! ## Numbers of a run -/

section
variable {capacity : Nat} {source : Source} {l : Lexer BufferPair}

theorem atRest_after (h : ofSource capacity source = .ok l) : ∀ {n : Nat}, (l.after n).poisoned = false →
    AtRest capacity (l.after n) ((ofBytes source.pending).after n) ∧
      ((ofBytes source.pending).after n).poisoned = false ∧ (l.after n).cursor.source.fatals = source.fatals
  | 0, _ => ⟨(atRest_ofSource h).1, rfl, (atRest_ofSource h).2⟩
  | n + 1, hp => by
    have hbefore : (l.after n).poisoned = false := by
      rw [Bool.eq_false_iff]
      intro hpoisoned
      rw [after_of_poisoned hpoisoned 1, hpoisoned] at hp
      cases hp
    obtain ⟨hrest, hflat, hfatals⟩ := atRest_after h hbefore
    have hp : (l.after n).nextLocated.2.poisoned = false := hp
    cases hrest.call hflat with
    | tooLong _ _ hpoisoned | fault _ _ hpoisoned | error _ _ _ hpoisoned _ =>
      rw [hpoisoned] at hp
      cases hp
    | row _ _ _ hrest' hflat' hfatals' => exact ⟨hrest', hflat', hfatals'.trans hfatals⟩

/-- Where a token starts with a digit and does not grow too long, the call answers as the longest front of a
number that stands there, and the byte behind it, tell; unless a read fails for good. -/
theorem number_diagnosed (h : ofSource capacity source = .ok l) {n : Nat} (hp : (l.after n).poisoned = false)
    {b : Byte} (hbyte : source.pending[(l.after n).position.offset]? = some b) (hb : b.isDigit = true)
    (hshort : l.result n ≠ .error (.input (.lexemeTooLong capacity))) :
    (∃ fault, source.fatals.head? = some fault ∧ l.result n = .error (.input (.read fault))) ∨
      ∃ text tail, LongestFront (source.pending.drop (l.after n).position.offset) text tail ∧
        Diagnosed (l.after n).position text tail (l.result n) ∧
        ∀ row, l.result n = .ok row → (l.after (n + 1)).poisoned = false ∧
          (l.after (n + 1)).position.offset = (l.after n).position.offset + text.length := by
  obtain ⟨hrest, hflat, hfatals⟩ := atRest_after h hp
  obtain ⟨hw, hdata⟩ := kept_ofBytes source.pending n
  have hposition := (hrest.whole hrest.offset_eq).2
  have hpos := hrest.position_offset
  have hdrop : source.pending.drop (l.after n).position.offset =
      b :: source.pending.drop ((l.after n).position.offset + 1) := by
    obtain ⟨hlt, rfl⟩ := List.getElem?_eq_some_iff.mp hbyte
    exact List.drop_eq_getElem_cons hlt
  have hbytes : ((ofBytes source.pending).after n).cursor.rest = source.pending.drop (l.after n).position.offset := by
    rw [Flat.rest, hdata, hpos]
  rw [hdrop] at hbytes
  obtain ⟨text, tail, hfront, hdiagnosed, hend⟩ := diagnosed_call hrest.rest hrest.offset hw hflat hbytes hb
  rw [← hdrop] at hfront
  rw [← hposition] at hdiagnosed
  cases hrest.call hflat with
  | tooLong _ hlong _ => exact absurd hlong hshort
  | fault hfault hread _ =>
    rw [hfatals] at hfault
    exact Or.inl ⟨_, hfault, hread⟩
  | error _ hl hm _ _ =>
    rw [hm.trans hl.symm] at hdiagnosed
    refine Or.inr ⟨text, tail, hfront, hdiagnosed, ?_⟩
    intro row hrow
    rw [result, hl] at hrow
    cases hrow
  | row _ hl hm hrest' hflat' _ =>
    have hpos' : (l.after (n + 1)).position.offset = _ := hrest'.position_offset
    rw [hend _ hm, ← hpos] at hpos'
    rw [hm.trans hl.symm] at hdiagnosed
    exact Or.inr ⟨text, tail, hfront, hdiagnosed, fun _ _ => ⟨(poisoned_of_nextLocated_ok hl).2, hpos'⟩⟩

end

theorem number_diagnosed_behind_point :
    let source : Source := .ofEvents [.data [49, 50], .fail ⟨.interrupted, ""⟩, .data [46], .data [97]] none
    ∃ l, ofSource 2 source = .ok l ∧ (l.after 0).poisoned = false ∧
      source.pending[(l.after 0).position.offset]? = some 49 ∧ Byte.isDigit 49 = true ∧
      l.result 0 = .error (.unexpectedChar 'a' ⟨.fraction, "a digit after '.'"⟩ (Position.start.shift 3)) ∧
      ∃ text tail, LongestFront [49, 50, 46, 97] text tail ∧ Diagnosed .start text tail (l.result 0) := by
  intro source
  obtain ⟨l, hl⟩ := @exists_ofSource 2 source (by decide) (by decide)
  have hposition : l.position = .start := by
    obtain ⟨p, _, rfl⟩ := ofSource_eq_ok hl
    rfl
  have hpoisoned : l.poisoned = false := by
    obtain ⟨p, _, rfl⟩ := ofSource_eq_ok hl
    rfl
  have hrun : ((ofSource 2 source).toOption.bind fun l => match l.result 0 with
      | .error e => some e
      | .ok _ => none) =
        some (LexError.unexpectedChar 'a' ⟨.fraction, "a digit after '.'"⟩ (Position.start.shift 3)) := by
    decide +kernel
  have hresult : l.result 0 =
      .error (.unexpectedChar 'a' ⟨.fraction, "a digit after '.'"⟩ (Position.start.shift 3)) := by
    rw [hl] at hrun
    cases hr : l.result 0 with
    | ok row => simp [Except.toOption, hr] at hrun
    | error e => simpa [Except.toOption, hr] using hrun
  have hbyte : source.pending[(l.after 0).position.offset]? = some 49 := by
    show source.pending[l.position.offset]? = some 49
    rw [hposition]
    decide
  refine ⟨l, hl, hpoisoned, hbyte, by decide, hresult, ?_⟩
  rcases number_diagnosed (n := 0) hl hpoisoned hbyte (by decide) (by rw [hresult]; simp) with
    ⟨fault, hfault, _⟩ | ⟨text, tail, hfront, hdiagnosed, _⟩
  · cases hfault
  · rw [show (l.after 0).position = .start from hposition] at hfront hdiagnosed
    exact ⟨text, tail, hfront, hdiagnosed⟩

end Lexer

end StreamLexer
