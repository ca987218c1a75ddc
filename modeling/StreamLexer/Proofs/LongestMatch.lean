import StreamLexer.Proofs.Grammar
import StreamLexer.Proofs.Naming
import StreamLexer.Proofs.Scanning

/-!
# Tokens are longest matches

Over the whole stream, a scan that gives out a token gives out the longest text of its kind that
stands at the cursor. Conversely, where a text of some kind stands at the cursor and goes on with
nothing behind it, the scan comes to the end of just that text.
-/

namespace StreamLexer

namespace Flat

theorem data_of_rest {f : Flat} {text tail : List Byte} (h : f.rest = text ++ tail) :
    f.data[f.pos + text.length]? = tail.head? := by
  have hget : f.rest[text.length]? = f.data[f.pos + text.length]? := by
    rw [rest, List.getElem?_drop, Array.getElem?_toList]
  rw [← hget, h, List.getElem?_append_right (Nat.le_refl _), Nat.sub_self, List.head?_eq_getElem?]

theorem rest_goto {f : Flat} {text tail : List Byte} (h : f.rest = text ++ tail) :
    (f.goto (f.pos + text.length)).rest = tail := by
  have : (f.goto (f.pos + text.length)).rest = f.rest.drop text.length := by
    simp only [rest, goto, List.drop_drop]
  rw [this, h, List.drop_left]

theorem peek_of_rest {f : Flat} {b : Byte} {bytes : List Byte} (h : f.rest = b :: bytes) (ha : b.isAscii = true) :
    f.peek f.pos = .char b := by
  have h : f.rest = [] ++ b :: bytes := h
  have hd : f.data[f.pos]? = some b := data_of_rest h
  simp [peek, hd, ha]

theorem peek_ne_failed {f : Flat} {text tail : List Byte} (h : f.rest = text ++ tail)
    (ha : ∀ b ∈ tail.head?, b.isAscii = true) (e : InputError) : f.peek (f.pos + text.length) ≠ .failed e := by
  intro hp
  obtain ⟨b, hb, hn, _⟩ := peek_eq_failed hp
  rw [data_of_rest h] at hb
  rw [ha b hb] at hn
  cases hn

end Flat

theorem reach_split {Q : Type} (step : Q → Byte → Option Q) (q : Q) (bytes : List Byte) :
    ∃ text tail, bytes = text ++ tail ∧ text.length = reach step q bytes ∧
      text.foldlM step q = some (halt step q bytes) ∧ ∀ b ∈ tail.head?, step (halt step q bytes) b = none := by
  refine ⟨bytes.take (reach step q bytes), bytes.drop (reach step q bytes), ?_, ?_, foldlM_take_reach q bytes, ?_⟩
  · exact (List.take_append_drop _ _).symm
  · rw [List.length_take]
    exact Nat.min_eq_left (reach_le_length q bytes)
  · intro b hb
    rw [List.head?_drop] at hb
    exact step_halt_eq_none q bytes hb

theorem Kind.Longest.word {text tail : List Byte} (h : Kind.word.Longest text tail) :
    ∃ b more, text = b :: more ∧ b.isLetter = true ∧ reach Lexer.wordStep () (more ++ tail) = more.length := by
  obtain ⟨@⟨b, more, hb, hpart⟩, hend⟩ := h
  have hstop : ∀ c ∈ tail.head?, stay Byte.isWordPart () c = none := fun c hc => stay_eq_none.mpr (hend c hc)
  exact ⟨b, more, rfl, hb, (reach_append tail (foldlM_stay.mpr hpart) hstop).1⟩

theorem Kind.Longest.number {text tail : List Byte} (h : Kind.number.Longest text tail) :
    ∃ b more q, text = b :: more ∧ b.isDigit = true ∧
      reach NumberState.step .integer (more ++ tail) = more.length ∧
      halt NumberState.step .integer (more ++ tail) = q ∧ q.expectation = none := by
  obtain ⟨hnum, hend⟩ := h
  obtain ⟨b, more, q, rfl, hb, hrun, he⟩ := isNumber_iff.mp hnum
  have hstop : ∀ c ∈ tail.head?, q.step c = none := by
    intro c hc
    have := hend c hc
    rw [goesOn_number hb hrun he] at this
    simpa using this
  obtain ⟨hreach, hhalt⟩ := reach_append tail hrun hstop
  exact ⟨b, more, q, rfl, hb, hreach, hhalt, he⟩

theorem Kind.Longest.layout {text tail : List Byte} (h : Kind.layout.Longest text tail) :
    ∃ b more, text = b :: more ∧ b.isLayout = true ∧
      reach (stay Byte.isLayout) () (more ++ tail) = more.length := by
  obtain ⟨⟨hne, hall⟩, hend⟩ := h
  cases text with
  | nil => exact absurd rfl hne
  | cons b more =>
    obtain ⟨hb, hmore⟩ := List.forall_mem_cons.mp hall
    have hstop : ∀ c ∈ tail.head?, stay Byte.isLayout () c = none := fun c hc => stay_eq_none.mpr (hend c hc)
    exact ⟨b, more, rfl, hb, (reach_append tail (foldlM_stay.mpr hmore) hstop).1⟩

theorem getElem?_of_lexeme {words : Lexicon} {w : Word} {text : List Byte} (hs : Kind.word.Spells text)
    (hl : (Token.word w).lexeme words = Kind.word.lexeme text) :
    words.texts[w.name.index]? = some (Byte.text text) := by
  have hl : words.text w.name = Byte.text text := Option.some.inj hl
  have hne : words.text w.name ≠ "" := fun e => hs.ne_nil (Byte.text_injective (hl.symm.trans e))
  rw [Lexicon.getElem?_of_text hne, hl]

theorem lexeme_of_extends {words words' : Lexicon} (h : words'.Extends words) {token : Token} {kind : Kind}
    {text : List Byte} (hk : token.kind? = some kind) (hs : kind.Spells text)
    (hl : token.lexeme words = kind.lexeme text) : token.lexeme words' = kind.lexeme text := by
  cases token with
  | word w =>
    cases hk
    show some (words'.text w.name) = some (Byte.text text)
    rw [Lexicon.text_of_getElem? (h.getElem? (getElem?_of_lexeme hs hl))]
  | _ => exact hl

namespace Lexer

def finish {σ : Type} [Cursor σ] (l : Lexer σ) : Kind → Except LexError Token × Lexer σ
  | .word => l.finishWord
  | .number => l.finishNumber
  | .operator op => l.finishOperator op
  | .layout => (.ok .whitespace, l.takeLexeme.2)

section
variable {σ : Type} [Cursor σ] {l l' : Lexer σ} {kind : Kind} {t : Token}

theorem finishWord_ok (h : l.finishWord = (.ok t, l')) :
    ∃ w words, t = .word w ∧ l.words.resolve (Byte.text (Cursor.take l.cursor).1) = .ok (w, words) ∧
      l' = { l.takeLexeme.2 with words } := by
  simp only [finishWord] at h
  split at h <;> cases h
  rename_i w words hr
  exact ⟨w, words, rfl, hr, rfl⟩

theorem kind?_of_finish (h : l.finish kind = (.ok t, l')) : t.kind? = some kind := by
  cases kind with
  | word =>
    obtain ⟨w, words, rfl, _, _⟩ := finishWord_ok h
    rfl
  | number => cases h; rfl
  | operator op => cases h; rfl
  | layout => cases h; rfl

theorem finish_ok (h : l.finish kind = (.ok t, l')) (hc : l.words.Consistent)
    (hs : kind.Spells (Cursor.take l.cursor).1) :
    t.lexeme l'.words = kind.lexeme (Cursor.take l.cursor).1 ∧ l'.cursor = (Cursor.take l.cursor).2 ∧
      l'.position = l.position.advance (Cursor.take l.cursor).1 := by
  cases kind with
  | word =>
    obtain ⟨w, words, rfl, hr, rfl⟩ := finishWord_ok h
    refine ⟨?_, rfl, rfl⟩
    show some (words.text w.name) = some (Byte.text (Cursor.take l.cursor).1)
    rw [Lexicon.text_of_getElem? (hc.getElem?_resolve hr)]
  | number =>
    cases h
    exact ⟨rfl, rfl, rfl⟩
  | operator op =>
    cases h
    have hs : Byte.text (Cursor.take l.cursor).1 = op.spelling := hs
    refine ⟨?_, rfl, rfl⟩
    show some op.spelling = some (Byte.text (Cursor.take l.cursor).1)
    rw [hs]
  | layout =>
    cases h
    exact ⟨rfl, rfl, rfl⟩

theorem words_of_finish (h : l.finish kind = (.ok t, l')) {s : String} (hs : s ∈ l'.words.texts.toList) :
    s ∈ l.words.texts.toList ∨ (kind = .word ∧ s = Byte.text (Cursor.take l.cursor).1) := by
  cases kind with
  | word =>
    obtain ⟨w, words, rfl, hr, rfl⟩ := finishWord_ok h
    rcases Lexicon.resolve_cases hr with ⟨_, rfl⟩ | ⟨_, _, _, rfl⟩
    · exact Or.inl hs
    · have hs : s ∈ (l.words.texts.push (Byte.text (Cursor.take l.cursor).1)).toList := hs
      rw [Array.toList_push, List.mem_append, List.mem_singleton] at hs
      exact hs.imp_right fun e => ⟨rfl, e⟩
  | number => cases h; exact Or.inl hs
  | operator op => cases h; exact Or.inl hs
  | layout => cases h; exact Or.inl hs

theorem finish_error {e : LexError} (h : l.finish kind = (.error e, l')) :
    kind = .word ∧ l.words.find? (Byte.text (Cursor.take l.cursor).1) = none ∧ Lexicon.maxIndex < l.words.size := by
  cases kind with
  | word =>
    have h : l.finishWord = (.error e, l') := h
    simp only [finishWord] at h
    split at h <;> cases h
    rename_i hr
    exact ⟨rfl, Lexicon.resolve_error hr⟩
  | number => cases h
  | operator op => cases h
  | layout => cases h

end

/-! ## Where the scans end -/

section
variable {m : Lexer Flat} (hw : m.cursor.window = none) {b : Byte} {bytes : List Byte}
  (hrest : m.cursor.rest = b :: bytes)
include hw hrest

omit hw in
theorem rest_seek : (m.seek (m.cursor.pos + 1)).cursor.rest = bytes := by
  have hrest : m.cursor.rest = [b] ++ bytes := hrest
  exact Flat.rest_goto hrest

theorem scan_word {n : Nat} (hb : b.isLetter = true) (hn : m.cursor.pos + (reach wordStep () bytes + 1) = n) :
    m.scan = m.unlessFailed n ((m.seek n).finish .word) := by
  have ha : b.isAscii = true := Byte.isAscii_of_isWordPart ((Byte.isWordPart_iff b).mpr (Or.inl hb))
  rw [scan_flat m hw, Flat.peek_of_rest hrest ha]
  simp only [hb, if_true]
  apply scanWord_flat (m.seek (m.cursor.pos + 1)) hw
  rw [rest_seek hrest, ← hn]
  show m.cursor.pos + 1 + _ = _
  omega

theorem scan_number {n : Nat} {q : NumberState} (hb : b.isDigit = true)
    (hn : m.cursor.pos + (reach NumberState.step .integer bytes + 1) = n)
    (hq : halt NumberState.step .integer bytes = q) :
    m.scan = m.unlessFailed n (m.endNumber n q) := by
  have ha : b.isAscii = true := Byte.isAscii_of_isWordPart ((Byte.isWordPart_iff b).mpr (Or.inr hb))
  have hl : b.isLetter = false := Byte.not_isLetter_of_isDigit hb
  rw [scan_flat m hw, Flat.peek_of_rest hrest ha]
  simp only [hl, hb, if_true, Bool.false_eq_true, if_false]
  apply scanNumber_flat (m.seek (m.cursor.pos + 1)) hw
  · rw [rest_seek hrest, ← hn]
    show m.cursor.pos + 1 + _ = _
    omega
  · rw [rest_seek hrest]
    exact hq

theorem scan_layout {n : Nat} (hb : b.isLayout = true)
    (hn : m.cursor.pos + (reach (stay Byte.isLayout) () bytes + 1) = n) :
    m.scan = m.unlessFailed n ((m.seek n).finish .layout) := by
  obtain ⟨hl, hd⟩ := Byte.not_isWordPart_of_isLayout hb
  rw [scan_flat m hw, Flat.peek_of_rest hrest (Byte.isAscii_of_isLayout hb)]
  simp only [hl, hd, hb, if_true, Bool.false_eq_true, if_false]
  apply scanLayout_flat (m.seek (m.cursor.pos + 1)) hw
  rw [rest_seek hrest, ← hn]
  show m.cursor.pos + 1 + _ = _
  omega

theorem scan_operator {op : Operator} (hb : Operator.ofByte? b = some op) :
    m.scan =
      if op.isOpen then
        match m.cursor.peek (m.cursor.pos + 1) with
        | .failed e => (.error (.input e), m.seek (m.cursor.pos + 1))
        | .eof => (m.seek (m.cursor.pos + 1)).finish (.operator op)
        | .char c =>
          match op.extend c with
          | some op' => (m.seek (m.cursor.pos + 2)).finish (.operator op')
          | none => (m.seek (m.cursor.pos + 1)).finish (.operator op)
      else (m.seek (m.cursor.pos + 1)).finish (.operator op) := by
  have hclass : b.isAscii = true ∧ b.isLetter = false ∧ b.isDigit = false ∧ b.isLayout = false := by
    rcases Operator.eq_of_ofByte? hb with ⟨rfl, _⟩ | ⟨rfl, _⟩ | ⟨rfl, _⟩ <;> decide
  obtain ⟨ha, hl, hd, hy⟩ := hclass
  rw [scan_flat m hw, Flat.peek_of_rest hrest ha]
  simp only [hl, hd, hy, hb, Bool.false_eq_true, if_false]
  exact scanOperator_flat (m.seek (m.cursor.pos + 1)) hw op

/-! ## Soundness -/

/-- At the cursor stands a longest text of this kind, and the scan makes its token. -/
structure Finds (m : Lexer Flat) (kind : Kind) (text tail : List Byte) : Prop where
  rest : m.cursor.rest = text ++ tail
  longest : kind.Longest text tail
  scan : m.scan = (m.seek (m.cursor.pos + text.length)).finish kind

theorem finds_word (hb : b.isLetter = true) {t : Token} (h : m.scan.1 = .ok t) :
    ∃ text tail, m.Finds .word text tail := by
  obtain ⟨text, tail, hsplit, hlen, hrun, hend⟩ := reach_split wordStep () bytes
  have hscan := scan_word hw hrest hb rfl
  rw [← hlen] at hscan
  refine ⟨b :: text, tail, by rw [hrest, hsplit]; rfl, ⟨.mk hb (foldlM_stay.mp hrun), ?_⟩, ?_⟩
  · intro c hc
    exact stay_eq_none.mp (hend c hc)
  · rw [hscan] at h
    exact hscan.trans (unlessFailed_ok h)

theorem finds_number (hb : b.isDigit = true) {t : Token} (h : m.scan.1 = .ok t) :
    ∃ text tail, m.Finds .number text tail := by
  obtain ⟨text, tail, hsplit, hlen, hrun, hend⟩ := reach_split NumberState.step .integer bytes
  have hscan := scan_number hw hrest hb rfl rfl
  rw [← hlen] at hscan
  generalize halt NumberState.step .integer bytes = q at hrun hend hscan
  rw [hscan] at h
  have hclosed := unlessFailed_ok h
  rw [hclosed] at h
  have he := endNumber_ok h
  refine ⟨b :: text, tail, by rw [hrest, hsplit]; rfl, ⟨?_, ?_⟩, ?_⟩
  · exact isNumber_iff.mpr ⟨b, text, q, rfl, hb, hrun, he⟩
  · intro c hc
    rw [goesOn_number hb hrun he, hend c hc]
    rfl
  · exact hscan.trans (hclosed.trans (endNumber_eq he))

theorem finds_layout (hb : b.isLayout = true) {t : Token} (h : m.scan.1 = .ok t) :
    ∃ text tail, m.Finds .layout text tail := by
  obtain ⟨text, tail, hsplit, hlen, hrun, hend⟩ := reach_split (stay Byte.isLayout) () bytes
  have hscan := scan_layout hw hrest hb rfl
  rw [← hlen] at hscan
  refine ⟨b :: text, tail, by rw [hrest, hsplit]; rfl, ⟨⟨List.cons_ne_nil b text, ?_⟩, ?_⟩, ?_⟩
  · exact List.forall_mem_cons.mpr ⟨hb, foldlM_stay.mp hrun⟩
  · intro c hc
    exact stay_eq_none.mp (hend c hc)
  · rw [hscan] at h
    exact hscan.trans (unlessFailed_ok h)

theorem finds_operator {op : Operator} (hb : Operator.ofByte? b = some op) {t : Token} (h : m.scan.1 = .ok t) :
    ∃ op' text tail, m.Finds (.operator op') text tail := by
  have hscan := scan_operator hw hrest hb
  have hspells : Kind.Spells (.operator op) [b] :=
    Kind.spells_operator_iff.mpr (Operator.bytes_of_ofByte? hb).symm
  have hdata : m.cursor.data[m.cursor.pos + 1]? = bytes.head? := by
    have hrest : m.cursor.rest = [b] ++ bytes := hrest
    exact Flat.data_of_rest hrest
  by_cases hopen : op.isOpen = true
  · simp only [hopen, if_true] at hscan
    cases hp : m.cursor.peek (m.cursor.pos + 1) with
    | failed e => rw [hscan, hp] at h; cases h
    | eof =>
      have hnil : bytes.head? = none := by
        rw [← hdata]
        exact Array.getElem?_eq_none (Flat.peek_eq_eof hp)
      refine ⟨op, [b], bytes, hrest, ⟨hspells, fun c hc => ?_⟩, by rw [hscan, hp]; rfl⟩
      rw [hnil] at hc
      cases hc
    | char c =>
      have hc := (Flat.peek_eq_char hp).1
      rw [hdata] at hc
      rw [hp] at hscan
      cases hx : op.extend c with
      | none =>
        simp only [hx] at hscan
        refine ⟨op, [b], bytes, hrest, ⟨hspells, fun c' hc' => ?_⟩, hscan⟩
        have : c' = c := Option.some.inj (hc'.symm.trans hc)
        rw [Kind.goesOn_operator, this, hx]
        rfl
      | some op' =>
        simp only [hx] at hscan
        obtain ⟨_, hclosed, hbytes⟩ := Operator.bytes_of_extend hx
        rw [Operator.bytes_of_ofByte? hb] at hbytes
        obtain ⟨more, rfl⟩ : ∃ more, bytes = c :: more := List.head?_eq_some_iff.mp hc
        refine ⟨op', [b, c], more, hrest, ⟨Kind.spells_operator_iff.mpr hbytes.symm, fun c' _ => ?_⟩, hscan⟩
        rw [Kind.goesOn_operator, Operator.extend_of_closed hclosed]
        rfl
  · simp only [hopen, Bool.false_eq_true, if_false] at hscan
    refine ⟨op, [b], bytes, hrest, ⟨hspells, fun c _ => ?_⟩, hscan⟩
    rw [Kind.goesOn_operator, Operator.extend_of_closed (by simpa using hopen)]
    rfl

end

theorem scan_eof {m : Lexer Flat} (hw : m.cursor.window = none) (h : m.cursor.peek m.cursor.pos = .eof) :
    m.scan = (.ok .eof, m) := by
  rw [scan_flat m hw, h]

/-- A scan that gives out a token has found it, or has found the end of the stream. -/
theorem scan_finds {m : Lexer Flat} (hw : m.cursor.window = none) {t : Token} (h : m.scan.1 = .ok t) :
    m.cursor.peek m.cursor.pos = .eof ∨ ∃ kind text tail, m.Finds kind text tail := by
  have hscan := scan_flat m hw
  cases hp : m.cursor.peek m.cursor.pos with
  | failed e => rw [hscan, hp] at h; cases h
  | eof => exact Or.inl rfl
  | char b =>
    apply Or.inr
    have hrest := Flat.rest_of_peek (Flat.peek_eq_char hp).1
    by_cases hl : b.isLetter = true
    · exact ⟨.word, finds_word hw hrest hl h⟩
    by_cases hd : b.isDigit = true
    · exact ⟨.number, finds_number hw hrest hd h⟩
    by_cases hy : b.isLayout = true
    · exact ⟨.layout, finds_layout hw hrest hy h⟩
    cases ho : Operator.ofByte? b with
    | some op =>
      obtain ⟨op', hfinds⟩ := finds_operator hw hrest ho h
      exact ⟨.operator op', hfinds⟩
    | none =>
      rw [hscan, hp] at h
      simp [hl, hd, hy, ho] at h

theorem take_seek {m : Lexer Flat} (hstart : m.cursor.start = m.cursor.pos) {text tail : List Byte}
    (hrest : m.cursor.rest = text ++ tail) :
    (Cursor.take (m.seek (m.cursor.pos + text.length)).cursor).1 = text := by
  show (m.cursor.data.extract m.cursor.start (m.cursor.pos + text.length)).toList = text
  have hdrop : m.cursor.data.toList.drop m.cursor.pos = text ++ tail := hrest
  rw [Array.toList_extract, List.extract_eq_take_drop, hstart, hdrop, Nat.add_sub_cancel_left, List.take_left]

theorem token_of_finish {m m' : Lexer Flat} {kind : Kind} {text tail : List Byte} {t : Token}
    (hstart : m.cursor.start = m.cursor.pos) (hc : m.words.Consistent) (hrest : m.cursor.rest = text ++ tail)
    (hs : kind.Spells text) (h : (m.seek (m.cursor.pos + text.length)).finish kind = (.ok t, m')) :
    t.kind? = some kind ∧ t.lexeme m'.words = kind.lexeme text ∧
      m'.cursor = ⟨m.cursor.data, m.cursor.window, m.cursor.pos + text.length, m.cursor.pos + text.length⟩ ∧
      m'.position = m.position.advance text := by
  have htake := take_seek hstart hrest
  obtain ⟨hlexeme, hcursor, hposition⟩ := finish_ok h hc (by rw [htake]; exact hs)
  rw [htake] at hlexeme hposition
  exact ⟨kind?_of_finish h, hlexeme, hcursor, hposition⟩

/-! ## Completeness -/

section
variable {m : Lexer Flat} (hw : m.cursor.window = none) {text tail : List Byte}
  (hrest : m.cursor.rest = text ++ tail) (ha : ∀ b ∈ tail.head?, b.isAscii = true)
include hw hrest ha

theorem scan_of_longest_word (h : Kind.word.Longest text tail) :
    m.scan = (m.seek (m.cursor.pos + text.length)).finish .word := by
  obtain ⟨b, more, rfl, hb, hreach⟩ := h.word
  have hscan := scan_word hw hrest hb (n := m.cursor.pos + (more.length + 1)) (by rw [← hreach]; rfl)
  exact hscan.trans (unlessFailed_eq (Flat.peek_ne_failed hrest ha))

theorem scan_of_longest_number (h : Kind.number.Longest text tail) :
    m.scan = (m.seek (m.cursor.pos + text.length)).finish .number := by
  obtain ⟨b, more, q, rfl, hb, hreach, hhalt, he⟩ := h.number
  have hscan := scan_number hw hrest hb (n := m.cursor.pos + (more.length + 1)) (by rw [← hreach]; rfl) hhalt
  exact hscan.trans ((unlessFailed_eq (Flat.peek_ne_failed hrest ha)).trans (endNumber_eq he))

theorem scan_of_longest_layout (h : Kind.layout.Longest text tail) :
    m.scan = (m.seek (m.cursor.pos + text.length)).finish .layout := by
  obtain ⟨b, more, rfl, hb, hreach⟩ := h.layout
  have hscan := scan_layout hw hrest hb (n := m.cursor.pos + (more.length + 1)) (by rw [← hreach]; rfl)
  exact hscan.trans (unlessFailed_eq (Flat.peek_ne_failed hrest ha))

theorem scan_of_longest_operator {op : Operator} (h : (Kind.operator op).Longest text tail) :
    m.scan = (m.seek (m.cursor.pos + text.length)).finish (.operator op) := by
  obtain ⟨hspells, hend⟩ := h
  obtain rfl := Kind.spells_operator_iff.mp hspells
  rcases op.bytes_cases with ⟨b, hbytes, hb⟩ | ⟨b, c, op', hbytes, hb, hx⟩
  -- a single byte: what stands behind it must not extend the operator
  · rw [hbytes] at hrest ⊢
    rw [scan_operator hw hrest hb]
    by_cases hopen : op.isOpen = true
    · simp only [hopen, if_true]
      cases hp : m.cursor.peek (m.cursor.pos + 1) with
      | failed e => exact absurd hp (Flat.peek_ne_failed hrest ha e)
      | eof => rfl
      | char c =>
        have hc := (Flat.peek_eq_char hp).1
        have hc : tail.head? = some c := (Flat.data_of_rest hrest).symm.trans hc
        have hx := hend c hc
        rw [Kind.goesOn_operator] at hx
        cases hxc : op.extend c with
        | none => simp only [hxc]; rfl
        | some op' => rw [hxc] at hx; cases hx
    · simp only [hopen, Bool.false_eq_true, if_false]
      rfl
  -- two bytes: the first one alone is an open operator, and the second one closes it
  · rw [hbytes] at hrest ⊢
    rw [scan_operator hw hrest hb, (Operator.bytes_of_extend hx).1]
    have hc : m.cursor.data[m.cursor.pos + 1]? = some c := by
      have hrest : m.cursor.rest = [b] ++ c :: tail := hrest
      exact Flat.data_of_rest hrest
    have hp : m.cursor.peek (m.cursor.pos + 1) = .char c := by
      have hascii : c.isAscii = true := by
        rcases Operator.eq_of_extend hx with ⟨_, rfl, _⟩ | ⟨_, rfl, _⟩ | ⟨_, rfl, _⟩ <;> decide
      simp [Flat.peek, hc, hascii]
    simp only [if_true, hp, hx]
    rfl

/-- A text that goes on with nothing behind it is the next token. -/
theorem scan_of_longest {kind : Kind} (h : kind.Longest text tail) :
    m.scan = (m.seek (m.cursor.pos + text.length)).finish kind := by
  cases kind with
  | word => exact scan_of_longest_word hw hrest ha h
  | number => exact scan_of_longest_number hw hrest ha h
  | operator op => exact scan_of_longest_operator hw hrest ha h
  | layout => exact scan_of_longest_layout hw hrest ha h

end

end Lexer

end StreamLexer
