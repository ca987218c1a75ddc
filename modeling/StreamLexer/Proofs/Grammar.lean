import StreamLexer.Proofs.Alphabet
import StreamLexer.Proofs.Reach

/-!
# The texts of tokens

What a token of each kind may be spelled like, and which byte behind a text would belong to the
same token. Words and runs of layout are told by the classes of their bytes; numbers have a
grammar of three parts, and their automaton accepts just that grammar.
-/

namespace StreamLexer

def AllDigits (text : List Byte) : Prop := ∀ b ∈ text, b.isDigit = true

def Digits (text : List Byte) : Prop := text ≠ [] ∧ AllDigits text

inductive IsWord : List Byte → Prop where
  | mk {b : Byte} {text : List Byte} : b.isLetter = true → (∀ c ∈ text, c.isWordPart = true) → IsWord (b :: text)

instance : (text : List Byte) → Decidable (IsWord text)
  | [] => isFalse nofun
  | b :: text =>
    decidable_of_iff (b.isLetter = true ∧ text.all Byte.isWordPart = true)
      ⟨fun h => .mk h.1 (List.all_eq_true.mp h.2), fun | .mk hb ht => ⟨hb, List.all_eq_true.mpr ht⟩⟩

inductive IsFraction : List Byte → Prop where
  | absent : IsFraction []
  | point {digits : List Byte} : Digits digits → IsFraction ('.'.toUInt8 :: digits)

inductive IsExponent : List Byte → Prop where
  | absent : IsExponent []
  | plain {digits : List Byte} : Digits digits → IsExponent ('E'.toUInt8 :: digits)
  | signed {sign : Byte} {digits : List Byte} : sign.isSign = true → Digits digits →
      IsExponent ('E'.toUInt8 :: sign :: digits)

/-- Digits, perhaps a fraction, perhaps an exponent. -/
inductive IsNumber : List Byte → Prop where
  | mk {whole fraction exponent : List Byte} : Digits whole → IsFraction fraction → IsExponent exponent →
      IsNumber (whole ++ (fraction ++ exponent))

inductive Kind where
  | word
  | number
  | operator (op : Operator)
  | layout
deriving DecidableEq, Repr

namespace Kind

/-- The text is one that a token of this kind may have. -/
def Spells : Kind → List Byte → Prop
  | .word, text => IsWord text
  | .number, text => IsNumber text
  | .operator op, text => Byte.text text = op.spelling
  | .layout, text => text ≠ [] ∧ ∀ b ∈ text, b.isLayout = true

/-- The byte would belong to the token if it stood behind the text. A number takes a point only in
its integer part, and an `E` only before its exponent. -/
def goesOn : Kind → List Byte → Byte → Bool
  | .word, _, b => b.isWordPart
  | .number, text, b =>
    b.isDigit || (b == 'E'.toUInt8 && !text.contains 'E'.toUInt8) ||
      (b == '.'.toUInt8 && !text.contains 'E'.toUInt8 && !text.contains '.'.toUInt8)
  | .operator .lt, _, b => b == '='.toUInt8 || b == '>'.toUInt8
  | .operator .gt, _, b => b == '='.toUInt8
  | .operator _, _, _ => false
  | .layout, _, b => b.isLayout

/-- What a token of this kind and text is looked up to. The text of layout is not kept. -/
def lexeme : Kind → List Byte → Option String
  | .layout, _ => none
  | _, text => some (Byte.text text)

/-- The text is a token of this kind, and goes on with no byte of what follows. -/
structure Longest (kind : Kind) (text tail : List Byte) : Prop where
  spells : kind.Spells text
  ends : ∀ b ∈ tail.head?, kind.goesOn text b = false

end Kind

def Token.kind? : Token → Option Kind
  | .word _ => some .word
  | .number _ => some .number
  | .operator op => some (.operator op)
  | .whitespace => some .layout
  | .eof => none

/-! ## Numbers -/

namespace NumberState

/-- What is still to come of a number in this state. -/
def Tail : NumberState → List Byte → Prop
  | .integer, text => ∃ digits fraction exponent, text = digits ++ (fraction ++ exponent) ∧
      AllDigits digits ∧ IsFraction fraction ∧ IsExponent exponent
  | .fractionStart, text => ∃ digits exponent, text = digits ++ exponent ∧ Digits digits ∧ IsExponent exponent
  | .fraction, text => ∃ digits exponent, text = digits ++ exponent ∧ AllDigits digits ∧ IsExponent exponent
  | .exponentStart, text => Digits text ∨ ∃ sign digits, text = sign :: digits ∧ sign.isSign = true ∧ Digits digits
  | .exponentSign, text => Digits text
  | .exponent, text => AllDigits text

end NumberState

theorem AllDigits.nil : AllDigits [] := fun b hb => by cases hb

theorem AllDigits.cons {b : Byte} {text : List Byte} (hb : b.isDigit = true) (h : AllDigits text) :
    AllDigits (b :: text) := List.forall_mem_cons.mpr ⟨hb, h⟩

theorem Digits.cons {b : Byte} {text : List Byte} (hb : b.isDigit = true) (h : AllDigits text) :
    Digits (b :: text) := ⟨List.cons_ne_nil b text, h.cons hb⟩

namespace NumberState

theorem tail_nil {q : NumberState} (h : q.expectation = none) : q.Tail [] := by
  cases q with
  | integer => exact ⟨[], [], [], rfl, .nil, .absent, .absent⟩
  | fraction => exact ⟨[], [], rfl, .nil, .absent⟩
  | exponent => exact .nil
  | fractionStart => cases h
  | exponentStart => cases h
  | exponentSign => cases h

theorem tail_cons {q q' : NumberState} {b : Byte} {text : List Byte} (hs : q.step b = some q')
    (h : q'.Tail text) : q.Tail (b :: text) := by
  cases q with
  | integer =>
    simp only [step] at hs
    split at hs
    · rename_i hb
      cases hs
      obtain ⟨digits, fraction, exponent, rfl, hd, hf, he⟩ := h
      exact ⟨b :: digits, fraction, exponent, rfl, hd.cons hb, hf, he⟩
    · split at hs
      · rename_i hb
        cases hs
        obtain ⟨digits, exponent, rfl, hd, he⟩ := h
        exact ⟨[], b :: digits, exponent, rfl, .nil, hb ▸ .point hd, he⟩
      · split at hs <;> cases hs
        rename_i hb
        refine ⟨[], [], b :: text, rfl, .nil, .absent, ?_⟩
        rcases h with hd | ⟨sign, digits, rfl, hsign, hd⟩
        · exact hb ▸ .plain hd
        · exact hb ▸ .signed hsign hd
  | fractionStart =>
    simp only [step] at hs
    split at hs <;> cases hs
    rename_i hb
    obtain ⟨digits, exponent, rfl, hd, he⟩ := h
    exact ⟨b :: digits, exponent, rfl, .cons hb hd, he⟩
  | fraction =>
    simp only [step] at hs
    split at hs
    · rename_i hb
      cases hs
      obtain ⟨digits, exponent, rfl, hd, he⟩ := h
      exact ⟨b :: digits, exponent, rfl, hd.cons hb, he⟩
    · split at hs <;> cases hs
      rename_i hb
      refine ⟨[], b :: text, rfl, .nil, ?_⟩
      rcases h with hd | ⟨sign, digits, rfl, hsign, hd⟩
      · exact hb ▸ .plain hd
      · exact hb ▸ .signed hsign hd
  | exponentStart =>
    simp only [step] at hs
    split at hs
    · rename_i hb
      cases hs
      exact Or.inl (.cons hb h)
    · split at hs <;> cases hs
      rename_i hb
      exact Or.inr ⟨b, text, rfl, hb, h⟩
  | exponentSign =>
    simp only [step] at hs
    split at hs <;> cases hs
    rename_i hb
    exact .cons hb h
  | exponent =>
    simp only [step] at hs
    split at hs <;> cases hs
    rename_i hb
    exact AllDigits.cons hb h

theorem tail_of_foldlM {q' : NumberState} (he : q'.expectation = none) : ∀ {text : List Byte} {q : NumberState},
    text.foldlM step q = some q' → q.Tail text
  | [], q, h => by
    have hq : q = q' := by simpa using h
    exact tail_nil (hq ▸ he)
  | b :: text, q, h => by
    rw [List.foldlM_cons] at h
    cases hs : q.step b with
    | none => simp [hs] at h
    | some p =>
      rw [hs] at h
      exact tail_cons hs (tail_of_foldlM he h)

theorem foldlM_digits {q : NumberState} (hq : ∀ b : Byte, b.isDigit = true → q.step b = some q) :
    ∀ {text : List Byte}, AllDigits text → text.foldlM step q = some q
  | [], _ => rfl
  | b :: text, h => by
    obtain ⟨hb, ht⟩ := List.forall_mem_cons.mp h
    rw [List.foldlM_cons, hq b hb]
    exact foldlM_digits hq ht

theorem foldlM_of_digits {q q' : NumberState} (hq : ∀ b : Byte, b.isDigit = true → q.step b = some q')
    (hq' : ∀ b : Byte, b.isDigit = true → q'.step b = some q') {text : List Byte} (h : Digits text) :
    text.foldlM step q = some q' := by
  cases text with
  | nil => exact absurd rfl h.1
  | cons b text =>
    obtain ⟨hb, ht⟩ := List.forall_mem_cons.mp h.2
    rw [List.foldlM_cons, hq b hb]
    exact foldlM_digits hq' ht

theorem foldlM_fraction {text : List Byte} (h : IsFraction text) :
    ∃ q, text.foldlM step .integer = some q ∧ (q = .integer ∨ q = .fraction) := by
  cases h with
  | absent => exact ⟨_, rfl, Or.inl rfl⟩
  | point hd =>
    refine ⟨.fraction, ?_, Or.inr rfl⟩
    rw [List.foldlM_cons]
    exact foldlM_of_digits (q := .fractionStart) (fun b hb => by simp [step, hb]) (fun b hb => by simp [step, hb]) hd

theorem foldlM_exponent {text : List Byte} (h : IsExponent text) {q : NumberState}
    (hq : q = .integer ∨ q = .fraction) : ∃ q', text.foldlM step q = some q' ∧ q'.expectation = none := by
  have hmark : q.step 'E'.toUInt8 = some .exponentStart := by
    rcases hq with rfl | rfl <;> decide
  cases h with
  | absent =>
    refine ⟨q, rfl, ?_⟩
    rcases hq with rfl | rfl <;> rfl
  | plain hd =>
    refine ⟨.exponent, ?_, rfl⟩
    rw [List.foldlM_cons, hmark]
    exact foldlM_of_digits (q := .exponentStart) (fun b hb => by simp [step, hb]) (fun b hb => by simp [step, hb]) hd
  | @signed sign _ hsign hd =>
    refine ⟨.exponent, ?_, rfl⟩
    have hnot : sign.isDigit = false := by
      rw [Byte.isSign_iff] at hsign
      rw [Bool.eq_false_iff, Ne, Byte.isDigit_iff]
      omega
    have hstep : step .exponentStart sign = some .exponentSign := by simp [step, hnot, hsign]
    rw [List.foldlM_cons, hmark]
    show List.foldlM step .exponentStart _ = some .exponent
    rw [List.foldlM_cons, hstep]
    exact foldlM_of_digits (q := .exponentSign) (fun b hb => by simp [step, hb]) (fun b hb => by simp [step, hb]) hd

end NumberState

/-- The automaton accepts the numbers: a digit, and then all that it takes up to a state that needs
nothing more. -/
theorem isNumber_iff {text : List Byte} :
    IsNumber text ↔ ∃ b rest q, text = b :: rest ∧ b.isDigit = true ∧
      rest.foldlM NumberState.step .integer = some q ∧ q.expectation = none := by
  constructor
  · rintro @⟨whole, fraction, exponent, hw, hf, he⟩
    cases whole with
    | nil => exact absurd rfl hw.1
    | cons b digits =>
      obtain ⟨hb, hd⟩ := List.forall_mem_cons.mp hw.2
      obtain ⟨q, hq, hmid⟩ := NumberState.foldlM_fraction hf
      obtain ⟨q', hq', hend⟩ := NumberState.foldlM_exponent he hmid
      have hdigits : digits.foldlM NumberState.step .integer = some .integer :=
        NumberState.foldlM_digits (fun c hc => by simp [NumberState.step, hc]) hd
      have hmore : (fraction ++ exponent).foldlM NumberState.step .integer = some q' := by
        rw [List.foldlM_append, hq]
        exact hq'
      refine ⟨b, digits ++ (fraction ++ exponent), q', rfl, hb, ?_, hend⟩
      rw [List.foldlM_append, hdigits]
      exact hmore
  · rintro ⟨b, rest, q, rfl, hb, hrun, hend⟩
    obtain ⟨digits, fraction, exponent, rfl, hd, hf, he⟩ := NumberState.tail_of_foldlM hend hrun
    exact .mk (.cons hb hd) hf he

instance : (text : List Byte) → Decidable (IsNumber text)
  | [] => isFalse fun h => (by obtain ⟨b, rest, q, he, _⟩ := isNumber_iff.mp h; cases he)
  | b :: text =>
    decidable_of_iff (b.isDigit = true ∧ ∃ q ∈ text.foldlM NumberState.step .integer, q.expectation = none) (by
      rw [isNumber_iff]
      constructor
      · rintro ⟨hb, q, hq, he⟩
        exact ⟨b, text, q, rfl, hb, hq, he⟩
      · rintro ⟨c, rest, q, heq, hb, hq, he⟩
        cases heq
        exact ⟨hb, q, hq, he⟩)

instance (kind : Kind) (text : List Byte) : Decidable (kind.Spells text) :=
  match kind with
  | .word => inferInstanceAs (Decidable (IsWord text))
  | .number => inferInstanceAs (Decidable (IsNumber text))
  | .operator op => inferInstanceAs (Decidable (Byte.text text = op.spelling))
  | .layout => inferInstanceAs (Decidable (text ≠ [] ∧ ∀ b ∈ text, b.isLayout = true))

/-! ## What a number may go on with -/

namespace NumberState

def inExponent : NumberState → Bool
  | .exponentStart => true
  | .exponentSign => true
  | .exponent => true
  | _ => false

structure Marks (q : NumberState) (text : List Byte) : Prop where
  exponent : 'E'.toUInt8 ∈ text ↔ q.inExponent = true
  integer : ('.'.toUInt8 ∉ text ∧ 'E'.toUInt8 ∉ text) ↔ q = .integer

theorem Marks.step {q q' : NumberState} {text : List Byte} {b : Byte} (h : q.Marks text)
    (hs : q.step b = some q') : q'.Marks (text ++ [b]) := by
  have hE : 'E'.toUInt8 ∈ text ++ [b] ↔ 'E'.toUInt8 ∈ text ∨ 'E'.toUInt8 = b := by simp
  have hp : '.'.toUInt8 ∈ text ++ [b] ↔ '.'.toUInt8 ∈ text ∨ '.'.toUInt8 = b := by simp
  have hdE : Byte.isDigit 'E'.toUInt8 = false := by decide
  have hdp : Byte.isDigit '.'.toUInt8 = false := by decide
  have hsE : Byte.isSign 'E'.toUInt8 = false := by decide
  have hsp : Byte.isSign '.'.toUInt8 = false := by decide
  have hne : '.'.toUInt8 ≠ 'E'.toUInt8 := by decide
  obtain ⟨h1, h2⟩ := h
  constructor
  · rw [hE, h1]
    cases q <;> simp only [NumberState.step] at hs <;> grind [inExponent]
  · rw [hE, hp]
    cases q <;> simp only [NumberState.step] at hs <;> grind [inExponent]

theorem Marks.foldlM : ∀ {rest text : List Byte} {q q' : NumberState}, q.Marks text →
    rest.foldlM NumberState.step q = some q' → q'.Marks (text ++ rest)
  | [], text, q, q', h, hr => by
    have hq : q = q' := by simpa using hr
    rw [List.append_nil, ← hq]
    exact h
  | b :: rest, text, q, q', h, hr => by
    rw [List.foldlM_cons] at hr
    cases hs : q.step b with
    | none => simp [hs] at hr
    | some p =>
      rw [hs] at hr
      have := (h.step hs).foldlM hr
      rwa [List.append_assoc] at this

theorem marks_digit {b : Byte} (hb : b.isDigit = true) : Marks .integer [b] := by
  have hdE : Byte.isDigit 'E'.toUInt8 = false := by decide
  have hdp : Byte.isDigit '.'.toUInt8 = false := by decide
  constructor <;> grind [inExponent]

theorem Marks.goesOn {q : NumberState} {text : List Byte} (h : q.Marks text) (he : q.expectation = none) (b : Byte) :
    Kind.number.goesOn text b = (q.step b).isSome := by
  obtain ⟨h1, h2⟩ := h
  cases q <;> simp only [NumberState.step, Kind.goesOn] <;> grind [inExponent, expectation]

end NumberState

theorem goesOn_number {b : Byte} {rest : List Byte} {q : NumberState} (hb : b.isDigit = true)
    (hrun : rest.foldlM NumberState.step .integer = some q) (he : q.expectation = none) (c : Byte) :
    Kind.number.goesOn (b :: rest) c = (q.step c).isSome :=
  ((NumberState.marks_digit hb).foldlM hrun).goesOn he c

/-! ## Operators -/

theorem Byte.text_injective {a b : List Byte} (h : text a = text b) : a = b := by
  refine (List.map_inj_right fun x y hxy => ?_).mp (String.ofList_injective h)
  have hnat : x.toUInt32.toNat = y.toUInt32.toNat := congrArg Char.toNat hxy
  rw [UInt8.toNat_toUInt32, UInt8.toNat_toUInt32] at hnat
  exact UInt8.toNat_inj.mp hnat

namespace Operator

def bytes (op : Operator) : List Byte := op.spelling.toList.map Char.toUInt8

theorem text_bytes (op : Operator) : Byte.text op.bytes = op.spelling := by
  cases op <;> decide

theorem eq_of_ofByte? {b : Byte} {op : Operator} (h : ofByte? b = some op) :
    (b = '<'.toUInt8 ∧ op = .lt) ∨ (b = '='.toUInt8 ∧ op = .eq) ∨ (b = '>'.toUInt8 ∧ op = .gt) := by
  unfold ofByte? at h
  grind

theorem bytes_of_ofByte? {b : Byte} {op : Operator} (h : ofByte? b = some op) : op.bytes = [b] := by
  rcases eq_of_ofByte? h with ⟨rfl, rfl⟩ | ⟨rfl, rfl⟩ | ⟨rfl, rfl⟩ <;> decide

theorem eq_of_extend {op op' : Operator} {c : Byte} (h : op.extend c = some op') :
    (op = .lt ∧ c = '='.toUInt8 ∧ op' = .le) ∨ (op = .lt ∧ c = '>'.toUInt8 ∧ op' = .ne) ∨
      (op = .gt ∧ c = '='.toUInt8 ∧ op' = .ge) := by
  cases op <;> simp only [extend] at h <;> grind

theorem bytes_of_extend {op op' : Operator} {c : Byte} (h : op.extend c = some op') :
    op.isOpen = true ∧ op'.isOpen = false ∧ op'.bytes = op.bytes ++ [c] := by
  rcases eq_of_extend h with ⟨rfl, rfl, rfl⟩ | ⟨rfl, rfl, rfl⟩ | ⟨rfl, rfl, rfl⟩ <;> decide

theorem extend_of_closed {op : Operator} (h : op.isOpen = false) (c : Byte) : op.extend c = none := by
  cases op with
  | lt => cases h
  | gt => cases h
  | _ => rfl

theorem bytes_cases (op : Operator) :
    (∃ b, op.bytes = [b] ∧ ofByte? b = some op) ∨
      ∃ b c op', op.bytes = [b, c] ∧ ofByte? b = some op' ∧ op'.extend c = some op := by
  cases op with
  | lt => exact Or.inl ⟨'<'.toUInt8, by decide⟩
  | eq => exact Or.inl ⟨'='.toUInt8, by decide⟩
  | gt => exact Or.inl ⟨'>'.toUInt8, by decide⟩
  | le => exact Or.inr ⟨'<'.toUInt8, '='.toUInt8, .lt, by decide⟩
  | ne => exact Or.inr ⟨'<'.toUInt8, '>'.toUInt8, .lt, by decide⟩
  | ge => exact Or.inr ⟨'>'.toUInt8, '='.toUInt8, .gt, by decide⟩

end Operator

namespace Kind

theorem spells_operator_iff {op : Operator} {text : List Byte} : Spells (.operator op) text ↔ text = op.bytes := by
  constructor
  · intro h
    exact Byte.text_injective (h.trans op.text_bytes.symm)
  · rintro rfl
    exact op.text_bytes

theorem Spells.ne_nil {kind : Kind} {text : List Byte} (h : kind.Spells text) : text ≠ [] := by
  cases kind with
  | word => cases h; exact List.cons_ne_nil _ _
  | number =>
    obtain ⟨b, rest, _, rfl, _⟩ := isNumber_iff.mp h
    exact List.cons_ne_nil _ _
  | operator op =>
    rw [spells_operator_iff.mp h]
    cases op <;> decide
  | layout => exact h.1

theorem Spells.isAscii_head {kind : Kind} {text : List Byte} (h : kind.Spells text) :
    ∀ b ∈ text.head?, b.isAscii = true := by
  intro b hb
  cases kind with
  | word =>
    cases h with
    | mk hl _ =>
      cases hb
      exact Byte.isAscii_of_isWordPart ((Byte.isWordPart_iff b).mpr (Or.inl hl))
  | number =>
    obtain ⟨c, rest, _, rfl, hd, _⟩ := isNumber_iff.mp h
    cases hb
    exact Byte.isAscii_of_isWordPart ((Byte.isWordPart_iff b).mpr (Or.inr hd))
  | operator op =>
    rw [spells_operator_iff.mp h] at hb
    cases op <;> cases hb <;> decide
  | layout => exact Byte.isAscii_of_isLayout (h.2 b (List.mem_of_mem_head? hb))

theorem goesOn_operator (op : Operator) (text : List Byte) (b : Byte) :
    goesOn (.operator op) text b = (op.extend b).isSome := by
  cases op <;> simp only [goesOn, Operator.extend] <;> grind

end Kind

end StreamLexer
