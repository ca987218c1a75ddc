import Mathlib.Algebra.Group.Nat.Defs
import Mathlib.Data.List.Chain
import Mathlib.Data.List.Dedup
import StreamLexer.Proofs.LongestMatch
import StreamLexer.Proofs.Transparency

/-!
# Lexing undoes concatenation

Texts of tokens that are put in a row are given out again one by one, each as a token of its kind,
if none goes on with the first byte of the next one and the halves are no shorter than any word
or number among them. The only other thing they need is names for all their words, and there
are `2 ^ 32` names.
-/

namespace StreamLexer

structure Piece where
  kind : Kind
  text : List Byte
deriving DecidableEq

namespace Piece

/-- The first piece does not go on with the first byte of the second one. -/
def Apart (p q : Piece) : Prop := ∀ b ∈ q.text.head?, p.kind.goesOn p.text b = false

instance : DecidableRel Apart := fun p q =>
  inferInstanceAs (Decidable (∀ b ∈ q.text.head?, p.kind.goesOn p.text b = false))

structure Separated (pieces : List Piece) : Prop where
  spells : ∀ p ∈ pieces, p.kind.Spells p.text
  apart : pieces.IsChain Apart

instance (pieces : List Piece) : Decidable (Separated pieces) :=
  decidable_of_iff ((∀ p ∈ pieces, p.kind.Spells p.text) ∧ pieces.IsChain Apart)
    ⟨fun h => ⟨h.1, h.2⟩, fun h => ⟨h.spells, h.apart⟩⟩

def stream (pieces : List Piece) : List Byte := pieces.flatMap Piece.text

/-- The words that need a name: the keywords and those among the pieces, each once. -/
def vocabulary (pieces : List Piece) : List String :=
  (Keyword.all.map Keyword.spelling ++
    (pieces.filter fun p => p.kind = .word).map fun p => Byte.text p.text).dedup

theorem mem_vocabulary {pieces : List Piece} {p : Piece} (hp : p ∈ pieces) (hk : p.kind = .word) :
    Byte.text p.text ∈ vocabulary pieces := by
  apply List.mem_dedup.mpr
  apply List.mem_append_right
  exact List.mem_map.mpr ⟨p, List.mem_filter.mpr ⟨hp, by simpa using hk⟩, rfl⟩

theorem Separated.tail {p : Piece} {pieces : List Piece} (h : Separated (p :: pieces)) : Separated pieces :=
  ⟨(List.forall_mem_cons.mp h.spells).2, (List.isChain_cons.mp h.apart).2⟩

theorem Separated.head_stream {pieces : List Piece} (h : Separated pieces) {b : Byte}
    (hb : b ∈ (stream pieces).head?) : ∃ q ∈ pieces.head?, b ∈ q.text.head? := by
  cases pieces with
  | nil => cases hb
  | cons q pieces =>
    have hne := (h.spells q List.mem_cons_self).ne_nil
    refine ⟨q, rfl, ?_⟩
    rw [stream, List.flatMap_cons, List.head?_append] at hb
    cases hq : q.text.head? with
    | none => exact absurd (List.head?_eq_none_iff.mp hq) hne
    | some c =>
      rw [hq] at hb
      exact hb

theorem Separated.longest {p : Piece} {pieces : List Piece} (h : Separated (p :: pieces)) :
    p.kind.Longest p.text (stream pieces) := by
  refine ⟨h.spells p List.mem_cons_self, fun b hb => ?_⟩
  obtain ⟨q, hq, hbq⟩ := h.tail.head_stream hb
  exact (List.isChain_cons.mp h.apart).1 q hq b hbq

theorem Separated.isAscii_head {pieces : List Piece} (h : Separated pieces) :
    ∀ b ∈ (stream pieces).head?, b.isAscii = true := by
  intro b hb
  obtain ⟨q, hq, hbq⟩ := h.head_stream hb
  exact (h.spells q (List.mem_of_mem_head? hq)).isAscii_head b hbq

end Piece

theorem extent_of_longest {data text tail : List Byte} {o w : Nat} {kind : Kind} (hdrop : data.drop o = text ++ tail)
    (h : kind.Longest text tail) (hw : Lexer.extent data o = some w) :
    (kind = .word ∨ kind = .number) ∧ w = text.length := by
  cases kind with
  | word =>
    obtain ⟨b, more, rfl, hb, hreach⟩ := h.word
    rw [Lexer.extent_letter hdrop hb] at hw
    cases hw
    exact ⟨Or.inl rfl, congrArg (· + 1) hreach⟩
  | number =>
    obtain ⟨b, more, q, rfl, hb, hreach, _⟩ := h.number
    rw [Lexer.extent_digit hdrop (Byte.not_isLetter_of_isDigit hb) hb] at hw
    cases hw
    exact ⟨Or.inr rfl, congrArg (· + 1) hreach⟩
  | layout =>
    obtain ⟨b, more, rfl, hb, _⟩ := h.layout
    obtain ⟨hl, hd⟩ := Byte.not_isWordPart_of_isLayout hb
    rw [Lexer.extent_other hdrop hl hd] at hw
    cases hw
  | operator op =>
    obtain rfl := Kind.spells_operator_iff.mp h.spells
    have hfirst : ∃ b more, op.bytes = b :: more ∧ b.isLetter = false ∧ b.isDigit = false := by
      cases op <;> exact ⟨_, _, rfl, by decide, by decide⟩
    obtain ⟨b, more, hbytes, hl, hd⟩ := hfirst
    rw [hbytes] at hdrop
    rw [Lexer.extent_other hdrop hl hd] at hw
    cases hw

namespace Lexer

/-- The lexer stands before the pieces. Their words, and those that it has named, are on a list. -/
structure Stands (words : List String) (data : List Byte) (m : Lexer Flat) (pieces : List Piece) : Prop where
  separated : Piece.Separated pieces
  listed : ∀ p ∈ pieces, p.kind = .word → Byte.text p.text ∈ words
  free : m.cursor.window = none
  data : m.cursor.data = data.toArray
  rest : m.cursor.rest = Piece.stream pieces
  start : m.cursor.start = m.cursor.pos
  offset : m.position.offset = m.cursor.pos
  running : m.poisoned = false
  consistent : m.words.Consistent
  named : m.words.texts.toList ⊆ words

section
variable {words : List String} {data : List Byte} {m : Lexer Flat} {p : Piece} {pieces : List Piece}

theorem Stands.room (h : Stands words data m pieces) (hsize : words.length ≤ Lexicon.maxIndex + 1) {s : String}
    (hs : s ∈ words) (hnone : m.words.find? s = none) : m.words.size ≤ Lexicon.maxIndex := by
  have hnodup : (s :: m.words.texts.toList).Nodup :=
    List.nodup_cons.mpr ⟨h.consistent.not_mem hnone, h.consistent.nodup⟩
  have hle := hnodup.length_le_of_subset (List.cons_subset.mpr ⟨hs, h.named⟩)
  rw [List.length_cons, Array.length_toList] at hle
  exact Nat.le_of_succ_le_succ (Nat.le_trans hle hsize)

theorem Stands.call (h : Stands words data m (p :: pieces)) (hsize : words.length ≤ Lexicon.maxIndex + 1) :
    ∃ t, m.nextLocated.1 = .ok ⟨t, m.position⟩ ∧ t.kind? = some p.kind ∧
      t.lexeme m.nextLocated.2.words = p.kind.lexeme p.text ∧ Stands words data m.nextLocated.2 pieces := by
  have hrest : m.cursor.rest = p.text ++ Piece.stream pieces := h.rest
  have hlongest := h.separated.longest
  have hscan := scan_of_longest h.free hrest h.separated.tail.isAscii_head hlongest
  have hn := nextLocated_of_scan h.running
  have hkept := (spares_scan m).poisoned
  have htake := take_seek h.start hrest
  rw [hscan] at hn hkept
  rcases hf : (m.seek (m.cursor.pos + p.text.length)).finish p.kind with ⟨r, m'⟩
  rw [hf] at hn hkept
  cases r with
  | error e =>
    -- a new word met a full table, but it is on the list, and the list is not longer than the table
    obtain ⟨hk, hnone, hfull⟩ := finish_error hf
    rw [htake] at hnone
    have hroom := h.room hsize (h.listed p List.mem_cons_self hk) hnone
    exact absurd hfull (Nat.not_lt.mpr hroom)
  | ok t =>
    obtain ⟨hkind, hlexeme, hcursor, hposition⟩ := token_of_finish h.start h.consistent hrest hlongest.spells hf
    have hconsistent : m.nextLocated.2.words.Consistent :=
      words_nextLocated Lexicon.Consistent.resolve h.consistent
    rw [hn] at hconsistent ⊢
    refine ⟨t, rfl, hkind, hlexeme, h.separated.tail, ?_, ?_, ?_, ?_, ?_, ?_, ?_, hconsistent, ?_⟩
    · exact (List.forall_mem_cons.mp h.listed).2
    · rw [hcursor]; exact h.free
    · rw [hcursor]; exact h.data
    · rw [hcursor]; exact Flat.rest_goto hrest
    · rw [hcursor]
    · rw [hcursor, hposition, Position.offset_advance, h.offset]
    · exact hkept.trans h.running
    · intro s hs
      rcases words_of_finish hf hs with hold | ⟨hk, rfl⟩
      · exact h.named hold
      · rw [htake]
        exact h.listed p List.mem_cons_self hk

theorem Stands.atEnd (h : Stands words data m []) : m.nextLocated = (.ok ⟨.eof, m.position⟩, m) := by
  have hrest : m.cursor.rest = [] ++ [] := h.rest
  have hpeek : m.cursor.peek m.cursor.pos = .eof := by
    simp [Flat.peek, show m.cursor.data[m.cursor.pos]? = none from Flat.data_of_rest hrest]
  rw [nextLocated_of_scan h.running, scan_eof h.free hpeek]

theorem Stands.after (h : Stands words data m pieces) (hsize : words.length ≤ Lexicon.maxIndex + 1) :
    ∀ j, Stands words data (m.after j) (pieces.drop j)
  | 0 => h
  | j + 1 => by
    have ih := h.after hsize j
    rw [← List.drop_drop]
    cases hd : pieces.drop j with
    | nil =>
      rw [hd] at ih
      show Stands words data (m.after j).nextLocated.2 []
      rw [ih.atEnd]
      exact ih
    | cons p rest =>
      rw [hd] at ih
      obtain ⟨_, _, _, _, hrest⟩ := ih.call hsize
      exact hrest

theorem Stands.not_overlong {capacity : Nat} (h : Stands words data m pieces) (hcap : 0 < capacity)
    (hfit : ∀ p ∈ pieces, p.kind = .word ∨ p.kind = .number → p.text.length ≤ capacity) :
    ¬ Overlong capacity data m.position.offset := by
  have hdrop : data.drop m.position.offset = Piece.stream pieces := by
    rw [h.offset, ← h.rest, Flat.rest, h.data]
  rintro ⟨w, hw, hle⟩
  have hmod := Nat.mod_lt m.position.offset hcap
  cases pieces with
  | nil =>
    have hdrop : data.drop m.position.offset = [] := hdrop
    simp only [extent, hdrop] at hw
    cases hw
  | cons p pieces =>
    obtain ⟨hkind, rfl⟩ := extent_of_longest hdrop h.separated.longest hw
    have := hfit p List.mem_cons_self hkind
    omega

theorem stands_ofBytes (h : Piece.Separated pieces) :
    Stands (Piece.vocabulary pieces) (Piece.stream pieces) (ofBytes (Piece.stream pieces)) pieces := by
  refine ⟨h, fun p => Piece.mem_vocabulary, rfl, rfl, rfl, rfl, rfl, rfl, Lexicon.consistent_initial, ?_⟩
  show Lexicon.initial.texts.toList ⊆ _
  rw [Lexicon.texts_initial]
  intro s hs
  exact List.mem_dedup.mpr (List.mem_append_left _ hs)

end

/-- The lexer gives out a token for each piece, in order, of its kind and with its text as the lexeme,
and then the end of the input. -/
def GivesOut {σ : Type} [Cursor σ] (l : Lexer σ) (pieces : List Piece) : Prop :=
  (∀ i p, pieces[i]? = some p → ∃ row, l.result i = .ok row ∧ row.token.kind? = some p.kind ∧
    ∀ j, i < j → row.token.lexeme (l.after j).words = p.kind.lexeme p.text) ∧
  ∃ row, l.result pieces.length = .ok row ∧ row.token = .eof

theorem Stands.givesOut {words : List String} {data : List Byte} {m : Lexer Flat} {pieces : List Piece}
    (h : Stands words data m pieces) (hsize : words.length ≤ Lexicon.maxIndex + 1) : m.GivesOut pieces := by
  constructor
  · intro i p hp
    have hstands := h.after hsize i
    obtain ⟨hlt, rfl⟩ := List.getElem?_eq_some_iff.mp hp
    rw [List.drop_eq_getElem_cons hlt] at hstands
    obtain ⟨t, hresult, hkind, hlexeme, _⟩ := hstands.call hsize
    refine ⟨⟨t, _⟩, hresult, hkind, fun j hj => ?_⟩
    have hextends := extends_after m (i + 1) (j - (i + 1))
    rw [Nat.add_sub_cancel' hj] at hextends
    exact lexeme_of_extends hextends hkind hstands.separated.longest.spells hlexeme
  · have hstands := h.after hsize pieces.length
    rw [List.drop_length] at hstands
    exact ⟨⟨.eof, _⟩, by rw [result, hstands.atEnd], rfl⟩

theorem GivesOut.vocabulary_le {σ : Type} [Cursor σ] {l : Lexer σ} {pieces : List Piece} (h : l.GivesOut pieces)
    (hs : ∀ p ∈ pieces, p.kind.Spells p.text) (hw : l.words = .initial) :
    (Piece.vocabulary pieces).length ≤ Lexicon.maxIndex + 1 := by
  have hextends := extends_after l 0 pieces.length
  have hsize : (l.after (0 + pieces.length)).words.size ≤ Lexicon.maxIndex + 1 := by
    refine words_after (R := fun t => t.size ≤ Lexicon.maxIndex + 1) Lexicon.size_resolve ?_ _
    show l.words.size ≤ _
    rw [hw, Lexicon.size, ← Array.length_toList, Lexicon.texts_initial]
    decide
  rw [Nat.zero_add] at hextends hsize
  rw [show (l.after 0).words = .initial from hw, Lexicon.Extends, Lexicon.texts_initial] at hextends
  -- the words of the vocabulary are distinct and all in the table, which never outgrows its names
  have hnamed : Piece.vocabulary pieces ⊆ (l.after pieces.length).words.texts.toList := by
    intro s hmem
    rcases List.mem_append.mp (List.mem_dedup.mp hmem) with hkey | hword
    · exact hextends.subset hkey
    · obtain ⟨p, hp, rfl⟩ := List.mem_map.mp hword
      obtain ⟨hp, hk⟩ := List.mem_filter.mp hp
      have hk : p.kind = .word := by simpa using hk
      obtain ⟨i, hi⟩ := List.mem_iff_getElem?.mp hp
      obtain ⟨row, _, hkind, hlexeme⟩ := h.1 i p hi
      have hlexeme := hlexeme pieces.length (List.getElem?_eq_some_iff.mp hi).1
      have hspells := hs p hp
      rw [hk] at hkind hlexeme hspells
      cases htoken : row.token with
      | word w =>
        rw [htoken] at hlexeme
        have hget := getElem?_of_lexeme hspells hlexeme
        rw [← Array.getElem?_toList] at hget
        exact List.mem_of_getElem? hget
      | _ => rw [htoken] at hkind; cases hkind
  have hle := (List.nodup_dedup _).length_le_of_subset hnamed
  rw [Array.length_toList] at hle
  exact Nat.le_trans hle hsize

end Lexer

/-! ## More words than names -/

namespace Piece

/-- The words `a`, `aa` and so on with a blank behind each, the longest first. -/
def ladder : Nat → List Piece
  | 0 => []
  | n + 1 => ⟨.word, List.replicate (n + 1) 97⟩ :: ⟨.layout, [32]⟩ :: ladder n

theorem separated_ladder : ∀ n, Separated (ladder n)
  | 0 => ⟨fun p hp => absurd hp List.not_mem_nil, List.IsChain.nil⟩
  | n + 1 => by
    obtain ⟨hspells, hapart⟩ := separated_ladder n
    have hword : Kind.word.Spells (List.replicate (n + 1) 97) := by
      refine .mk (by decide) fun c hc => ?_
      rw [List.eq_of_mem_replicate hc]
      decide
    have hblank : Kind.layout.Spells [32] := by
      refine ⟨List.cons_ne_nil _ _, fun b hb => ?_⟩
      rw [List.mem_singleton.mp hb]
      decide
    -- the next word, if there is one, begins with a letter
    have hnext : ∀ q ∈ (ladder n).head?, Apart ⟨.layout, [32]⟩ q := by
      intro q hq
      cases n with
      | zero => cases hq
      | succ n =>
        cases hq
        intro b hb
        cases hb
        decide
    have hfirst : Apart ⟨.word, List.replicate (n + 1) 97⟩ ⟨.layout, [32]⟩ := by
      intro b hb
      cases hb
      exact (by decide : Byte.isWordPart 32 = false)
    refine ⟨?_, List.isChain_cons.mpr ⟨?_, List.isChain_cons.mpr ⟨hnext, hapart⟩⟩⟩
    · intro p hp
      rcases List.mem_cons.mp hp with rfl | hp
      · exact hword
      · rcases List.mem_cons.mp hp with rfl | hp
        · exact hblank
        · exact hspells p hp
    · intro q hq
      cases hq
      exact hfirst

theorem length_le_of_mem_ladder {p : Piece} : ∀ {n : Nat}, p ∈ ladder n → p.text.length ≤ n
  | n + 1, hp => by
    rcases List.mem_cons.mp hp with rfl | hp
    · exact Nat.le_of_eq List.length_replicate
    · rcases List.mem_cons.mp hp with rfl | hp
      · exact Nat.succ_le_succ (Nat.zero_le n)
      · exact Nat.le_succ_of_le (length_le_of_mem_ladder hp)

theorem mem_ladder {k : Nat} : ∀ {n : Nat}, k < n → (⟨.word, List.replicate (k + 1) 97⟩ : Piece) ∈ ladder n
  | n + 1, hk => by
    rcases Nat.lt_or_eq_of_le (Nat.le_of_lt_succ hk) with hlt | rfl
    · exact List.mem_cons_of_mem _ (List.mem_cons_of_mem _ (mem_ladder hlt))
    · exact List.mem_cons_self

theorem le_length_vocabulary_ladder (n : Nat) : n ≤ (vocabulary (ladder n)).length := by
  have hinjective : Function.Injective fun k : Nat => Byte.text (List.replicate (k + 1) 97) := by
    intro j k h
    have hlength := congrArg List.length (Byte.text_injective h)
    rw [List.length_replicate, List.length_replicate] at hlength
    exact Nat.succ.inj hlength
  have hnodup : ((List.range n).map fun k => Byte.text (List.replicate (k + 1) 97)).Nodup :=
    List.nodup_range.map hinjective
  have hsubset : ((List.range n).map fun k => Byte.text (List.replicate (k + 1) 97)) ⊆ vocabulary (ladder n) := by
    intro s hs
    obtain ⟨k, hk, rfl⟩ := List.mem_map.mp hs
    exact mem_vocabulary (mem_ladder (List.mem_range.mp hk)) rfl
  have hle := hnodup.length_le_of_subset hsubset
  rw [List.length_map, List.length_range] at hle
  exact hle

end Piece

namespace Lexer

/-- Over halves that hold every word and number, separated pieces in a row are lexed back into the
pieces, and no error is met, if and only if there are names for their words. -/
theorem lexes_back_iff (capacity : Nat) (source : Source) (pieces : List Piece) (hcap : 0 < capacity)
    (hs : source.Reliable) (hdata : source.pending = Piece.stream pieces) (hsep : Piece.Separated pieces)
    (hfit : ∀ p ∈ pieces, p.kind = .word ∨ p.kind = .number → p.text.length ≤ capacity) :
    ∃ l, ofSource capacity source = .ok l ∧
      (l.GivesOut pieces ↔ (Piece.vocabulary pieces).length ≤ 2 ^ 32) := by
  obtain ⟨l, hl⟩ := exists_ofSource hcap hs
  have hnames : Lexicon.maxIndex + 1 = 2 ^ 32 := rfl
  rw [← hnames]
  refine ⟨l, hl, fun h => ?_, fun hsize => ?_⟩
  · exact h.vocabulary_le hsep.spells (words_ofSource hl)
  · have hstands := stands_ofBytes hsep
    have hshort : ∀ j, ¬ OverlongAt capacity source.pending j := by
      intro j hlong
      rw [hdata] at hlong
      exact (hstands.after hsize j).not_overlong hcap (fun p hp => hfit p (List.mem_of_mem_drop hp)) hlong.2
    have hwords := fun j => (together_after hl hs fun i (_ : i < j) => hshort i).words
    have hresults := fun j => result_eq_ofBytes hl hs fun i (_ : i ≤ j) => hshort i
    rw [hdata] at hwords hresults
    have hflat := hstands.givesOut hsize
    simp only [GivesOut, hwords, hresults]
    exact hflat

theorem lexes_back_four_pieces :
    let pieces : List Piece :=
      [⟨.word, [105, 102]⟩, ⟨.layout, [32, 10, 32, 32, 32, 32]⟩, ⟨.number, [49, 46, 53]⟩, ⟨.operator .le, [60, 61]⟩]
    let source : Source := .ofEvents
      [.data [105], .fail ⟨.interrupted, ""⟩, .data [102, 32, 10, 32, 32, 32, 32, 49, 46, 53, 60, 61]] (some 2)
    0 < 3 ∧ source.Reliable ∧ source.pending = Piece.stream pieces ∧ Piece.Separated pieces ∧
      ∃ l, ofSource 3 source = .ok l ∧ l.GivesOut pieces := by
  intro pieces source
  have hs : source.Reliable := by decide
  have hdata : source.pending = Piece.stream pieces := by decide
  have hsep : Piece.Separated pieces := by decide +kernel
  obtain ⟨l, hl, hiff⟩ := lexes_back_iff 3 source pieces (by decide) hs hdata hsep (by decide)
  exact ⟨by decide, hs, hdata, hsep, l, hl, hiff.mpr (by decide)⟩

/-- Of more words than there are names not all can be given out, although the halves hold every one of them. -/
theorem not_lexes_back_many_words :
    let pieces := Piece.ladder (2 ^ 32 + 1)
    let source := Source.ofBytes (Piece.stream pieces)
    source.Reliable ∧ source.pending = Piece.stream pieces ∧ Piece.Separated pieces ∧
      (∀ p ∈ pieces, p.kind = .word ∨ p.kind = .number → p.text.length ≤ 2 ^ 32 + 1) ∧
      ∃ l, ofSource (2 ^ 32 + 1) source = .ok l ∧ ¬ l.GivesOut pieces := by
  generalize hn : 2 ^ 32 + 1 = n
  intro pieces source
  have hs : source.Reliable := rfl
  have hsep : Piece.Separated pieces := Piece.separated_ladder n
  have hmany : n ≤ (Piece.vocabulary pieces).length := Piece.le_length_vocabulary_ladder n
  obtain ⟨l, hl⟩ := exists_ofSource (show 0 < n by omega) hs
  refine ⟨hs, Source.pending_ofBytes _, hsep, fun p hp _ => Piece.length_le_of_mem_ladder hp, l, hl, fun h => ?_⟩
  have hle := h.vocabulary_le hsep.spells (words_ofSource hl)
  have hnames : Lexicon.maxIndex + 1 = 2 ^ 32 := rfl
  omega

end Lexer

end StreamLexer
