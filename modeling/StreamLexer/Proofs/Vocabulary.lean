import StreamLexer.Proofs.Tiling

/-!
# The table of words follows the tokens

Whatever the source, the table of a lexer holds the keywords and then, each once and in the order
of their first occurrence, the texts of the words that the lexer has given out. So the name of a
word is the place of its text in the table, it tells whether the text is a keyword, and two tokens
are equal just if they are of one family and have one lexeme.
-/

namespace StreamLexer

inductive Family where
  | word
  | number
  | operator
  | layout
  | eof
deriving DecidableEq, Repr

def Token.family : Token → Family
  | .word _ => .word
  | .number _ => .number
  | .operator _ => .operator
  | .whitespace => .layout
  | .eof => .eof

theorem Token.family_ne_word {t : Token} (h : ∀ w, t ≠ .word w) : t.family ≠ .word := by
  cases t with
  | word w => exact absurd rfl (h w)
  | _ => intro h; cases h

/-- The bytes from the start of a token to the position behind it, as text. -/
def spanText (data : List Byte) (r : Located × Position) : String :=
  Byte.text (data.extract r.1.start.offset r.2.offset)

def wordTexts (data : List Byte) (rows : List (Located × Position)) : List String :=
  (rows.filter fun r => r.1.token.family = .word).map (spanText data)

theorem eraseDups_concat (ws : List String) (s : String) :
    (ws ++ [s]).eraseDups = if s ∈ ws then ws.eraseDups else ws.eraseDups ++ [s] := by
  rw [List.eraseDups_append]
  by_cases hs : s ∈ ws
  · simp [List.removeAll, hs]
  · simp [List.removeAll, hs, List.eraseDups_cons]

theorem Keyword.eraseDups_spellings :
    (Keyword.all.map Keyword.spelling).eraseDups = Keyword.all.map Keyword.spelling := by decide

theorem Operator.spelling_injective {a b : Operator} (h : a.spelling = b.spelling) : a = b := by
  cases a <;> cases b <;> first | rfl | exact absurd h (by decide)

section
variable {words : Lexicon} {data : List Byte} {r : Located × Position} {w : Word}

theorem Covers.word (hc : Covers words data r.1.token r.1.start.offset r.2.offset) (hw : r.1.token = .word w) :
    words.texts[w.name.index]? = some (spanText data r) := by
  obtain ⟨_, _, kind, hk, hl, hlong⟩ := hc
  rw [hw] at hk hl
  cases hk
  exact getElem?_of_lexeme hlong.spells hl

end

/-- The table holds the keywords and the words of the rows, and knows each row's word by its text. -/
structure Records (data : List Byte) (words : Lexicon) (rows : List (Located × Position)) : Prop where
  consistent : words.Consistent
  texts : words.texts.toList = (Keyword.all.map Keyword.spelling ++ wordTexts data rows).eraseDups
  resolves : ∀ r ∈ rows, ∀ w, r.1.token = .word w → words.resolve (spanText data r) = .ok (w, words)

section
variable {words words' : Lexicon} {data : List Byte} {rows : List (Located × Position)} {r r' : Located × Position}
  {w : Word}

theorem records_initial (data : List Byte) : Records data .initial [] := by
  refine ⟨Lexicon.consistent_initial, ?_, fun r hr => by cases hr⟩
  show _ = (Keyword.all.map Keyword.spelling ++ []).eraseDups
  rw [Lexicon.texts_initial, List.append_nil, Keyword.eraseDups_spellings]

theorem Records.skip (h : Records data words rows) (hr : ∀ w, r.1.token ≠ .word w) :
    Records data words (rows ++ [r]) := by
  refine ⟨h.consistent, ?_, ?_⟩
  · have hsame : wordTexts data (rows ++ [r]) = wordTexts data rows := by
      simp [wordTexts, Token.family_ne_word hr]
    rw [hsame]
    exact h.texts
  · intro r' hr' w hw
    rcases List.mem_append.mp hr' with hr' | hr'
    · exact h.resolves r' hr' w hw
    · obtain rfl := List.mem_singleton.mp hr'
      exact absurd hw (hr w)

theorem Records.resolve (h : Records data words rows) (hw : r.1.token = .word w)
    (hres : words.resolve (spanText data r) = .ok (w, words')) : Records data words' (rows ++ [r]) := by
  have hc' := h.consistent.resolve hres
  refine ⟨hc', ?_, ?_⟩
  · have hmore : wordTexts data (rows ++ [r]) = wordTexts data rows ++ [spanText data r] := by
      simp [wordTexts, hw, Token.family]
    rw [hmore, ← List.append_assoc, eraseDups_concat, Lexicon.texts_resolve h.consistent hres, h.texts]
    simp only [List.mem_eraseDups]
  · intro r' hr' w' hw'
    rcases List.mem_append.mp hr' with hr' | hr'
    · exact Lexicon.resolve_of_extends h.consistent (h.resolves r' hr' w' hw') hc' (Lexicon.extends_resolve hres)
    · obtain rfl := List.mem_singleton.mp hr'
      rw [hw] at hw'
      cases hw'
      exact Lexicon.resolve_of_extends h.consistent hres hc' (.refl _)

theorem Records.name (h : Records data words rows) (hr : r ∈ rows) (hw : r.1.token = .word w) :
    words.texts[w.name.index]? = some (spanText data r) :=
  h.consistent.getElem?_resolve (h.resolves r hr w hw)

theorem Records.idxOf? (h : Records data words rows) (hr : r ∈ rows) (hw : r.1.token = .word w) :
    words.texts.toList.idxOf? (spanText data r) = some w.name.index := by
  have hname := h.name hr hw
  rw [← Array.getElem?_toList] at hname
  obtain ⟨hlt, heq⟩ := List.getElem?_eq_some_iff.mp hname
  apply List.idxOf?_eq_some_iff.mpr
  refine ⟨hlt, heq, ?_⟩
  intro j hj hfirst
  have hj' := Nat.lt_trans hj hlt
  exact List.pairwise_iff_getElem.mp h.consistent.nodup j _ hj' hlt hj (hfirst.trans heq.symm)

theorem Records.keyword (h : Records data words rows) (hinit : words.Extends .initial) (hr : r ∈ rows)
    (hw : r.1.token = .word w) (k : Keyword) : w.keyword = some k ↔ spanText data r = k.spelling := by
  rw [Lexicon.eq_ofName_of_resolve (h.resolves r hr w hw)]
  exact h.consistent.ofName?_eq_some_iff hinit (h.name hr hw) k

theorem Records.token_eq_iff (h : Records data words rows) (hr : r ∈ rows) (hr' : r' ∈ rows) :
    r.1.token = r'.1.token ↔
      r.1.token.family = r'.1.token.family ∧ r.1.token.lexeme words = r'.1.token.lexeme words := by
  constructor
  · intro heq
    rw [heq]
    exact ⟨rfl, rfl⟩
  · rintro ⟨hfamily, hlexeme⟩
    cases ht : r.1.token with
    | word w =>
      cases ht' : r'.1.token with
      | word w' =>
        rw [ht, ht'] at hlexeme
        have htext := h.resolves r hr w ht
        have htext' := h.resolves r' hr' w' ht'
        have hsame : words.text w.name = words.text w'.name := Option.some.inj hlexeme
        rw [Lexicon.text_of_getElem? (h.name hr ht), Lexicon.text_of_getElem? (h.name hr' ht')] at hsame
        rw [hsame, htext'] at htext
        cases htext
        rfl
      | _ => rw [ht, ht'] at hfamily; cases hfamily
    | number s =>
      cases ht' : r'.1.token with
      | number s' =>
        rw [ht, ht'] at hlexeme
        cases hlexeme
        rfl
      | _ => rw [ht, ht'] at hfamily; cases hfamily
    | operator op =>
      cases ht' : r'.1.token with
      | operator op' =>
        rw [ht, ht'] at hlexeme
        rw [Operator.spelling_injective (Option.some.inj hlexeme)]
      | _ => rw [ht, ht'] at hfamily; cases hfamily
    | whitespace =>
      cases ht' : r'.1.token with
      | whitespace => rfl
      | _ => rw [ht, ht'] at hfamily; cases hfamily
    | eof =>
      cases ht' : r'.1.token with
      | eof => rfl
      | _ => rw [ht, ht'] at hfamily; cases hfamily

end

namespace Lexer

section
variable {capacity : Nat} {source : Source} {l : Lexer BufferPair} (h : ofSource capacity source = .ok l)
include h

theorem records_after : ∀ n, Records source.pending (l.after n).words (l.rows n)
  | 0 => by
    obtain ⟨p, _, rfl⟩ := ofSource_eq_ok h
    exact records_initial source.pending
  | n + 1 => by
    have ih := records_after n
    obtain ⟨o, htiles⟩ := (progress_after h (n + 1)).tiles_pending
    show Records source.pending (l.after n).nextLocated.2.words (addRow (l.rows n) (l.after n).nextLocated)
    rcases nextLocated_words (l.after n) with ⟨hwords, hnot⟩ | ⟨row, w, s, hrow, hw, hres⟩
    · rw [hwords]
      cases hr : (l.after n).nextLocated.1 with
      | error e =>
        rw [addRow_error hr]
        exact ih
      | ok row =>
        rw [addRow_ok hr]
        split
        · exact ih
        · exact ih.skip fun w => hnot row w hr
    · have hrows : l.rows (n + 1) = l.rows n ++ [(row, (l.after n).nextLocated.2.position)] := by
        show addRow (l.rows n) (l.after n).nextLocated = _
        rw [addRow_ok hrow, hw]
        rfl
      have hlast : (row, (l.after n).nextLocated.2.position) ∈ l.rows (n + 1) := by
        rw [hrows]
        exact List.mem_append_right _ List.mem_cons_self
      -- what was resolved stands under the name of the word, and so does the text of its span
      have hspan : (l.after n).nextLocated.2.words.texts[w.name.index]? = _ := (htiles.covers hlast).word hw
      rw [ih.consistent.getElem?_resolve hres] at hspan
      rw [Option.some.inj hspan] at hres
      have hrec := ih.resolve hw hres
      rw [← hrows] at hrec
      exact hrec

end

/-- After any number of calls, over any source, the texts of the table are the keywords and behind them
the other words given out so far, each at its first occurrence; a call that gives out no word leaves
the table as it is. A word's name is the place of its text, its tag says which keyword the text is,
and the name is looked up to the text ever after. Tokens of one family and one lexeme are equal. -/
theorem words_recorded (capacity : Nat) (source : Source) (l : Lexer BufferPair)
    (h : ofSource capacity source = .ok l) (n : Nat) :
    (l.after n).words.texts.toList = Keyword.all.map Keyword.spelling ++
        ((wordTexts source.pending (l.rows n)).filter (· ∉ Keyword.all.map Keyword.spelling)).eraseDups ∧
      ((∀ row w, l.result n = .ok row → row.token ≠ .word w) → (l.after (n + 1)).words = (l.after n).words) ∧
      (∀ r ∈ l.rows n, ∀ w, r.1.token = .word w →
        (l.after n).words.texts.toList.idxOf? (spanText source.pending r) = some w.name.index ∧
        (∀ k, w.keyword = some k ↔ spanText source.pending r = k.spelling) ∧
        ∀ m, (l.after (n + m)).words.lookup w.name = .ok (spanText source.pending r)) ∧
      ∀ r ∈ l.rows n, ∀ r' ∈ l.rows n,
        (r.1.token = r'.1.token ↔ r.1.token.family = r'.1.token.family ∧
          r.1.token.lexeme (l.after n).words = r'.1.token.lexeme (l.after n).words) := by
  have hrec := records_after h n
  refine ⟨?_, ?_, ?_, fun r hr r' hr' => hrec.token_eq_iff hr hr'⟩
  · rw [hrec.texts, List.eraseDups_append, Keyword.eraseDups_spellings]
    simp only [List.removeAll, List.elem_eq_mem, decide_not]
  · intro hnot
    rcases nextLocated_words (l.after n) with ⟨hwords, _⟩ | ⟨row, w, s, hrow, hw, _⟩
    · exact hwords
    · exact absurd hw (hnot row w hrow)
  · intro r hr w hw
    have hinit : (l.after n).words.Extends .initial := by
      obtain ⟨p, _, rfl⟩ := ofSource_eq_ok h
      have hext := extends_after (ofCursor p) 0 n
      rw [Nat.zero_add] at hext
      exact hext
    refine ⟨hrec.idxOf? hr hw, hrec.keyword hinit hr hw, fun m => ?_⟩
    have hlater := (extends_after l n m).getElem? (hrec.name hr hw)
    simp only [Lexicon.lookup, hlater]

theorem words_recorded_before_fault :
    ∃ l, ofSource 3 (.ofEvents [.data [97, 98, 32, 100, 111, 32, 97, 98, 32], .fail ⟨.other, ""⟩] none) = .ok l ∧
      (l.after 6).poisoned = true ∧
      (l.after 6).words.texts.toList = ["if", "then", "else", "while", "do", "for", "ab"] := by
  have hrun : ((ofSource 3 (.ofEvents [.data [97, 98, 32, 100, 111, 32, 97, 98, 32], .fail ⟨.other, ""⟩]
      none)).toOption.map fun l =>
        ((l.after 6).poisoned, wordTexts [97, 98, 32, 100, 111, 32, 97, 98, 32] (l.rows 6))) =
      some (true, ["ab", "do", "ab"]) := by decide +kernel
  cases h : ofSource 3 (.ofEvents [.data [97, 98, 32, 100, 111, 32, 97, 98, 32], .fail ⟨.other, ""⟩] none) with
  | error e =>
    rw [h] at hrun
    cases hrun
  | ok l =>
    rw [h] at hrun
    obtain ⟨hpoisoned, htexts⟩ := Prod.mk.inj (Option.some.inj hrun)
    have hwords := (words_recorded 3 _ l h 6).1
    have hpending : (Source.ofEvents [.data [97, 98, 32, 100, 111, 32, 97, 98, 32], .fail ⟨.other, ""⟩] none).pending =
      [97, 98, 32, 100, 111, 32, 97, 98, 32] := by decide
    rw [hpending, htexts] at hwords
    exact ⟨l, rfl, hpoisoned, hwords⟩

end Lexer

end StreamLexer
