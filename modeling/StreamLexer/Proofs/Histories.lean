import Mathlib.Algebra.Group.Nat.Defs
import StreamLexer.Proofs.Naming

/-!
# Names across a history

A table is asked for texts again and again, by callers that insist on a name, by callers that are ready to be
refused, and for words. Whatever was asked before, the names are the places of the texts, each text has one,
and no later question moves it. So names can be compared in the place of texts, and the tag of a word can be
read off without adding the word.
-/

namespace StreamLexer

namespace Lexicon

/-! ## One query -/

section
variable {t : Lexicon} {q : Query} {n : Name}

theorem intern_of_find (h : t.find? q.text = some n) : t.intern q.text = .ok (n, t) := by
  simp only [intern, h]

theorem intern_of_room (h : t.find? q.text = none) (hsize : t.size ≤ maxIndex) :
    t.intern q.text = .ok (⟨t.size⟩, t.push q.text) := by
  simp only [intern, h, if_neg (Nat.not_lt.mpr hsize)]

theorem intern_of_full (h : t.find? q.text = none) (hsize : maxIndex < t.size) :
    t.intern q.text = .error ⟨t.size⟩ := by
  simp only [intern, h, if_pos hsize]

theorem ask_of_intern {t' : Lexicon} (h : t.intern q.text = .ok (n, t')) :
    (t.ask q).1.name? = some n ∧ (t.ask q).2 = t' := by
  cases q <;> simp only [Query.text] at h <;> simp [ask, resolve, h, Answer.name?, Word.ofName]

theorem ask_of_refusal {e : LexiconFull} (h : t.intern q.text = .error e) :
    (t.ask q).1.name? = none ∧ (t.ask q).2 = t := by
  cases q <;> simp only [Query.text] at h <;> simp [ask, resolve, h, Answer.name?]

end

/-- What a query can do: find the name of its text, give it the next one, or find no name left. -/
theorem ask_cases (t : Lexicon) (q : Query) :
    (∃ n, t.find? q.text = some n ∧ (t.ask q).1.name? = some n ∧ (t.ask q).2 = t) ∨
    (t.find? q.text = none ∧ t.size ≤ maxIndex ∧ (t.ask q).1.name? = some ⟨t.size⟩ ∧
      (t.ask q).2 = t.push q.text) ∨
    (t.find? q.text = none ∧ maxIndex < t.size ∧ (t.ask q).1.name? = none ∧ (t.ask q).2 = t) := by
  cases hf : t.find? q.text with
  | some n => exact Or.inl ⟨n, rfl, ask_of_intern (intern_of_find hf)⟩
  | none =>
    by_cases hsize : t.size ≤ maxIndex
    · exact Or.inr (Or.inl ⟨rfl, hsize, ask_of_intern (intern_of_room hf hsize)⟩)
    · have hfull := Nat.lt_of_not_le hsize
      exact Or.inr (Or.inr ⟨rfl, hfull, ask_of_refusal (intern_of_full hf hfull)⟩)

theorem extends_ask (t : Lexicon) (q : Query) : (t.ask q).2.Extends t := by
  rcases ask_cases t q with ⟨n, _, _, ht⟩ | ⟨_, _, _, ht⟩ | ⟨_, _, _, ht⟩
  · rw [ht]; exact .refl t
  · rw [ht]; exact extends_push t q.text
  · rw [ht]; exact .refl t

theorem Consistent.ask {t : Lexicon} (h : t.Consistent) (q : Query) : (t.ask q).2.Consistent := by
  rcases ask_cases t q with ⟨n, _, _, ht⟩ | ⟨hf, _, _, ht⟩ | ⟨_, _, _, ht⟩
  · rw [ht]; exact h
  · rw [ht]; exact h.push hf
  · rw [ht]; exact h

theorem Consistent.getElem?_ask {t : Lexicon} (h : t.Consistent) {q : Query} {n : Name}
    (hn : (t.ask q).1.name? = some n) : (t.ask q).2.texts[n.index]? = some q.text := by
  rcases ask_cases t q with ⟨m, hf, hm, ht⟩ | ⟨_, _, hm, ht⟩ | ⟨_, _, hm, _⟩
  · rw [hn] at hm
    cases hm
    rw [ht]
    exact (h q.text n).mp hf
  · rw [hn] at hm
    cases hm
    rw [ht]
    exact Array.getElem?_push_size
  · rw [hn] at hm
    cases hm

/-! ## Histories -/

theorem extends_after : ∀ (history : List Query) (t : Lexicon), (t.after history).Extends t
  | [], t => .refl t
  | q :: history, t => (extends_after history (t.ask q).2).trans (extends_ask t q)

theorem Consistent.after : ∀ (history : List Query) {t : Lexicon}, t.Consistent → (t.after history).Consistent
  | [], _, h => h
  | q :: history, _, h => Consistent.after history (h.ask q)

theorem after_insist : ∀ {texts : List String} {t : Lexicon}, (∀ s ∈ texts, t.find? s = none) → texts.Nodup →
    t.size + texts.length ≤ maxIndex + 1 → t.after (texts.map .insist) = texts.foldl push t
  | [], _, _, _, _ => rfl
  | s :: texts, t, hnew, hn, hroom => by
    obtain ⟨hnot, hn'⟩ := List.nodup_cons.mp hn
    rw [List.length_cons] at hroom
    have hask : (t.ask (.insist s)).2 = t.push s :=
      (ask_of_intern (intern_of_room (q := .insist s) (hnew s List.mem_cons_self) (by omega))).2
    have hsize : (t.push s).size = t.size + 1 := Array.size_push s
    show (t.ask (.insist s)).2.after (texts.map .insist) = texts.foldl push (t.push s)
    rw [hask]
    apply after_insist _ hn' (by omega)
    intro a ha
    have hne : s ≠ a := fun e => hnot (e ▸ ha)
    rw [find?_push, if_neg hne]
    exact hnew a (List.mem_cons_of_mem s ha)

theorem initial_eq_after : initial = empty.after ((Keyword.all.map Keyword.spelling).map .insist) := by
  refine (after_insist ?_ (by decide) (by decide)).symm
  intro s _
  simp [find?, empty]

/-! ## Names and places -/

theorem lookup_eq_ok_iff {t : Lexicon} {n : Name} {s : String} : t.lookup n = .ok s ↔ t.texts[n.index]? = some s := by
  unfold lookup
  cases t.texts[n.index]? <;> simp

theorem Extends.lookup {t t' : Lexicon} (h : t'.Extends t) {n : Name} {s : String} (hs : t.lookup n = .ok s) :
    t'.lookup n = .ok s :=
  lookup_eq_ok_iff.mpr (h.getElem? (lookup_eq_ok_iff.mp hs))

namespace Consistent

variable {t : Lexicon} (h : t.Consistent)
include h

theorem find?_eq_some_iff (s : String) (n : Name) : t.find? s = some n ↔ n.index < t.size ∧ t.lookup n = .ok s := by
  rw [h s n, lookup_eq_ok_iff]
  constructor
  · intro hs
    exact ⟨(Array.getElem?_eq_some_iff.mp hs).1, hs⟩
  · intro hs
    exact hs.2

theorem find?_of_extends {t' : Lexicon} (h' : t'.Consistent) (hext : t'.Extends t) {s : String} {n : Name}
    (hs : t.find? s = some n) : t'.find? s = some n :=
  (h' s n).mpr (hext.getElem? ((h s n).mp hs))

theorem mem_of_find? {s : String} {n : Name} (hs : t.find? s = some n) : s ∈ t.texts.toList := by
  rw [Array.mem_toList_iff]
  exact Array.mem_of_getElem? ((h s n).mp hs)

theorem ask_of_room (q : Query) (hsize : t.size < 2 ^ 32) :
    ∃ n, (t.ask q).1.name? = some n ∧ (t.ask q).2.lookup n = .ok q.text ∧
      if q.text ∈ t.texts.toList then (t.ask q).2 = t
      else n.index = t.size ∧ (t.ask q).2.texts.toList = t.texts.toList ++ [q.text] := by
  rcases ask_cases t q with ⟨n, hf, hn, ht⟩ | ⟨hf, _, hn, ht⟩ | ⟨_, hfull, _, _⟩
  · refine ⟨n, hn, lookup_eq_ok_iff.mpr (h.getElem?_ask hn), ?_⟩
    rw [if_pos (h.mem_of_find? hf)]
    exact ht
  · refine ⟨⟨t.size⟩, hn, lookup_eq_ok_iff.mpr (h.getElem?_ask hn), ?_⟩
    rw [if_neg (h.not_mem hf), ht]
    exact ⟨rfl, Array.toList_push⟩
  · have hmax : maxIndex = 2 ^ 32 - 1 := rfl
    omega

theorem name_eq_iff {q q' : Query} {between : List Query} {n n' : Name} (hn : (t.ask q).1.name? = some n)
    (hn' : (((t.ask q).2.after between).ask q').1.name? = some n') : n = n' ↔ q.text = q'.text := by
  have hc := (h.ask q).after between
  have hlast := hc.ask q'
  -- no question in between moves the first text
  have hfirst := (extends_ask _ q').getElem? ((extends_after between _).getElem? (h.getElem?_ask hn))
  have hsecond := hc.getElem?_ask hn'
  constructor
  · intro heq
    rw [heq, hsecond] at hfirst
    exact (Option.some.inj hfirst).symm
  · intro heq
    have hfind := (hlast q.text n).mpr hfirst
    rw [heq, (hlast q'.text n').mpr hsecond] at hfind
    exact (Option.some.inj hfind).symm

end Consistent

/-! ## Keywords -/

section
variable {t : Lexicon} (hc : t.Consistent) (hinit : t.Extends initial)
include hc hinit

theorem Consistent.keyword?_eq_some_iff (s : String) (k : Keyword) : t.keyword? s = some k ↔ s = k.spelling := by
  cases hf : t.find? s with
  | some n =>
    simp only [keyword?, hf, Option.bind_some]
    exact hc.ofName?_eq_some_iff hinit ((hc s n).mp hf) k
  | none =>
    simp only [keyword?, hf, Option.bind_none]
    constructor
    · intro h
      cases h
    · intro h
      subst h
      have hmem : k.spelling ∈ initial.texts.toList := by
        rw [texts_initial]
        exact List.mem_map_of_mem (by cases k <;> decide)
      exact absurd (hinit.subset hmem) (hc.not_mem hf)

theorem Consistent.keyword?_eq_of_resolve {s : String} {w : Word} {t' : Lexicon} (h : t.resolve s = .ok (w, t')) :
    t.keyword? s = w.keyword := by
  have htag : ∀ k, w.keyword = some k ↔ s = k.spelling := by
    intro k
    rw [eq_ofName_of_resolve h]
    exact (hc.resolve h).ofName?_eq_some_iff ((extends_resolve h).trans hinit) (hc.getElem?_resolve h) k
  apply Option.ext
  intro k
  rw [hc.keyword?_eq_some_iff hinit, htag]

end

theorem resolve_of_room {t : Lexicon} (hsize : t.size < 2 ^ 32) (s : String) : ∃ w t', t.resolve s = .ok (w, t') := by
  cases h : t.resolve s with
  | ok r => exact ⟨r.1, r.2, rfl⟩
  | error e =>
    have hfull := (resolve_error h).2
    have hmax : maxIndex = 2 ^ 32 - 1 := rfl
    omega

/-- After any history, a text has a name just where the table holds it there, each text once and the keywords
first. While there is room, a query answers with the place of its text, which is the next one for a new text,
and for any other text leaves the table alone. Names once given stay, so two queries, however far apart, answer
with one name just if they ask for one text. Which keyword a text is can be read off the table whether or not
the text was ever resolved. -/
theorem names_are_places (history : List Query) (t : Lexicon) (ht : initial.after history = t) :
    initial = empty.after ((Keyword.all.map Keyword.spelling).map .insist) ∧
      t.texts.toList.Nodup ∧ Keyword.all.map Keyword.spelling <+: t.texts.toList ∧
      (∀ s n, t.find? s = some n ↔ n.index < t.size ∧ t.lookup n = .ok s) ∧
      (∀ q, t.size < 2 ^ 32 → ∃ n, (t.ask q).1.name? = some n ∧ (t.ask q).2.lookup n = .ok q.text ∧
        if q.text ∈ t.texts.toList then (t.ask q).2 = t
        else n.index = t.size ∧ (t.ask q).2.texts.toList = t.texts.toList ++ [q.text]) ∧
      (∀ later, (∀ n s, t.lookup n = .ok s → (t.after later).lookup n = .ok s) ∧
        ∀ s n, t.find? s = some n → (t.after later).find? s = some n) ∧
      (∀ q between q' n n', (t.ask q).1.name? = some n →
        (((t.ask q).2.after between).ask q').1.name? = some n' → (n = n' ↔ q.text = q'.text)) ∧
      ∀ s, (t.size < 2 ^ 32 → ∃ w t', t.resolve s = .ok (w, t') ∧ t.keyword? s = w.keyword) ∧
        ∀ k, t.keyword? s = some k ↔ s = k.spelling := by
  subst ht
  have hc := consistent_initial.after history
  have hinit := extends_after history initial
  refine ⟨initial_eq_after, hc.nodup, ?_, hc.find?_eq_some_iff, hc.ask_of_room, ?_, ?_, ?_⟩
  · rw [← texts_initial]
    exact hinit
  · intro later
    have hext := extends_after later (initial.after history)
    exact ⟨fun n s hs => hext.lookup hs, fun s n hs => hc.find?_of_extends (hc.after later) hext hs⟩
  · intro q between q' n n' hn hn'
    exact hc.name_eq_iff hn hn'
  · intro s
    refine ⟨?_, hc.keyword?_eq_some_iff hinit s⟩
    intro hsize
    obtain ⟨w, t', h⟩ := resolve_of_room hsize s
    exact ⟨w, t', h, hc.keyword?_eq_of_resolve hinit h⟩

theorem names_are_places_behind_three :
    (initial.after [.intern "a", .insist "do", .resolve "b"]).size = 8 ∧
      (∃ n, ((initial.after [.intern "a", .insist "do", .resolve "b"]).ask (.insist "c")).1.name? = some n ∧
        n.index = 8) ∧
      (∀ n n', ((initial.after [.intern "a", .insist "do", .resolve "b"]).ask (.intern "a")).1.name? = some n →
        ((((initial.after [.intern "a", .insist "do", .resolve "b"]).ask (.intern "a")).2.after
          [.insist "c"]).ask (.resolve "a")).1.name? = some n' → n = n') ∧
      (initial.after [.intern "a", .insist "do", .resolve "b"]).keyword? "do" = some .kwDo := by
  have hsize : (initial.after [.intern "a", .insist "do", .resolve "b"]).size = 8 := by decide +kernel
  have hnew : "c" ∉ (initial.after [.intern "a", .insist "do", .resolve "b"]).texts.toList := by decide +kernel
  obtain ⟨_, _, _, _, hroom, _, hsame, hkeyword⟩ := names_are_places [.intern "a", .insist "do", .resolve "b"] _ rfl
  obtain ⟨n, hn, _, hplace⟩ := hroom (.insist "c") (by rw [hsize]; decide)
  rw [Query.text, if_neg hnew, hsize] at hplace
  refine ⟨hsize, ⟨n, hn, hplace.1⟩, ?_, ((hkeyword "do").2 .kwDo).mpr rfl⟩
  intro n n' hn hn'
  exact (hsame _ _ _ n n' hn hn').mpr rfl

end Lexicon

end StreamLexer
