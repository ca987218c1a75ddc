import StreamLexer.Token.Basic

/-!
# Names and texts agree

The two directions of a table of words undo each other: a text has a name exactly where the array
holds it under that name. A fresh table is so, and resolving a word keeps it so. No name changes
its text, and a word resolved now is looked up to its own text ever after.
-/

namespace StreamLexer

namespace Lexicon

/-- The map and the array of a table hold the same pairs. -/
def Consistent (t : Lexicon) : Prop := ∀ s n, t.find? s = some n ↔ t.texts[n.index]? = some s

/-- Every name of `t` has the same text in `t'`. -/
def Extends (t' t : Lexicon) : Prop := t.texts.toList <+: t'.texts.toList

theorem Extends.refl (t : Lexicon) : t.Extends t := List.prefix_refl _

theorem Extends.trans {a b c : Lexicon} (hab : a.Extends b) (hbc : b.Extends c) : a.Extends c :=
  List.IsPrefix.trans hbc hab

theorem extends_push (t : Lexicon) (s : String) : (t.push s).Extends t := ⟨[s], by simp [push]⟩

theorem Extends.getElem? {t t' : Lexicon} (h : t'.Extends t) {i : Nat} {s : String} (hs : t.texts[i]? = some s) :
    t'.texts[i]? = some s := by
  obtain ⟨more, hmore⟩ := h
  rw [← Array.getElem?_toList] at hs ⊢
  rw [← hmore, List.getElem?_append_left (List.getElem?_eq_some_iff.mp hs).1]
  exact hs

theorem text_of_getElem? {t : Lexicon} {n : Name} {s : String} (h : t.texts[n.index]? = some s) : t.text n = s := by
  rw [text, Array.getD_eq_getD_getElem?, h]
  rfl

theorem getElem?_of_text {t : Lexicon} {n : Name} (h : t.text n ≠ "") : t.texts[n.index]? = some (t.text n) := by
  rw [text, Array.getD_eq_getD_getElem?] at h ⊢
  cases hget : t.texts[n.index]? with
  | none =>
    rw [hget] at h
    exact absurd rfl h
  | some s => rfl

theorem find?_push (t : Lexicon) (s a : String) :
    (t.push s).find? a = if s = a then some ⟨t.size⟩ else t.find? a := by
  simp [push, find?, Std.TreeMap.getElem?_insert]

namespace Consistent

variable {t : Lexicon}

theorem not_mem (h : t.Consistent) {s : String} (hs : t.find? s = none) : s ∉ t.texts.toList := by
  intro hmem
  obtain ⟨i, hi⟩ := List.mem_iff_getElem?.mp hmem
  rw [Array.getElem?_toList] at hi
  rw [(h s ⟨i⟩).mpr hi] at hs
  cases hs

theorem push (h : t.Consistent) {s : String} (hs : t.find? s = none) : (t.push s).Consistent := by
  intro a n
  rw [find?_push]
  have htexts : (t.push s).texts[n.index]? = if n.index = t.size then some s else t.texts[n.index]? :=
    Array.getElem?_push
  rw [htexts]
  by_cases ha : s = a
  · subst ha
    rw [if_pos rfl]
    by_cases hn : n.index = t.size
    · rw [if_pos hn, ← hn]
      exact ⟨fun _ => rfl, fun _ => rfl⟩
    · rw [if_neg hn, ← h s n, hs]
      constructor
      · intro he
        cases he
        exact absurd rfl hn
      · intro he
        cases he
  · rw [if_neg ha]
    by_cases hn : n.index = t.size
    · rw [if_pos hn, h a n, hn]
      have hout : t.texts[t.size]? = none := Array.getElem?_eq_none (Nat.le_refl _)
      rw [hout]
      constructor
      · intro he
        cases he
      · intro he
        cases he
        exact absurd rfl ha
    · rw [if_neg hn]
      exact h a n

theorem pushAll : ∀ {ss : List String} {t : Lexicon}, t.Consistent → (∀ s ∈ ss, t.find? s = none) → ss.Nodup →
    (ss.foldl Lexicon.push t).Consistent
  | [], _, h, _, _ => h
  | s :: ss, t, h, hs, hn => by
    obtain ⟨hnot, hn'⟩ := List.nodup_cons.mp hn
    rw [List.foldl_cons]
    refine pushAll (h.push (hs s List.mem_cons_self)) ?_ hn'
    intro a ha
    have hne : s ≠ a := fun e => hnot (e ▸ ha)
    rw [find?_push, if_neg hne]
    exact hs a (List.mem_cons_of_mem s ha)

theorem nodup (h : t.Consistent) : t.texts.toList.Nodup := by
  apply List.pairwise_iff_getElem.mpr
  intro i j hi hj hij heq
  rw [Array.getElem_toList, Array.getElem_toList] at heq
  have hgi := (h _ ⟨i⟩).mpr (Array.getElem?_eq_getElem hi)
  have hgj := (h _ ⟨j⟩).mpr (Array.getElem?_eq_getElem hj)
  rw [heq, hgj] at hgi
  cases hgi
  exact Nat.lt_irrefl _ hij

end Consistent

theorem consistent_initial : initial.Consistent := by
  apply Consistent.pushAll
  · intro s n
    simp [find?, empty]
  · intro s _
    simp [find?, empty]
  · decide

theorem texts_pushAll : ∀ (ss : List String) (t : Lexicon),
    (ss.foldl push t).texts.toList = t.texts.toList ++ ss
  | [], t => by simp
  | s :: ss, t => by
    rw [List.foldl_cons, texts_pushAll ss]
    simp [push]

theorem texts_initial : initial.texts.toList = Keyword.all.map Keyword.spelling :=
  texts_pushAll _ _

theorem Consistent.ofName?_eq_some_iff {t : Lexicon} (hc : t.Consistent) (h : t.Extends initial) {n : Name}
    {s : String} (hs : t.texts[n.index]? = some s) (k : Keyword) :
    Keyword.ofName? n = some k ↔ s = k.spelling := by
  have hkeyword : ∀ {i : Nat} {k : Keyword}, Keyword.all[i]? = some k → t.texts[i]? = some k.spelling := by
    intro i k hk
    apply h.getElem?
    rw [← Array.getElem?_toList, texts_initial, List.getElem?_map, hk]
    rfl
  constructor
  · intro hk
    rw [hkeyword hk] at hs
    exact (Option.some.inj hs).symm
  · rintro rfl
    have hmem : k ∈ Keyword.all := by cases k <;> decide
    obtain ⟨i, hi⟩ := List.mem_iff_getElem?.mp hmem
    have hn := (hc _ n).mpr hs
    rw [(hc _ ⟨i⟩).mpr (hkeyword hi)] at hn
    cases hn
    exact hi

/-! ## Resolving a word -/

/-- What resolving a text can do: find its name, or give it the next one. -/
theorem resolve_cases {t t' : Lexicon} {s : String} {w : Word} (h : t.resolve s = .ok (w, t')) :
    (t.find? s = some w.name ∧ t' = t) ∨
    (t.find? s = none ∧ t.size ≤ maxIndex ∧ w.name = ⟨t.size⟩ ∧ t' = t.push s) := by
  unfold resolve intern at h
  cases hf : t.find? s with
  | some n =>
    rw [hf] at h
    cases h
    exact Or.inl ⟨rfl, rfl⟩
  | none =>
    rw [hf] at h
    by_cases hsize : maxIndex < t.size
    · simp only [hsize, if_true] at h
      cases h
    · simp only [hsize, if_false] at h
      cases h
      exact Or.inr ⟨rfl, Nat.le_of_not_lt hsize, rfl, rfl⟩

theorem eq_ofName_of_resolve {t t' : Lexicon} {s : String} {w : Word} (h : t.resolve s = .ok (w, t')) :
    w = .ofName w.name := by
  unfold resolve at h
  split at h <;> cases h
  rfl

theorem resolve_error {t : Lexicon} {s : String} {e : LexiconFull} (h : t.resolve s = .error e) :
    t.find? s = none ∧ maxIndex < t.size := by
  unfold resolve intern at h
  cases hf : t.find? s with
  | some n =>
    rw [hf] at h
    cases h
  | none =>
    refine ⟨rfl, ?_⟩
    rw [hf] at h
    by_cases hsize : maxIndex < t.size
    · exact hsize
    · simp only [hsize, if_false] at h
      cases h

theorem extends_resolve {t t' : Lexicon} {s : String} {w : Word} (h : t.resolve s = .ok (w, t')) : t'.Extends t := by
  rcases resolve_cases h with ⟨_, rfl⟩ | ⟨_, _, _, rfl⟩
  · exact .refl _
  · exact extends_push t s

theorem Consistent.resolve {t t' : Lexicon} {s : String} {w : Word} (hc : t.Consistent)
    (h : t.resolve s = .ok (w, t')) : t'.Consistent := by
  rcases resolve_cases h with ⟨_, rfl⟩ | ⟨hf, _, _, rfl⟩
  · exact hc
  · exact hc.push hf

theorem Consistent.getElem?_resolve {t t' : Lexicon} {s : String} {w : Word} (hc : t.Consistent)
    (h : t.resolve s = .ok (w, t')) : t'.texts[w.name.index]? = some s := by
  rcases resolve_cases h with ⟨hf, rfl⟩ | ⟨hf, _, hn, rfl⟩
  · exact (hc s w.name).mp hf
  · rw [hn]
    exact Array.getElem?_push_size

theorem texts_resolve {t t' : Lexicon} {s : String} {w : Word} (hc : t.Consistent) (h : t.resolve s = .ok (w, t')) :
    t'.texts.toList = if s ∈ t.texts.toList then t.texts.toList else t.texts.toList ++ [s] := by
  rcases resolve_cases h with ⟨hf, rfl⟩ | ⟨hf, _, _, rfl⟩
  · have hmem : s ∈ t'.texts.toList := by
      rw [Array.mem_toList_iff]
      exact Array.mem_of_getElem? ((hc s w.name).mp hf)
    rw [if_pos hmem]
  · rw [if_neg (hc.not_mem hf)]
    exact Array.toList_push

theorem resolve_of_extends {t t' u : Lexicon} {s : String} {w : Word} (ht : t.Consistent)
    (h : t.resolve s = .ok (w, t')) (hu : u.Consistent) (he : u.Extends t') : u.resolve s = .ok (w, u) := by
  have hfind : u.find? s = some w.name := (hu s w.name).mpr (he.getElem? (ht.getElem?_resolve h))
  rw [eq_ofName_of_resolve h]
  simp only [resolve, intern, hfind]

theorem size_resolve {t t' : Lexicon} {s : String} {w : Word} (hsize : t.size ≤ maxIndex + 1)
    (h : t.resolve s = .ok (w, t')) : t'.size ≤ maxIndex + 1 := by
  rcases resolve_cases h with ⟨_, rfl⟩ | ⟨_, hle, _, rfl⟩
  · exact hsize
  · have : (t.push s).size = t.size + 1 := Array.size_push s
    omega

end Lexicon

end StreamLexer
