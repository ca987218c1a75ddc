import StreamLexer.Input.Source

/-!
# What a source delivers

The bytes ahead of a source are the data of its script up to the first read that delivers
nothing. Failures deliver nothing and end nothing: the interrupted ones are repeated by `fill`,
and the others, the fatal ones, stop it. A completed fill takes a full load off the bytes ahead,
or all of them, however the script cuts them.
-/

namespace StreamLexer

namespace Source

def delivery : List Event → List Byte
  | [] => []
  | .close :: _ => []
  | .fail _ :: rest => delivery rest
  | .data [] :: _ => []
  | .data (b :: bytes) :: rest => b :: bytes ++ delivery rest

/-- The bytes that the reads ahead deliver before the first one that delivers none. -/
def pending (s : Source) : List Byte :=
  if s.ended = true ∨ s.chunk = some 0 then [] else delivery s.script

/-- The faults ahead that are not repeated, in the order of the script. -/
def fatals (s : Source) : List Fault :=
  s.script.filterMap fun
    | .fail fault => if fault.isFatal then some fault else none
    | _ => none

def Reliable (s : Source) : Prop := s.fatals = []

instance (s : Source) : Decidable s.Reliable := inferInstanceAs (Decidable (s.fatals = []))

theorem pending_of_ended {s : Source} (h : s.ended = true) : s.pending = [] := by
  simp [pending, h]

theorem delivery_data (bytes : List Byte) (rest : List Event) (h : bytes ≠ []) :
    delivery (.data bytes :: rest) = bytes ++ delivery rest := by
  cases bytes with
  | nil => exact absurd rfl h
  | cons b bytes => rfl

theorem pending_ofBytes (bytes : List Byte) : (ofBytes bytes).pending = bytes := by
  cases bytes <;> simp [ofBytes, ofEvents, pending, delivery]

/-! ## One read -/

theorem allowance_pos {s : Source} {want : Nat} (hw : 0 < want) (hc : s.chunk ≠ some 0) :
    0 < s.allowance want := by
  unfold allowance
  split
  · exact hw
  · rename_i limit h
    have : limit ≠ 0 := fun e => hc (by rw [h, e])
    omega

theorem pending_of_read_nil {s s' : Source} {want : Nat} (hw : 0 < want)
    (h : s.read want = (.ok [], s')) : s.pending = [] ∧ s'.fatals = s.fatals := by
  unfold read at h
  split at h <;> simp only [Prod.mk.injEq, Except.ok.injEq, reduceCtorEq, false_and, true_and] at h
  · rename_i hs
    subst h
    exact ⟨by simp [pending, hs, delivery], rfl⟩
  · rename_i rest hs
    subst h
    exact ⟨by simp [pending, hs, delivery], by simp [fatals, hs]⟩
  · rename_i bytes rest hs
    obtain ⟨ht, rfl⟩ := h
    have hfat : ∀ left : List Byte, fatals
        { s with script := if left.isEmpty then rest else .data left :: rest, reads := s.reads + 1 } = s.fatals := by
      intro left
      simp only [fatals, hs]
      split <;> simp
    refine ⟨?_, hfat _⟩
    unfold pending
    split
    · rfl
    · rename_i hn
      have hpos := allowance_pos hw (fun e => hn (Or.inr e))
      cases bytes with
      | nil => simp [hs, delivery]
      | cons b bytes =>
        rw [List.take_eq_nil_iff] at ht
        rcases ht with h0 | h0
        · omega
        · cases h0

theorem pending_of_read_cons {s s' : Source} {want : Nat} {b : Byte} {bytes : List Byte} (he : s.ended = false)
    (h : s.read want = (.ok (b :: bytes), s')) :
    s.pending = b :: bytes ++ s'.pending ∧ s'.fatals = s.fatals ∧ s'.ended = false := by
  unfold read at h
  split at h <;> simp only [Prod.mk.injEq, Except.ok.injEq, reduceCtorEq, false_and] at h
  rename_i all rest hs
  obtain ⟨ht, rfl⟩ := h
  have hc : s.chunk ≠ some 0 := by
    intro hc
    simp [allowance, hc] at ht
  have hsplit := List.take_append_drop (s.allowance want) all
  rw [ht] at hsplit
  have hall : all ≠ [] := fun e => by simp [e] at ht
  refine ⟨?_, ?_, he⟩
  · simp only [pending, he, hc, hs, Bool.false_eq_true, or_self, if_false]
    rw [delivery_data all rest hall]
    cases hd : all.drop (s.allowance want) with
    | nil =>
      rw [hd, List.append_nil] at hsplit
      simp [← hsplit]
    | cons c left =>
      rw [hd] at hsplit
      rw [← hsplit]
      simp [delivery]
  · simp only [fatals, hs]
    split <;> simp

theorem pending_of_read_error {s s' : Source} {want : Nat} {fault : Fault}
    (h : s.read want = (.error fault, s')) :
    s'.pending = s.pending ∧ s'.ended = s.ended ∧
      s.fatals = if fault.isFatal then fault :: s'.fatals else s'.fatals := by
  unfold read at h
  split at h <;> simp only [Prod.mk.injEq, Except.error.injEq, reduceCtorEq, false_and] at h
  rename_i rest hs
  obtain ⟨rfl, rfl⟩ := h
  refine ⟨by simp [pending, hs, delivery], rfl, ?_⟩
  simp only [fatals, hs, List.filterMap_cons]
  split
  · rename_i hf
    split at hf <;> simp_all
  · rename_i hf
    split at hf <;> simp_all

/-! ## Whole fills -/

theorem fillFrom_spec (capacity : Nat) (loaded : Array Byte) (s : Source) (hle : loaded.size ≤ capacity) :
    match fillFrom capacity loaded s with
    | (.ok half, s') =>
      half.toList = loaded.toList ++ s.pending.take (capacity - loaded.size) ∧
        s'.pending = s.pending.drop (capacity - loaded.size) ∧ s'.fatals = s.fatals
    | (.error fault, s') => s.fatals = fault :: s'.fatals := by
  fun_induction fillFrom capacity loaded s with
  | case1 loaded s hc s' h =>
    obtain ⟨hp, hf⟩ := pending_of_read_nil (by omega) h
    refine ⟨by simp [hp], ?_, hf⟩
    rw [hp, List.drop_nil, pending_of_ended rfl]
  | case2 loaded s hc b bytes s' h ih =>
    obtain ⟨hp, hf, he⟩ := pending_of_read_cons hc.2 h
    have hlen := length_of_read h
    have hsize : (loaded ++ b :: bytes).size = loaded.size + (b :: bytes).length := by
      simp [← Array.length_toList]
    have hroom : capacity - loaded.size = (b :: bytes).length + (capacity - (loaded ++ b :: bytes).size) := by omega
    have := ih (by omega)
    split at this
    · obtain ⟨h1, h2, h3⟩ := this
      rw [hp, hroom, List.take_length_add_append, List.drop_length_add_append]
      exact ⟨by simp [h1], h2, h3.trans hf⟩
    · rw [← hf]; exact this
  | case3 loaded s hc fault s' h hfatal =>
    have := (pending_of_read_error h).2.2
    rw [if_pos hfatal] at this
    exact this
  | case4 loaded s hc fault s' h hfatal ih =>
    obtain ⟨hp, he, hf⟩ := pending_of_read_error h
    rw [if_neg hfatal] at hf
    rw [← hp, hf]
    exact ih hle
  | case5 loaded s hc =>
    rcases Nat.lt_or_ge loaded.size capacity with hlt | hge
    · have he : s.ended = true := by
        cases h : s.ended with
        | true => rfl
        | false => exact absurd ⟨hlt, h⟩ hc
      simp [pending_of_ended he]
    · simp [Nat.sub_eq_zero_of_le hge]

theorem fill_ok {s s' : Source} {capacity : Nat} {half : Array Byte} (h : s.fill capacity = (.ok half, s')) :
    half.toList = s.pending.take capacity ∧ s'.pending = s.pending.drop capacity ∧ s'.fatals = s.fatals := by
  have := fillFrom_spec capacity #[] s (Nat.zero_le _)
  unfold fill at h
  rw [h] at this
  simpa using this

theorem fill_error {s s' : Source} {capacity : Nat} {fault : Fault}
    (h : s.fill capacity = (.error fault, s')) : s.fatals = fault :: s'.fatals := by
  have := fillFrom_spec capacity #[] s (Nat.zero_le _)
  unfold fill at h
  rw [h] at this
  exact this

end Source

end StreamLexer
