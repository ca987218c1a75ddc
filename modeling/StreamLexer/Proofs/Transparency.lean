import StreamLexer.Proofs.Buffering
import StreamLexer.Proofs.Calls

/-!
# Buffering is invisible

Call by call, a lexer over a buffer pair answers as the lexer that has the whole stream before it,
up to the first word or number that reaches the end of the second half it may lie in. There the
answer is that the lexeme is too long, whatever stands behind the word or number.
-/

namespace StreamLexer

namespace Lexer

def ofBytes (data : List Byte) : Lexer Flat := ofCursor (Flat.ofBytes data none)

/-- One call of the lexer over halves, against the same call of the lexer over the whole stream. -/
inductive CallOutcome (capacity : Nat) (l : Lexer BufferPair) (m : Lexer Flat) : Prop where
  | tooLong : Overlong capacity m.cursor.data.toList m.position.offset →
      l.nextLocated.1 = .error (.input (.lexemeTooLong capacity)) → l.nextLocated.2.poisoned = true →
      CallOutcome capacity l m
  | fault {fault : Fault} : l.cursor.source.fatals.head? = some fault →
      l.nextLocated.1 = .error (.input (.read fault)) → l.nextLocated.2.poisoned = true → CallOutcome capacity l m
  | row {row : Located} : ¬ Overlong capacity m.cursor.data.toList m.position.offset →
      l.nextLocated.1 = .ok row → m.nextLocated.1 = .ok row →
      AtRest capacity l.nextLocated.2 m.nextLocated.2 → m.nextLocated.2.poisoned = false →
      l.nextLocated.2.cursor.source.fatals = l.cursor.source.fatals → CallOutcome capacity l m
  | error {e : LexError} : ¬ Overlong capacity m.cursor.data.toList m.position.offset →
      l.nextLocated.1 = .error e → m.nextLocated.1 = .error e →
      l.nextLocated.2.poisoned = true → m.nextLocated.2.poisoned = true → CallOutcome capacity l m

theorem AtRest.call {capacity : Nat} {l : Lexer BufferPair} {m : Lexer Flat} (h : AtRest capacity l m)
    (hp : m.poisoned = false) : CallOutcome capacity l m := by
  have hposition := (h.whole h.offset_eq).2
  have hl := nextLocated_of_scan (l := l) (h.poisoned.trans hp)
  have hm := nextLocated_of_scan (l := m) hp
  have hkept := (spares_scan m).poisoned
  have hscan := h.scan
  rw [← h.rest, ← h.offset] at hscan
  rcases hls : l.scan with ⟨r, l'⟩
  rcases hms : m.scan with ⟨s, m'⟩
  rw [hls] at hl hscan
  rw [hms] at hm hscan hkept
  cases hscan with
  | tooLong hlong => exact .tooLong hlong (by rw [hl]) (by rw [hl])
  | fault hf => exact .fault hf (by rw [hl]) (by rw [hl])
  | token hlong hrest hfat =>
    refine .row hlong (by rw [hl]) (by rw [hm, hposition]) ?_ ?_ ?_
    · rw [hl, hm]; exact hrest
    · rw [hm]; exact hkept.trans hp
    · rw [hl]; exact hfat
  | error hlong => exact .error hlong (by rw [hl]) (by rw [hm]) (by rw [hl]) (by rw [hm])

theorem atRest_ofSource {capacity : Nat} {source : Source} {l : Lexer BufferPair}
    (h : ofSource capacity source = .ok l) :
    AtRest capacity l (ofBytes source.pending) ∧ l.cursor.source.fatals = source.fatals := by
  obtain ⟨p, hp, rfl⟩ := ofSource_eq_ok h
  obtain ⟨hm, _, hfat⟩ := BufferPair.Mirrors.ofSource hp
  have ho : p.offset = 0 := hm.offset_eq
  refine ⟨⟨⟨?_, rfl, rfl, rfl, rfl, Nat.zero_le _, ?_⟩, rfl⟩, hfat⟩
  · show p.Mirrors (((Flat.ofBytes source.pending none).startAt p.offset).framed capacity)
    rw [ho]; exact hm
  · show Position.start = Position.start.advance (source.pending.toArray.extract 0 p.offset).toList
    rw [ho]; simp

theorem exists_ofSource {capacity : Nat} {source : Source} (hcap : 0 < capacity) (hs : source.Reliable) :
    ∃ l, ofSource capacity source = .ok l := by
  obtain ⟨p, hp⟩ := BufferPair.Mirrors.exists_ofSource hcap hs
  exact ⟨ofCursor p, by simp [ofSource, hp]⟩

/-! ## Two runs side by side -/

/-- Two lexers that will go on to answer alike: both stand at the same place, or both are poisoned. -/
inductive Together (capacity : Nat) (l : Lexer BufferPair) (m : Lexer Flat) : Prop where
  | running : AtRest capacity l m → m.poisoned = false → l.cursor.source.Reliable → Together capacity l m
  | stopped : l.poisoned = true → m.poisoned = true → l.words = m.words → Together capacity l m

theorem Together.words {capacity : Nat} {l : Lexer BufferPair} {m : Lexer Flat} (h : Together capacity l m) :
    l.words = m.words := by
  cases h with
  | running h _ _ => exact h.words
  | stopped _ _ hw => exact hw

def MeetsOverlong (capacity : Nat) (m : Lexer Flat) : Prop :=
  m.poisoned = false ∧ Overlong capacity m.cursor.data.toList m.position.offset

theorem Together.call {capacity : Nat} {l : Lexer BufferPair} {m : Lexer Flat} (h : Together capacity l m)
    (hlong : ¬ MeetsOverlong capacity m) :
    l.nextLocated.1 = m.nextLocated.1 ∧ Together capacity l.nextLocated.2 m.nextLocated.2 := by
  cases h with
  | stopped hl hm hw =>
    rw [nextLocated_of_poisoned hl, nextLocated_of_poisoned hm]
    exact ⟨rfl, .stopped hl hm hw⟩
  | running h hp hs =>
    cases h.call hp with
    | tooLong hov _ _ => exact absurd ⟨hp, hov⟩ hlong
    | fault hf _ _ => rw [hs] at hf; cases hf
    | row _ hl hm hrest hp' hfat => exact ⟨hl.trans hm.symm, .running hrest hp' (hfat.trans hs)⟩
    | error _ hl hm hpl hpm =>
      refine ⟨hl.trans hm.symm, .stopped hpl hpm ?_⟩
      rw [words_of_nextLocated_error hl, words_of_nextLocated_error hm]
      exact h.words

theorem Together.after {capacity : Nat} {l : Lexer BufferPair} {m : Lexer Flat} (h : Together capacity l m) :
    ∀ n, (∀ j < n, ¬ MeetsOverlong capacity (m.after j)) → Together capacity (l.after n) (m.after n)
  | 0, _ => h
  | n + 1, hlong => by
    have ih := h.after n fun j hj => hlong j (Nat.lt_succ_of_lt hj)
    exact (ih.call (hlong n (Nat.lt_succ_self n))).2

theorem Together.call_tooLong {capacity : Nat} {l : Lexer BufferPair} {m : Lexer Flat} (h : Together capacity l m)
    (hlong : MeetsOverlong capacity m) :
    l.nextLocated.1 = .error (.input (.lexemeTooLong capacity)) ∧ l.nextLocated.2.poisoned = true := by
  cases h with
  | stopped _ hm _ => rw [hlong.1] at hm; cases hm
  | running h hp hs =>
    cases h.call hp with
    | tooLong _ he hpl => exact ⟨he, hpl⟩
    | fault hf _ _ => rw [hs] at hf; cases hf
    | row hov _ _ _ _ _ => exact absurd hlong.2 hov
    | error hov _ _ _ _ => exact absurd hlong.2 hov

theorem kept_ofBytes (data : List Byte) (n : Nat) :
    ((ofBytes data).after n).cursor.window = none ∧ ((ofBytes data).after n).cursor.data = data.toArray := by
  let P := fun f : Flat => f.window = none ∧ f.data = data.toArray
  have hnext : ∀ f, P f → Reads P P (Cursor.next f) := by
    intro f hf
    have hn : Cursor.next f = _ := Flat.next_of_window_none hf.1
    rw [hn]
    cases f.peek f.pos <;> exact hf
  exact (after_invariant hnext (fun _ hf => hf) (fun _ hf => hf) (fun _ hf => hf) (ofBytes data) ⟨rfl, rfl⟩ n).2

theorem result_ofBytes_input_error {data : List Byte} {n : Nat} {e : InputError}
    (h : (ofBytes data).result n = .error (.input e)) : ∃ b pos, e = .nonAscii b pos := by
  have hw := (kept_ofBytes data n).1
  unfold result at h
  generalize (ofBytes data).after n = m at h hw
  cases hp : m.poisoned with
  | true => rw [nextLocated_of_poisoned hp] at h; cases h
  | false =>
    rw [nextLocated_of_scan hp] at h
    rcases hs : m.scan with ⟨r, m'⟩
    rw [hs] at h
    cases r with
    | ok t => cases h
    | error e =>
      cases h
      exact scan_flat_input_error m hw (by rw [hs])

theorem result_ofBytes_ne_tooLong (data : List Byte) (n k : Nat) :
    (ofBytes data).result n ≠ .error (.input (.lexemeTooLong k)) := by
  intro h
  obtain ⟨b, pos, he⟩ := result_ofBytes_input_error h
  cases he

/-- The call behind `n` others, of the lexer over all of `data`, comes to a word or number that is
too long for two halves. -/
def OverlongAt (capacity : Nat) (data : List Byte) (n : Nat) : Prop :=
  ((ofBytes data).after n).poisoned = false ∧
    Overlong capacity data ((ofBytes data).after n).position.offset

theorem overlongAt_iff {capacity : Nat} {data : List Byte} {n : Nat} :
    OverlongAt capacity data n ↔ MeetsOverlong capacity ((ofBytes data).after n) := by
  unfold OverlongAt MeetsOverlong
  rw [(kept_ofBytes data n).2]

theorem not_overlongAt {capacity : Nat} {data : List Byte} {n : Nat} (hcap : 0 < capacity)
    (h : ∀ w, ((ofBytes data).after n).poisoned = false →
      extent data ((ofBytes data).after n).position.offset = some w → w ≤ capacity) :
    ¬ OverlongAt capacity data n := by
  rintro ⟨hp, w, hw, hle⟩
  have := h w hp hw
  have := Nat.mod_lt ((ofBytes data).after n).position.offset hcap
  omega

theorem first_or_none (P : Nat → Prop) : ∀ n, (∀ j < n, ¬ P j) ∨ ∃ j < n, P j ∧ ∀ i < j, ¬ P i
  | 0 => Or.inl fun j hj => absurd hj (Nat.not_lt_zero j)
  | n + 1 => by
    rcases first_or_none P n with hnone | ⟨j, hj, hfirst⟩
    · by_cases hn : P n
      · exact Or.inr ⟨n, Nat.lt_succ_self n, hn, hnone⟩
      · apply Or.inl
        intro j hj
        rcases Nat.lt_succ_iff_lt_or_eq.mp hj with h | h
        · exact hnone j h
        · rw [h]; exact hn
    · exact Or.inr ⟨j, Nat.lt_succ_of_lt hj, hfirst⟩

section
variable {capacity : Nat} {source : Source} {l : Lexer BufferPair}
  (hl : ofSource capacity source = .ok l) (hs : source.Reliable)
include hl hs

theorem together_ofSource : Together capacity l (ofBytes source.pending) := by
  obtain ⟨hrest, hfat⟩ := atRest_ofSource hl
  exact .running hrest rfl (hfat.trans hs)

theorem together_after {n : Nat} (hn : ∀ j < n, ¬ OverlongAt capacity source.pending j) :
    Together capacity (l.after n) ((ofBytes source.pending).after n) :=
  (together_ofSource hl hs).after n fun j hj => fun h => hn j hj (overlongAt_iff.mpr h)

theorem result_eq_ofBytes {n : Nat} (hn : ∀ j ≤ n, ¬ OverlongAt capacity source.pending j) :
    l.result n = (ofBytes source.pending).result n :=
  ((together_after hl hs fun j hj => hn j (Nat.le_of_lt hj)).call
    fun h => hn n (Nat.le_refl n) (overlongAt_iff.mpr h)).1

theorem result_tooLong {n : Nat} (hn : ∀ j < n, ¬ OverlongAt capacity source.pending j)
    (hlong : OverlongAt capacity source.pending n) :
    l.result n = .error (.input (.lexemeTooLong capacity)) ∧ (l.after (n + 1)).poisoned = true :=
  (together_after hl hs hn).call_tooLong (overlongAt_iff.mp hlong)

theorem result_eq_tooLong_iff {n k : Nat} :
    l.result n = .error (.input (.lexemeTooLong k)) ↔
      k = capacity ∧ OverlongAt capacity source.pending n ∧ ∀ j < n, ¬ OverlongAt capacity source.pending j := by
  constructor
  · intro h
    rcases first_or_none (OverlongAt capacity source.pending) (n + 1) with hnone | ⟨j, hj, hlong, hfirst⟩
    · rw [result_eq_ofBytes hl hs fun j hj => hnone j (Nat.lt_succ_of_le hj)] at h
      exact absurd h (result_ofBytes_ne_tooLong _ _ _)
    · obtain ⟨hr, hp⟩ := result_tooLong hl hs hfirst hlong
      rcases Nat.lt_succ_iff_lt_or_eq.mp hj with hlt | heq
      -- behind the first of them the lexer answers that it is poisoned
      · have := result_of_poisoned hp (n - (j + 1))
        rw [Nat.add_sub_cancel' hlt, h] at this
        cases this
      · rw [← heq, hr] at h
        cases h
        exact ⟨rfl, heq ▸ hlong, heq ▸ hfirst⟩
  · rintro ⟨rfl, hlong, hfirst⟩
    exact (result_tooLong hl hs hfirst hlong).1

theorem result_after_tooLong {j n : Nat} (hlt : j < n) (hlong : OverlongAt capacity source.pending j) :
    l.result n = .error .poisoned := by
  rcases first_or_none (OverlongAt capacity source.pending) (j + 1) with hnone | ⟨i, hi, hfirst, hmin⟩
  · exact absurd hlong (hnone j (Nat.lt_succ_self j))
  · have := result_of_poisoned (result_tooLong hl hs hmin hfirst).2 (n - (i + 1))
    rwa [Nat.add_sub_cancel' (by omega)] at this

end

/-- Over halves of any capacity, filled from any reliable source, a lexer answers as over the whole
stream, up to the first word or number that starts at an offset `o`, reaches over `w` bytes and has
`2 * capacity ≤ o % capacity + w`. That one, and nothing else, is answered by `lexemeTooLong`. So
halves that hold every word and number of the stream cannot be told apart. -/
theorem buffering_invisible (capacity : Nat) (source : Source) (hcap : 0 < capacity) (hs : source.Reliable) :
    ∃ l, ofSource capacity source = .ok l ∧
      (∀ n, (∀ j ≤ n, ¬ OverlongAt capacity source.pending j) →
        l.result n = (ofBytes source.pending).result n) ∧
      (∀ n, (∀ j < n, ¬ OverlongAt capacity source.pending j) →
        (l.after n).words = ((ofBytes source.pending).after n).words) ∧
      (∀ n k, l.result n = .error (.input (.lexemeTooLong k)) ↔
        k = capacity ∧ OverlongAt capacity source.pending n ∧ ∀ j < n, ¬ OverlongAt capacity source.pending j) ∧
      (∀ j n, j < n → OverlongAt capacity source.pending j → l.result n = .error .poisoned) ∧
      (∀ n k, extent source.pending ((ofBytes source.pending).after n).position.offset = none →
        l.result n ≠ .error (.input (.lexemeTooLong k))) ∧
      (∀ n k w, extent source.pending ((ofBytes source.pending).after n).position.offset = some w →
        w ≤ capacity → l.result n ≠ .error (.input (.lexemeTooLong k))) ∧
      ∀ (capacity' : Nat) (source' : Source), 0 < capacity' → source'.Reliable →
        source'.pending = source.pending →
        (∀ n w, ((ofBytes source.pending).after n).poisoned = false →
          extent source.pending ((ofBytes source.pending).after n).position.offset = some w →
          w ≤ capacity ∧ w ≤ capacity') →
        ∃ l', ofSource capacity' source' = .ok l' ∧
          ∀ n, l'.result n = l.result n ∧ (l'.after n).words = (l.after n).words := by
  obtain ⟨l, hl⟩ := exists_ofSource hcap hs
  have hshort : ∀ n k, ¬ OverlongAt capacity source.pending n → l.result n ≠ .error (.input (.lexemeTooLong k)) :=
    fun n k hn h => hn ((result_eq_tooLong_iff hl hs).mp h).2.1
  refine ⟨l, hl, fun n => result_eq_ofBytes hl hs, fun n hn => (together_after hl hs hn).words,
    fun n k => result_eq_tooLong_iff hl hs, fun j n => result_after_tooLong hl hs, ?_, ?_, ?_⟩
  · intro n k hnone
    apply hshort n k
    apply not_overlongAt hcap
    intro w _ hw
    rw [hnone] at hw; cases hw
  · intro n k w hw hle
    apply hshort n k
    apply not_overlongAt hcap
    intro v _ hv
    rw [hw] at hv; cases hv; exact hle
  · intro capacity' source' hcap' hs' hd hfits
    obtain ⟨l', hl'⟩ := exists_ofSource hcap' hs'
    have hnever : ∀ n, ¬ OverlongAt capacity source.pending n :=
      fun n => not_overlongAt hcap fun w hp hw => (hfits n w hp hw).1
    have hnever' : ∀ n, ¬ OverlongAt capacity' source'.pending n := by
      rw [hd]
      exact fun n => not_overlongAt hcap' fun w hp hw => (hfits n w hp hw).2
    refine ⟨l', hl', fun n => ⟨?_, ?_⟩⟩
    · rw [result_eq_ofBytes hl hs fun j _ => hnever j, result_eq_ofBytes hl' hs' fun j _ => hnever' j, hd]
    · rw [(together_after hl hs fun j _ => hnever j).words, (together_after hl' hs' fun j _ => hnever' j).words, hd]

theorem buffering_invisible_abcd :
    0 < 2 ∧ Source.Reliable (.ofBytes [97, 98, 99, 100, 200]) ∧
      ∃ l, ofSource 2 (.ofBytes [97, 98, 99, 100, 200]) = .ok l ∧
        l.result 0 = .error (.input (.lexemeTooLong 2)) := by
  obtain ⟨l, hl, _, _, hiff, _⟩ :=
    buffering_invisible 2 (.ofBytes [97, 98, 99, 100, 200]) (by decide) (by decide)
  refine ⟨by decide, by decide, l, hl, (hiff 0 2).mpr ⟨rfl, ⟨rfl, 4, rfl, by decide⟩, ?_⟩⟩
  intro j hj
  exact absurd hj (Nat.not_lt_zero j)

end Lexer

end StreamLexer
