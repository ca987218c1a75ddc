import StreamLexer.Proofs.Reach
import StreamLexer.Proofs.Tracking

/-!
# Automata over a buffer pair

A flat cursor without a window is framed by giving it one. A pair that mirrors the framed cursor
reads what the free cursor reads as long as the lexeme keeps short of the limit of its frame, so
a run of an automaton comes out the same exactly if the automaton does not reach that limit.
-/

namespace StreamLexer

namespace Flat

def framed (f : Flat) (capacity : Nat) : Flat := { f with window := some capacity }

/-- Where a lexeme that starts where this one does is too long for two halves. -/
def limit (f : Flat) (capacity : Nat) : Nat := (f.start / capacity + 2) * capacity

theorem next_framed {f : Flat} (h : f.window = none) (capacity : Nat) :
    (f.framed capacity).next =
      if f.pos = f.limit capacity then (.failed (.lexemeTooLong capacity), f.framed capacity)
      else (f.next.1, f.next.2.framed capacity) := by
  have hbound : (f.framed capacity).bound = some (f.limit capacity) := rfl
  have hfree : f.bound ≠ some f.pos := by simp [bound, h]
  unfold next
  simp only [hbound, hfree, if_false]
  by_cases hl : f.pos = f.limit capacity
  · simp [framed, hl]
  · have hne : ¬ some (f.limit capacity) = some (f.framed capacity).pos := fun e => hl (Option.some.inj e).symm
    rw [if_neg hne, if_neg hl]
    simp only [framed]
    cases f.data[f.pos]? with
    | none => rfl
    | some b => by_cases hb : b.isAscii = true <;> simp [hb]

end Flat

namespace Cursor

variable {σ Q : Type} [Cursor σ] {step : Q → Byte → Option Q} {q q' : Q} {s s' : σ} {b : Byte}

theorem run_char_some (hn : next s = (.char b, s')) (hs : step q b = some q') :
    run step q s = run step q' s' := by
  rw [run]
  split <;> simp_all

theorem run_stop (hstop : ∀ b, (next s).1 = .char b → step q b = none) :
    run step q s =
      match (next s).1 with
      | .char b => (.char q b, (next s).2)
      | .eof => (.eof q, (next s).2)
      | .failed error => (.failed error, (next s).2) := by
  rw [run]
  split <;> simp_all

theorem run_unfold :
    run step q s =
      match next s with
      | (.char b, s') =>
        match step q b with
        | some q' => run step q' s'
        | none => (.char q b, s')
      | (.eof, s') => (.eof q, s')
      | (.failed error, s') => (.failed error, s') := by
  rcases hn : next s with ⟨reading, s'⟩
  have hstop : (∀ b, reading = .char b → step q b = none) → run step q s = _ :=
    fun h => run_stop (by rw [hn]; exact h)
  rw [hn] at hstop
  cases reading with
  | char b =>
    cases hs : step q b with
    | some q' => simp [hs, run_char_some hn hs]
    | none => simp [hs, hstop]
  | eof => simp [hstop]
  | failed e => simp [hstop]

theorem run_failed {error : InputError} (hn : (next s).1 = .failed error) :
    (run step q s).1 = .failed error := by
  rw [run_stop (fun b hb => by rw [hn] at hb; cases hb), hn]

end Cursor

namespace BufferPair

theorem Tracks.pos_le_limit {p : BufferPair} {f : Flat} {k : Nat} (h : Tracks p f k) :
    f.pos ≤ f.limit p.capacity := by
  have hcap := h.capacity_pos
  have hfw : p.forward ≤ p.capacity := Nat.le_trans h.forward_le h.size_le
  have hdiv : k ≤ f.start / p.capacity + 1 := by
    cases hc : p.crossed with
    | false =>
      have := (h.whole hc).1
      have : k ≤ f.start / p.capacity := (Nat.le_div_iff_mul_le hcap).mpr (by omega)
      omega
    | true =>
      obtain ⟨_, _, j, rfl, hst, _⟩ := h.crossed hc
      have : j ≤ f.start / p.capacity := (Nat.le_div_iff_mul_le hcap).mpr (by omega)
      omega
  have := Nat.mul_le_mul_right p.capacity (Nat.add_le_add_right hdiv 1)
  rw [Nat.succ_mul] at this
  rw [h.pos]
  exact Nat.le_trans (Nat.add_le_add_left hfw _) this

namespace Mirrors

variable {p : BufferPair} {f : Flat} {capacity : Nat}

theorem capacity_eq (h : Mirrors p (f.framed capacity)) : p.capacity = capacity := by
  obtain ⟨k, h⟩ := h
  exact (Option.some.inj h.window).symm

theorem capacity_pos (h : Mirrors p (f.framed capacity)) : 0 < capacity := by
  have hcap := h.capacity_eq
  obtain ⟨k, h⟩ := h
  rw [← hcap]; exact h.capacity_pos

theorem pos_le_limit (h : Mirrors p (f.framed capacity)) : f.pos ≤ f.limit capacity := by
  have hcap := h.capacity_eq
  obtain ⟨k, h⟩ := h
  have := h.pos_le_limit
  rw [hcap] at this
  exact this

theorem next_free (h : Mirrors p (f.framed capacity)) (hw : f.window = none) :
    (f.pos = f.limit capacity ∧ p.next.1 = .failed (.lexemeTooLong capacity)) ∨
    (∃ fault, p.next.1 = .failed (.read fault) ∧ p.source.fatals.head? = some fault) ∨
    (f.pos < f.limit capacity ∧ p.next.1 = f.next.1 ∧ Mirrors p.next.2 (f.next.2.framed capacity) ∧
      p.next.2.source.fatals = p.source.fatals) := by
  have hle := h.pos_le_limit
  rcases h.next with ⟨hr, hm, hfat⟩ | ⟨fault, source, hn, hfat⟩
  · rw [Flat.next_framed hw] at hr hm
    by_cases hl : f.pos = f.limit capacity
    · rw [if_pos hl] at hr
      exact Or.inl ⟨hl, hr⟩
    · rw [if_neg hl] at hr hm
      exact Or.inr (Or.inr ⟨by omega, hr, hm, hfat⟩)
  · rw [hn, hfat]
    exact Or.inr (Or.inl ⟨fault, rfl, rfl⟩)

end Mirrors

variable {Q : Type} {step : Q → Byte → Option Q} {capacity : Nat}

/-- A run over the pair, against the same run by the free cursor. -/
inductive RunOutcome (step : Q → Byte → Option Q) (capacity : Nat) (q : Q) (p : BufferPair) (f : Flat) : Prop where
  | tooLong : f.limit capacity ≤ f.pos + reach step q f.rest →
      (Cursor.run step q p).1 = .failed (.lexemeTooLong capacity) → RunOutcome step capacity q p f
  | fault {fault : Fault} : p.source.fatals.head? = some fault →
      (Cursor.run step q p).1 = .failed (.read fault) → RunOutcome step capacity q p f
  | same : f.pos + reach step q f.rest < f.limit capacity →
      (Cursor.run step q p).1 = (Cursor.run step q f).1 →
      Mirrors (Cursor.run step q p).2 ((Cursor.run step q f).2.framed capacity) →
      (Cursor.run step q p).2.source.fatals = p.source.fatals → RunOutcome step capacity q p f

theorem RunOutcome.of_next {q : Q} {p : BufferPair} {f : Flat} (h : Mirrors p (f.framed capacity))
    (hw : f.window = none)
    (hsame : f.pos < f.limit capacity → p.next.1 = f.next.1 → Mirrors p.next.2 (f.next.2.framed capacity) →
      p.next.2.source.fatals = p.source.fatals → RunOutcome step capacity q p f) :
    RunOutcome step capacity q p f := by
  rcases h.next_free hw with ⟨hl, hr⟩ | ⟨fault, hr, hf⟩ | ⟨hl, hr, hm, hfat⟩
  · exact .tooLong (by omega) (Cursor.run_failed hr)
  · exact .fault hf (Cursor.run_failed hr)
  · exact hsame hl hr hm hfat

theorem RunOutcome.of_stop {q : Q} {p : BufferPair} {f : Flat} (h : Mirrors p (f.framed capacity))
    (hw : f.window = none) (hreach : reach step q f.rest = 0)
    (hstop : ∀ b, f.peek f.pos = .char b → step q b = none) : RunOutcome step capacity q p f := by
  apply RunOutcome.of_next h hw
  intro hl hr hm hfat
  have hread : (Cursor.next f).1 = f.peek f.pos := congrArg Prod.fst (Flat.next_of_window_none hw)
  have hr : (Cursor.next p).1 = (Cursor.next f).1 := hr
  have hfrun : Cursor.run step q f = _ := Cursor.run_stop fun b hb => hstop b (hread ▸ hb)
  have hprun : Cursor.run step q p = _ := Cursor.run_stop fun b hb => hstop b (hread ▸ hr ▸ hb)
  rw [hr] at hprun
  refine .same (by omega) ?_ ?_ ?_
  · rw [hprun, hfrun]
    cases (Cursor.next f).1 <;> rfl
  · rw [hprun, hfrun]
    cases (Cursor.next f).1 <;> exact hm
  · rw [hprun]
    cases (Cursor.next f).1 <;> exact hfat

theorem run_outcome (hstep : ∀ q b q', step q b = some q' → b.isAscii = true) (q : Q) (f : Flat)
    (hw : f.window = none) :
    ∀ {p : BufferPair}, Mirrors p (f.framed capacity) → RunOutcome step capacity q p f := by
  fun_induction Cursor.run step q f with
  | case1 q f b f' hn q' hs ih =>
    intro p h
    obtain ⟨hp, rfl⟩ := Flat.next_eq hw hn
    have hreach := (reach_cons_some (f.goto (f.pos + 1)).rest hs).1
    rw [← Flat.rest_of_peek (Flat.peek_eq_char hp).1] at hreach
    have hpos : f.pos + reach step q f.rest = f.pos + 1 + reach step q' (f.goto (f.pos + 1)).rest := by
      omega
    apply RunOutcome.of_next h hw
    intro hl hr hm hfat
    have hfn : f.next = (.char b, f.moved (.char b)) := hn
    rw [hfn] at hr hm
    have hprun : Cursor.run step q p = Cursor.run step q' p.next.2 := Cursor.run_char_some (Prod.ext hr rfl) hs
    have hfrun : Cursor.run step q f = _ := Cursor.run_char_some hn hs
    cases ih hw hm with
    | tooLong hlong he => exact .tooLong (hpos ▸ hlong) (hprun ▸ he)
    | fault hf he => exact .fault (hfat ▸ hf) (hprun ▸ he)
    | same hshort he hm' hfat' =>
      rw [← hprun] at he hm' hfat'
      rw [← hfrun] at he hm'
      exact .same (hpos ▸ hshort) he hm' (hfat'.trans hfat)
  | case2 q f b f' hn hs =>
    intro p h
    obtain ⟨hp, rfl⟩ := Flat.next_eq hw hn
    apply RunOutcome.of_stop h hw
    · rw [Flat.rest_of_peek (Flat.peek_eq_char hp).1, (reach_cons_none _ hs).1]
    · intro c hc
      rw [hp] at hc
      cases hc
      exact hs
  | case3 q f f' hn =>
    intro p h
    obtain ⟨hp, rfl⟩ := Flat.next_eq hw hn
    apply RunOutcome.of_stop h hw (by rw [Flat.rest_of_eof hp, reach])
    intro c hc
    rw [hp] at hc
    cases hc
  | case4 q f error f' hn =>
    intro p h
    obtain ⟨hp, rfl⟩ := Flat.next_eq hw hn
    apply RunOutcome.of_stop h hw (Flat.reach_of_failed hstep q hp)
    intro c hc
    rw [hp] at hc
    cases hc

end BufferPair

end StreamLexer
