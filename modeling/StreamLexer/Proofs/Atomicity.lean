import StreamLexer.Proofs.Layout

/-!
# A failed read leaves no trace

A fill that fails for good has overwritten slots of the other half and has taken events off the
script. Nothing that a lexeme needs lies in that half, so the moves that follow cannot tell that the
read was made, but for what is left of the script: the next read starts over in the same half
with the events behind the failure.
-/

namespace StreamLexer

namespace Source

theorem fillFrom_error (capacity : Nat) (loaded : Array Byte) (s : Source) {fault : Fault} {t : Source}
    (h : fillFrom capacity loaded s = (.error fault, t)) :
    t.chunk = s.chunk ∧ t.ended = s.ended ∧ fault.isFatal = true ∧
      ∃ gone, s.script = gone ++ .fail fault :: t.script ∧ ∀ other, .fail other ∈ gone → other.isFatal = false := by
  fun_induction fillFrom capacity loaded s with
  | case1 => cases h
  | case2 loaded s hc b bytes s' hr ih =>
    obtain ⟨hchunk, hended, hfatal, gone, hgone, hcalm⟩ := ih h
    unfold read at hr
    split at hr <;> simp only [Prod.mk.injEq, Except.ok.injEq, reduceCtorEq, false_and] at hr
    rename_i all rest hs
    obtain ⟨_, rfl⟩ := hr
    refine ⟨hchunk, hended, hfatal, ?_⟩
    rw [hs]
    simp only at hgone
    split at hgone
    · exact ⟨.data all :: gone, by rw [hgone]; rfl, by simpa using hcalm⟩
    -- what is left of the first event is gone when the failure is met
    · cases gone with
      | nil => cases hgone
      | cons event gone =>
        cases hgone
        exact ⟨.data all :: gone, rfl, by simpa using hcalm⟩
  | case3 loaded s hc fault' s' hr hfatal =>
    cases h
    unfold read at hr
    split at hr <;> simp only [Prod.mk.injEq, Except.error.injEq, reduceCtorEq, false_and] at hr
    rename_i hs
    obtain ⟨rfl, rfl⟩ := hr
    exact ⟨rfl, rfl, hfatal, [], hs, by simp⟩
  | case4 loaded s hc fault' s' hr hfatal ih =>
    obtain ⟨hchunk, hended, hfatal', gone, hgone, hcalm⟩ := ih h
    unfold read at hr
    split at hr <;> simp only [Prod.mk.injEq, Except.error.injEq, reduceCtorEq, false_and] at hr
    rename_i again rest hs
    obtain ⟨rfl, rfl⟩ := hr
    refine ⟨hchunk, hended, hfatal', .fail again :: gone, ?_, ?_⟩
    · rw [hs]
      exact congrArg (List.cons _) hgone
    · intro other hother
      rcases List.mem_cons.mp hother with heq | hmem
      · cases heq
        simpa using hfatal
      · exact hcalm other hmem
  | case5 => cases h

end Source

namespace BufferPair

def withSource (p : BufferPair) (source : Source) : BufferPair := { p with source }

theorem pushBack_withSource (p : BufferPair) (source : Source) :
    (p.withSource source).pushBack = p.pushBack.withSource source := by
  by_cases hback : p.crossed = true ∧ p.forward = 0
  · simp [pushBack, withSource, hback]
  · simp [pushBack, withSource, hback]

theorem perform_withSource (p : BufferPair) (source : Source) {move : Move} (hmove : move ≠ .next) :
    Cursor.perform (p.withSource source) move =
      ((Cursor.perform p move).1, (Cursor.perform p move).2.withSource source) := by
  cases move with
  | next => exact absurd rfl hmove
  | take => rfl
  | pushBack =>
    have hlen : Cursor.length (p.withSource source) = Cursor.length p := rfl
    have hback : Cursor.pushBack (p.withSource source) = (Cursor.pushBack p).withSource source :=
      p.pushBack_withSource source
    by_cases h0 : Cursor.length p = 0
    · simp [Cursor.perform, hlen, h0]
    · simp [Cursor.perform, hlen, hback, h0]

theorem walk_withSource (source : Source) (moves : List Move) : ∀ (p : BufferPair), .next ∉ moves →
    (Cursor.walk (p.withSource source) moves).1 = (Cursor.walk p moves).1 := by
  induction moves with
  | nil =>
    intro p _
    rfl
  | cons move moves ih =>
    intro p hmoves
    simp only [List.mem_cons, not_or] at hmoves
    simp only [Cursor.walk, p.perform_withSource source (Ne.symm hmoves.1), ih _ hmoves.2]
    rfl

theorem Sound.next_of_fill {p : BufferPair} (h : p.Sound) (hfw : p.forward = p.capacity) (hc : p.crossed = false)
    (hp : p.preloaded = false) {half : Half} {source : Source}
    (hfill : p.source.fill p.capacity = (.ok half, source)) : p.next = (p.enter half source).readSlot := by
  have hcross : p.cross = (.ok (), p.enter half source) := by simp [cross, hc, hp, hfill]
  rw [h.next_of_boundary hfw, hcross]

theorem Sound.length_enter {p : BufferPair} (h : p.Sound) (hfw : p.forward = p.capacity) (hc : p.crossed = false)
    (half : Half) (source : Source) (n : Nat) :
    length { p.enter half source with forward := (p.enter half source).forward + n } = p.length + n := by
  have hstart := h.whole hc
  by_cases hin : p.start < p.capacity
  · simp [length, enter, hin, hc, hfw]
  · simp [length, enter, hin, hc, hfw]
    omega

end BufferPair

theorem Slots.Carries.toList_of_full {capacity : Nat} {slots : Slots} {half : Half} (h : slots.Carries half)
    (hrow : slots.Row capacity) (hfull : half.size = capacity) : slots.toList = half.toList ++ [Byte.sentinel] := by
  have hlast : slots.toList.drop half.size = [Byte.sentinel] := by
    have hlt : half.size < slots.toList.length := h.size_lt
    have hstop := h.stop
    rw [← Array.getElem?_toList, List.getElem?_eq_getElem hlt, Option.some.injEq] at hstop
    have hsize : slots.toList.length = half.size + 1 := by rw [Array.length_toList, hrow.size, hfull]
    rw [List.drop_eq_getElem_cons hlt, hstop, List.drop_of_length_le (Nat.le_of_eq hsize)]
  rw [← List.take_append_drop half.size slots.toList, h.bytes, hlast]

namespace SlotPair

/-- The two pairs differ in what lies unused in the half that is not active, and perhaps in their sources. -/
structure Alike (p q : SlotPair) : Prop where
  capacity : q.capacity = p.capacity
  lens : q.lens = p.lens
  active : q.active = p.active
  start : q.start = p.start
  forward : q.forward = p.forward
  crossed : q.crossed = p.crossed
  preloaded : q.preloaded = p.preloaded
  offset : q.offset = p.offset
  bytes : q.bytes q.active = p.bytes p.active

namespace Holds

variable {p q : SlotPair} {b : BufferPair}

theorem alike (hp : Holds p b) {source : Source} (hq : Holds q (b.withSource source)) : Alike p q := by
  have hactive : q.active = p.active := hq.active.trans hp.active.symm
  have hlen : q.len p.active = p.len p.active := by
    rw [← hactive, hq.len, hactive, hp.len]
    rfl
  have hidle : q.len (1 - p.active) = p.len (1 - p.active) := by
    rw [← hactive, hq.len_idle, hactive, hp.len_idle]
    rfl
  refine {
    capacity := hq.capacity.trans hp.capacity.symm, active := hactive
    start := hq.start.trans hp.start.symm, forward := hq.forward.trans hp.forward.symm
    crossed := hq.crossed.trans hp.crossed.symm, preloaded := hq.preloaded.trans hp.preloaded.symm
    offset := hq.offset.trans hp.offset.symm, lens := ?_
    bytes := hq.bytes_active.trans hp.bytes_active.symm }
  have hlt := hp.active_lt
  apply Vector.ext
  intro i hi
  have hcell : q.len i = p.len i := by
    rcases (by omega : i = p.active ∨ i = 1 - p.active) with rfl | rfl
    · exact hlen
    · exact hidle
  have hq' := q.getElem?_lens hi
  rw [hcell, ← p.getElem?_lens hi, Vector.getElem?_eq_getElem hi, Vector.getElem?_eq_getElem hi] at hq'
  exact Option.some.inj hq'

theorem withSource (h : Holds p b) (source : Source) : Holds { p with source } (b.withSource source) :=
  { h with source := rfl }

theorem next?_failed (h : Holds p b) {f : Flat} (hm : b.Mirrors f) {fault : Fault}
    (hfailed : p.next? = some (.failed (.read fault), q)) :
    b.next = (.failed (.read fault), b.withSource q.source) ∧ b.forward = b.capacity ∧ b.crossed = false ∧
      b.preloaded = false ∧ b.source.fill b.capacity = (.error fault, q.source) ∧ Holds q (b.withSource q.source) ∧
      ∃ g, (b.withSource q.source).Mirrors g := by
  obtain ⟨q', hq', hq⟩ := h.next? hm
  rw [hfailed] at hq'
  obtain ⟨hreading, rfl⟩ : .failed (.read fault) = b.next.1 ∧ q = q' := by simpa using hq'
  obtain ⟨hfw, hc, hp, hfill, hsame⟩ := BufferPair.next_eq_read (Prod.ext hreading.symm rfl)
  rw [← hq.source] at hfill hsame
  have hsame : b.next.2 = b.withSource q.source := hsame
  refine ⟨Prod.ext hreading.symm hsame, hfw, hc, hp, hfill, ?_, ?_⟩
  · rw [hsame] at hq
    exact hq
  · rcases hm.next_any with ⟨hr, _⟩ | ⟨_, _, loaded, _, _, _, hany⟩
    · exact absurd (hr.symm.trans hreading.symm) (f.next_ne_read fault)
    · exact ⟨_, hany q.source⟩

theorem next?_refilled (h : Holds p b) {f : Flat} (hm : b.Mirrors f) (hfw : b.forward = b.capacity)
    (hc : b.crossed = false) (hp : b.preloaded = false) {reading : Reading} (hnext : p.next? = some (reading, q))
    (hreading : ∀ fault, reading ≠ .failed (.read fault)) :
    q.active = 1 - p.active ∧ q.bytes q.active = b.source.pending.take b.capacity ∧
      q.forward = reading.width ∧ q.offset = b.offset ∧ q.length? = some (b.length + reading.width) := by
  have hs := hm.sound
  obtain ⟨q', hq', hq⟩ := h.next? hm
  rw [hnext] at hq'
  obtain ⟨rfl, rfl⟩ : reading = b.next.1 ∧ q = q' := by simpa using hq'
  rcases hfill : b.source.fill b.capacity with ⟨fault | half, source⟩
  · have hcross : b.cross = (.error (.read fault), { b with source }) := by
      simp [BufferPair.cross, hc, hp, hfill]
    rw [hs.next_of_boundary hfw, hcross] at hreading
    exact absurd rfl (hreading fault)
  · have hn := hs.next_of_fill hfw hc hp hfill
    obtain ⟨g, hg⟩ := hm.walk_any [.next]
    have hg : b.next.2.Mirrors g := hg
    have hlen := hq.length? hg.sound
    rw [hn, BufferPair.readSlot_snd] at hq hlen
    rw [hn]
    refine ⟨?_, ?_, ?_, hq.offset, ?_⟩
    · rw [hq.active, h.active]
      show (!b.second).toNat = _
      cases b.second <;> rfl
    · rw [hq.bytes_active, ← (Source.fill_ok hfill).1]
      rfl
    · rw [hq.forward]
      exact Nat.zero_add _
    · rw [hlen, ← hs.length_enter hfw hc half source]

end Holds

theorem holds_walk {capacity : Nat} {source : Source} {p₀ p : SlotPair} {moves : List Move} {steps : List Step}
    (hmade : ofSource? capacity source = some (.ok p₀)) (hwalk : p₀.walk? moves = some (steps, p)) :
    ∃ b f, BufferPair.ofSource capacity source = .ok b ∧ steps = (Cursor.walk b moves).1 ∧
      Holds p (Cursor.walk b moves).2 ∧ (Cursor.walk b moves).2.Mirrors f ∧
      (Cursor.walk b moves).2.capacity = capacity := by
  have hholds := holds_ofSource (fits_of_ofSource? hmade) source
  rcases hb : BufferPair.ofSource capacity source with e | b <;> rw [hb, hmade] at hholds
  · cases hholds
  · obtain ⟨p₁, hp₁, hholds⟩ := hholds
    cases hp₁
    obtain ⟨hm, hcap, _⟩ := BufferPair.Mirrors.ofSource hb
    obtain ⟨q, hq, hq'⟩ := hholds.walk? moves hm
    rw [hwalk] at hq
    cases hq
    obtain ⟨g, hg⟩ := hm.walk_any moves
    exact ⟨b, g, rfl, rfl, hq', hg, (b.capacity_walk moves).trans hcap⟩

/-- A read that fails for good leaves everything as it was but the script, which goes on behind the
failure: moves that do not read show what they would have shown without it, and all moves show what they
would have shown had the script been the rest to begin with. The next fill that succeeds is that of the
same half from its first slot on, and it holds nothing that was read before the failure. -/
theorem next_failed_keeps {capacity : Nat} {source : Source} {p₀ p q : SlotPair} {moves : List Move}
    {steps : List Step} {fault : Fault} (hmade : ofSource? capacity source = some (.ok p₀))
    (hwalk : p₀.walk? moves = some (steps, p)) (hfailed : p.next? = some (.failed (.read fault), q)) :
    (∃ b, BufferPair.ofSource capacity source = .ok b ∧ steps = (Cursor.walk b moves).1 ∧
        Cursor.next (Cursor.walk b moves).2 = (.failed (.read fault), (Cursor.walk b moves).2.withSource q.source)) ∧
      Alike p q ∧ q.slots q.active = p.slots p.active ∧
      (q.source.chunk = p.source.chunk ∧ q.source.ended = p.source.ended ∧ fault.isFatal = true ∧
        ∃ gone, p.source.script = gone ++ .fail fault :: q.source.script ∧
          ∀ other, .fail other ∈ gone → other.isFatal = false) ∧
      (∀ more, .next ∉ more → ∃ steps r r', q.walk? more = some (steps, r) ∧ p.walk? more = some (steps, r')) ∧
      (∀ more, ∃ steps r r', q.walk? more = some (steps, r) ∧
        { p with source := q.source }.walk? more = some (steps, r') ∧ Alike r r' ∧ r'.source = r.source) ∧
      ∀ reading r, q.next? = some (reading, r) → (∀ fault, reading ≠ .failed (.read fault)) →
        r.active = 1 - p.active ∧ r.bytes r.active = q.source.pending.take capacity ∧
          r.forward = reading.width ∧ r.offset = p.offset ∧
          ∃ n, p.length? = some n ∧ r.length? = some (n + reading.width) := by
  obtain ⟨b₀, f, hb₀, hsteps, hb, hm, hcap⟩ := holds_walk hmade hwalk
  obtain ⟨hnext, hfw, hc, hp, hfill, hq, g, hg⟩ := hb.next?_failed hm hfailed
  refine ⟨⟨b₀, hb₀, hsteps, hnext⟩, ?_⟩
  generalize (Cursor.walk b₀ moves).2 = b at hb hm hcap hnext hfw hc hp hfill hq hg
  have hs := hm.sound
  have hfull : b.active.size = b.capacity := Nat.le_antisymm hs.size_le (hfw ▸ hs.forward_le)
  have halike := hb.alike hq
  refine ⟨halike, ?_, ?_, ?_, ?_, ?_⟩
  · have hrow := hb.front.toList_of_full (hb.rows _ hb.active_lt) hfull
    have hrow' := hq.front.toList_of_full (hq.rows _ hq.active_lt) hfull
    exact Array.toList_inj.mp (hrow'.trans hrow.symm)
  · rw [hb.source]
    exact Source.fillFrom_error _ _ _ hfill
  · intro more hmore
    obtain ⟨r, hr, _⟩ := hq.walk? more hg
    obtain ⟨r', hr', _⟩ := hb.walk? more hm
    exact ⟨_, r, r', hr, by rw [hr', b.walk_withSource q.source more hmore]⟩
  · intro more
    obtain ⟨r, hr, hholds⟩ := hq.walk? more hg
    obtain ⟨r', hr', hholds'⟩ := (hb.withSource q.source).walk? more hg
    exact ⟨_, r, r', hr, hr', hholds.alike hholds', hholds'.source.trans hholds.source.symm⟩
  · intro reading r hnext hreading
    obtain ⟨hactive, hbytes, hforward, hoffset, hlen⟩ := hq.next?_refilled hg hfw hc hp hnext hreading
    rw [halike.active] at hactive
    have hcap' : (b.withSource q.source).capacity = capacity := hcap
    rw [hcap'] at hbytes
    exact ⟨hactive, hbytes, hforward, hoffset.trans hb.offset.symm, _, hb.length? hs, hlen⟩

theorem next_failed_keeps_behind_short_read :
    let source : Source := .ofEvents [.data [97, 98], .data [99], .fail ⟨.other, "gone"⟩, .data [100, 101]] none
    ∃ p₀ steps p q r, ofSource? 2 source = some (.ok p₀) ∧ p₀.walk? [.next, .next] = some (steps, p) ∧
      p.next? = some (.failed (.read ⟨.other, "gone"⟩), q) ∧ q.next? = some (.char 100, r) ∧ Alike p q ∧
      r.bytes r.active = q.source.pending.take 2 ∧ r.offset = p.offset := by
  intro source
  have hrun : ((ofSource? 2 source).bind fun made => made.toOption.bind fun p₀ => (p₀.walk? [.next, .next]).bind
      fun walked => walked.2.next?.bind fun failed => failed.2.next?.map fun last => (failed.1, last.1)) =
        some (.failed (.read ⟨.other, "gone"⟩), .char 100) := by
    decide +kernel
  simp only [Option.bind_eq_some_iff, Option.map_eq_some_iff, Prod.mk.injEq] at hrun
  obtain ⟨made, hmade, p₀, hp₀, ⟨steps, p⟩, hwalk, ⟨_, q⟩, hfailed, ⟨_, r⟩, hnext, rfl, rfl⟩ := hrun
  have hmade : ofSource? 2 source = some (.ok p₀) := by
    cases made with
    | error e => cases hp₀
    | ok p => cases hp₀; exact hmade
  obtain ⟨_, halike, _, _, _, _, hrefilled⟩ := next_failed_keeps hmade hwalk hfailed
  obtain ⟨_, hbytes, _, hoffset, _⟩ := hrefilled _ r hnext (fun fault h => by cases h)
  exact ⟨p₀, steps, p, q, r, hmade, hwalk, hfailed, hnext, halike, hbytes, hoffset⟩

end SlotPair

end StreamLexer
