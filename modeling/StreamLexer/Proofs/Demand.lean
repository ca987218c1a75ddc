import StreamLexer.Proofs.Layout

/-!
# What a buffer pair asks of its source

A half is loaded when the cursor is to look into it for the first time, and it stays loaded when the
cursor goes back. So the bytes that were read are whole halves, up to and including the one with the
farthest slot that was looked at, however the source cuts them and however the cursor came there.
-/

namespace StreamLexer

namespace Source

/-- The reads that lead from one state of a source to another, by their answers. Each asks for a byte at least and
for `room` bytes at most. After an answer of no bytes the source has ended, and no read is made of a source that
has ended. -/
inductive Reads (room : Nat) : Source → List (Except Fault (List Byte)) → Source → Prop where
  | done (s : Source) : Reads room s [] s
  | data {s s' t : Source} {want : Nat} {b : Byte} {bytes : List Byte} {answers} : s.ended = false →
      0 < want ∧ want ≤ room → s.read want = (.ok (b :: bytes), s') → Reads room s' answers t →
      Reads room s (.ok (b :: bytes) :: answers) t
  | fail {s s' t : Source} {want : Nat} {fault : Fault} {answers} : s.ended = false →
      0 < want ∧ want ≤ room → s.read want = (.error fault, s') → Reads room s' answers t →
      Reads room s (.error fault :: answers) t
  | close {s s' t : Source} {want : Nat} {answers} : s.ended = false →
      0 < want ∧ want ≤ room → s.read want = (.ok [], s') → Reads room { s' with ended := true } answers t →
      Reads room s (.ok [] :: answers) t

def delivered (answers : List (Except Fault (List Byte))) : List Byte :=
  answers.flatMap fun
    | .ok bytes => bytes
    | .error _ => []

namespace Reads

variable {room : Nat} {s t u : Source} {answers more : List (Except Fault (List Byte))}

theorem trans (h : Reads room s answers t) (hmore : Reads room t more u) : Reads room s (answers ++ more) u := by
  induction h with
  | done => exact hmore
  | data he hw hr _ ih => exact .data he hw hr (ih hmore)
  | fail he hw hr _ ih => exact .fail he hw hr (ih hmore)
  | close he hw hr _ ih => exact .close he hw hr (ih hmore)

theorem count (h : Reads room s answers t) : t.reads = s.reads + answers.length := by
  induction h with
  | done => rfl
  | @data s _ _ want _ _ _ _ _ hr _ ih | @fail s _ _ want _ _ _ _ hr _ ih | @close s _ _ want _ _ _ hr _ ih =>
    have hone := reads_of_read s want
    rw [hr] at hone
    simp only at ih hone
    rw [ih, hone, List.length_cons]
    omega

theorem nil_of_ended (h : Reads room s answers t) (he : s.ended = true) : answers = [] := by
  cases h with
  | done => rfl
  | data hopen | fail hopen | close hopen =>
    rw [he] at hopen
    cases hopen

theorem nil_behind_end (h : Reads room s answers t) :
    ∀ front back, answers = front ++ .ok [] :: back → back = [] := by
  induction h with
  | done =>
    intro front back hsplit
    simp at hsplit
  | data _ _ _ _ ih | fail _ _ _ _ ih =>
    intro front back hsplit
    cases front with
    | nil => cases hsplit
    | cons answer front =>
      cases hsplit
      exact ih front back rfl
  | close _ _ _ hrest =>
    intro front back hsplit
    have hnil := hrest.nil_of_ended rfl
    subst hnil
    cases front with
    | nil => cases hsplit; rfl
    | cons answer front => simp at hsplit

theorem ended (h : Reads room s answers t) (hmem : .ok [] ∈ answers) : t.ended = true := by
  induction h with
  | done => cases hmem
  | data _ _ _ _ ih | fail _ _ _ _ ih => exact ih (by simpa using hmem)
  | close _ _ _ hrest =>
    have hnil := hrest.nil_of_ended rfl
    subst hnil
    cases hrest
    rfl

end Reads

theorem fill_of_ended {s : Source} (h : s.ended = true) (capacity : Nat) : s.fill capacity = (.ok #[], s) := by
  rw [fill, fillFrom, if_neg (by simp [h])]

theorem delivered_append (answers more : List (Except Fault (List Byte))) :
    delivered (answers ++ more) = delivered answers ++ delivered more := List.flatMap_append

theorem reads_fillFrom (capacity : Nat) (loaded : Array Byte) (s : Source) :
    ∃ answers, Reads capacity s answers (fillFrom capacity loaded s).2 ∧
      ∀ half, (fillFrom capacity loaded s).1 = .ok half → half.toList = loaded.toList ++ delivered answers := by
  have hwant : ∀ n, n < capacity → 0 < capacity - n ∧ capacity - n ≤ capacity := fun n hn =>
    ⟨Nat.sub_pos_of_lt hn, Nat.sub_le _ _⟩
  fun_induction fillFrom capacity loaded s with
  | case1 loaded s hc s' h =>
    refine ⟨[.ok []], .close hc.2 (hwant _ hc.1) h (.done _), ?_⟩
    rintro half ⟨⟩
    simp [delivered]
  | case2 loaded s hc b bytes s' h ih =>
    obtain ⟨answers, hreads, hhalf⟩ := ih
    refine ⟨_, .data hc.2 (hwant _ hc.1) h hreads, ?_⟩
    intro half hok
    rw [hhalf half hok]
    simp [delivered]
  | case3 loaded s hc fault s' h hfatal =>
    refine ⟨_, .fail hc.2 (hwant _ hc.1) h (.done _), ?_⟩
    intro half hok
    cases hok
  | case4 loaded s hc fault s' h hfatal ih =>
    obtain ⟨answers, hreads, hhalf⟩ := ih
    refine ⟨_, .fail hc.2 (hwant _ hc.1) h hreads, ?_⟩
    intro half hok
    rw [hhalf half hok]
    simp [delivered]
  | case5 loaded s hc =>
    refine ⟨[], .done s, ?_⟩
    rintro half ⟨⟩
    simp [delivered]

end Source

/-! ## The farthest place looked at -/

/-- The place in the stream that a reading has looked at. -/
def Step.reached : Step → Option Nat
  | ⟨.reading (.char _), length, offset⟩ => some (offset + length - 1)
  | ⟨.reading .eof, length, offset⟩ => some (offset + length)
  | ⟨.reading (.failed (.nonAscii _ place)), _, _⟩ => some place
  | _ => none

def farthest (steps : List Step) : Nat := (steps.filterMap Step.reached).foldr max 0

theorem farthest_cons (step : Step) (steps : List Step) :
    farthest (step :: steps) = max (step.reached.getD 0) (farthest steps) := by
  unfold farthest
  cases hr : step.reached with
  | none => simp [hr]
  | some place => simp [hr]

theorem Flat.reached_next {f : Flat} (h : f.start ≤ f.pos) :
    Step.reached ⟨.reading f.next.1, f.next.2.pos - f.next.2.start, f.next.2.start⟩ =
      if f.bound = some f.pos then none else some f.pos := by
  rcases f.next_cases with ⟨hb, hn⟩ | ⟨hb, ⟨_, hn⟩ | ⟨_, _, ⟨_, hn⟩ | ⟨_, hn⟩⟩⟩
  · rw [hn, if_pos hb]
    rfl
  · rw [hn, if_neg hb]
    simp only [Step.reached]
    congr 1
    omega
  · rw [hn, if_neg hb]
    rfl
  · rw [hn, if_neg hb]
    simp only [Step.reached]
    congr 1
    omega

theorem max_div (m n capacity : Nat) : max m n / capacity = max (m / capacity) (n / capacity) := by
  rcases Nat.le_total m n with h | h
  · rw [Nat.max_eq_right h, Nat.max_eq_right (Nat.div_le_div_right h)]
  · rw [Nat.max_eq_left h, Nat.max_eq_left (Nat.div_le_div_right h)]

theorem block_div {k i capacity : Nat} (h : i < capacity) : (k * capacity + i) / capacity = k := by
  rw [Nat.mul_comm, Nat.mul_add_div (by omega), Nat.div_eq_of_lt h, Nat.add_zero]

namespace BufferPair

/-! ## The halves that a walk loads -/

theorem Tracks.next_cases {p : BufferPair} {f : Flat} {k : Nat} (h : Tracks p f k) (hs : p.source.Reliable) :
    (p.forward < p.capacity ∧ p.next = p.readSlot) ∨
      (p.forward = p.capacity ∧ p.crossed = true ∧ p.next = (.failed (.lexemeTooLong p.capacity), p)) ∨
      (p.forward = p.capacity ∧ p.crossed = false ∧ ∃ half source, p.next = (p.enter half source).readSlot ∧
        Tracks (p.enter half source) f (k + 1) ∧
        ((p.preloaded = true ∧ source = p.source) ∨
          (p.preloaded = false ∧ p.source.fill p.capacity = (.ok half, source)))) := by
  have hsound : p.Sound := Mirrors.sound ⟨k, h⟩
  by_cases hfw : p.forward = p.capacity
  · apply Or.inr
    rw [hsound.next_of_boundary hfw]
    by_cases hc : p.crossed = true
    · have hcross : p.cross = (.error (.lexemeTooLong p.capacity), p) := by simp [BufferPair.cross, hc]
      exact Or.inl ⟨hfw, hc, by rw [hcross]⟩
    · rw [Bool.not_eq_true] at hc
      refine Or.inr ⟨hfw, hc, ?_⟩
      by_cases hp : p.preloaded = true
      · obtain ⟨_, hidle, hpending⟩ := h.preloaded hp
        have hcross : p.cross = (.ok (), p.enter p.idle p.source) := by simp [BufferPair.cross, hc, hp]
        exact ⟨_, _, by rw [hcross], h.enter hfw hc hidle hpending, Or.inl ⟨hp, rfl⟩⟩
      · rw [Bool.not_eq_true] at hp
        obtain ⟨htake, hdrop⟩ := h.pending_take hp
        rcases hfill : p.source.fill p.capacity with ⟨fault | half, source⟩
        · have hfatal := Source.fill_error hfill
          rw [hs] at hfatal
          cases hfatal
        · obtain ⟨hhalf, hpending, _⟩ := Source.fill_ok hfill
          have hcross : p.cross = (.ok (), p.enter half source) := by simp [BufferPair.cross, hc, hp, hfill]
          exact ⟨half, source, by rw [hcross], h.enter hfw hc (hhalf.trans htake) (hpending.trans hdrop),
            Or.inr ⟨hp, rfl⟩⟩
  · have hle := Nat.le_trans hsound.forward_le hsound.size_le
    exact Or.inl ⟨Nat.lt_of_le_of_ne hle hfw, next_of_inside hfw⟩

/-- The pair, made over `source`, stands where `f` does, and the halves it has loaded end with that of
the place `m`. -/
structure Draws (source : Source) (p : BufferPair) (f : Flat) (m : Nat) : Prop where
  tracks : ∃ k, Tracks p f k ∧ m / p.capacity = k + p.preloaded.toNat
  data : f.data.toList = source.pending
  reliable : p.source.Reliable
  reads : ∃ answers, source.Reads p.capacity answers p.source ∧
    Source.delivered answers = source.pending.take ((m / p.capacity + 1) * p.capacity)

namespace Draws

variable {source : Source} {p : BufferPair} {f : Flat} {m : Nat}

theorem mirrors (h : Draws source p f m) : Mirrors p f := by
  obtain ⟨k, hk, _⟩ := h.tracks
  exact ⟨k, hk⟩

theorem readSlot (h : Draws source p f m) (hlt : p.forward < p.capacity) :
    f.bound ≠ some f.pos ∧ p.readSlot.1 = f.next.1 ∧ Draws source p.readSlot.2 f.next.2 (max m f.pos) := by
  obtain ⟨k, hk, hm⟩ := h.tracks
  have hbound : f.bound ≠ some f.pos := by
    intro he
    exact Nat.ne_of_lt hlt (hk.bound_eq_iff.mp he).2
  obtain ⟨hr, ht, _⟩ := hk.readSlot hlt
  -- the half with the place is loaded, so it is not behind that of `m`
  have hdiv : max m f.pos / p.capacity = m / p.capacity := by
    rw [max_div, hk.pos, block_div hlt, hm]
    omega
  refine ⟨hbound, hr, ⟨k, ht, ?_⟩, by rw [f.next_keeps.2]; exact h.data, ?_, ?_⟩
  · rw [p.readSlot_snd]
    exact hdiv.trans hm
  · rw [p.readSlot_snd]
    exact h.reliable
  · rw [p.readSlot_snd]
    show ∃ answers, source.Reads p.capacity answers p.source ∧
      Source.delivered answers = source.pending.take ((max m f.pos / p.capacity + 1) * p.capacity)
    rw [hdiv]
    exact h.reads

theorem enter (h : Draws source p f m) {k : Nat} (hk : Tracks p f k) (hm : m / p.capacity = k + p.preloaded.toNat)
    {half : Half} {rest : Source} (hk' : Tracks (p.enter half rest) f (k + 1))
    (hload : (p.preloaded = true ∧ rest = p.source) ∨
      (p.preloaded = false ∧ p.source.fill p.capacity = (.ok half, rest))) :
    Draws source (p.enter half rest) f (max m f.pos) := by
  obtain ⟨answers, hreads, hdelivered⟩ := h.reads
  have hpos : f.pos / p.capacity = k + 1 := by
    have hstart := hk'.pos
    rw [hstart]
    exact block_div hk.capacity_pos
  have hdiv : max m f.pos / p.capacity = k + 1 := by
    rw [max_div, hpos, hm]
    cases p.preloaded <;> simp
  refine ⟨⟨k + 1, hk', hdiv⟩, h.data, ?_, ?_⟩
  · rcases hload with ⟨_, rfl⟩ | ⟨_, hfill⟩
    · exact h.reliable
    · exact (Source.fill_ok hfill).2.2.trans h.reliable
  · show ∃ answers, source.Reads p.capacity answers rest ∧
      Source.delivered answers = source.pending.take ((max m f.pos / p.capacity + 1) * p.capacity)
    rw [hdiv]
    rcases hload with ⟨hp, rfl⟩ | ⟨hp, hfill⟩
    -- a preloaded half was counted when the cursor first entered it
    · refine ⟨answers, hreads, ?_⟩
      rw [hdelivered, hm, hp]
      rfl
    · obtain ⟨more, hmore, hhalf⟩ := Source.reads_fillFrom p.capacity #[] p.source
      have hfill' : Source.fillFrom p.capacity #[] p.source = (.ok half, rest) := hfill
      rw [hfill'] at hmore hhalf
      refine ⟨answers ++ more, hreads.trans hmore, ?_⟩
      have hblock : Source.delivered more = (source.pending.drop ((k + 1) * p.capacity)).take p.capacity := by
        rw [← h.data, ← hk.ahead hp, ← (Source.fill_ok hfill).1, hhalf half rfl, List.nil_append]
      rw [Source.delivered_append, hdelivered, hblock, hm, hp, Nat.succ_mul (k + 1), List.take_add]
      rfl

theorem next (h : Draws source p f m) :
    p.next.1 = f.next.1 ∧
      Draws source p.next.2 f.next.2
        (max m ((if f.bound = some f.pos then none else some f.pos : Option Nat).getD 0)) := by
  obtain ⟨k, hk, hm⟩ := h.tracks
  rcases hk.next_cases h.reliable with ⟨hlt, hn⟩ | ⟨hfw, hc, hn⟩ | ⟨hfw, hc, half, rest, hn, hk', hload⟩
  · obtain ⟨hbound, hr, hdraws⟩ := h.readSlot hlt
    rw [hn, if_neg hbound]
    exact ⟨hr, hdraws⟩
  · have hbound : f.bound = some f.pos := hk.bound_eq_iff.mpr ⟨hc, hfw⟩
    have hf : f.next = (.failed (.lexemeTooLong p.capacity), f) := by simp [Flat.next, hbound, hk.window]
    rw [hn, hf, if_pos hbound, Option.getD_none, Nat.max_zero]
    exact ⟨rfl, h⟩
  · obtain ⟨hbound, hr, hdraws⟩ := (h.enter hk hm hk' hload).readSlot hk.capacity_pos
    rw [hn, if_neg hbound, Option.getD_some]
    rw [Nat.max_assoc, Nat.max_self] at hdraws
    exact ⟨hr, hdraws⟩

theorem pushBack (h : Draws source p f m) (hlt : f.start < f.pos) : Draws source p.pushBack f.pushBack m := by
  obtain ⟨k, hk, hm⟩ := h.tracks
  obtain ⟨hcap, hsource⟩ := p.pushBack_source
  refine ⟨?_, h.data, by rw [hsource]; exact h.reliable, by rw [hsource, hcap]; exact h.reads⟩
  rw [hcap, hm]
  by_cases hover : p.crossed = true ∧ p.forward = 0
  · obtain ⟨_, hp, j, rfl, _⟩ := hk.crossed hover.1
    obtain ⟨i, hi⟩ := hk.retreat_over hover.1 hover.2
    have hpos : f.pos - 1 = i * p.pushBack.capacity + p.pushBack.forward := hi.pos
    have hback : p.pushBack.forward = p.capacity - 1 ∧ p.pushBack.preloaded = true := by
      simp [BufferPair.pushBack, hover]
    -- one slot before the first one of a half is the last one of the half before
    have hij : i = j := by
      have hpos' := hk.pos
      have hroom := hk.capacity_pos
      rw [hcap, hback.1] at hpos
      rw [hover.2, Nat.succ_mul] at hpos'
      apply Nat.eq_of_mul_eq_mul_right hroom
      omega
    refine ⟨i, hi, ?_⟩
    rw [hp, hback.2, hij]
    rfl
  · have hback : p.pushBack = { p with forward := p.forward - 1 } := by simp [BufferPair.pushBack, hover]
    refine ⟨k, ?_, by rw [hback]⟩
    rw [hback]
    exact hk.retreat hlt hover

theorem take (h : Draws source p f m) : p.take.1 = f.take.1 ∧ Draws source p.take.2 f.take.2 m := by
  obtain ⟨k, hk, hm⟩ := h.tracks
  exact ⟨hk.take.1, ⟨k, hk.take.2, hm⟩, h.data, h.reliable, h.reads⟩

theorem perform (h : Draws source p f m) (move : Move) :
    (Cursor.perform p move).1 = (Cursor.perform f move).1 ∧
      Draws source (Cursor.perform p move).2 (Cursor.perform f move).2
        (max m ((Step.reached ⟨(Cursor.perform p move).1, Cursor.length (Cursor.perform p move).2,
          Cursor.offset (Cursor.perform p move).2⟩).getD 0)) := by
  cases move with
  | next =>
    obtain ⟨hr, hdraws⟩ := h.next
    refine ⟨congrArg Answer.reading hr, ?_⟩
    have hlen : p.next.2.length = f.next.2.pos - f.next.2.start := hdraws.mirrors.length_eq
    have hoffset : p.next.2.offset = f.next.2.start := hdraws.mirrors.offset_eq
    show Draws source p.next.2 f.next.2
      (max m ((Step.reached ⟨.reading p.next.1, p.next.2.length, p.next.2.offset⟩).getD 0))
    rw [hr, hlen, hoffset, Flat.reached_next h.mirrors.start_le]
    exact hdraws
  | take =>
    obtain ⟨htext, hdraws⟩ := h.take
    refine ⟨congrArg Answer.lexeme htext, ?_⟩
    simp only [Step.reached, Cursor.perform, Option.getD_none, Nat.max_zero]
    exact hdraws
  | pushBack =>
    have hlen : Cursor.length p = Cursor.length f := h.mirrors.length_eq
    simp only [Cursor.perform, hlen]
    by_cases h0 : Cursor.length f = 0
    · simp only [if_pos h0, Step.reached, Option.getD_none, Nat.max_zero]
      exact ⟨trivial, h⟩
    · simp only [if_neg h0, Step.reached, Option.getD_none, Nat.max_zero]
      refine ⟨trivial, h.pushBack ?_⟩
      have hne : f.pos - f.start ≠ 0 := h0
      omega

theorem walk (moves : List Move) : ∀ {p : BufferPair} {f : Flat} {m : Nat}, Draws source p f m →
    (Cursor.walk p moves).1 = (Cursor.walk f moves).1 ∧
      Draws source (Cursor.walk p moves).2 (Cursor.walk f moves).2 (max m (farthest (Cursor.walk p moves).1)) := by
  induction moves with
  | nil =>
    intro p f m h
    exact ⟨rfl, by rw [show farthest (Cursor.walk p []).1 = 0 from rfl, Nat.max_zero]; exact h⟩
  | cons move moves ih =>
    intro p f m h
    obtain ⟨hanswer, hdraws⟩ := h.perform move
    obtain ⟨hsteps, hend⟩ := ih hdraws
    have hlen : Cursor.length (Cursor.perform p move).2 = Cursor.length (Cursor.perform f move).2 :=
      hdraws.mirrors.length_eq
    have hoffset : Cursor.offset (Cursor.perform p move).2 = Cursor.offset (Cursor.perform f move).2 :=
      hdraws.mirrors.offset_eq
    rw [Nat.max_assoc, ← farthest_cons] at hend
    refine ⟨?_, hend⟩
    simp only [Cursor.walk, hanswer, hlen, hoffset, hsteps]

theorem ofSource {capacity : Nat} (hs : source.Reliable) (h : BufferPair.ofSource capacity source = .ok p) :
    Draws source p (Flat.ofBytes source.pending (some capacity)) 0 := by
  obtain ⟨⟨k, hk⟩, hcap, hfatals⟩ := Mirrors.ofSource h
  unfold BufferPair.ofSource at h
  split at h
  · cases h
  · split at h <;> rename_i hfill <;> cases h
    obtain ⟨answers, hreads, hhalf⟩ := Source.reads_fillFrom capacity #[] source
    rw [← Source.fill, hfill] at hreads hhalf
    refine ⟨⟨k, hk, ?_⟩, rfl, hfatals.trans hs, answers, hreads, ?_⟩
    · have hpos : 0 = k * capacity + 0 := hk.pos
      have hroom : 0 < capacity := hk.capacity_pos
      rcases Nat.mul_eq_zero.mp hpos.symm with rfl | h0
      · rw [Nat.zero_div]
        rfl
      · omega
    · rw [Nat.zero_div, Nat.zero_add, Nat.one_mul, ← (Source.fill_ok hfill).1, hhalf _ rfl, List.nil_append]

theorem next_of_tooLong (h : Draws source p f m) {n : Nat} {q : BufferPair}
    (hn : p.next = (.failed (.lexemeTooLong n), q)) : q = p := by
  obtain ⟨k, hk, _⟩ := h.tracks
  rcases hk.next_cases h.reliable with ⟨_, hn'⟩ | ⟨_, _, hn'⟩ | ⟨_, _, half, rest, hn', _⟩ <;> rw [hn'] at hn
  · obtain ⟨_, _, he⟩ := readSlot_eq_failed (congrArg Prod.fst hn)
    cases he
  · cases hn
    rfl
  · obtain ⟨_, _, he⟩ := readSlot_eq_failed (congrArg Prod.fst hn)
    cases he

end Draws

/-! ## Sources that have ended -/

theorem next_of_ended {p : BufferPair} (h : p.source.ended = true) : p.next.2.source = p.source := by
  rcases p.next_source.2 with heq | ⟨half, hf⟩ | ⟨fault, hf, _⟩
  · exact heq
  · rw [Source.fill_of_ended h] at hf
    exact (congrArg Prod.snd hf).symm
  · rw [Source.fill_of_ended h] at hf
    cases congrArg Prod.fst hf

theorem perform_of_ended {p : BufferPair} (h : p.source.ended = true) (move : Move) :
    (Cursor.perform p move).2.source = p.source := by
  cases move with
  | next => exact next_of_ended h
  | take => rfl
  | pushBack =>
    simp only [Cursor.perform]
    by_cases hlen : Cursor.length p = 0
    · rw [if_pos hlen]
    · rw [if_neg hlen]
      exact p.pushBack_source.2

theorem walk_of_ended (moves : List Move) : ∀ {p : BufferPair}, p.source.ended = true →
    (Cursor.walk p moves).2.source = p.source := by
  induction moves with
  | nil =>
    intro p _
    rfl
  | cons move moves ih =>
    intro p h
    have hstep := perform_of_ended h move
    have hrest := @ih (Cursor.perform p move).2 (by rw [hstep]; exact h)
    exact hrest.trans hstep

/-- Over a source that does not fail for good, the reads made so far have delivered the first bytes of the
stream, as many whole halves as it takes to hold the farthest place that was looked at, or the whole
stream. What is looked at hangs on the stream and the moves alone; a lexeme that grows too long costs
no read. A read that delivers nothing ends the source, and no move touches a source that has ended. -/
theorem walk_reads_on_demand (capacity : Nat) (source : Source) (hcap : 0 < capacity) (hs : source.Reliable) :
    ∃ p, BufferPair.ofSource capacity source = .ok p ∧ ∀ moves,
      let steps := (Cursor.walk p moves).1
      let q := (Cursor.walk p moves).2
      steps = (Cursor.walk (Flat.ofBytes source.pending (some capacity)) moves).1 ∧
        (∃ answers, source.Reads capacity answers q.source ∧ q.source.reads = source.reads + answers.length ∧
          Source.delivered answers <+: source.pending ∧
          (Source.delivered answers).length =
            min source.pending.length ((farthest steps / capacity + 1) * capacity) ∧
          (∀ front back, answers = front ++ .ok [] :: back → back = []) ∧
          (.ok [] ∈ answers → q.source.ended = true)) ∧
        (q.source.ended = true → ∀ more, (Cursor.walk q more).2.source = q.source) ∧
        ∀ n r, q.next = (.failed (.lexemeTooLong n), r) → r.source = q.source := by
  obtain ⟨p, hp⟩ := Mirrors.exists_ofSource hcap hs
  refine ⟨p, hp, fun moves => ?_⟩
  obtain ⟨hsteps, hdraws⟩ := (Draws.ofSource hs hp).walk moves
  obtain ⟨answers, hreads, hdelivered⟩ := hdraws.reads
  rw [p.capacity_walk moves, (Mirrors.ofSource hp).2.1] at hreads hdelivered
  rw [Nat.zero_max] at hdelivered
  refine ⟨hsteps, ⟨answers, hreads, hreads.count, ?_, ?_, hreads.nil_behind_end, hreads.ended⟩, ?_, ?_⟩
  · rw [hdelivered]
    exact List.take_prefix _ _
  · rw [hdelivered, List.length_take, Nat.min_comm]
  · intro hended more
    exact walk_of_ended more hended
  · intro n r hn
    rw [hdraws.next_of_tooLong hn]

theorem walk_reads_on_demand_over_boundary :
    let source : Source := .ofEvents [.fail ⟨.interrupted, ""⟩, .data [97, 98, 99], .data [100, 101]] (some 1)
    let moves : List Move := [.next, .next, .next, .pushBack, .pushBack, .next]
    0 < 2 ∧ source.Reliable ∧ ∃ p, BufferPair.ofSource 2 source = .ok p ∧
      ∃ answers, source.Reads 2 answers (Cursor.walk p moves).2.source ∧ (Source.delivered answers).length = 4 := by
  intro source moves
  obtain ⟨p, hp, hwalk⟩ := walk_reads_on_demand 2 source (by decide) (by decide)
  obtain ⟨hsteps, ⟨answers, hreads, _, _, hlen, _⟩, _⟩ := hwalk moves
  refine ⟨by decide, by decide, p, hp, answers, hreads, ?_⟩
  rw [hlen, hsteps]
  decide +kernel

end BufferPair

end StreamLexer
