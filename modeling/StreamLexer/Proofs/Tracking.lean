import StreamLexer.Input.BufferPair
import StreamLexer.Input.Flat
import StreamLexer.Input.Walk
import StreamLexer.Proofs.Delivery

/-!
# A buffer pair tracks a flat cursor

The stream is cut into blocks of the capacity. The active half holds the block under the cursor;
the idle half holds the block before it while the lexeme is crossed, the block behind it while it
is preloaded, and nothing that matters otherwise. `Tracks` says so of a pair and of the flat
cursor over the same stream, and every move keeps it: the pair answers as the flat cursor with a
window of one capacity does, unless a read fails for good.
-/

namespace StreamLexer

def block (data : List Byte) (capacity k : Nat) : List Byte := (data.drop (k * capacity)).take capacity

theorem getElem?_block {data : List Byte} {capacity k i : Nat} (h : i < capacity) :
    (block data capacity k)[i]? = data[k * capacity + i]? := by
  rw [block, List.getElem?_take_of_lt h, List.getElem?_drop]

theorem block_slice {data : List Byte} {capacity k i j : Nat} (h : j ≤ capacity) :
    ((block data capacity k).drop i).take (j - i) = (data.drop (k * capacity + i)).take (j - i) := by
  rw [block, List.drop_take, List.take_take, List.drop_drop, Nat.min_eq_left (by omega)]

namespace BufferPair

/-- The active half of `p` is the `k`-th block of the stream that `f` walks over. -/
structure Tracks (p : BufferPair) (f : Flat) (k : Nat) : Prop where
  capacity_pos : 0 < p.capacity
  window : f.window = some p.capacity
  reached : k * p.capacity ≤ f.data.size
  active : p.active.toList = block f.data.toList p.capacity k
  forward_le : p.forward ≤ p.active.size
  pos : f.pos = k * p.capacity + p.forward
  offset : p.offset = f.start
  whole : p.crossed = false → f.start = k * p.capacity + p.start ∧ p.start ≤ p.forward
  crossed : p.crossed = true → p.start < p.capacity ∧ p.preloaded = false ∧
    ∃ j, k = j + 1 ∧ f.start = j * p.capacity + p.start ∧
      p.idle.toList = block f.data.toList p.capacity j ∧ p.idle.size = p.capacity
  ahead : p.preloaded = false → p.source.pending = f.data.toList.drop ((k + 1) * p.capacity)
  preloaded : p.preloaded = true → p.active.size = p.capacity ∧
    p.idle.toList = block f.data.toList p.capacity (k + 1) ∧
    p.source.pending = f.data.toList.drop ((k + 2) * p.capacity)

/-- The pair stands where `f` does. -/
def Mirrors (p : BufferPair) (f : Flat) : Prop := ∃ k, Tracks p f k

namespace Tracks

variable {p : BufferPair} {f : Flat} {k : Nat}

theorem size_le (h : Tracks p f k) : p.active.size ≤ p.capacity := by
  rw [← Array.length_toList, h.active, block, List.length_take]
  exact Nat.min_le_left _ _

theorem pos_le (h : Tracks p f k) : f.pos ≤ f.data.size := by
  have hr := h.reached
  have hs : p.active.size = min p.capacity (f.data.size - k * p.capacity) := by
    rw [← Array.length_toList, h.active, block, List.length_take, List.length_drop, Array.length_toList]
  have := h.forward_le
  rw [h.pos]
  omega

theorem start_le (h : Tracks p f k) : f.start ≤ f.pos := by
  rw [h.pos]
  cases hc : p.crossed with
  | false => have := h.whole hc; omega
  | true =>
    obtain ⟨hs, _, j, rfl, hst, _⟩ := h.crossed hc
    rw [hst, Nat.succ_mul]; omega

theorem length_eq (h : Tracks p f k) : p.length = f.pos - f.start := by
  unfold length
  rw [h.pos]
  cases hc : p.crossed with
  | false =>
    have := h.whole hc
    simp only [Bool.false_eq_true, if_false]; omega
  | true =>
    obtain ⟨hs, _, j, rfl, hst, _⟩ := h.crossed hc
    rw [hst, Nat.succ_mul]
    simp only [if_true]; omega

theorem bound_eq_iff (h : Tracks p f k) :
    f.bound = some f.pos ↔ p.crossed = true ∧ p.forward = p.capacity := by
  have hcap := h.capacity_pos
  have hfw : p.forward ≤ p.capacity := Nat.le_trans h.forward_le h.size_le
  have hdiv : ∀ j s, s < p.capacity → (j * p.capacity + s) / p.capacity = j := by
    intro j s hs
    rw [Nat.mul_comm, Nat.mul_add_div hcap, Nat.div_eq_of_lt hs, Nat.add_zero]
  simp only [Flat.bound, h.window, Option.map_some, Option.some.injEq, h.pos]
  cases hc : p.crossed with
  | false =>
    obtain ⟨hst, hle⟩ := h.whole hc
    refine ⟨fun e => ?_, fun e => by simp at e⟩
    exfalso
    rcases Nat.lt_or_ge p.start p.capacity with hs | hs
    · rw [hst, hdiv k _ hs, Nat.add_mul] at e; omega
    -- a lexeme that starts behind the last slot starts in the next block
    · have heq : p.start = p.capacity := by omega
      rw [hst, heq, ← Nat.succ_mul, Nat.mul_div_cancel _ hcap] at e
      simp only [Nat.succ_eq_add_one, Nat.add_mul] at e; omega
  | true =>
    obtain ⟨hs, _, j, rfl, hst, _⟩ := h.crossed hc
    rw [hst, hdiv j _ hs]
    simp only [Nat.add_mul, true_and]; omega

theorem slot_eq (h : Tracks p f k) (hlt : p.forward < p.capacity) :
    p.active[p.forward]? = f.data[f.pos]? := by
  rw [← Array.getElem?_toList, h.active, getElem?_block hlt, ← h.pos, Array.getElem?_toList]

theorem lexeme_eq (h : Tracks p f k) : p.lexeme.toList = (f.data.extract f.start f.pos).toList := by
  have hfw : p.forward ≤ p.capacity := Nat.le_trans h.forward_le h.size_le
  simp only [lexeme, Array.toList_extract, List.extract_eq_take_drop]
  cases hc : p.crossed with
  | false =>
    obtain ⟨hst, _⟩ := h.whole hc
    simp only [Bool.false_eq_true, if_false, Array.toList_extract, List.extract_eq_take_drop, h.active]
    rw [block_slice hfw, ← hst, h.pos, hst]
    congr 1; omega
  | true =>
    obtain ⟨hs, _, j, rfl, hst, hidle, _⟩ := h.crossed hc
    simp only [if_true, Array.toList_append, Array.toList_extract, List.extract_eq_take_drop, h.active, hidle]
    rw [block_slice (Nat.le_refl _), block_slice hfw]
    have hlen : f.pos - f.start = (p.capacity - p.start) + (p.forward - 0) := by
      rw [h.pos, hst, Nat.succ_mul]; omega
    have hnext : f.start + (p.capacity - p.start) = (j + 1) * p.capacity + 0 := by
      rw [hst, Nat.succ_mul]; omega
    rw [hlen, List.take_add, List.drop_drop, hnext, hst]

theorem advance (h : Tracks p f k) (hlt : p.forward < p.active.size) :
    Tracks { p with forward := p.forward + 1 } { f with pos := f.pos + 1 } k where
  capacity_pos := h.capacity_pos
  window := h.window
  reached := h.reached
  active := h.active
  forward_le := hlt
  pos := by simp only [h.pos]; omega
  offset := h.offset
  whole hc := ⟨(h.whole hc).1, Nat.le_succ_of_le (h.whole hc).2⟩
  crossed := h.crossed
  ahead := h.ahead
  preloaded := h.preloaded

theorem readSlot (h : Tracks p f k) (hlt : p.forward < p.capacity) :
    p.readSlot.1 = f.next.1 ∧ Tracks p.readSlot.2 f.next.2 k ∧ p.readSlot.2.source = p.source := by
  have hbound : f.bound ≠ some f.pos := fun e => by
    have := (h.bound_eq_iff.mp e).2
    omega
  have hslot := h.slot_eq hlt
  have hat : p.offset + p.length = f.pos := by
    have := h.start_le
    rw [h.offset, h.length_eq]; omega
  simp only [BufferPair.readSlot, Half.slot, Array.getD_eq_getD_getElem?, Flat.next, hbound, if_false, hslot]
  cases hd : f.data[f.pos]? with
  | none =>
    rw [hd, Array.getElem?_eq_none_iff] at hslot
    have hend : p.forward = p.active.size := Nat.le_antisymm h.forward_le hslot
    have hs : Byte.isAscii Byte.sentinel = false := by decide
    simp only [Option.getD_none, hs, Bool.false_eq_true, if_false, hend, and_self, if_true]
    exact ⟨trivial, h, trivial⟩
  | some b =>
    rw [hd] at hslot
    have hin : p.forward < p.active.size := (Array.getElem?_eq_some_iff.mp hslot).1
    have hend : ¬ (b = Byte.sentinel ∧ p.forward = p.active.size) := by omega
    simp only [Option.getD_some, hend, if_false, hat]
    by_cases hb : b.isAscii = true
    · simp only [hb, if_true]
      exact ⟨trivial, h.advance hin, trivial⟩
    · simp only [hb, Bool.false_eq_true, if_false]
      exact ⟨trivial, h, trivial⟩

/-! ## Crossing a boundary -/

theorem enter (h : Tracks p f k) (hfw : p.forward = p.capacity) (hc : p.crossed = false) {half : Half}
    {source : Source} (hhalf : half.toList = block f.data.toList p.capacity (k + 1))
    (hsource : source.pending = f.data.toList.drop ((k + 2) * p.capacity)) :
    Tracks (p.enter half source) f (k + 1) where
  capacity_pos := h.capacity_pos
  window := h.window
  reached := by
    have := h.pos_le
    rw [h.pos, hfw, ← Nat.succ_mul] at this
    exact this
  active := hhalf
  forward_le := Nat.zero_le _
  pos := by simp only [BufferPair.enter, h.pos, hfw, Nat.succ_mul]; omega
  offset := h.offset
  whole hcr := by
    obtain ⟨hst, hle⟩ := h.whole hc
    have hge : ¬ p.start < p.capacity := by simpa [BufferPair.enter] using hcr
    have heq : p.start = p.capacity := by omega
    simp only [BufferPair.enter, if_neg hge, Nat.succ_mul]; omega
  crossed hcr := by
    obtain ⟨hst, _⟩ := h.whole hc
    have hlt : p.start < p.capacity := by simpa [BufferPair.enter] using hcr
    have hfull := h.size_le
    have hle := h.forward_le
    simp only [BufferPair.enter, hlt, if_true]
    exact ⟨trivial, trivial, k, rfl, hst, h.active, by omega⟩
  ahead _ := hsource
  preloaded hp := by simp [BufferPair.enter] at hp

theorem pending_take (h : Tracks p f k) (hp : p.preloaded = false) :
    p.source.pending.take p.capacity = block f.data.toList p.capacity (k + 1) ∧
      p.source.pending.drop p.capacity = f.data.toList.drop ((k + 2) * p.capacity) := by
  rw [h.ahead hp, List.drop_drop, ← Nat.succ_mul]
  exact ⟨rfl, rfl⟩

theorem cross (h : Tracks p f k) (hfw : p.forward = p.capacity) :
    (p.crossed = true ∧ p.cross = (.error (.lexemeTooLong p.capacity), p)) ∨
    (p.crossed = false ∧ ∃ p', p.cross = (.ok (), p') ∧ Tracks p' f (k + 1) ∧ p'.forward = 0 ∧
      p'.capacity = p.capacity ∧ p'.source.fatals = p.source.fatals) ∨
    (p.crossed = false ∧ ∃ fault source, p.cross = (.error (.read fault), { p with source }) ∧
      p.source.fatals = fault :: source.fatals) := by
  unfold BufferPair.cross
  cases hc : p.crossed with
  | true => exact Or.inl ⟨rfl, by simp⟩
  | false =>
    simp only [Bool.false_eq_true, if_false]
    apply Or.inr
    cases hp : p.preloaded with
    | true =>
      obtain ⟨_, hidle, hsource⟩ := h.preloaded hp
      exact Or.inl ⟨trivial, _, rfl, h.enter hfw hc hidle hsource, rfl, rfl, rfl⟩
    | false =>
      simp only [Bool.false_eq_true, if_false]
      obtain ⟨htake, hdrop⟩ := h.pending_take hp
      split
      · rename_i half source hf
        obtain ⟨hhalf, hpend, hfat⟩ := Source.fill_ok hf
        exact Or.inl ⟨trivial, _, rfl, h.enter hfw hc (hhalf.trans htake) (hpend.trans hdrop), rfl, rfl, hfat⟩
      · rename_i fault source hf
        exact Or.inr ⟨trivial, fault, source, rfl, Source.fill_error hf⟩

/-! ## Going back and taking the lexeme -/

theorem retreat (h : Tracks p f k) (hlt : f.start < f.pos) (hin : ¬ (p.crossed = true ∧ p.forward = 0)) :
    Tracks { p with forward := p.forward - 1 } { f with pos := f.pos - 1 } k := by
  have hpos : 0 < p.forward := by
    rcases Nat.eq_zero_or_pos p.forward with h0 | h0
    · have hc : p.crossed = false := by
        cases hc : p.crossed with
        | false => rfl
        | true => exact absurd ⟨hc, h0⟩ hin
      have := h.whole hc
      have := h.pos
      omega
    · exact h0
  refine { h with forward_le := ?_, pos := ?_, whole := ?_ }
  · exact Nat.le_trans (Nat.sub_le _ _) h.forward_le
  · simp only [h.pos]; omega
  · intro hc
    obtain ⟨hst, hle⟩ := h.whole hc
    have := h.pos
    exact ⟨hst, by simp only; omega⟩

theorem retreat_over (h : Tracks p f k) (hc : p.crossed = true) (h0 : p.forward = 0) :
    Mirrors p.pushBack f.pushBack := by
  obtain ⟨hs, hp, j, rfl, hst, hidle, hsize⟩ := h.crossed hc
  have hcap := h.capacity_pos
  refine ⟨j, ?_⟩
  simp only [BufferPair.pushBack, hc, h0, and_self, if_true, Flat.pushBack]
  exact {
    capacity_pos := hcap
    window := h.window
    reached := Nat.le_trans (Nat.mul_le_mul_right _ (Nat.le_succ j)) h.reached
    active := hidle
    forward_le := by simp only [hsize]; omega
    pos := by simp only [h.pos, h0, Nat.succ_mul]; omega
    offset := h.offset
    whole := fun _ => ⟨hst, by simp only; omega⟩
    crossed := fun e => by simp at e
    ahead := fun e => by simp at e
    preloaded := fun _ => ⟨hsize, h.active, h.ahead hp⟩ }

theorem take (h : Tracks p f k) : p.take.1 = f.take.1 ∧ Tracks p.take.2 f.take.2 k := by
  have hle := h.start_le
  refine ⟨h.lexeme_eq, ?_⟩
  simp only [BufferPair.take, Flat.take]
  exact {
    capacity_pos := h.capacity_pos
    window := h.window
    reached := h.reached
    active := h.active
    forward_le := h.forward_le
    pos := h.pos
    offset := by simp only [h.length_eq, h.offset]; omega
    whole := fun _ => ⟨h.pos, Nat.le_refl _⟩
    crossed := fun e => by simp at e
    ahead := h.ahead
    preloaded := h.preloaded }

end Tracks

namespace Mirrors

variable {p : BufferPair} {f : Flat}

theorem next (h : Mirrors p f) :
    (p.next.1 = f.next.1 ∧ Mirrors p.next.2 f.next.2 ∧ p.next.2.source.fatals = p.source.fatals) ∨
    (∃ fault source, p.next = (.failed (.read fault), { p with source }) ∧
      p.source.fatals = fault :: source.fatals) := by
  obtain ⟨k, h⟩ := h
  have hfw : p.forward ≤ p.capacity := Nat.le_trans h.forward_le h.size_le
  unfold BufferPair.next
  split
  · rename_i hb
    rcases h.cross hb.2 with ⟨hc, he⟩ | ⟨hc, p', he, h', h0, hcap, hfat⟩ | ⟨hc, fault, source, he, hfat⟩
    · have hbound : f.bound = some f.pos := h.bound_eq_iff.mpr ⟨hc, hb.2⟩
      rw [he]
      simp only [Flat.next, hbound, if_true, h.window, Option.getD_some]
      exact Or.inl ⟨trivial, ⟨k, h⟩, trivial⟩
    · rw [he]
      obtain ⟨hr, ht, hs⟩ := h'.readSlot (by rw [h0, hcap]; exact h.capacity_pos)
      exact Or.inl ⟨hr, ⟨_, ht⟩, by rw [hs, hfat]⟩
    · rw [he]
      exact Or.inr ⟨fault, source, rfl, hfat⟩
  · rename_i hb
    have hlt : p.forward < p.capacity := by
      refine Nat.lt_of_le_of_ne hfw fun e => hb ⟨?_, e⟩
      have : p.active.size ≤ p.forward := by rw [e]; exact h.size_le
      simp [Half.slot, Array.getD_eq_getD_getElem?, Array.getElem?_eq_none this]
    obtain ⟨hr, ht, hs⟩ := h.readSlot hlt
    exact Or.inl ⟨hr, ⟨k, ht⟩, by rw [hs]⟩

theorem start_le (h : Mirrors p f) : f.start ≤ f.pos := by
  obtain ⟨k, h⟩ := h
  exact h.start_le

theorem pos_le (h : Mirrors p f) : f.pos ≤ f.data.size := by
  obtain ⟨k, h⟩ := h
  exact h.pos_le

theorem length_eq (h : Mirrors p f) : p.length = f.pos - f.start := by
  obtain ⟨k, h⟩ := h
  exact h.length_eq

theorem offset_eq (h : Mirrors p f) : p.offset = f.start := by
  obtain ⟨k, h⟩ := h
  exact h.offset

theorem pushBack (h : Mirrors p f) (hlt : f.start < f.pos) :
    Mirrors p.pushBack f.pushBack ∧ p.pushBack.source = p.source := by
  obtain ⟨k, h⟩ := h
  by_cases hin : p.crossed = true ∧ p.forward = 0
  · refine ⟨h.retreat_over hin.1 hin.2, ?_⟩
    simp [BufferPair.pushBack, hin]
  · simp only [BufferPair.pushBack, hin, if_false, and_true]
    exact ⟨k, h.retreat hlt hin⟩

theorem take (h : Mirrors p f) : p.take.1 = f.take.1 ∧ Mirrors p.take.2 f.take.2 := by
  obtain ⟨k, h⟩ := h
  exact ⟨h.take.1, k, h.take.2⟩

theorem ofSource {capacity : Nat} {source : Source} (h : BufferPair.ofSource capacity source = .ok p) :
    Mirrors p (Flat.ofBytes source.pending (some capacity)) ∧ p.capacity = capacity ∧
      p.source.fatals = source.fatals := by
  unfold BufferPair.ofSource at h
  split at h
  · cases h
  · rename_i hcap
    split at h
    · rename_i half source' hf
      obtain ⟨hhalf, hpend, hfat⟩ := Source.fill_ok hf
      cases h
      refine ⟨⟨0, ?_⟩, rfl, hfat⟩
      exact {
        capacity_pos := Nat.pos_of_ne_zero hcap
        window := rfl
        reached := by simp
        active := by simpa [block, Flat.ofBytes] using hhalf
        forward_le := Nat.zero_le _
        pos := by simp [Flat.ofBytes]
        offset := rfl
        whole := fun _ => by simp [Flat.ofBytes]
        crossed := fun e => by simp at e
        ahead := fun _ => by simpa [Flat.ofBytes] using hpend
        preloaded := fun e => by simp at e }
    · cases h

theorem exists_ofSource {capacity : Nat} {source : Source} (hcap : 0 < capacity) (hs : source.Reliable) :
    ∃ p, BufferPair.ofSource capacity source = .ok p := by
  unfold BufferPair.ofSource
  rw [if_neg (Nat.ne_of_gt hcap)]
  split
  · exact ⟨_, rfl⟩
  · rename_i fault source' hf
    have := Source.fill_error hf
    rw [hs] at this
    cases this

/-! ## Walks -/

theorem perform (h : Mirrors p f) (hs : p.source.Reliable) (move : Move) :
    (Cursor.perform p move).1 = (Cursor.perform f move).1 ∧
      Mirrors (Cursor.perform p move).2 (Cursor.perform f move).2 ∧
      (Cursor.perform p move).2.source.Reliable := by
  cases move with
  | next =>
    rcases h.next with ⟨hr, hm, hfat⟩ | ⟨fault, source, _, hfat⟩
    · exact ⟨congrArg Answer.reading hr, hm, hfat.trans hs⟩
    · rw [hs] at hfat
      cases hfat
  | pushBack =>
    have hlen : Cursor.length p = Cursor.length f := h.length_eq
    simp only [Cursor.perform, hlen]
    split
    · exact ⟨rfl, h, hs⟩
    · rename_i hne
      have hlt : f.start < f.pos := by
        have : f.pos - f.start ≠ 0 := hne
        omega
      obtain ⟨hm, hsrc⟩ := h.pushBack hlt
      refine ⟨rfl, hm, ?_⟩
      show p.pushBack.source.Reliable
      rw [hsrc]; exact hs
  | take =>
    obtain ⟨hl, hm⟩ := h.take
    exact ⟨congrArg Answer.lexeme hl, hm, hs⟩

theorem walk (moves : List Move) :
    ∀ {p : BufferPair} {f : Flat}, Mirrors p f → p.source.Reliable →
      (Cursor.walk p moves).1 = (Cursor.walk f moves).1 := by
  induction moves with
  | nil => intro p f _ _; rfl
  | cons move moves ih =>
    intro p f h hs
    obtain ⟨ha, hm, hs'⟩ := h.perform hs move
    have hlen : Cursor.length (Cursor.perform p move).2 = Cursor.length (Cursor.perform f move).2 := hm.length_eq
    have hoff : Cursor.offset (Cursor.perform p move).2 = Cursor.offset (Cursor.perform f move).2 := hm.offset_eq
    simp only [Cursor.walk, ha, hlen, hoff, ih hm hs']

end Mirrors

/-- Every walk over a buffer pair shows what the same walk shows over the flat cursor that has the
whole stream before it and a window of one capacity. -/
theorem walk_ofSource_eq_walk_flat (capacity : Nat) (source : Source) (hcap : 0 < capacity)
    (hs : source.Reliable) :
    ∃ p, BufferPair.ofSource capacity source = .ok p ∧
      ∀ moves, (Cursor.walk p moves).1 =
        (Cursor.walk (Flat.ofBytes source.pending (some capacity)) moves).1 := by
  obtain ⟨p, hp⟩ := Mirrors.exists_ofSource hcap hs
  obtain ⟨hm, _, hfat⟩ := Mirrors.ofSource hp
  exact ⟨p, hp, fun moves => Mirrors.walk moves hm (hfat.trans hs)⟩

theorem walk_interrupted_pieces :
    0 < 1 ∧ Source.Reliable (.ofEvents [.fail ⟨.interrupted, ""⟩, .data [97, 98], .data [128]] (some 1)) ∧
      ∃ p, BufferPair.ofSource 1
          (.ofEvents [.fail ⟨.interrupted, ""⟩, .data [97, 98], .data [128]] (some 1)) = .ok p ∧
        ∀ moves, (Cursor.walk p moves).1 = (Cursor.walk (Flat.ofBytes [97, 98, 128] (some 1)) moves).1 :=
  ⟨by decide, by decide, walk_ofSource_eq_walk_flat 1 _ (by decide) (by decide)⟩

end BufferPair

end StreamLexer
