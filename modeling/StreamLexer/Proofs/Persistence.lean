import StreamLexer.Proofs.Loading

/-!
# A buffer pair goes on behind a fault

A fill that fails for good loses the bytes it has read, and the pair stays where it is: at the end
of its active half, over a stream that goes on otherwise from there. So a pair that makes any moves
over any source keeps mirroring a flat cursor, over the bytes that the completed fills have loaded
and those that the source still has.
-/

namespace StreamLexer

def Reading.width : Reading → Nat
  | .char _ => 1
  | _ => 0

theorem Flat.next_cases (f : Flat) :
    (f.bound = some f.pos ∧ f.next = (.failed (.lexemeTooLong (f.window.getD 0)), f)) ∨
      f.bound ≠ some f.pos ∧
        ((f.data.size ≤ f.pos ∧ f.next = (.eof, f)) ∨
          ∃ b, f.data[f.pos]? = some b ∧
            ((b.isAscii = false ∧ f.next = (.failed (.nonAscii b f.pos), f)) ∨
              (b.isAscii = true ∧ f.next = (.char b, { f with pos := f.pos + 1 })))) := by
  unfold next
  by_cases hbound : f.bound = some f.pos
  · simp [hbound]
  · refine Or.inr ⟨hbound, ?_⟩
    rw [if_neg hbound]
    cases hb : f.data[f.pos]? with
    | none => exact Or.inl ⟨Array.getElem?_eq_none_iff.mp hb, rfl⟩
    | some b =>
      refine Or.inr ⟨b, rfl, ?_⟩
      by_cases ha : b.isAscii = true <;> simp [ha]

theorem Flat.next_ne_read (f : Flat) (fault : Fault) : f.next.1 ≠ .failed (.read fault) := by
  intro h
  rcases f.next_cases with ⟨_, hn⟩ | ⟨_, ⟨_, hn⟩ | ⟨b, _, ⟨_, hn⟩ | ⟨_, hn⟩⟩⟩ <;> rw [hn] at h <;> cases h

namespace BufferPair

theorem readSlot_snd (p : BufferPair) :
    p.readSlot.2 = { p with forward := p.forward + p.readSlot.1.width } := by
  simp only [readSlot]
  split
  · rfl
  · split <;> rfl

theorem readSlot_eq_failed {p : BufferPair} {e : InputError} (h : p.readSlot.1 = .failed e) :
    ∃ b place, e = .nonAscii b place := by
  simp only [readSlot] at h
  split at h
  · cases h
  · split at h <;> cases h
    exact ⟨_, _, rfl⟩

/-- A read fails for good only where the cursor is to leave its half for one that is not loaded, and
nothing but the source has changed then. -/
theorem next_eq_read {p q : BufferPair} {fault : Fault} (h : p.next = (.failed (.read fault), q)) :
    p.forward = p.capacity ∧ p.crossed = false ∧ p.preloaded = false ∧
      p.source.fill p.capacity = (.error fault, q.source) ∧ q = { p with source := q.source } := by
  unfold next at h
  split at h
  · rename_i hb
    refine ⟨hb.2, ?_⟩
    rcases hcross : p.cross with ⟨r, p'⟩
    rw [hcross] at h
    cases r with
    | ok u =>
      obtain ⟨_, _, he⟩ := readSlot_eq_failed (congrArg Prod.fst h)
      cases he
    | error e =>
      obtain ⟨rfl, rfl⟩ : e = .read fault ∧ p' = q := by simpa using h
      unfold cross at hcross
      split at hcross
      · cases hcross
      · rename_i hc
        split at hcross
        · cases hcross
        · rename_i hp
          split at hcross
          · cases hcross
          · rename_i hf
            cases hcross
            exact ⟨by simpa using hc, by simpa using hp, hf, rfl⟩
  · obtain ⟨_, _, he⟩ := readSlot_eq_failed (congrArg Prod.fst h)
    cases he

theorem walk_keeps {R : BufferPair → Prop} (hnext : ∀ p, R p → R p.next.2)
    (hback : ∀ p, p.length ≠ 0 → R p → R p.pushBack) (htake : ∀ p, R p → R p.take.2) {p : BufferPair} (h : R p)
    (moves : List Move) : R (Cursor.walk p moves).2 := by
  induction moves generalizing p with
  | nil => exact h
  | cons move moves ih =>
    apply ih (p := (Cursor.perform p move).2)
    cases move with
    | next => exact hnext p h
    | take => exact htake p h
    | pushBack =>
      simp only [Cursor.perform]
      by_cases hlen : p.length = 0
      · rw [if_pos (show Cursor.length p = 0 from hlen)]
        exact h
      · rw [if_neg (show Cursor.length p ≠ 0 from hlen)]
        exact hback p hlen h

theorem capacity_walk (p : BufferPair) (moves : List Move) : (Cursor.walk p moves).2.capacity = p.capacity := by
  apply walk_keeps (R := fun q => q.capacity = p.capacity) ?_ ?_ ?_ rfl
  · intro q hq
    exact q.next_source.1.trans hq
  · intro q _ hq
    exact q.pushBack_source.1.trans hq
  · intro q hq
    exact hq

theorem ofSource_eq_error {capacity : Nat} {source rest : Source} {e : InputError} (hcap : 0 < capacity)
    (h : ofSource capacity source = .error (e, rest)) : ∃ fault ∈ source.fatals.head?, e = .read fault := by
  unfold ofSource at h
  rw [if_neg (Nat.ne_of_gt hcap)] at h
  split at h <;> rename_i hf <;> cases h
  exact ⟨_, by rw [Source.fill_error hf]; rfl, rfl⟩

section
variable {p : BufferPair} {f : Flat} {k : Nat}

theorem Tracks.redirect (h : Tracks p f k) (hfw : p.forward = p.capacity) (hc : p.crossed = false)
    (hp : p.preloaded = false) (source : Source) :
    Tracks { p with source }
      { f with data := (f.data.toList.take ((k + 1) * p.capacity) ++ source.pending).toArray } k := by
  have hpos := h.pos_le
  rw [h.pos, hfw, ← Nat.succ_mul] at hpos
  have hlen : (f.data.toList.take ((k + 1) * p.capacity)).length = (k + 1) * p.capacity := by
    rw [List.length_take, Array.length_toList]
    exact Nat.min_eq_left hpos
  have hblock : block (f.data.toList.take ((k + 1) * p.capacity) ++ source.pending) p.capacity k =
      block f.data.toList p.capacity k := by
    have hroom : p.capacity ≤ ((f.data.toList.take ((k + 1) * p.capacity)).drop (k * p.capacity)).length := by
      rw [List.length_drop, hlen, Nat.succ_mul]
      omega
    unfold block
    rw [List.drop_append_of_le_length (by rw [hlen, Nat.succ_mul]; omega), List.take_append_of_le_length hroom,
      List.drop_take, List.take_take, Nat.succ_mul, Nat.add_sub_cancel_left, Nat.min_self]
  refine { h with reached := ?_, active := ?_, crossed := ?_, ahead := ?_, preloaded := ?_ }
  · simp only [List.size_toArray, List.length_append, hlen]
    rw [Nat.succ_mul]
    omega
  · rw [h.active]
    exact hblock.symm
  · intro hcrossed
    rw [hc] at hcrossed
    cases hcrossed
  · intro _
    have hrest : (f.data.toList.take ((k + 1) * p.capacity) ++ source.pending).drop
        (f.data.toList.take ((k + 1) * p.capacity)).length = source.pending := List.drop_left
    rw [hlen] at hrest
    exact hrest.symm
  · intro hpre
    rw [hp] at hpre
    cases hpre

namespace Mirrors

theorem next_any (h : Mirrors p f) :
    (p.next.1 = f.next.1 ∧ Mirrors p.next.2 f.next.2) ∨
      ∃ fault source loaded, p.next = (.failed (.read fault), { p with source }) ∧
        f.data.toList = loaded ++ p.source.pending ∧ f.pos ≤ loaded.length ∧
        ∀ source : Source, Mirrors { p with source } { f with data := (loaded ++ source.pending).toArray } := by
  rcases h.next with ⟨hr, hm, _⟩ | ⟨fault, source, hn, _⟩
  · exact Or.inl ⟨hr, hm⟩
  · obtain ⟨k, ht⟩ := h
    obtain ⟨hfw, hc, hp, _⟩ := next_eq_read hn
    have hpos := ht.pos_le
    refine Or.inr ⟨fault, source, f.data.toList.take ((k + 1) * p.capacity), hn, ?_, ?_, fun source' => ?_⟩
    · rw [ht.ahead hp, List.take_append_drop]
    · rw [ht.pos, hfw, ← Nat.succ_mul] at hpos ⊢
      rw [List.length_take, Array.length_toList]
      exact Nat.le_min.mpr ⟨Nat.le_refl _, hpos⟩
    · exact ⟨k, ht.redirect hfw hc hp source'⟩

theorem pushBack_of_length (h : Mirrors p f) (hlen : p.length ≠ 0) :
    Mirrors p.pushBack f.pushBack ∧ p.pushBack.source = p.source := by
  apply h.pushBack
  rw [h.length_eq] at hlen
  omega

/-- Whatever the source does, a pair keeps mirroring some flat cursor. -/
theorem walk_any (h : Mirrors p f) (moves : List Move) : ∃ g, Mirrors (Cursor.walk p moves).2 g := by
  apply walk_keeps (R := fun q => ∃ g, Mirrors q g) ?_ ?_ ?_ ⟨f, h⟩
  · rintro q ⟨g, hg⟩
    rcases hg.next_any with ⟨_, hm⟩ | ⟨fault, source, loaded, hn, _, _, hany⟩
    · exact ⟨_, hm⟩
    · rw [hn]
      exact ⟨_, hany source⟩
  · rintro q hlen ⟨g, hg⟩
    exact ⟨_, (hg.pushBack_of_length hlen).1⟩
  · rintro q ⟨g, hg⟩
    exact ⟨_, hg.take.2⟩

end Mirrors

/-! ## Any moves over any source -/

/-- The pair, made over `source`, stands where `f` does in the stream that was loaded so far and is
still to come, with no stray byte behind it. -/
structure Rides (source : Source) (p : BufferPair) (f : Flat) : Prop where
  mirrors : p.Mirrors f
  ascii : ∀ b ∈ f.data.toList.take f.pos, b.isAscii = true
  loaded : ∃ k, p.source = (source.fills p.capacity k).2 ∧
    f.data.toList = (source.fills p.capacity k).1 ++ p.source.pending

variable {source : Source}

theorem Rides.ascii_next (h : Rides source p f) :
    ∀ b ∈ f.next.2.data.toList.take f.next.2.pos, b.isAscii = true := by
  rcases f.next_cases with ⟨_, hn⟩ | ⟨_, ⟨_, hn⟩ | ⟨b, hb, ⟨_, hn⟩ | ⟨ha, hn⟩⟩⟩
  · rw [hn]; exact h.ascii
  · rw [hn]; exact h.ascii
  · rw [hn]; exact h.ascii
  · rw [hn]
    intro c hc
    rw [← Array.getElem?_toList] at hb
    rw [List.take_add_one, hb, List.mem_append] at hc
    rcases hc with hc | hc
    · exact h.ascii c hc
    · obtain rfl : c = b := by simpa using hc
      exact ha

theorem Rides.next (h : Rides source p f) : ∃ g, Rides source p.next.2 g := by
  obtain ⟨k, hk, hd⟩ := h.loaded
  obtain ⟨hcap, hsource⟩ := p.next_source
  rcases h.mirrors.next_any with ⟨hr, hm⟩ | ⟨fault, rest, loaded, hn, hsplit, hpos, hany⟩
  · refine ⟨f.next.2, hm, h.ascii_next, ?_⟩
    rw [hcap, f.next_keeps.2]
    rcases hsource with heq | ⟨half, hf⟩ | ⟨fault, _, hfailed⟩
    · exact ⟨k, heq.trans hk, by rw [heq]; exact hd⟩
    · rw [hk] at hf
      obtain ⟨hhalf, hrest, _⟩ := Source.fill_ok hf
      have hfills := Source.fills_ok hf
      refine ⟨k + 1, by rw [hfills], ?_⟩
      rw [hfills, hd, hk, hhalf, hrest, List.append_assoc, List.take_append_drop]
    · exact absurd (hr.symm.trans hfailed) (f.next_ne_read fault)
  -- the failed fill has loaded nothing, so the stream goes on with what the source still has
  · have hf := (next_eq_read hn).2.2.2.1
    rw [hk] at hf
    have hfills := Source.fills_error hf
    have hloaded : loaded = (source.fills p.capacity k).1 := List.append_cancel_right (hsplit.symm.trans hd)
    rw [hn]
    refine ⟨_, hany rest, ?_, k + 1, by rw [hfills], ?_⟩
    · intro b hb
      apply h.ascii b
      rw [List.take_append_of_le_length hpos] at hb
      rw [hsplit, List.take_append_of_le_length hpos]
      exact hb
    · rw [hfills, hloaded]

theorem Rides.pushBack (h : Rides source p f) (hlen : p.length ≠ 0) : Rides source p.pushBack f.pushBack := by
  obtain ⟨hm, hsource⟩ := h.mirrors.pushBack_of_length hlen
  refine ⟨hm, fun b hb => ?_, ?_⟩
  · exact h.ascii b (List.take_subset_take_left _ (Nat.sub_le _ _) hb)
  · rw [hsource, p.pushBack_source.1]
    exact h.loaded

theorem Rides.take (h : Rides source p f) : Rides source p.take.2 f.take.2 :=
  ⟨h.mirrors.take.2, h.ascii, h.loaded⟩

theorem Rides.walk (h : Rides source p f) (moves : List Move) : ∃ g, Rides source (Cursor.walk p moves).2 g := by
  apply walk_keeps (R := fun q => ∃ g, Rides source q g) ?_ ?_ ?_ ⟨f, h⟩
  · rintro q ⟨g, hg⟩
    exact hg.next
  · rintro q hlen ⟨g, hg⟩
    exact ⟨_, hg.pushBack hlen⟩
  · rintro q ⟨g, hg⟩
    exact ⟨_, hg.take⟩

theorem Rides.ofSource {capacity : Nat} (h : BufferPair.ofSource capacity source = .ok p) :
    Rides source p (Flat.ofBytes source.pending (some capacity)) := by
  obtain ⟨hm, hcap, _⟩ := Mirrors.ofSource h
  obtain ⟨_, k, hk, hd, _⟩ := loaded_ofSource h
  refine ⟨hm, ?_, k, ?_, ?_⟩
  · intro b hb
    cases hb
  · rw [hcap]; exact hk
  · rw [hcap]; exact hd

theorem Rides.halves (h : Rides source p f) :
    ∃ k front, p.source = (source.fills p.capacity k).2 ∧
      (source.fills p.capacity k).1 = front ++ p.active.toList ++ (if p.preloaded then p.idle.toList else []) ∧
      front.length + p.forward = p.offset + p.length := by
  obtain ⟨k, hk, hd⟩ := h.loaded
  obtain ⟨j, ht⟩ := h.mirrors
  have hpos := ht.pos
  have hstart := ht.start_le
  have hcut : ∀ n, p.source.pending = f.data.toList.drop n → (source.fills p.capacity k).1 = f.data.toList.take n := by
    intro n hn
    rw [hn] at hd
    exact List.append_cancel_right (hd.symm.trans (List.take_append_drop n _).symm)
  have hmore : ∀ i, f.data.toList.take ((i + 1) * p.capacity) =
      f.data.toList.take (i * p.capacity) ++ block f.data.toList p.capacity i := by
    intro i
    rw [Nat.succ_mul, List.take_add, block]
  refine ⟨k, f.data.toList.take (j * p.capacity), hk, ?_, ?_⟩
  · rw [ht.active]
    cases hp : p.preloaded with
    | false => rw [hcut _ (ht.ahead hp), hmore]; simp
    | true =>
      obtain ⟨_, hidle, hpending⟩ := ht.preloaded hp
      rw [hcut _ hpending, hmore, hmore, hidle, if_pos rfl]
  · rw [List.length_take, Array.length_toList, Nat.min_eq_left ht.reached, ht.offset, ht.length_eq]
    omega

theorem Rides.lexeme (h : Rides source p f) : p.lexeme.size = p.length ∧ ∀ b ∈ p.lexeme.toList, b.isAscii = true := by
  have hpos := h.mirrors.pos_le
  have hlen := h.mirrors.length_eq
  obtain ⟨j, ht⟩ := h.mirrors
  have htext := ht.lexeme_eq
  rw [Array.toList_extract, List.extract_eq_take_drop] at htext
  refine ⟨?_, fun b hb => h.ascii b ?_⟩
  · rw [← Array.length_toList, htext, List.length_take, List.length_drop, Array.length_toList, hlen]
    omega
  · rw [htext, ← List.drop_take] at hb
    exact List.mem_of_mem_drop hb

theorem Rides.lexemes (moves : List Move) : ∀ {p : BufferPair} {f : Flat}, Rides source p f →
    ∀ step ∈ (Cursor.walk p moves).1, ∀ text, step.answer = .lexeme text → ∀ b ∈ text, b.isAscii = true := by
  induction moves with
  | nil =>
    intro p f _ step hstep
    cases hstep
  | cons move moves ih =>
    intro p f h step hstep text htext
    obtain ⟨g, hg⟩ := h.walk [move]
    rcases List.mem_cons.mp hstep with rfl | hstep
    · cases move with
      | next => cases htext
      | take =>
        cases htext
        exact h.lexeme.2
      | pushBack =>
        simp only at htext
        split at htext <;> cases htext
    · exact ih hg step hstep text htext

end

end BufferPair

end StreamLexer
