import StreamLexer.Proofs.Calls
import StreamLexer.Proofs.Tracking

/-!
# What has been loaded

A buffer pair keeps two halves and forgets the rest, but its source tells how many fills were made
of it. The bytes that the completed ones loaded are the front of what the source delivers, as long
as a lexer goes on; the first fill that fails is the last.
-/

namespace StreamLexer

namespace Source

/-- The bytes that `k` fills in a row have loaded, and the source behind them. A fill that fails
loads nothing. -/
def fills (s : Source) (capacity : Nat) : Nat → List Byte × Source
  | 0 => ([], s)
  | k + 1 =>
    match (s.fills capacity k).2.fill capacity with
    | (.ok half, t) => ((s.fills capacity k).1 ++ half.toList, t)
    | (.error _, t) => ((s.fills capacity k).1, t)

theorem fills_ok {s t : Source} {capacity k : Nat} {half : Array Byte}
    (h : (s.fills capacity k).2.fill capacity = (.ok half, t)) :
    s.fills capacity (k + 1) = ((s.fills capacity k).1 ++ half.toList, t) := by
  rw [fills, h]

theorem fills_error {s t : Source} {capacity k : Nat} {fault : Fault}
    (h : (s.fills capacity k).2.fill capacity = (.error fault, t)) :
    s.fills capacity (k + 1) = ((s.fills capacity k).1, t) := by
  rw [fills, h]

/-! ## The source tells the bytes -/

theorem reads_of_read (s : Source) (want : Nat) : (s.read want).2.reads = s.reads + 1 := by
  unfold read
  split <;> rfl

theorem fillFrom_reads (capacity : Nat) (loaded : Array Byte) (s : Source) :
    ((fillFrom capacity loaded s).2.reads = s.reads ∧ (fillFrom capacity loaded s).1 = .ok loaded) ∨
      s.reads < (fillFrom capacity loaded s).2.reads := by
  have hread : ∀ {s s' : Source} {want r}, s.read want = (r, s') → s'.reads = s.reads + 1 := by
    intro s s' want r h
    rw [← reads_of_read s want, h]
  fun_induction fillFrom capacity loaded s with
  | case1 loaded s _ s' h => exact Or.inr (Nat.lt_of_lt_of_eq (Nat.lt_succ_self _) (hread h).symm)
  | case2 loaded s _ b bytes s' h ih => have := hread h; omega
  | case3 loaded s _ fault s' h _ => exact Or.inr (Nat.lt_of_lt_of_eq (Nat.lt_succ_self _) (hread h).symm)
  | case4 loaded s _ fault s' h _ ih => have := hread h; omega
  | case5 loaded s _ => exact Or.inl ⟨rfl, rfl⟩

theorem fills_succ_reads (s : Source) (capacity k : Nat) :
    ((s.fills capacity (k + 1)).2.reads = (s.fills capacity k).2.reads ∧
      (s.fills capacity (k + 1)).1 = (s.fills capacity k).1) ∨
      (s.fills capacity k).2.reads < (s.fills capacity (k + 1)).2.reads := by
  have hreads := fillFrom_reads capacity #[] (s.fills capacity k).2
  rcases hf : (s.fills capacity k).2.fill capacity with ⟨r, t⟩
  rw [show fillFrom capacity #[] (s.fills capacity k).2 = (r, t) from hf] at hreads
  cases r with
  | error fault =>
    rw [fills_error hf]
    rcases hreads with ⟨_, hok⟩ | hlt
    · cases hok
    · exact Or.inr hlt
  | ok half =>
    rw [fills_ok hf]
    rcases hreads with ⟨heq, hok⟩ | hlt
    · cases hok
      exact Or.inl ⟨heq, List.append_nil _⟩
    · exact Or.inr hlt

theorem fills_reads (s : Source) (capacity k : Nat) : ∀ j,
    ((s.fills capacity (k + j)).2.reads = (s.fills capacity k).2.reads ∧
      (s.fills capacity (k + j)).1 = (s.fills capacity k).1) ∨
      (s.fills capacity k).2.reads < (s.fills capacity (k + j)).2.reads
  | 0 => Or.inl ⟨rfl, rfl⟩
  | j + 1 => by
    rcases fills_reads s capacity k j with ⟨hr, hl⟩ | hlt
    · rw [← hr, ← hl]
      exact fills_succ_reads s capacity (k + j)
    · rcases fills_succ_reads s capacity (k + j) with ⟨hr, _⟩ | hlt'
      · exact Or.inr (hr ▸ hlt)
      · exact Or.inr (Nat.lt_trans hlt hlt')

theorem fills_unique {s : Source} {capacity k j : Nat} (h : (s.fills capacity k).2 = (s.fills capacity j).2) :
    (s.fills capacity k).1 = (s.fills capacity j).1 := by
  rcases Nat.le_total k j with hle | hle
  · rcases fills_reads s capacity k (j - k) with ⟨_, hl⟩ | hlt
    · rw [Nat.add_sub_cancel' hle] at hl
      exact hl.symm
    · rw [Nat.add_sub_cancel' hle, h] at hlt
      exact absurd hlt (Nat.lt_irrefl _)
  · rcases fills_reads s capacity j (k - j) with ⟨_, hl⟩ | hlt
    · rw [Nat.add_sub_cancel' hle] at hl
      exact hl
    · rw [Nat.add_sub_cancel' hle, h] at hlt
      exact absurd hlt (Nat.lt_irrefl _)

end Source

namespace BufferPair

theorem cross_source {p q : BufferPair} {r : Except InputError Unit} (h : p.cross = (r, q)) :
    q.capacity = p.capacity ∧
      (q.source = p.source ∨ (∃ half, p.source.fill p.capacity = (.ok half, q.source)) ∨
        ∃ fault, p.source.fill p.capacity = (.error fault, q.source) ∧ r = .error (.read fault)) := by
  unfold cross at h
  split at h
  · cases h
    exact ⟨rfl, Or.inl rfl⟩
  · split at h
    · cases h
      exact ⟨rfl, Or.inl rfl⟩
    · split at h <;> rename_i hf <;> cases h
      · exact ⟨rfl, Or.inr (Or.inl ⟨_, hf⟩)⟩
      · exact ⟨rfl, Or.inr (Or.inr ⟨_, hf, rfl⟩)⟩

theorem readSlot_source (p : BufferPair) : p.readSlot.2.capacity = p.capacity ∧ p.readSlot.2.source = p.source := by
  simp only [readSlot]
  split
  · exact ⟨rfl, rfl⟩
  · split <;> exact ⟨rfl, rfl⟩

theorem next_source (p : BufferPair) :
    p.next.2.capacity = p.capacity ∧
      (p.next.2.source = p.source ∨ (∃ half, p.source.fill p.capacity = (.ok half, p.next.2.source)) ∨
        ∃ fault, p.source.fill p.capacity = (.error fault, p.next.2.source) ∧ p.next.1 = .failed (.read fault)) := by
  unfold next
  split
  · rcases hc : p.cross with ⟨r, q⟩
    obtain ⟨hcap, hsource⟩ := cross_source hc
    obtain ⟨hcap', hsource'⟩ := q.readSlot_source
    cases r with
    | ok u =>
      simp only [hcap', hsource']
      rcases hsource with heq | hok | ⟨fault, _, hr⟩
      · exact ⟨hcap, Or.inl heq⟩
      · exact ⟨hcap, Or.inr (Or.inl hok)⟩
      · cases hr
    | error e =>
      rcases hsource with heq | hok | ⟨fault, hf, hr⟩
      · exact ⟨hcap, Or.inl heq⟩
      · exact ⟨hcap, Or.inr (Or.inl hok)⟩
      · cases hr
        exact ⟨hcap, Or.inr (Or.inr ⟨fault, hf, rfl⟩)⟩
  · exact ⟨p.readSlot_source.1, Or.inl p.readSlot_source.2⟩

theorem pushBack_source (p : BufferPair) : p.pushBack.capacity = p.capacity ∧ p.pushBack.source = p.source := by
  unfold pushBack
  split <;> exact ⟨rfl, rfl⟩

/-- Everything `source` has delivered so far was loaded, and that is `o` bytes or more. -/
def Loaded (capacity : Nat) (source : Source) (o : Nat) (p : BufferPair) : Prop :=
  p.capacity = capacity ∧ ∃ k, p.source = (source.fills capacity k).2 ∧
    source.pending = (source.fills capacity k).1 ++ p.source.pending ∧ o ≤ (source.fills capacity k).1.length

/-- What was loaded is the front of what `source` delivers, and it is `o` bytes or more. -/
def HasLoaded (capacity : Nat) (source : Source) (o : Nat) (p : BufferPair) : Prop :=
  ∃ k, p.source = (source.fills capacity k).2 ∧ (source.fills capacity k).1 <+: source.pending ∧
    o ≤ (source.fills capacity k).1.length

section
variable {capacity : Nat} {source : Source} {o : Nat} {p : BufferPair}

theorem Loaded.hasLoaded (h : p.Loaded capacity source o) : p.HasLoaded capacity source o := by
  obtain ⟨_, k, hk, hd, ho⟩ := h
  exact ⟨k, hk, ⟨p.source.pending, hd.symm⟩, ho⟩

theorem Loaded.next (h : p.Loaded capacity source o) :
    Lexer.Reads (Loaded capacity source o) (HasLoaded capacity source o) p.next := by
  obtain ⟨hcap, k, hk, hd, ho⟩ := h
  obtain ⟨hcap', hsource⟩ := p.next_source
  rw [hcap] at hsource hcap'
  have hkept : p.next.2.Loaded capacity source o →
      Lexer.Reads (Loaded capacity source o) (HasLoaded capacity source o) p.next := by
    intro hl
    unfold Lexer.Reads
    split
    · exact hl.hasLoaded
    · exact hl
  rcases hsource with heq | ⟨half, hf⟩ | ⟨fault, hf, hr⟩
  · refine hkept ⟨hcap', k, heq.trans hk, ?_, ho⟩
    rw [heq]
    exact hd
  · rw [hk] at hf
    obtain ⟨hhalf, hrest, _⟩ := Source.fill_ok hf
    have hfills := Source.fills_ok hf
    refine hkept ⟨hcap', k + 1, by rw [hfills], ?_, ?_⟩
    · rw [hfills, hd, hk, hhalf, hrest, List.append_assoc, List.take_append_drop]
    · rw [hfills, List.length_append]
      omega
  -- the failed fill adds nothing to what was loaded, and no other follows it
  · rw [hk] at hf
    have hfills := Source.fills_error hf
    unfold Lexer.Reads
    rw [hr]
    exact ⟨k + 1, by rw [hfills], by rw [hfills]; exact ⟨p.source.pending, hd.symm⟩, by rw [hfills]; exact ho⟩

theorem Loaded.pushBack (h : p.Loaded capacity source o) : p.pushBack.Loaded capacity source o := by
  obtain ⟨hcap, hsource⟩ := p.pushBack_source
  unfold Loaded
  rw [hcap, hsource]
  exact h

theorem respected_loaded (capacity : Nat) (source : Source) (o : Nat) :
    Lexer.Respected (fun p _ => Loaded capacity source o p) (fun p _ => Loaded capacity source o p)
      (fun p _ => HasLoaded capacity source o p) :=
  Lexer.respected_cursor (fun _ h => h.next) (fun _ h => h.pushBack) (fun _ h => h) (fun _ h => h.hasLoaded)

theorem loaded_ofSource (h : BufferPair.ofSource capacity source = .ok p) : p.Loaded capacity source 0 := by
  unfold BufferPair.ofSource at h
  split at h
  · cases h
  · split at h <;> rename_i hf <;> cases h
    have hfills := Source.fills_ok (k := 0) hf
    obtain ⟨hhalf, hrest, _⟩ := Source.fill_ok hf
    refine ⟨rfl, 1, by rw [hfills], ?_, Nat.zero_le _⟩
    rw [hfills, hhalf, hrest]
    exact (List.take_append_drop _ _).symm

theorem Mirrors.pos_add_pending_le {f : Flat} (h : p.Mirrors f) :
    f.pos + p.source.pending.length ≤ f.data.size := by
  obtain ⟨k, ht⟩ := h
  have hpos := ht.pos_le
  have hsize := ht.size_le
  have hforward := ht.forward_le
  have hp := ht.pos
  cases hl : p.preloaded with
  | false =>
    rw [ht.ahead hl, List.length_drop, Array.length_toList, Nat.succ_mul]
    omega
  | true =>
    rw [(ht.preloaded hl).2.2, List.length_drop, Array.length_toList, Nat.add_mul]
    omega

theorem Loaded.upTo {f : Flat} (h : p.Loaded capacity source o) (hm : p.Mirrors f)
    (hd : f.data.size = source.pending.length) : p.Loaded capacity source f.pos := by
  obtain ⟨hcap, k, hk, hpending, _⟩ := h
  have hle := hm.pos_add_pending_le
  have hlen := congrArg List.length hpending
  rw [List.length_append] at hlen
  exact ⟨hcap, k, hk, hpending, by omega⟩

end

end BufferPair

end StreamLexer
