import StreamLexer.Byte
import StreamLexer.Fault

/-!
# Byte sources

A source is a finite script of what its reads will meet: data, failures, and reports that the
stream has ended. One read takes from the first event only, so data arrives in pieces of any
size. `fill` loads a fixed room from it and reads no source that has once reported its end.
-/

namespace StreamLexer

inductive Event where
  | data (bytes : List Byte)
  | fail (fault : Fault)
  /-- A read that delivers nothing: the end of the stream. -/
  | close
deriving DecidableEq

/-- A bound on how often an event can be met: once for each byte, and once for itself. -/
def Event.weight : Event → Nat
  | .data bytes => bytes.length + 1
  | .fail _ => 1
  | .close => 1

structure Source where
  script : List Event
  /-- The most bytes one read delivers, if there is such a bound. -/
  chunk : Option Nat
  /-- How many reads were made. -/
  reads : Nat
  /-- Whether a read has reported the end of the stream. -/
  ended : Bool
deriving DecidableEq

namespace Source

def ofEvents (script : List Event) (chunk : Option Nat) : Source := ⟨script, chunk, 0, false⟩

/-- A source that delivers `bytes` and nothing else. -/
def ofBytes (bytes : List Byte) : Source := ofEvents [.data bytes] none

def weight (s : Source) : Nat := s.script.foldr (fun event total => event.weight + total) 0

/-- How many bytes a read that asks for `want` may deliver. -/
def allowance (s : Source) (want : Nat) : Nat :=
  match s.chunk with
  | none => want
  | some limit => min limit want

/-- One read for at most `want` bytes. No bytes mean that the stream has ended. -/
def read (s : Source) (want : Nat) : Except Fault (List Byte) × Source :=
  match s.script with
  | [] => (.ok [], { s with reads := s.reads + 1 })
  | .close :: rest => (.ok [], { s with script := rest, reads := s.reads + 1 })
  | .fail fault :: rest => (.error fault, { s with script := rest, reads := s.reads + 1 })
  | .data bytes :: rest =>
    let left := bytes.drop (s.allowance want)
    (.ok (bytes.take (s.allowance want)),
      { s with
        script := if left.isEmpty then rest else .data left :: rest
        reads := s.reads + 1 })

theorem allowance_le (s : Source) (want : Nat) : s.allowance want ≤ want := by
  unfold allowance; split <;> omega

theorem length_of_read {s s' : Source} {want : Nat} {bytes : List Byte}
    (h : s.read want = (.ok bytes, s')) : bytes.length ≤ want := by
  unfold read at h
  split at h <;> simp only [Prod.mk.injEq, Except.ok.injEq, reduceCtorEq, false_and] at h
  · simp [← h.1]
  · simp [← h.1]
  · rw [← h.1, List.length_take]
    exact Nat.le_trans (Nat.min_le_left _ _) (allowance_le _ _)

theorem weight_of_read {s s' : Source} {want : Nat} {b : Byte} {bytes : List Byte}
    (h : s.read want = (.ok (b :: bytes), s')) : (b :: bytes).length + s'.weight ≤ s.weight := by
  unfold read at h
  split at h <;> simp only [Prod.mk.injEq, Except.ok.injEq, reduceCtorEq, false_and] at h
  rename_i all rest hs
  obtain ⟨ht, rfl⟩ := h
  have hlen : (all.take (s.allowance want)).length + (all.drop (s.allowance want)).length = all.length := by
    simp only [List.length_take, List.length_drop]; omega
  rw [ht] at hlen
  simp only [weight, hs, List.foldr_cons, Event.weight]
  split
  · omega
  · simp only [List.foldr_cons]; omega

theorem weight_of_read_error {s s' : Source} {want : Nat} {fault : Fault}
    (h : s.read want = (.error fault, s')) : s'.weight < s.weight := by
  unfold read at h
  split at h <;> simp only [Prod.mk.injEq, Except.error.injEq, reduceCtorEq, false_and] at h
  rename_i rest hs
  rw [← h.2]
  simp [weight, hs, Event.weight]

theorem weight_of_read_nil {s s' : Source} {want : Nat} (h : s.read want = (.ok [], s')) :
    s'.weight ≤ s.weight := by
  unfold read at h
  split at h <;> simp only [Prod.mk.injEq, Except.ok.injEq, reduceCtorEq, false_and] at h
  · rw [← h.2]; simp [weight]
  · rename_i rest hs
    rw [← h.2]; simp [weight, hs, Event.weight]
  · rename_i all rest hs
    rw [← h.2]
    simp only [weight, hs, List.foldr_cons, Event.weight]
    split
    · omega
    · simp only [List.foldr_cons, List.length_drop]; omega

/-- Reads on behind `loaded` until there are `capacity` bytes or the stream ends. Interrupted
reads are repeated; after any other failure the bytes loaded so far are dropped. -/
def fillFrom (capacity : Nat) (loaded : Array Byte) (s : Source) : Except Fault (Array Byte) × Source :=
  if loaded.size < capacity ∧ s.ended = false then
    match _h : s.read (capacity - loaded.size) with
    | (.ok [], s') => (.ok loaded, { s' with ended := true })
    | (.ok (b :: bytes), s') => fillFrom capacity (loaded ++ (b :: bytes)) s'
    | (.error fault, s') => if fault.isFatal then (.error fault, s') else fillFrom capacity loaded s'
  else (.ok loaded, s)
termination_by s.weight
decreasing_by
  · have := weight_of_read _h; simp only [List.length_cons] at this; omega
  · exact weight_of_read_error _h

/-- Loads up to `capacity` bytes, fewer only if the stream ends first. -/
def fill (s : Source) (capacity : Nat) : Except Fault (Array Byte) × Source := fillFrom capacity #[] s

theorem weight_of_fillFrom (capacity : Nat) (loaded : Array Byte) (s : Source) :
    match fillFrom capacity loaded s with
    | (.ok half, s') => half.size + s'.weight ≤ loaded.size + s.weight
    | (.error _, s') => s'.weight < s.weight := by
  fun_induction fillFrom capacity loaded s with
  | case1 loaded s _ s' h => exact Nat.add_le_add_left (weight_of_read_nil h) _
  | case2 loaded s _ b bytes s' h ih =>
    have hw := weight_of_read h
    have hsize : (loaded ++ b :: bytes).size = loaded.size + (b :: bytes).length := by
      simp [← Array.length_toList]
    split at ih <;> omega
  | case3 loaded s _ fault s' h _ => exact weight_of_read_error h
  | case4 loaded s _ fault s' h _ ih =>
    have hw := weight_of_read_error h
    split at ih <;> omega
  | case5 loaded s _ => exact Nat.le_refl _

theorem weight_of_fill {s s' : Source} {capacity : Nat} {half : Array Byte}
    (h : s.fill capacity = (.ok half, s')) : half.size + s'.weight ≤ s.weight := by
  have := weight_of_fillFrom capacity #[] s
  unfold fill at h
  rw [h] at this
  simpa using this

end Source

end StreamLexer
