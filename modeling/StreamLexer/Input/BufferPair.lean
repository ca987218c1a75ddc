import StreamLexer.Input.Cursor
import StreamLexer.Input.Source

/-!
# Buffer pairs

Two halves of equal capacity are filled in turn from a source. The cursor runs through the
active half and crosses into the other one at its end, so a lexeme may lie in both halves but
in no more. Behind the loaded bytes of a half stands the sentinel: the common step compares one
byte with it, and only when it is met is a boundary, the end of the stream or a stray byte told
apart.
-/

namespace StreamLexer

/-- The loaded bytes of one half. -/
abbrev Half := Array Byte

/-- The byte in slot `i`, which is the sentinel behind the loaded bytes. -/
def Half.slot (half : Half) (i : Nat) : Byte := half.getD i Byte.sentinel

structure BufferPair where
  capacity : Nat
  /-- The half under the cursor. -/
  active : Half
  idle : Half
  /-- Whether the active half is the second one. -/
  second : Bool
  /-- Slot of the first byte of the lexeme under way, in the idle half iff `crossed`. -/
  start : Nat
  forward : Nat
  /-- Whether the lexeme under way began in the idle half. -/
  crossed : Bool
  /-- Whether the idle half holds the bytes that follow the active one. -/
  preloaded : Bool
  /-- Stream offset of the start of the lexeme under way. -/
  offset : Nat
  source : Source

namespace BufferPair

/-- A block of memory has fewer bytes than this; one of fewer is taken to be there. -/
def blockLimit : Nat := 9223372036854775808

/-- Whether a half of this capacity can be a block of memory, with a slot behind it for the sentinel. -/
def fits (capacity : Nat) : Bool := decide (capacity + 1 < blockLimit)

theorem fits_eq_true_iff {capacity : Nat} : fits capacity = true ↔ capacity + 1 < blockLimit :=
  decide_eq_true_iff

theorem fits_eq_false_iff {capacity : Nat} : fits capacity = false ↔ blockLimit ≤ capacity + 1 := by
  rw [fits, decide_eq_false_iff_not, Nat.not_lt]

/-- Loads the first half, for which there has to be memory (`fits`). If loading fails the source is handed back as the
reads left it. -/
def ofSource (capacity : Nat) (source : Source) : Except (InputError × Source) BufferPair :=
  if capacity = 0 then .error (.zeroCapacity, source)
  else
    match source.fill capacity with
    | (.ok half, source) =>
      .ok {
        capacity, source
        active := half, idle := #[], second := false
        start := 0, forward := 0
        crossed := false, preloaded := false
        offset := 0 }
    | (.error fault, source) => .error (.read fault, source)

def length (p : BufferPair) : Nat :=
  if p.crossed then p.capacity - p.start + p.forward else p.forward - p.start

/-- Makes `next` the active half, with the cursor at its start. A lexeme that has bytes before the
boundary is crossed from here on; an empty one starts over in the new half. -/
def enter (p : BufferPair) (next : Half) (source : Source) : BufferPair :=
  { p with
    active := next, idle := p.active, second := !p.second
    start := if p.start < p.capacity then p.start else 0
    forward := 0
    crossed := decide (p.start < p.capacity)
    preloaded := false
    source }

/-- Moves over the end of the active half, loading the other one unless it is loaded already. -/
def cross (p : BufferPair) : Except InputError Unit × BufferPair :=
  if p.crossed then (.error (.lexemeTooLong p.capacity), p)
  else if p.preloaded then (.ok (), p.enter p.idle p.source)
  else
    match p.source.fill p.capacity with
    | (.ok half, source) => (.ok (), p.enter half source)
    | (.error fault, source) => (.error (.read fault), { p with source })

/-- Reads the slot under the cursor, taken to be no boundary. -/
def readSlot (p : BufferPair) : Reading × BufferPair :=
  let b := p.active.slot p.forward
  if b.isAscii then (.char b, { p with forward := p.forward + 1 })
  else if b = Byte.sentinel ∧ p.forward = p.active.size then (.eof, p)
  else (.failed (.nonAscii b (p.offset + p.length)), p)

def next (p : BufferPair) : Reading × BufferPair :=
  if p.active.slot p.forward = Byte.sentinel ∧ p.forward = p.capacity then
    match p.cross with
    | (.ok _, p') => p'.readSlot
    | (.error error, p') => (.failed error, p')
  else p.readSlot

/-- Takes the last character back. Going back over a boundary leaves the half loaded. -/
def pushBack (p : BufferPair) : BufferPair :=
  if p.crossed ∧ p.forward = 0 then
    { p with
      active := p.idle, idle := p.active, second := !p.second
      forward := p.capacity - 1
      crossed := false
      preloaded := true }
  else { p with forward := p.forward - 1 }

/-- The bytes of the lexeme under way, joined from both halves if it is crossed. -/
def lexeme (p : BufferPair) : Array Byte :=
  if p.crossed then p.idle.extract p.start p.capacity ++ p.active.extract 0 p.forward
  else p.active.extract p.start p.forward

def take (p : BufferPair) : List Byte × BufferPair :=
  (p.lexeme.toList, { p with start := p.forward, crossed := false, offset := p.offset + p.length })

/-- The bytes ahead in the halves, and all that the source may still deliver. -/
def remaining (p : BufferPair) : Nat :=
  p.active.size - p.forward + (if p.preloaded then p.idle.size else 0) + p.source.weight

theorem readSlot_eq_char {p p' : BufferPair} {b : Byte} (h : p.readSlot = (.char b, p')) :
    p.forward < p.active.size ∧ p' = { p with forward := p.forward + 1 } := by
  simp only [readSlot] at h
  split at h
  · rename_i hb
    simp only [Prod.mk.injEq] at h
    refine ⟨?_, h.2.symm⟩
    refine Classical.byContradiction fun hlt => ?_
    have : p.active.slot p.forward = Byte.sentinel := by simp [Half.slot, Array.getD, hlt]
    rw [this] at hb
    exact absurd hb (by decide)
  · split at h <;> simp at h

theorem readSlot_eq_eof {p p' : BufferPair} (h : p.readSlot = (.eof, p')) : p' = p := by
  simp only [readSlot] at h
  split at h
  · simp at h
  · split at h <;> simp_all

theorem remaining_enter_le (p : BufferPair) (half : Half) (source : Source) :
    (p.enter half source).remaining ≤ half.size + source.weight := by
  simp only [remaining, enter, Bool.false_eq_true, if_false]; omega

theorem remaining_cross {p p' : BufferPair} {u : Unit} (h : p.cross = (.ok u, p')) :
    p'.remaining ≤ p.remaining := by
  unfold cross at h
  split at h
  · simp at h
  · split at h
    · rename_i hp
      simp only [Prod.mk.injEq, true_and] at h
      rw [← h]
      refine Nat.le_trans (remaining_enter_le _ _ _) ?_
      simp only [remaining, hp, if_true]; omega
    · split at h
      · rename_i hf
        simp only [Prod.mk.injEq, true_and] at h
        rw [← h]
        refine Nat.le_trans (remaining_enter_le _ _ _) ?_
        refine Nat.le_trans (Source.weight_of_fill hf) ?_
        simp only [remaining]; omega
      · simp at h

theorem next_eq_char {p p' : BufferPair} {b : Byte} (h : p.next = (.char b, p')) :
    ∃ q : BufferPair, q.readSlot = (.char b, p') ∧ q.remaining ≤ p.remaining := by
  unfold next at h
  split at h
  · split at h
    · rename_i hc
      exact ⟨_, h, remaining_cross hc⟩
    · simp at h
  · exact ⟨p, h, Nat.le_refl _⟩

theorem remaining_eof {p p' : BufferPair} (h : p.next = (.eof, p')) : p'.remaining ≤ p.remaining := by
  unfold next at h
  split at h
  · split at h
    · rename_i hc
      rw [readSlot_eq_eof h]; exact remaining_cross hc
    · simp at h
  · exact Nat.le_of_eq (congrArg remaining (readSlot_eq_eof h))

theorem pushBack_readSlot {p p' : BufferPair} {b : Byte} (h : p.readSlot = (.char b, p')) :
    p'.pushBack = p := by
  obtain ⟨_, rfl⟩ := readSlot_eq_char h
  simp [pushBack]

end BufferPair

instance : Cursor BufferPair where
  next := BufferPair.next
  pushBack := BufferPair.pushBack
  take := BufferPair.take
  length := BufferPair.length
  offset := BufferPair.offset
  crowded p := p.capacity ≤ p.length
  remaining := BufferPair.remaining
  remaining_next h := by
    obtain ⟨q, hq, hle⟩ := BufferPair.next_eq_char h
    obtain ⟨hlt, rfl⟩ := BufferPair.readSlot_eq_char hq
    refine Nat.lt_of_lt_of_le ?_ hle
    simp only [BufferPair.remaining]; omega
  remaining_eof := BufferPair.remaining_eof
  remaining_pushBack h := by
    obtain ⟨q, hq, hle⟩ := BufferPair.next_eq_char h
    rw [BufferPair.pushBack_readSlot hq]; exact hle
  remaining_take _ := Nat.le_refl _

end StreamLexer
