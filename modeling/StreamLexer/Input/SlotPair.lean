import StreamLexer.Input.BufferPair
import StreamLexer.Input.Walk

/-!
# Buffer pairs in memory

In memory a half is a row of slots, one more than the capacity, and loading it overwrites the row in
place: behind the loaded bytes stand a sentinel and what older loads have left there. Every
access to a row is checked. Where an index or a slice leaves its row, a difference would fall
below zero, or a row is larger than a block of memory can be, there is no result. Sizes are words
of 64 bits, so a row for the greatest capacity comes out without any slot.
-/

namespace StreamLexer

/-- The difference, unless it would fall below zero. -/
def minus? (a b : Nat) : Option Nat := if b ≤ a then some (a - b) else none

abbrev Slots := Array Byte

namespace Slots

/-- The greatest word. -/
def maxWord : Nat := 18446744073709551615

/-- How many slots are asked for: the next word, and 0 behind the greatest one. -/
def sizeFor (capacity : Nat) : Nat := if capacity = maxWord then 0 else capacity + 1

def ofSize? (size : Nat) : Option Slots :=
  if size < BufferPair.blockLimit then some (Array.replicate size Byte.sentinel) else none

def slice? (slots : Slots) (i j : Nat) : Option (Array Byte) :=
  if i ≤ j ∧ j ≤ slots.size then some (slots.extract i j) else none

/-- Overwrites the slots from `i` on. -/
def write? (slots : Slots) (i : Nat) (bytes : List Byte) : Option Slots :=
  if i + bytes.length ≤ slots.size then
    some (slots.extract 0 i ++ bytes ++ slots.extract (i + bytes.length) slots.size)
  else none

/-- Loads slots from `len` on until `capacity` of them are loaded or the stream ends, and puts the
sentinel behind them. A failure leaves what was read before it, and no sentinel. -/
def fill? (capacity : Nat) (slots : Slots) (len : Nat) (s : Source) : Option (Except Fault Nat × Slots × Source) :=
  if len < capacity ∧ s.ended = false then
    (slots.slice? len capacity).bind fun room =>
      match _h : s.read room.size with
      | (.ok [], s') => (slots.write? len [Byte.sentinel]).map fun row => (.ok len, row, { s' with ended := true })
      | (.ok (b :: bytes), s') =>
        (slots.write? len (b :: bytes)).bind fun row => fill? capacity row (len + (b :: bytes).length) s'
      | (.error fault, s') => if fault.isFatal then some (.error fault, slots, s') else fill? capacity slots len s'
  else (slots.write? len [Byte.sentinel]).map fun row => (.ok len, row, s)
termination_by s.weight
decreasing_by
  · have := Source.weight_of_read _h; simp only [List.length_cons] at this; omega
  · exact Source.weight_of_read_error _h

end Slots

structure SlotPair where
  capacity : Nat
  halves : Vector Slots 2
  /-- How many bytes each half has loaded. -/
  lens : Vector Nat 2
  /-- The half under the cursor. -/
  active : Nat
  /-- Slot of the first byte of the lexeme under way, in the other half iff `crossed`. -/
  start : Nat
  forward : Nat
  crossed : Bool
  /-- Whether the other half holds the bytes that follow the active one. -/
  preloaded : Bool
  offset : Nat
  source : Source

namespace SlotPair

/-- Loads one half in place. Its count of loaded bytes changes only with success. -/
def fill? (p : SlotPair) (half : Nat) : Option (Except Fault Unit × SlotPair) := do
  let slots ← p.halves[half]?
  match ← slots.fill? p.capacity 0 p.source with
  | (.ok len, row, source) =>
    return (.ok (), { p with
      halves := p.halves.setIfInBounds half row, lens := p.lens.setIfInBounds half len, source })
  | (.error fault, row, source) =>
    return (.error fault, { p with halves := p.halves.setIfInBounds half row, source })

def ofSource? (capacity : Nat) (source : Source) : Option (Except (InputError × Source) SlotPair) :=
  if capacity = 0 then some (.error (.zeroCapacity, source))
  else do
    let row ← Slots.ofSize? (Slots.sizeFor capacity)
    let empty : SlotPair := {
      capacity, source
      halves := #v[row, row], lens := #v[0, 0]
      active := 0, start := 0, forward := 0
      crossed := false, preloaded := false
      offset := 0 }
    match ← empty.fill? 0 with
    | (.ok _, p) => return .ok p
    | (.error fault, p) => return .error (.read fault, p.source)

def length? (p : SlotPair) : Option Nat := do
  if p.crossed then return (← minus? p.capacity p.start) + p.forward
  else minus? p.forward p.start

def enter (p : SlotPair) (next : Nat) : SlotPair :=
  { p with
    active := next
    start := if p.start < p.capacity then p.start else 0
    forward := 0
    crossed := decide (p.start < p.capacity)
    preloaded := false }

def cross? (p : SlotPair) : Option (Except InputError Unit × SlotPair) :=
  if p.crossed then some (.error (.lexemeTooLong p.capacity), p)
  else do
    let next ← minus? 1 p.active
    if p.preloaded then return (.ok (), p.enter next)
    match ← p.fill? next with
    | (.ok _, q) => return (.ok (), q.enter next)
    | (.error fault, q) => return (.error (.read fault), q)

/-- Reads the slot under the cursor; there is no reading at the boundary behind a full half. -/
def look? (p : SlotPair) : Option (Option Reading × SlotPair) := do
  let slots ← p.halves[p.active]?
  let b ← slots[p.forward]?
  if b.isAscii then return (some (.char b), { p with forward := p.forward + 1 })
  if b = Byte.sentinel then
    if p.forward = p.capacity then return (none, p)
    if p.forward = (← p.lens[p.active]?) then return (some .eof, p)
  return (some (.failed (.nonAscii b (p.offset + (← p.length?)))), p)

/-- Reads one slot, behind one boundary at most. -/
def next? (p : SlotPair) : Option (Reading × SlotPair) := do
  match ← p.look? with
  | (some reading, q) => return (reading, q)
  | (none, q) =>
    match ← q.cross? with
    | (.error error, r) => return (.failed error, r)
    | (.ok _, r) =>
      match ← r.look? with
      | (some reading, r') => return (reading, r')
      | (none, _) => none

def pushBack? (p : SlotPair) : Option SlotPair := do
  if p.crossed ∧ p.forward = 0 then
    return { p with
      active := ← minus? 1 p.active
      forward := ← minus? p.capacity 1
      crossed := false
      preloaded := true }
  if p.crossed ∨ p.start < p.forward then return { p with forward := ← minus? p.forward 1 } else none

def lexeme? (p : SlotPair) : Option (Array Byte) := do
  let slots ← p.halves[p.active]?
  if p.crossed then
    let other ← p.halves[← minus? 1 p.active]?
    return (← other.slice? p.start p.capacity) ++ (← slots.slice? 0 p.forward)
  else slots.slice? p.start p.forward

def take? (p : SlotPair) : Option (List Byte × SlotPair) := do
  let length ← p.length?
  let text ← p.lexeme?
  return (text.toList, { p with start := p.forward, crossed := false, offset := p.offset + length })

def perform? (p : SlotPair) : Move → Option (Answer × SlotPair)
  | .next => do
    let (reading, q) ← p.next?
    return (.reading reading, q)
  | .pushBack => do
    if (← p.length?) = 0 then return (.refused, p)
    return (.pushedBack, ← p.pushBack?)
  | .take => do
    let (text, q) ← p.take?
    return (.lexeme text, q)

/-- What a list of moves shows, and where it leads, if no access on the way fails. -/
def walk? (p : SlotPair) : List Move → Option (List Step × SlotPair)
  | [] => some ([], p)
  | move :: moves => do
    let (answer, q) ← p.perform? move
    let length ← q.length?
    let (steps, r) ← q.walk? moves
    return (⟨answer, length, q.offset⟩ :: steps, r)

end SlotPair

end StreamLexer
