import Mathlib.Algebra.Group.Nat.Defs
import StreamLexer.Input.SlotPair
import StreamLexer.Proofs.Persistence

/-!
# The slots of a buffer pair

A pair of slot rows holds a buffer pair: the loaded bytes of the active half stand at the front of its
row with the sentinel behind them, and so do those of the idle half while the lexeme reaches
into it or it is preloaded. At all other times the row of the idle half may hold anything before
its last slot. No access of a walk leaves its row, and the walk shows what the buffer pair shows.
All this takes rows that are there: memory has none of `2 ^ 63` slots or more, and of the greatest
capacity a row without slots is made, which the first load already leaves.
-/

namespace StreamLexer

theorem minus?_eq {a b : Nat} (h : b ≤ a) : minus? a b = some (a - b) := if_pos h

namespace Slots

structure Row (capacity : Nat) (slots : Slots) : Prop where
  size : slots.size = capacity + 1
  boundary : slots[capacity]? = some Byte.sentinel

/-- The bytes of `half` are at the front, and the sentinel is behind them. -/
structure Carries (slots : Slots) (half : Half) : Prop where
  bytes : slots.toList.take half.size = half.toList
  stop : slots[half.size]? = some Byte.sentinel

section
variable {capacity : Nat} {slots : Slots} {half : Half}

theorem Carries.size_lt (h : Carries slots half) : half.size < slots.size :=
  (Array.getElem?_eq_some_iff.mp h.stop).1

theorem Carries.getElem? (h : Carries slots half) {i : Nat} (hi : i ≤ half.size) :
    slots[i]? = some (half.slot i) := by
  rcases Nat.lt_or_eq_of_le hi with hlt | rfl
  · have hget : half.toList[i]? = slots.toList[i]? := by rw [← h.bytes, List.getElem?_take_of_lt hlt]
    rw [Array.getElem?_toList, Array.getElem?_toList] at hget
    rw [← hget, Half.slot, Array.getD_eq_getD_getElem?, Array.getElem?_eq_getElem hlt, Option.getD_some]
  · rw [h.stop, Half.slot, Array.getD_eq_getD_getElem?, Array.getElem?_eq_none (Nat.le_refl _), Option.getD_none]

theorem Carries.slice? (h : Carries slots half) {i j : Nat} (hij : i ≤ j) (hj : j ≤ half.size) :
    slots.slice? i j = some (half.extract i j) := by
  have hlt := h.size_lt
  unfold Slots.slice?
  rw [if_pos ⟨hij, by omega⟩]
  congr 1
  apply Array.toList_inj.mp
  simp only [Array.toList_extract, List.extract_eq_take_drop, ← h.bytes]
  rw [List.drop_take, List.take_take, Nat.min_eq_left (by omega)]

/-! ## Overwriting -/

theorem write?_eq (slots : Slots) (i : Nat) (bytes : List Byte) (h : i + bytes.length ≤ slots.size) :
    ∃ row, slots.write? i bytes = some row ∧
      row.toList = slots.toList.take i ++ bytes ++ slots.toList.drop (i + bytes.length) := by
  refine ⟨_, if_pos h, ?_⟩
  simp only [Array.toList_append, Array.toList_appendList, Array.toList_extract, List.extract_eq_take_drop,
    List.drop_zero, Nat.sub_zero]
  rw [List.take_of_length_le (i := slots.size - (i + bytes.length))]
  simp

theorem Row.write (h : Row capacity slots) (i : Nat) (bytes : List Byte) (hle : i + bytes.length ≤ capacity) :
    ∃ row, slots.write? i bytes = some row ∧ Row capacity row ∧
      row.toList.take (i + bytes.length) = slots.toList.take i ++ bytes := by
  have hsize := h.size
  have hslots : slots.toList.length = slots.size := Array.length_toList
  obtain ⟨row, hrow, hlist⟩ := write?_eq slots i bytes (by omega)
  have hfront : (slots.toList.take i ++ bytes).length = i + bytes.length := by
    simp only [List.length_append, List.length_take, Array.length_toList]
    omega
  have hlen := congrArg List.length hlist
  rw [List.length_append, hfront, List.length_drop, Array.length_toList, hslots] at hlen
  refine ⟨row, hrow, ⟨by omega, ?_⟩, ?_⟩
  · rw [← Array.getElem?_toList, hlist, List.getElem?_append_right (by omega), hfront, List.getElem?_drop,
      Nat.add_sub_cancel' hle, Array.getElem?_toList]
    exact h.boundary
  · rw [hlist, ← hfront, List.take_left]

theorem Row.seal (h : Row capacity slots) (hle : half.size ≤ capacity)
    (hbytes : slots.toList.take half.size = half.toList) :
    ∃ row, slots.write? half.size [Byte.sentinel] = some row ∧ Row capacity row ∧ Carries row half := by
  have hsize := h.size
  obtain ⟨row, hrow, hlist⟩ := write?_eq slots half.size [Byte.sentinel] (by
    simp only [List.length_singleton]; omega)
  rw [hbytes, List.append_assoc, List.singleton_append, List.length_singleton] at hlist
  have hhalf : half.toList.length = half.size := Array.length_toList
  have hlen := congrArg List.length hlist
  rw [List.length_append, List.length_cons, List.length_drop, Array.length_toList, Array.length_toList,
    Array.length_toList] at hlen
  have hstop : row[half.size]? = some Byte.sentinel := by
    rw [← Array.getElem?_toList, hlist, List.getElem?_append_right (by omega), hhalf, Nat.sub_self]
    rfl
  refine ⟨row, hrow, ⟨by omega, ?_⟩, ?_, hstop⟩
  · rcases Nat.lt_or_eq_of_le hle with hlt | heq
    · obtain ⟨k, rfl⟩ : ∃ k, capacity = half.size + (k + 1) := ⟨capacity - half.size - 1, by omega⟩
      rw [← Array.getElem?_toList, hlist, List.getElem?_append_right (by omega), hhalf, Nat.add_sub_cancel_left,
        List.getElem?_cons_succ, List.getElem?_drop, Nat.add_assoc, Nat.add_comm 1 k, Array.getElem?_toList]
      exact h.boundary
    -- the sentinel of a full half is the last slot itself
    · rw [← heq]
      exact hstop
  · rw [hlist, ← hhalf, List.take_left]

/-! ## Loading in place -/

theorem fill?_of_room {len : Nat} {s : Source} (h : Row capacity slots) (hc : len < capacity ∧ s.ended = false) :
    fill? capacity slots len s =
      match s.read (capacity - len) with
      | (.ok [], s') => (slots.write? len [Byte.sentinel]).map fun row => (.ok len, row, { s' with ended := true })
      | (.ok (b :: bytes), s') =>
        (slots.write? len (b :: bytes)).bind fun row => fill? capacity row (len + (b :: bytes).length) s'
      | (.error fault, s') =>
        if fault.isFatal then some (.error fault, slots, s') else fill? capacity slots len s' := by
  have hsize := h.size
  have hroom : (slots.extract len capacity).size = capacity - len := by
    rw [Array.size_extract]; omega
  have hslice : slots.slice? len capacity = some (slots.extract len capacity) :=
    if_pos ⟨Nat.le_of_lt hc.1, by omega⟩
  rw [fill?, if_pos hc, hslice, Option.bind_some]
  split <;> rename_i hr <;> rw [hroom] at hr <;> rw [hr]

/-- Loading a row in place reads what loading a half reads; a success leaves the half in the row, and a
failure leaves the last slot alone. -/
theorem fill?_eq (capacity : Nat) (loaded : Array Byte) (s : Source) : ∀ {slots : Slots}, Row capacity slots →
    loaded.size ≤ capacity → slots.toList.take loaded.size = loaded.toList →
    ∃ row, fill? capacity slots loaded.size s =
        some ((Source.fillFrom capacity loaded s).1.map Array.size, row, (Source.fillFrom capacity loaded s).2) ∧
      Row capacity row ∧ ∀ half, (Source.fillFrom capacity loaded s).1 = .ok half → Carries row half := by
  fun_induction Source.fillFrom capacity loaded s with
  | case1 loaded s hc s' h =>
    intro slots hrow hle hbytes
    obtain ⟨row, hwrite, hrow', hcarries⟩ := hrow.seal hle hbytes
    refine ⟨row, ?_, hrow', ?_⟩
    · rw [fill?_of_room hrow hc, h]
      simp only [hwrite, Option.map_some, Except.map]
    · rintro half ⟨⟩
      exact hcarries
  | case2 loaded s hc b bytes s' h ih =>
    intro slots hrow hle hbytes
    have hlen := Source.length_of_read h
    have hsize : (loaded ++ b :: bytes).size = loaded.size + (b :: bytes).length := by
      simp [← Array.length_toList]
    obtain ⟨row, hwrite, hrow', hbytes'⟩ := hrow.write loaded.size (b :: bytes) (by omega)
    rw [fill?_of_room hrow hc, h]
    simp only [hwrite, Option.bind_some]
    rw [← hsize] at hbytes' ⊢
    apply ih hrow' (by omega)
    rw [hbytes', hbytes, Array.toList_appendList]
  | case3 loaded s hc fault s' h hfatal =>
    intro slots hrow hle hbytes
    refine ⟨slots, ?_, hrow, fun half hok => by cases hok⟩
    rw [fill?_of_room hrow hc, h]
    simp only [hfatal, if_true, Except.map]
  | case4 loaded s hc fault s' h hfatal ih =>
    intro slots hrow hle hbytes
    rw [fill?_of_room hrow hc, h]
    simp only [hfatal]
    exact ih hrow hle hbytes
  | case5 loaded s hc =>
    intro slots hrow hle hbytes
    obtain ⟨row, hwrite, hrow', hcarries⟩ := hrow.seal hle hbytes
    refine ⟨row, ?_, hrow', ?_⟩
    · rw [fill?, if_neg hc, hwrite]
      simp only [Option.map_some, Except.map]
    · rintro half ⟨⟩
      exact hcarries

end

end Slots

/-! ## Two rows hold a buffer pair -/

/-- What keeps the indices of a buffer pair inside its halves. -/
structure BufferPair.Sound (b : BufferPair) : Prop where
  capacity_pos : 0 < b.capacity
  size_le : b.active.size ≤ b.capacity
  forward_le : b.forward ≤ b.active.size
  whole : b.crossed = false → b.start ≤ b.forward
  crossed : b.crossed = true → b.start < b.capacity ∧ b.preloaded = false ∧ b.idle.size = b.capacity
  preloaded : b.preloaded = true → b.active.size = b.capacity ∧ b.idle.size ≤ b.capacity

theorem BufferPair.Mirrors.sound {b : BufferPair} {f : Flat} (h : b.Mirrors f) : b.Sound := by
  obtain ⟨k, h⟩ := h
  refine ⟨h.capacity_pos, h.size_le, h.forward_le, fun hc => (h.whole hc).2, ?_, ?_⟩
  · intro hc
    obtain ⟨hs, hp, _, _, _, _, hsize⟩ := h.crossed hc
    exact ⟨hs, hp, hsize⟩
  · intro hp
    obtain ⟨hsize, hidle, _⟩ := h.preloaded hp
    refine ⟨hsize, ?_⟩
    rw [← Array.length_toList, hidle, block, List.length_take]
    exact Nat.min_le_left _ _

theorem BufferPair.Sound.next_of_boundary {b : BufferPair} (h : b.Sound) (hfw : b.forward = b.capacity) :
    b.next =
      match b.cross with
      | (.ok _, b') => b'.readSlot
      | (.error error, b') => (.failed error, b') := by
  have hend : b.active.size ≤ b.forward := hfw ▸ h.size_le
  have hslot : b.active.slot b.forward = Byte.sentinel := by
    rw [Half.slot, Array.getD_eq_getD_getElem?, Array.getElem?_eq_none hend, Option.getD_none]
  exact if_pos ⟨hslot, hfw⟩

theorem BufferPair.next_of_inside {b : BufferPair} (hfw : b.forward ≠ b.capacity) : b.next = b.readSlot := by
  rw [BufferPair.next, if_neg fun hb => hfw hb.2]

namespace SlotPair

open Slots (Row Carries)

def slots (p : SlotPair) (half : Nat) : Slots := p.halves[half]?.getD #[]

def len (p : SlotPair) (half : Nat) : Nat := p.lens[half]?.getD 0

def bytes (p : SlotPair) (half : Nat) : List Byte := (p.slots half).toList.take (p.len half)

theorem getElem?_halves (p : SlotPair) {i : Nat} (h : i < 2) : p.halves[i]? = some (p.slots i) := by
  rw [slots, Vector.getElem?_eq_getElem h, Option.getD_some]

theorem getElem?_lens (p : SlotPair) {i : Nat} (h : i < 2) : p.lens[i]? = some (p.len i) := by
  rw [len, Vector.getElem?_eq_getElem h, Option.getD_some]

theorem getD_set_self {α : Type} {xs : Vector α 2} {i : Nat} {a d : α} (h : i < 2) :
    (xs.setIfInBounds i a)[i]?.getD d = a := by
  rw [Vector.getElem?_setIfInBounds_self, if_pos h, Option.getD_some]

theorem getD_set_ne {α : Type} {xs : Vector α 2} {i j : Nat} {a d : α} (h : i ≠ j) :
    (xs.setIfInBounds i a)[j]?.getD d = xs[j]?.getD d := by
  rw [Vector.getElem?_setIfInBounds_ne h]

theorem fill?_eq (p : SlotPair) (half : Nat) (hhalf : half < 2) (hrow : Row p.capacity (p.slots half)) :
    ∃ row, Row p.capacity row ∧
      match p.source.fill p.capacity with
      | (.ok loaded, source) => Carries row loaded ∧
          p.fill? half = some (.ok (), { p with
            halves := p.halves.setIfInBounds half row, lens := p.lens.setIfInBounds half loaded.size, source })
      | (.error fault, source) =>
          p.fill? half = some (.error fault, { p with halves := p.halves.setIfInBounds half row, source }) := by
  obtain ⟨row, hfill, hrow', hcarries⟩ :=
    Slots.fill?_eq p.capacity #[] p.source hrow (Nat.zero_le _) List.take_zero
  refine ⟨row, hrow', ?_⟩
  unfold SlotPair.fill?
  rw [p.getElem?_halves hhalf, Option.bind_eq_bind, Option.bind_some]
  rcases hr : p.source.fill p.capacity with ⟨r, source⟩
  rw [← Source.fill, hr] at hfill hcarries
  rw [show Slots.fill? _ _ 0 _ = _ from hfill]
  cases r with
  | error fault => rfl
  | ok loaded => exact ⟨hcarries loaded rfl, rfl⟩

structure Holds (p : SlotPair) (b : BufferPair) : Prop where
  capacity : p.capacity = b.capacity
  active : p.active = b.second.toNat
  start : p.start = b.start
  forward : p.forward = b.forward
  crossed : p.crossed = b.crossed
  preloaded : p.preloaded = b.preloaded
  offset : p.offset = b.offset
  source : p.source = b.source
  rows : ∀ i < 2, Row b.capacity (p.slots i)
  len : p.len p.active = b.active.size
  len_idle : p.len (1 - p.active) = b.idle.size
  front : Carries (p.slots p.active) b.active
  back : b.crossed = true ∨ b.preloaded = true → Carries (p.slots (1 - p.active)) b.idle

theorem look?_inside {p : SlotPair} {slots : Slots} {c : Byte} {len n : Nat} (hslots : p.halves[p.active]? = some slots)
    (hc : slots[p.forward]? = some c) (hne : p.forward ≠ p.capacity) (hlen : p.lens[p.active]? = some len)
    (hn : p.length? = some n) :
    p.look? = some (if c.isAscii then (some (.char c), { p with forward := p.forward + 1 })
      else if c = Byte.sentinel ∧ p.forward = len then (some .eof, p)
      else (some (.failed (.nonAscii c (p.offset + n))), p)) := by
  simp only [look?, hslots, hc, hlen, hn, hne, if_false, Option.bind_eq_bind, Option.bind_some]
  by_cases ha : c.isAscii = true
  · simp [ha]
  · by_cases hs : c = Byte.sentinel
    · by_cases hl : p.forward = len <;> simp [hs, hl, show Byte.isAscii Byte.sentinel = false from by decide]
    · simp [ha, hs]

namespace Holds

variable {p : SlotPair} {b : BufferPair}

theorem active_lt (h : Holds p b) : p.active < 2 := by
  rw [h.active]
  cases b.second <;> decide

theorem minus?_active (h : Holds p b) : minus? 1 p.active = some (1 - p.active) := by
  apply minus?_eq
  have := h.active_lt
  omega

theorem bytes_active (h : Holds p b) : p.bytes p.active = b.active.toList := by
  rw [bytes, h.len, h.front.bytes]

theorem length? (h : Holds p b) (hs : b.Sound) : p.length? = some b.length := by
  simp only [SlotPair.length?, BufferPair.length, h.capacity, h.start, h.forward, h.crossed]
  cases hc : b.crossed with
  | false => simp [minus?_eq (hs.whole hc)]
  | true => simp [minus?_eq (Nat.le_of_lt (hs.crossed hc).1)]

theorem lexeme? (h : Holds p b) (hs : b.Sound) : p.lexeme? = some b.lexeme := by
  have hlt := h.active_lt
  have hfw := hs.forward_le
  simp only [SlotPair.lexeme?, BufferPair.lexeme, h.capacity, h.start, h.forward, h.crossed, p.getElem?_halves hlt,
    h.minus?_active, Option.bind_eq_bind, Option.bind_some]
  cases hc : b.crossed with
  | false => simp [h.front.slice? (hs.whole hc) hfw]
  | true =>
    obtain ⟨hstart, _, hsize⟩ := hs.crossed hc
    have hback := h.back (Or.inl hc)
    have hother : 1 - p.active < 2 := by omega
    simp only [if_true, p.getElem?_halves hother, hback.slice? (Nat.le_of_lt hstart) (Nat.le_of_eq hsize.symm),
      h.front.slice? (Nat.zero_le _) hfw, Option.bind_some]
    rfl

theorem take? (h : Holds p b) (hs : b.Sound) : ∃ q, p.take? = some (b.take.1, q) ∧ Holds q b.take.2 := by
  refine ⟨{ p with start := p.forward, crossed := false, offset := p.offset + b.length }, ?_, ?_⟩
  · simp only [SlotPair.take?, h.length? hs, h.lexeme? hs, Option.bind_eq_bind, Option.bind_some]
    rfl
  · refine { h with start := h.forward, crossed := rfl, offset := ?_, back := ?_ }
    · show p.offset + b.length = b.offset + b.length
      rw [h.offset]
    · rintro (hc | hp)
      · cases hc
      · exact h.back (Or.inr hp)

theorem pushBack? (h : Holds p b) (hs : b.Sound) (hlen : b.length ≠ 0) :
    ∃ q, p.pushBack? = some q ∧ Holds q b.pushBack := by
  have hlt := h.active_lt
  have hother : 1 - (1 - p.active) = p.active := by omega
  have hcap := hs.capacity_pos
  unfold SlotPair.pushBack? BufferPair.pushBack
  by_cases hover : b.crossed = true ∧ b.forward = 0
  · obtain ⟨_, hp, _⟩ := hs.crossed hover.1
    refine ⟨{ p with active := 1 - p.active, forward := p.capacity - 1, crossed := false, preloaded := true }, ?_, ?_⟩
    · simp [h.crossed, h.forward, hover, h.minus?_active, h.capacity, minus?_eq hcap]
    · rw [if_pos hover]
      refine { h with
        active := ?_, forward := ?_, crossed := rfl, preloaded := rfl
        len := h.len_idle, len_idle := ?_, front := h.back (Or.inl hover.1), back := ?_ }
      · show 1 - p.active = (!b.second).toNat
        rw [h.active]
        cases b.second <;> rfl
      · show p.capacity - 1 = b.capacity - 1
        rw [h.capacity]
      · show p.len (1 - (1 - p.active)) = _
        rw [hother]
        exact h.len
      · intro _
        show Carries (p.slots (1 - (1 - p.active))) _
        rw [hother]
        exact h.front
  · have hinside : b.crossed = true ∨ b.start < b.forward := by
      cases hc : b.crossed with
      | true => exact Or.inl rfl
      | false =>
        simp only [BufferPair.length, hc, Bool.false_eq_true, if_false] at hlen
        exact Or.inr (by omega)
    have hpos : 0 < b.forward := by
      rcases hinside with hc | hlt
      · exact Nat.pos_of_ne_zero fun h0 => hover ⟨hc, h0⟩
      · omega
    refine ⟨{ p with forward := p.forward - 1 }, ?_, ?_⟩
    · simp [h.crossed, h.forward, h.start, hover, hinside, minus?_eq hpos]
    · rw [if_neg hover]
      refine { h with forward := ?_ }
      show p.forward - 1 = b.forward - 1
      rw [h.forward]

/-! ## Reading and crossing -/

theorem look?_boundary (h : Holds p b) (hfw : b.forward = b.capacity) : p.look? = some (none, p) := by
  have hsentinel := (h.rows p.active h.active_lt).boundary
  have hascii : Byte.isAscii Byte.sentinel = false := by decide
  simp [SlotPair.look?, p.getElem?_halves h.active_lt, h.forward, hfw, hsentinel, hascii, h.capacity]

theorem look?_slot (h : Holds p b) (hs : b.Sound) (hlt : b.forward < b.capacity) :
    ∃ q, p.look? = some (some b.readSlot.1, q) ∧ Holds q b.readSlot.2 := by
  have hslot := h.front.getElem? hs.forward_le
  have hne : p.forward ≠ p.capacity := by
    rw [h.forward, h.capacity]
    exact Nat.ne_of_lt hlt
  rw [← h.forward] at hslot
  rw [look?_inside (p.getElem?_halves h.active_lt) hslot hne (p.getElem?_lens h.active_lt) (h.length? hs), h.len]
  unfold BufferPair.readSlot
  rw [← h.forward, ← h.offset]
  generalize b.active.slot p.forward = c
  by_cases ha : c.isAscii = true
  · simp only [ha, if_true]
    exact ⟨_, rfl, { h with forward := rfl, offset := rfl }⟩
  · by_cases hend : c = Byte.sentinel ∧ p.forward = b.active.size
    · simp only [ha, if_pos hend]
      exact ⟨p, rfl, h⟩
    · simp only [ha, if_neg hend]
      exact ⟨p, rfl, h⟩

theorem enter (h : Holds p b) (hp : b.preloaded = true) :
    Holds (p.enter (1 - p.active)) (b.enter b.idle b.source) := by
  have hlt := h.active_lt
  have hother : 1 - (1 - p.active) = p.active := by omega
  refine {
    capacity := h.capacity, active := ?_, start := ?_, forward := rfl, crossed := ?_, preloaded := rfl
    offset := h.offset, source := h.source, rows := h.rows, len := h.len_idle, len_idle := ?_
    front := h.back (Or.inr hp), back := ?_ }
  · show 1 - p.active = (!b.second).toNat
    rw [h.active]
    cases b.second <;> rfl
  · simp only [SlotPair.enter, BufferPair.enter, h.start, h.capacity]
  · simp only [SlotPair.enter, BufferPair.enter, h.start, h.capacity]
  · show p.len (1 - (1 - p.active)) = b.active.size
    rw [hother]
    exact h.len
  · intro _
    show Carries (p.slots (1 - (1 - p.active))) b.active
    rw [hother]
    exact h.front

theorem fill? (h : Holds p b) (hc : b.crossed = false) (hp : b.preloaded = false) :
    match b.source.fill b.capacity with
    | (.ok half, source) => ∃ q, p.fill? (1 - p.active) = some (.ok (), q) ∧ q.active = p.active ∧
        Holds { q with preloaded := true } { b with idle := half, source, preloaded := true }
    | (.error fault, source) => ∃ q, p.fill? (1 - p.active) = some (.error fault, q) ∧ Holds q { b with source } := by
  have hlt := h.active_lt
  have hother : 1 - p.active < 2 := by omega
  have hne : 1 - p.active ≠ p.active := by omega
  have hidle := h.rows _ hother
  rw [← h.capacity] at hidle
  obtain ⟨row, hrow, hfill⟩ := p.fill?_eq _ hother hidle
  rw [h.capacity] at hrow
  have hrows : ∀ i < 2, Row b.capacity ((p.halves.setIfInBounds (1 - p.active) row)[i]?.getD #[]) := by
    intro i hi
    by_cases he : 1 - p.active = i
    · rw [← he, getD_set_self hother]
      exact hrow
    · rw [getD_set_ne he]
      exact h.rows i hi
  have hfront : Carries ((p.halves.setIfInBounds (1 - p.active) row)[p.active]?.getD #[]) b.active := by
    rw [getD_set_ne hne]
    exact h.front
  rw [show p.source.fill p.capacity = b.source.fill b.capacity by rw [h.capacity, h.source]] at hfill
  split at hfill
  · obtain ⟨hcarries, hfill⟩ := hfill
    refine ⟨_, hfill, rfl, { h with
      source := rfl, preloaded := rfl, rows := hrows, len := ?_, len_idle := getD_set_self hother
      front := hfront, back := ?_ }⟩
    · show (p.lens.setIfInBounds (1 - p.active) _)[p.active]?.getD 0 = _
      rw [getD_set_ne hne]
      exact h.len
    · intro _
      show Carries ((p.halves.setIfInBounds (1 - p.active) row)[1 - p.active]?.getD #[]) _
      rw [getD_set_self hother]
      exact hcarries
  · refine ⟨_, hfill, { h with source := rfl, rows := hrows, front := hfront, back := ?_ }⟩
    rintro (hcrossed | hpreloaded)
    · exact absurd hcrossed (by simp [hc])
    · exact absurd hpreloaded (by simp [hp])

theorem cross? (h : Holds p b) : ∃ q, p.cross? = some (b.cross.1, q) ∧ Holds q b.cross.2 := by
  unfold SlotPair.cross? BufferPair.cross
  rw [h.crossed, h.preloaded, h.capacity, h.minus?_active]
  by_cases hc : b.crossed = true
  · rw [if_pos hc, if_pos hc]
    exact ⟨p, rfl, h⟩
  · rw [if_neg hc, if_neg hc, Option.bind_eq_bind, Option.bind_some]
    by_cases hp : b.preloaded = true
    · rw [if_pos hp, if_pos hp]
      exact ⟨_, rfl, h.enter hp⟩
    · rw [if_neg hp, if_neg hp]
      have hfill := h.fill? (Bool.eq_false_iff.mpr hc) (Bool.eq_false_iff.mpr hp)
      rcases hr : b.source.fill b.capacity with ⟨fault | half, source⟩ <;> rw [hr] at hfill
      · obtain ⟨q, hq, hq'⟩ := hfill
        rw [hq]
        exact ⟨q, rfl, hq'⟩
      · obtain ⟨q, hq, hactive, hq'⟩ := hfill
        rw [hq]
        refine ⟨q.enter (1 - p.active), rfl, ?_⟩
        rw [← hactive]
        exact hq'.enter rfl

theorem next? (h : Holds p b) {f : Flat} (hm : b.Mirrors f) : ∃ q, p.next? = some (b.next.1, q) ∧ Holds q b.next.2 := by
  have hs := hm.sound
  unfold SlotPair.next?
  by_cases hfw : b.forward = b.capacity
  · rw [h.look?_boundary hfw, hs.next_of_boundary hfw]
    obtain ⟨q, hq, hq'⟩ := h.cross?
    simp only [Option.bind_eq_bind, Option.bind_some, hq]
    rcases hr : b.cross with ⟨r, b'⟩
    rw [hr] at hq'
    cases r with
    | error e => exact ⟨q, rfl, hq'⟩
    | ok u =>
      obtain ⟨k, ht⟩ := hm
      rcases ht.cross hfw with ⟨_, he⟩ | ⟨_, b'', he, ht', h0, hcap, _⟩ | ⟨_, _, _, he, _⟩ <;>
        rw [he] at hr <;> cases hr
      have hroom : b'.forward < b'.capacity := by
        rw [h0, hcap]
        exact hs.capacity_pos
      obtain ⟨q', hlook, hq''⟩ := hq'.look?_slot (BufferPair.Mirrors.sound ⟨_, ht'⟩) hroom
      simp only [hlook, Option.bind_some]
      exact ⟨q', rfl, hq''⟩
  · obtain ⟨q, hlook, hq⟩ := h.look?_slot hs (Nat.lt_of_le_of_ne (Nat.le_trans hs.forward_le hs.size_le) hfw)
    rw [hlook, BufferPair.next_of_inside hfw]
    exact ⟨q, rfl, hq⟩

theorem perform? (h : Holds p b) {f : Flat} (hm : b.Mirrors f) (move : Move) :
    ∃ q, p.perform? move = some ((Cursor.perform b move).1, q) ∧ Holds q (Cursor.perform b move).2 := by
  have hs := hm.sound
  cases move with
  | next =>
    obtain ⟨q, hn, hq⟩ := h.next? hm
    exact ⟨q, by simp only [SlotPair.perform?, hn]; rfl, hq⟩
  | take =>
    obtain ⟨q, ht, hq⟩ := h.take? hs
    exact ⟨q, by simp only [SlotPair.perform?, ht]; rfl, hq⟩
  | pushBack =>
    simp only [SlotPair.perform?, h.length? hs, Option.bind_eq_bind, Option.bind_some, Cursor.perform]
    by_cases hlen : b.length = 0
    · rw [if_pos hlen, if_pos (show Cursor.length b = 0 from hlen)]
      exact ⟨p, rfl, h⟩
    · obtain ⟨q, hb, hq⟩ := h.pushBack? hs hlen
      rw [if_neg hlen, if_neg (show Cursor.length b ≠ 0 from hlen), hb]
      exact ⟨q, rfl, hq⟩

theorem walk? (moves : List Move) : ∀ {p : SlotPair} {b : BufferPair} {f : Flat}, Holds p b → b.Mirrors f →
    ∃ q, p.walk? moves = some ((Cursor.walk b moves).1, q) ∧ Holds q (Cursor.walk b moves).2 := by
  induction moves with
  | nil =>
    intro p b f h _
    exact ⟨p, rfl, h⟩
  | cons move moves ih =>
    intro p b f h hm
    obtain ⟨q, hq, h'⟩ := h.perform? hm move
    obtain ⟨g, hm'⟩ := hm.walk_any [move]
    have hm' : (Cursor.perform b move).2.Mirrors g := hm'
    obtain ⟨r, hr, hr'⟩ := ih h' hm'
    refine ⟨r, ?_, hr'⟩
    simp only [SlotPair.walk?, hq, Option.bind_eq_bind, Option.bind_some, h'.length? hm'.sound, hr, h'.offset]
    rfl

end Holds

/-! ## Memory for the rows -/

theorem ofSize?_of_fits {capacity : Nat} (h : BufferPair.fits capacity = true) :
    Slots.ofSize? (Slots.sizeFor capacity) = some (Array.replicate (capacity + 1) Byte.sentinel) := by
  have hlimit := BufferPair.fits_eq_true_iff.mp h
  have hword : capacity ≠ Slots.maxWord := by
    unfold BufferPair.blockLimit at hlimit
    unfold Slots.maxWord
    omega
  rw [Slots.sizeFor, if_neg hword, Slots.ofSize?, if_pos hlimit]

theorem fill?_of_no_slots {capacity : Nat} (hcap : 0 < capacity) (s : Source) :
    Slots.fill? capacity #[] 0 s = none := by
  rw [Slots.fill?]
  have hslice : Slots.slice? #[] 0 capacity = none := if_neg fun h => Nat.not_le.mpr hcap h.2
  by_cases hc : 0 < capacity ∧ s.ended = false
  · rw [if_pos hc, hslice]
    rfl
  · rw [if_neg hc]
    rfl

theorem ofSource?_of_not_fits {capacity : Nat} (hcap : 0 < capacity) (h : BufferPair.fits capacity = false)
    (source : Source) : ofSource? capacity source = none := by
  have hlimit := Nat.not_lt.mpr (BufferPair.fits_eq_false_iff.mp h)
  rw [ofSource?, if_neg (Nat.ne_of_gt hcap)]
  by_cases hword : capacity = Slots.maxWord
  -- the row has no slots, and the first load is to fill a slice of it
  · have hrow : Slots.ofSize? (Slots.sizeFor capacity) = some #[] := by rw [hword]; rfl
    have hhalf : (#v[#[], #[]] : Vector Slots 2)[0]? = some #[] := rfl
    simp only [hrow, Option.bind_eq_bind, Option.bind_some, fill?, hhalf, fill?_of_no_slots hcap, Option.bind_none]
  · have hrow : Slots.ofSize? (Slots.sizeFor capacity) = none := by
      rw [Slots.sizeFor, if_neg hword, Slots.ofSize?, if_neg hlimit]
    rw [hrow]
    rfl

theorem fits_of_ofSource? {capacity : Nat} {source : Source} {made : Except (InputError × Source) SlotPair}
    (h : ofSource? capacity source = some made) : BufferPair.fits capacity = true := by
  cases hfits : BufferPair.fits capacity with
  | true => rfl
  | false =>
    cases capacity with
    | zero => cases hfits
    | succ n =>
      rw [ofSource?_of_not_fits n.succ_pos hfits] at h
      cases h

theorem holds_ofSource {capacity : Nat} (hfits : BufferPair.fits capacity = true) (source : Source) :
    match BufferPair.ofSource capacity source with
    | .ok b => ∃ p, ofSource? capacity source = some (.ok p) ∧ Holds p b
    | .error e => ofSource? capacity source = some (.error e) := by
  unfold BufferPair.ofSource ofSource?
  by_cases hcap : capacity = 0
  · rw [if_pos hcap, if_pos hcap]
  · rw [if_neg hcap, if_neg hcap, ofSize?_of_fits hfits, Option.bind_eq_bind, Option.bind_some]
    have hempty : Row capacity (Array.replicate (capacity + 1) Byte.sentinel) :=
      ⟨Array.size_replicate, by simp⟩
    generalize hp : SlotPair.mk capacity
      #v[Array.replicate (capacity + 1) Byte.sentinel, Array.replicate (capacity + 1) Byte.sentinel]
      #v[0, 0] 0 0 0 false false 0 source = p
    obtain ⟨row, hrow, hfill⟩ := p.fill?_eq 0 (by decide) (by rw [← hp]; exact hempty)
    have hsource : p.source.fill p.capacity = source.fill capacity := by rw [← hp]
    rw [hsource] at hfill
    rcases hr : source.fill capacity with ⟨fault | half, rest⟩ <;> rw [hr] at hfill
    · simp only [hfill]
      rfl
    · obtain ⟨hcarries, hfill⟩ := hfill
      simp only [hfill]
      refine ⟨_, rfl, ?_⟩
      subst hp
      refine {
        capacity := rfl, active := rfl, start := rfl, forward := rfl, crossed := rfl, preloaded := rfl, offset := rfl
        source := rfl, rows := ?_, len := rfl, len_idle := rfl, front := hcarries, back := ?_ }
      · intro i hi
        rcases (by omega : i = 0 ∨ i = 1) with rfl | rfl
        · exact hrow
        · exact hempty
      · rintro (hc | hp) <;> contradiction

/-! ## The layout of every state -/

/-- How a pair that was made over `source` lies in memory. -/
structure Layout (capacity : Nat) (source : Source) (p : SlotPair) : Prop where
  capacity_eq : p.capacity = capacity
  active_lt : p.active < 2
  size : ∀ i < 2, (p.slots i).size = capacity + 1
  forward_le : p.forward ≤ p.len p.active
  len_le : p.len p.active ≤ capacity
  boundary : ∀ i < 2, (p.slots i)[capacity]? = some Byte.sentinel
  stop : (p.slots p.active)[p.len p.active]? = some Byte.sentinel
  crossed : p.crossed = true → p.start < capacity ∧ p.len (1 - p.active) = capacity ∧ p.preloaded = false
  whole : p.crossed = false → p.start ≤ p.forward
  preloaded : p.preloaded = true → p.len p.active = capacity
  /-- What the completed fills have loaded ends with the active half, and with the other one behind it
  if that is preloaded. -/
  loaded : ∃ k front, p.source = (source.fills capacity k).2 ∧
    (source.fills capacity k).1 =
      front ++ p.bytes p.active ++ (if p.preloaded then p.bytes (1 - p.active) else []) ∧
    ∃ n, p.length? = some n ∧ front.length + p.forward = p.offset + n
  lexeme : ∃ text, p.lexeme? = some text ∧ p.length? = some text.size ∧ text.size ≤ 2 * capacity ∧
    ∀ b ∈ text.toList, b.isAscii = true

theorem Holds.layout {p : SlotPair} {b : BufferPair} {f : Flat} {source : Source} (h : Holds p b)
    (hr : b.Rides source f) : Layout b.capacity source p := by
  have hs := hr.mirrors.sound
  have hlen := h.length? hs
  obtain ⟨k, front, hk, hloaded, hcursor⟩ := hr.halves
  obtain ⟨hsize, hascii⟩ := hr.lexeme
  refine {
    capacity_eq := h.capacity
    active_lt := h.active_lt
    size := fun i hi => (h.rows i hi).size
    forward_le := by rw [h.forward, h.len]; exact hs.forward_le
    len_le := by rw [h.len]; exact hs.size_le
    boundary := fun i hi => (h.rows i hi).boundary
    stop := by rw [h.len]; exact h.front.stop
    crossed := ?_
    whole := by rw [h.crossed, h.start, h.forward]; exact hs.whole
    preloaded := by rw [h.preloaded, h.len]; exact fun hp => (hs.preloaded hp).1
    loaded := ⟨k, front, h.source.trans hk, ?_, b.length, hlen, ?_⟩
    lexeme := ⟨b.lexeme, h.lexeme? hs, by rw [hlen, hsize], ?_, hascii⟩ }
  · rw [h.crossed, h.start, h.len_idle, h.preloaded]
    intro hc
    obtain ⟨hstart, hp, hidle⟩ := hs.crossed hc
    exact ⟨hstart, hidle, hp⟩
  · rw [hloaded, h.bytes_active, h.preloaded]
    by_cases hp : b.preloaded = true
    · have hback : p.bytes (1 - p.active) = b.idle.toList := by rw [bytes, h.len_idle, (h.back (Or.inr hp)).bytes]
      rw [hback]
    · rw [if_neg hp, if_neg hp]
  · rw [h.forward, h.offset]
    exact hcursor
  · have hforward := hs.forward_le
    have hle := hs.size_le
    rw [hsize, BufferPair.length]
    split <;> omega

/-- Where memory can hold the rows, any moves over any source are made without an access that fails, they
show what the buffer pair shows, and the state they lead to is laid out as it should be; no lexeme has a
sentinel in it. Where it cannot, no pair is made. -/
theorem walk_keeps_layout (capacity : Nat) (source : Source) (hcap : 0 < capacity) :
    (capacity + 1 < 2 ^ 63 →
      match ofSource? capacity source with
      | none => False
      | some (.error (e, _)) => ∃ fault ∈ source.fatals.head?, e = .read fault
      | some (.ok p) =>
        ∃ b, BufferPair.ofSource capacity source = .ok b ∧
          ∀ moves, ∃ steps q, p.walk? moves = some (steps, q) ∧ steps = (Cursor.walk b moves).1 ∧
            Layout capacity source q ∧
            ∀ step ∈ steps, ∀ text, step.answer = .lexeme text → Byte.sentinel ∉ text) ∧
      (2 ^ 63 ≤ capacity + 1 → ofSource? capacity source = none) := by
  refine ⟨fun hlt => ?_, fun hle => ?_⟩
  · have hmade := holds_ofSource (BufferPair.fits_eq_true_iff.mpr hlt) source
    rcases hb : BufferPair.ofSource capacity source with ⟨e, rest⟩ | b <;> rw [hb] at hmade
    · rw [hmade]
      exact BufferPair.ofSource_eq_error hcap hb
    · obtain ⟨p, hp, hholds⟩ := hmade
      rw [hp]
      refine ⟨b, rfl, fun moves => ?_⟩
      have hrides := BufferPair.Rides.ofSource hb
      obtain ⟨q, hq, hholds'⟩ := hholds.walk? moves hrides.mirrors
      obtain ⟨g, hg⟩ := hrides.walk moves
      refine ⟨_, q, hq, rfl, ?_, ?_⟩
      · have hlayout := hholds'.layout hg
        rwa [b.capacity_walk moves, (BufferPair.Mirrors.ofSource hb).2.1] at hlayout
      · intro step hstep text htext hmem
        exact absurd (hrides.lexemes moves step hstep text htext _ hmem) (by decide)
  · exact ofSource?_of_not_fits hcap (BufferPair.fits_eq_false_iff.mpr hle) source

theorem walk_keeps_layout_past_fault :
    let source : Source := .ofEvents [.data [97, 98, 99], .fail ⟨.other, "gone"⟩, .data [100, 101]] none
    0 < 2 ∧ ofSource? 18446744073709551615 source = none ∧ ∃ p steps q, ofSource? 2 source = some (.ok p) ∧
      p.walk? [.next, .next, .next, .next, .pushBack, .pushBack] = some (steps, q) ∧ q.preloaded = true ∧
      Layout 2 source q := by
  intro source
  have hkept := (walk_keeps_layout 2 source (by decide)).1 (by decide)
  have hrun : ((ofSource? 2 source).bind fun made => made.toOption.bind fun p =>
      (p.walk? [.next, .next, .next, .next, .pushBack, .pushBack]).map fun r => r.2.preloaded) = some true := by
    decide +kernel
  refine ⟨by decide, (walk_keeps_layout _ source (by decide)).2 (by decide), ?_⟩
  split at hkept <;> rename_i hmade <;> rw [hmade] at hrun
  · cases hrun
  · cases hrun
  · rename_i p
    obtain ⟨b, _, hwalk⟩ := hkept
    obtain ⟨steps, q, hq, _, hlayout, _⟩ := hwalk [.next, .next, .next, .next, .pushBack, .pushBack]
    refine ⟨p, steps, q, hmade, hq, ?_, hlayout⟩
    simpa [Except.toOption, hq] using hrun

/-- The row for the greatest capacity has no slot, so there is no slice to load the first byte into. -/
theorem no_slots_at_greatest_capacity :
    Slots.ofSize? (Slots.sizeFor 18446744073709551615) = some #[] ∧
      Slots.slice? #[] 0 18446744073709551615 = none ∧
      (ofSource? 18446744073709551615 (.ofBytes [97])).isNone = true := by
  decide +kernel

end SlotPair

end StreamLexer
