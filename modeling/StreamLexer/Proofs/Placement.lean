import StreamLexer.Proofs.Alphabet
import StreamLexer.Proofs.Buffering
import StreamLexer.Proofs.LineColumn
import StreamLexer.Proofs.Loading

/-!
# Positions are those of the stream

A lexer over halves moves its position lexeme by lexeme, and a run of layout in several pieces. At
every moment the position is that of the lexeme under way, counted over all bytes before it. So are
the starts of the tokens, and the places of the errors: these are reached by a shift, which is right
because no number has a line feed in it.
-/

namespace StreamLexer

theorem take_append_extract (data : List Byte) {i j : Nat} (h : i ≤ j) :
    data.take i ++ (data.toArray.extract i j).toList = data.take j := by
  have hj : i + (j - i) = j := by omega
  rw [List.extract_toArray, List.extract_eq_take_drop, ← List.take_add, hj]

theorem Flat.data_of_next {f f' : Flat} {b : Byte} (h : f.next = (.char b, f')) : f.data[f.pos]? = some b := by
  unfold next at h
  split at h
  · cases h
  · split at h
    · cases h
    · rename_i c hc
      split at h <;> cases h
      exact hc

theorem Flat.pos_of_eof {f f' : Flat} (h : f.next = (.eof, f')) : f.data.size ≤ f.pos := by
  unfold next at h
  split at h
  · cases h
  · split at h
    · rename_i hn
      exact Array.getElem?_eq_none_iff.mp hn
    · split at h <;> cases h

namespace BufferPair

/-- The pair stands where `f` does in the stream of `source`, all bytes up to there were loaded, and
`here` is the position of the lexeme under way. -/
structure Placed (capacity : Nat) (source : Source) (p : BufferPair) (f : Flat) (here : Position) : Prop where
  mirrors : p.Mirrors f
  data : f.data = source.pending.toArray
  loaded : p.Loaded capacity source f.pos
  here : here = .behind (source.pending.take f.start)

section
variable {capacity : Nat} {source : Source} {p p' : BufferPair} {f : Flat} {here : Position}

theorem HasLoaded.mono {o o' : Nat} (h : p.HasLoaded capacity source o) (hle : o' ≤ o) :
    p.HasLoaded capacity source o' := by
  obtain ⟨k, hk, hfront, ho⟩ := h
  exact ⟨k, hk, hfront, Nat.le_trans hle ho⟩

theorem Placed.of_loaded {o : Nat} (hm : p.Mirrors f) (hd : f.data = source.pending.toArray)
    (hl : p.Loaded capacity source o) (hh : here = .behind (source.pending.take f.start)) :
    p.Placed capacity source f here :=
  ⟨hm, hd, hl.upTo hm (by rw [hd, List.size_toArray]), hh⟩

theorem Placed.pos_le (h : p.Placed capacity source f here) : f.pos ≤ source.pending.length := by
  have hle := h.mirrors.pos_le
  rwa [h.data, List.size_toArray] at hle

theorem Placed.next (h : p.Placed capacity source f here) :
    (p.next.1 = f.next.1 ∧ p.next.2.Mirrors f.next.2) ∨
      ∃ fault rest, p.next = (.failed (.read fault), { p with source := rest }) := by
  rcases h.mirrors.next with ⟨hr, hm, _⟩ | ⟨fault, rest, hn, _⟩
  · exact Or.inl ⟨hr, hm⟩
  · exact Or.inr ⟨fault, rest, hn⟩

theorem Placed.read (h : p.Placed capacity source f here) {r : Reading} (hr : ∀ e, r ≠ .failed e)
    (hn : p.next = (r, p')) : f.next.1 = r ∧ p'.Placed capacity source f.next.2 here := by
  have hl := h.loaded.next
  obtain ⟨hstart, hdata⟩ := f.next_keeps
  rcases h.next with ⟨hr', hm⟩ | ⟨fault, rest, hn'⟩
  · rw [hn] at hr' hm hl
    have hl : p'.Loaded capacity source f.pos := by
      cases r with
      | failed e => exact absurd rfl (hr e)
      | char b => exact hl
      | eof => exact hl
    refine ⟨hr'.symm, .of_loaded hm (hdata.trans h.data) hl ?_⟩
    rw [hstart]
    exact h.here
  · rw [hn'] at hn
    cases hn
    exact absurd rfl (hr _)

theorem Placed.read_failed (h : p.Placed capacity source f here) {e : InputError} (hn : p.next = (.failed e, p')) :
    p'.HasLoaded capacity source p'.offset ∧ p'.offset = f.start := by
  have hl := h.loaded.next
  rw [hn] at hl
  have ho : p'.offset = f.start := by
    rcases h.next with ⟨_, hm⟩ | ⟨fault, rest, hn'⟩
    · rw [hn] at hm
      exact hm.offset_eq.trans f.next_keeps.1
    · rw [hn'] at hn
      cases hn
      exact h.mirrors.offset_eq
  have hl : p'.HasLoaded capacity source f.pos := hl
  exact ⟨hl.mono (by rw [ho]; exact h.mirrors.start_le), ho⟩

theorem Placed.char (h : p.Placed capacity source f here) {b : Byte} (hn : p.next = (.char b, p')) :
    source.pending[f.pos]? = some b ∧ p'.Placed capacity source { f with pos := f.pos + 1 } here := by
  obtain ⟨hr, hp'⟩ := h.read (fun e => by simp) hn
  have hf : f.next = (.char b, f.next.2) := Prod.ext hr rfl
  have hb := Flat.data_of_next hf
  rw [h.data, List.getElem?_toArray] at hb
  rw [(Flat.next_eq_char hf).2] at hp'
  exact ⟨hb, hp'⟩

theorem Placed.eof (h : p.Placed capacity source f here) (hn : p.next = (.eof, p')) :
    f.pos = source.pending.length ∧ p'.Placed capacity source f here := by
  obtain ⟨hr, hp'⟩ := h.read (fun e => by simp) hn
  have hf : f.next = (.eof, f.next.2) := Prod.ext hr rfl
  have hge := Flat.pos_of_eof hf
  rw [h.data, List.size_toArray] at hge
  rw [Flat.next_eq_eof hf] at hp'
  exact ⟨Nat.le_antisymm h.pos_le hge, hp'⟩

theorem Placed.pushBack (h : p.Placed capacity source f here) (hlt : f.start < f.pos) :
    p.pushBack.Placed capacity source f.pushBack here :=
  .of_loaded (h.mirrors.pushBack hlt).1 h.data h.loaded.pushBack h.here

theorem Placed.take (h : p.Placed capacity source f here) :
    p.take.2.Placed capacity source { f with start := f.pos } (here.advance p.take.1) := by
  obtain ⟨hbytes, hm⟩ := h.mirrors.take
  have hl : p.take.2.Loaded capacity source f.pos := h.loaded
  refine .of_loaded hm h.data hl ?_
  rw [hbytes, h.here, Position.advance_behind]
  show Position.behind (_ ++ (f.data.extract f.start f.pos).toList) = _
  rw [h.data, take_append_extract _ h.mirrors.start_le]

end

def AtStart (capacity : Nat) (source : Source) (p : BufferPair) (here : Position) : Prop :=
  ∃ f, p.Placed capacity source f here ∧ f.start = f.pos

/-- The position of a pair that may stop anywhere, also where its source has failed. -/
def AtOffset (capacity : Nat) (source : Source) (p : BufferPair) (here : Position) : Prop :=
  p.HasLoaded capacity source p.offset ∧ here = .behind (source.pending.take p.offset)

/-- Every move of a scan keeps the position right, and a failure of the source does too. -/
theorem respected_placed (capacity : Nat) (source : Source) :
    Lexer.Respected (AtStart capacity source) (fun p here => ∃ f, Placed capacity source p f here)
      (AtOffset capacity source) where
  begin := fun ⟨f, h, _⟩ => ⟨f, h⟩
  char := by
    rintro s s' b here ⟨f, h⟩ hn
    have hs' := (h.char hn).2
    have hle := h.mirrors.start_le
    exact ⟨⟨_, hs'⟩, _, hs'.pushBack (Nat.lt_succ_of_le hle)⟩
  eof := fun ⟨f, h⟩ hn => ⟨f, (h.eof hn).2⟩
  atEnd := fun ⟨f, h, hrest⟩ hn => ⟨f, (h.eof hn).2, hrest⟩
  failed := by
    rintro s s' e here ⟨f, h⟩ hn
    obtain ⟨hl, ho⟩ := h.read_failed hn
    exact ⟨hl, by rw [ho]; exact h.here⟩
  take := fun ⟨f, h⟩ => ⟨_, h.take, rfl⟩
  stop := by
    rintro s here ⟨f, h⟩
    have ho : s.offset = f.start := h.mirrors.offset_eq
    exact ⟨h.loaded.hasLoaded.mono (by rw [ho]; exact h.mirrors.start_le), by rw [ho]; exact h.here⟩

/-! ## Places on one line -/

def OnOneLine (capacity : Nat) (source : Source) (here : Position) (p : BufferPair) : Prop :=
  ∃ f, p.Placed capacity source f here ∧ '\n'.toUInt8 ∉ (source.pending.toArray.extract f.start f.pos).toList

section
variable {capacity : Nat} {source : Source} {p p' : BufferPair} {here : Position} {b : Byte}

theorem OnOneLine.char (h : p.OnOneLine capacity source here) (hn : p.next = (.char b, p')) (hb : b ≠ '\n'.toUInt8) :
    p'.OnOneLine capacity source here := by
  obtain ⟨f, hf, hline⟩ := h
  obtain ⟨hget, hp'⟩ := hf.char hn
  have hle := hf.mirrors.start_le
  have hone : (source.pending.toArray.extract f.pos (f.pos + 1)).toList = [b] := by
    obtain ⟨hlt, rfl⟩ := List.getElem?_eq_some_iff.mp hget
    rw [List.extract_toArray, List.extract_eq_take_drop, Nat.add_sub_cancel_left, List.drop_eq_getElem_cons hlt]
    rfl
  refine ⟨_, hp', ?_⟩
  show _ ∉ (source.pending.toArray.extract f.start (f.pos + 1)).toList
  rw [extract_append _ hle (Nat.le_succ f.pos), hone, List.mem_append, List.mem_singleton]
  rintro (hmem | hmem)
  · exact hline hmem
  · exact hb hmem.symm

theorem shift_eq {f : Flat} (hf : p.Placed capacity source f here)
    (hline : '\n'.toUInt8 ∉ (source.pending.toArray.extract f.start f.pos).toList) :
    here.shift (f.pos - f.start) = .behind (source.pending.take f.pos) := by
  have hpos := hf.pos_le
  have hlen : (source.pending.toArray.extract f.start f.pos).toList.length = f.pos - f.start := by
    simp only [Array.length_toList, Array.size_extract, List.size_toArray]
    omega
  rw [hf.here, ← hlen, ← Position.advance_of_not_mem hline, Position.advance_behind,
    take_append_extract _ hf.mirrors.start_le]

theorem OnOneLine.found (h : p.OnOneLine capacity source here) (hn : p.next = (.char b, p')) :
    ∃ o, source.pending[o]? = some b ∧ p'.Loaded capacity source (o + 1) ∧
      here.shift (p'.length - 1) = .behind (source.pending.take o) := by
  obtain ⟨f, hf, hline⟩ := h
  obtain ⟨hget, hp'⟩ := hf.char hn
  have hlen : p'.length = f.pos + 1 - f.start := hp'.mirrors.length_eq
  have hle := hf.mirrors.start_le
  refine ⟨f.pos, hget, hp'.loaded, ?_⟩
  rw [← shift_eq hf hline, hlen, show f.pos + 1 - f.start - 1 = f.pos - f.start by omega]

theorem OnOneLine.ended (h : p.OnOneLine capacity source here) (hn : p.next = (.eof, p')) :
    p'.Loaded capacity source source.pending.length ∧ here.shift p'.length = .behind source.pending := by
  obtain ⟨f, hf, hline⟩ := h
  obtain ⟨hend, hp'⟩ := hf.eof hn
  have hlen : p'.length = f.pos - f.start := hp'.mirrors.length_eq
  have hl := hp'.loaded
  rw [hend] at hl
  refine ⟨hl, ?_⟩
  rw [hlen, shift_eq hf hline, hend, List.take_length]

end

end BufferPair

namespace Lexer

/-! ## Errors that have a place -/

section
variable {σ : Type} [Cursor σ] {l l' : Lexer σ} {e : LexError} {place : Position}

theorem scanNumber_of_position? (h : l.scanNumber = (.error e, l')) (hp : e.position? = some place) :
    ∃ want q s, l' = l.moveTo s ∧
      ((∃ b, Cursor.run NumberState.step .integer l.cursor = (.char q b, s) ∧
          e = .unexpectedChar (.ofUInt8 b) want (l.position.shift (Cursor.length s - 1))) ∨
        (Cursor.run NumberState.step .integer l.cursor = (.eof q, s) ∧
          e = .unexpectedEof want (l.position.shift (Cursor.length s)))) := by
  unfold scanNumber at h
  split at h
  · rename_i q b s hr
    split at h <;> cases h
    exact ⟨_, q, s, rfl, Or.inl ⟨b, hr, rfl⟩⟩
  · rename_i q s hr
    split at h <;> cases h
    exact ⟨_, q, s, rfl, Or.inr ⟨hr, rfl⟩⟩
  · cases h
    cases hp

theorem scan_of_position? (h : l.scan = (.error e, l')) (hp : e.position? = some place) :
    ∃ b s, Cursor.next l.cursor = (.char b, s) ∧
      ((e = .unexpectedChar (.ofUInt8 b) tokenStart l.position ∧ l' = l.moveTo s) ∨
        (b.isDigit = true ∧ (l.moveTo s).scanNumber = (.error e, l'))) := by
  unfold scan at h
  split at h
  · rename_i b s hn
    refine ⟨b, s, hn, ?_⟩
    split at h
    · rw [(plain_scanWord _).error h] at hp
      cases hp
    · split at h
      · exact Or.inr ⟨‹_›, h⟩
      · split at h
        · rw [(plain_scanLayout _).error h] at hp
          cases hp
        · split at h
          · rw [(plain_scanOperator _ _).error h] at hp
            cases hp
          · cases h
            exact Or.inl ⟨rfl, rfl⟩
  · cases h
  · cases h
    cases hp

end

/-- The position that an answer shows is that of the byte it speaks of, among `data`. -/
def Points (data : List Byte) : Except LexError Located → Prop
  | .ok row => row.start.offset ≤ data.length ∧ row.start = .behind (data.take row.start.offset)
  | .error (.unexpectedChar found _ place) =>
    place = .behind (data.take place.offset) ∧ ∃ b, data[place.offset]? = some b ∧ found = .ofUInt8 b
  | .error (.unexpectedEof _ place) => place = .behind data
  | .error _ => True

/-- The answer points into the stream of `source`, and into every front of it that has `o` bytes. -/
def PointsInto (source : Source) (o : Nat) (r : Except LexError Located) : Prop :=
  ∀ data, data <+: source.pending → o ≤ data.length → Points data r

section
variable {source : Source} {o : Nat}

theorem behind_take_of_front {data : List Byte} (h : data <+: source.pending) (hle : o ≤ data.length) :
    Position.behind (source.pending.take o) = .behind (data.take o) ∧
      (Position.behind (source.pending.take o)).offset = o := by
  obtain ⟨more, hmore⟩ := h
  have htake : source.pending.take o = data.take o := by
    rw [← hmore, List.take_append_of_le_length hle]
  refine ⟨by rw [htake], ?_⟩
  rw [htake]
  exact List.length_take_of_le hle

theorem pointsInto_row (t : Token) : PointsInto source o (.ok ⟨t, .behind (source.pending.take o)⟩) := by
  intro data hd hle
  obtain ⟨htake, ho⟩ := behind_take_of_front hd hle
  exact ⟨by rw [ho]; exact hle, by rw [ho]; exact htake⟩

theorem pointsInto_unexpectedChar {b : Byte} (want : Expectation) (hb : source.pending[o]? = some b) :
    PointsInto source (o + 1)
      (.error (.unexpectedChar (.ofUInt8 b) want (.behind (source.pending.take o)))) := by
  intro data hd hle
  obtain ⟨htake, ho⟩ := behind_take_of_front hd (Nat.le_of_succ_le hle)
  refine ⟨by rw [ho]; exact htake, b, ?_, rfl⟩
  obtain ⟨more, hmore⟩ := hd
  rw [← hmore, List.getElem?_append_left hle] at hb
  rw [ho]
  exact hb

theorem pointsInto_unexpectedEof (want : Expectation) :
    PointsInto source source.pending.length (.error (.unexpectedEof want (.behind source.pending))) := by
  intro data hd hle
  show Position.behind source.pending = .behind data
  rw [hd.eq_of_length_le hle]

end

section
variable {capacity : Nat} {source : Source} {l l' : Lexer BufferPair} {e : LexError} {place : Position}

theorem pointsInto_of_scanNumber (h : l.cursor.OnOneLine capacity source l.position)
    (hr : l.scanNumber = (.error e, l')) (hp : e.position? = some place) :
    ∃ o, l'.cursor.HasLoaded capacity source o ∧ PointsInto source o (.error e) := by
  obtain ⟨want, q, s, rfl, hhalt⟩ := scanNumber_of_position? hr hp
  -- the bytes of a number keep it on its line, up to the reading that ends it
  obtain ⟨s₀, hs₀, hn⟩ := run_ends NumberState.step (R := BufferPair.OnOneLine capacity source l.position)
    (fun hs hn hstep => hs.char hn (NumberState.ne_newline_of_step hstep)) .integer h
  rcases hhalt with ⟨b, hrun, rfl⟩ | ⟨hrun, rfl⟩ <;> rw [hrun] at hn
  · obtain ⟨o, hb, hl, hplace⟩ := hs₀.found hn
    refine ⟨o + 1, hl.hasLoaded, ?_⟩
    rw [show Cursor.length s = s.length from rfl, hplace]
    exact pointsInto_unexpectedChar want hb
  · obtain ⟨hl, hplace⟩ := hs₀.ended hn
    refine ⟨_, hl.hasLoaded, ?_⟩
    rw [show Cursor.length s = s.length from rfl, hplace]
    exact pointsInto_unexpectedEof want

theorem pointsInto_of_scan (h : l.cursor.AtStart capacity source l.position) (hr : l.scan = (.error e, l'))
    (hp : e.position? = some place) :
    ∃ o, l'.cursor.HasLoaded capacity source o ∧ PointsInto source o (.error e) := by
  obtain ⟨f, hf, hrest⟩ := h
  obtain ⟨b, s, hn, hcase⟩ := scan_of_position? hr hp
  rcases hcase with ⟨rfl, rfl⟩ | ⟨hdigit, hnumber⟩
  · obtain ⟨hb, hs⟩ := hf.char hn
    refine ⟨f.pos + 1, hs.loaded.hasLoaded, ?_⟩
    rw [hf.here, hrest]
    exact pointsInto_unexpectedChar _ hb
  · refine pointsInto_of_scanNumber (l := l.moveTo s) ?_ hnumber hp
    have hline : l.cursor.OnOneLine capacity source l.position := ⟨f, hf, by rw [hrest]; simp⟩
    refine hline.char hn ?_
    rintro rfl
    exact absurd hdigit (by decide)

theorem pointsInto_of_call (h : l.poisoned = false → l.cursor.AtStart capacity source l.position)
    (he : l.cursor.AtOffset capacity source l.position) :
    ∃ o, (l.nextLocated.2.poisoned = false → l.nextLocated.2.cursor.Loaded capacity source o) ∧
      l.nextLocated.2.cursor.HasLoaded capacity source o ∧ PointsInto source o l.nextLocated.1 := by
  have hafter := (BufferPair.respected_placed capacity source).nextLocated l h he
  cases hp : l.poisoned with
  | true =>
    rw [nextLocated_of_poisoned hp]
    refine ⟨_, fun hp' => ?_, he.1, fun _ _ _ => trivial⟩
    rw [hp] at hp'
    cases hp'
  | false =>
    obtain ⟨f, hf, hrest⟩ := h hp
    have hloaded := (BufferPair.respected_loaded capacity source f.pos).nextLocated l
      (fun _ => hf.loaded) hf.loaded.hasLoaded
    have hn := nextLocated_of_scan hp
    rcases hs : l.scan with ⟨r, l'⟩
    rw [hs] at hn
    cases r with
    | ok t =>
      refine ⟨f.pos, hloaded.1, hloaded.2, ?_⟩
      rw [hn, hf.here, hrest]
      exact pointsInto_row t
    | error e =>
      rw [hn] at hafter ⊢
      cases hplace : e.position? with
      | none =>
        refine ⟨_, fun hp' => (by cases hp'), hafter.2.1, fun data _ _ => ?_⟩
        cases e with
        | unexpectedChar => cases hplace
        | unexpectedEof => cases hplace
        | _ => trivial
      | some place =>
        obtain ⟨o, hl, hpoints⟩ := pointsInto_of_scan (h hp) hs hplace
        exact ⟨o, fun hp' => (by cases hp'), hl, hpoints⟩

end

section
variable {capacity : Nat} {source : Source} {l : Lexer BufferPair} (h : ofSource capacity source = .ok l)
include h

theorem atStart_ofSource : l.cursor.AtStart capacity source l.position := by
  obtain ⟨p, hp, rfl⟩ := ofSource_eq_ok h
  obtain ⟨hm, _⟩ := BufferPair.Mirrors.ofSource hp
  exact ⟨_, .of_loaded hm rfl (BufferPair.loaded_ofSource hp) rfl, rfl⟩

theorem placed_after (n : Nat) :
    ((l.after n).poisoned = false → (l.after n).cursor.AtStart capacity source (l.after n).position) ∧
      (l.after n).cursor.AtOffset capacity source (l.after n).position := by
  have hl := atStart_ofSource h
  have hresp := BufferPair.respected_placed capacity source
  exact hresp.after l (fun _ => hl) (hresp.stop (hresp.begin hl)) n

theorem result_pointsInto {j n : Nat} (hlt : j < n) :
    ∃ o, (l.after n).cursor.HasLoaded capacity source o ∧ PointsInto source o (l.result j) := by
  obtain ⟨hat, hoff⟩ := placed_after h j
  obtain ⟨o, hloaded, hhas, hpoints⟩ := pointsInto_of_call hat hoff
  have hlater := (BufferPair.respected_loaded capacity source o).after (l.after (j + 1)) hloaded hhas (n - (j + 1))
  rw [after_after, Nat.add_sub_cancel' hlt] at hlater
  exact ⟨o, hlater.2, hpoints⟩

end

/-- After any number of calls, over any source, the position of the lexer is the one behind all loaded
bytes before the lexeme under way, also where the lexer has failed; and all that was shown before
points into the loaded bytes: the starts of tokens, the places of unexpected characters, and the end
of the input where it was unexpected. -/
theorem positions_in_loaded (capacity : Nat) (source : Source) (l : Lexer BufferPair)
    (h : ofSource capacity source = .ok l) (n : Nat) :
    (∃ k, (l.after n).cursor.source = (source.fills capacity k).2) ∧
      ∀ k, (l.after n).cursor.source = (source.fills capacity k).2 →
        ((l.after n).cursor.offset ≤ (source.fills capacity k).1.length ∧
          (l.after n).position = .behind ((source.fills capacity k).1.take (l.after n).cursor.offset)) ∧
        ∀ j < n, Points (source.fills capacity k).1 (l.result j) := by
  -- whatever was loaded by now is told by the source
  have hknown : ∀ {o k}, (l.after n).cursor.HasLoaded capacity source o →
      (l.after n).cursor.source = (source.fills capacity k).2 →
      (source.fills capacity k).1 <+: source.pending ∧ o ≤ (source.fills capacity k).1.length := by
    rintro o k ⟨i, hi, hfront, hle⟩ hk
    rw [Source.fills_unique (hk.symm.trans hi)]
    exact ⟨hfront, hle⟩
  obtain ⟨_, hhas, hposition⟩ := placed_after h n
  obtain ⟨i, hi, _⟩ := hhas
  refine ⟨⟨i, hi⟩, fun k hk => ⟨?_, fun j hj => ?_⟩⟩
  · obtain ⟨hfront, hle⟩ := hknown (placed_after h n).2.1 hk
    exact ⟨hle, hposition.trans (behind_take_of_front hfront hle).1⟩
  · obtain ⟨o, ho, hpoints⟩ := result_pointsInto h hj
    obtain ⟨hfront, hle⟩ := hknown ho hk
    exact hpoints _ hfront hle

theorem positions_in_loaded_within_layout :
    ∃ l, ofSource 2 (.ofEvents [.data [97, 10, 10, 10], .fail ⟨.other, ""⟩] none) = .ok l ∧
      (l.after 2).poisoned = true ∧
      ∃ k, (l.after 2).cursor.source =
          (Source.fills (.ofEvents [.data [97, 10, 10, 10], .fail ⟨.other, ""⟩] none) 2 k).2 ∧
        (l.after 2).position =
          .behind ((Source.fills (.ofEvents [.data [97, 10, 10, 10], .fail ⟨.other, ""⟩] none) 2 k).1.take 3) ∧
        Points (Source.fills (.ofEvents [.data [97, 10, 10, 10], .fail ⟨.other, ""⟩] none) 2 k).1 (l.result 0) := by
  have hstate : ((ofSource 2 (.ofEvents [.data [97, 10, 10, 10], .fail ⟨.other, ""⟩] none)).toOption.map
      fun l => ((l.after 2).poisoned, (l.after 2).cursor.offset)) = some (true, 3) := by decide +kernel
  cases h : ofSource 2 (.ofEvents [.data [97, 10, 10, 10], .fail ⟨.other, ""⟩] none) with
  | error e =>
    rw [h] at hstate
    cases hstate
  | ok l =>
    rw [h] at hstate
    obtain ⟨hpoisoned, hoffset⟩ := Prod.mk.inj (Option.some.inj hstate)
    obtain ⟨⟨k, hk⟩, hplaced⟩ := positions_in_loaded 2 _ l h 2
    obtain ⟨⟨_, hposition⟩, hpoints⟩ := hplaced k hk
    rw [hoffset] at hposition
    exact ⟨l, rfl, hpoisoned, k, hk, hposition, hpoints 0 (by omega)⟩

end Lexer

end StreamLexer
