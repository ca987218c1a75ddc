import StreamLexer.Proofs.Loading
import StreamLexer.Proofs.LongestMatch
import StreamLexer.Proofs.Transparency

/-!
# Tokens tile the stream

The tokens a lexer gives out lie side by side over the loaded bytes: each covers the bytes from its
start to the start of the next one, is spelled by them, and could not have gone on. This holds
for every source, also where a read fails for good and the lexer stops.
-/

namespace StreamLexer

/-- The token is the bytes from `start` to `stop`: they spell it, its lexeme is their text, and it
goes on with nothing behind them. -/
structure Covers (words : Lexicon) (data : List Byte) (token : Token) (start stop : Nat) : Prop where
  nonempty : start < stop
  inside : stop ≤ data.length
  longest : ∃ kind, token.kind? = some kind ∧ token.lexeme words = kind.lexeme (data.extract start stop) ∧
    kind.Longest (data.extract start stop) (data.drop stop)

/-- The rows lie side by side from the start of the data to an offset, each from its own start to
the position behind it. -/
inductive Tiles (words : Lexicon) (data : List Byte) : List (Located × Position) → Nat → Prop where
  | none : Tiles words data [] 0
  | more {rows : List (Located × Position)} {o : Nat} {row : Located} {stop : Position} :
      Tiles words data rows o → row.start.offset = o → Covers words data row.token o stop.offset →
      Tiles words data (rows ++ [(row, stop)]) stop.offset

section
variable {words words' : Lexicon} {data : List Byte} {token : Token} {start stop : Nat}

theorem covers_of_drop {kind : Kind} {text tail : List Byte} (hdrop : data.drop start = text ++ tail)
    (hk : token.kind? = some kind) (hl : token.lexeme words = kind.lexeme text) (hlong : kind.Longest text tail) :
    Covers words data token start (start + text.length) := by
  have hpos := List.length_pos_iff.mpr hlong.spells.ne_nil
  have hlen := congrArg List.length hdrop
  rw [List.length_drop, List.length_append] at hlen
  have htext : data.extract start (start + text.length) = text := by
    rw [List.extract_eq_take_drop, hdrop, Nat.add_sub_cancel_left, List.take_left]
  have htail : data.drop (start + text.length) = tail := by
    rw [← List.drop_drop, hdrop, List.drop_left]
  refine ⟨by omega, by omega, kind, hk, ?_, ?_⟩
  · rw [htext]; exact hl
  · rw [htext, htail]; exact hlong

theorem Covers.extends (hc : Covers words data token start stop) (h : words'.Extends words) :
    Covers words' data token start stop := by
  obtain ⟨hlt, hle, kind, hk, hl, hlong⟩ := hc
  exact ⟨hlt, hle, kind, hk, lexeme_of_extends h hk hlong.spells hl, hlong⟩

theorem Covers.front {more : List Byte} (hc : Covers words (data ++ more) token start stop)
    (hle : stop ≤ data.length) : Covers words data token start stop := by
  obtain ⟨hlt, _, kind, hk, hl, hspells, hends⟩ := hc
  have htext : (data ++ more).extract start stop = data.extract start stop := by
    rw [List.extract_eq_take_drop, List.extract_eq_take_drop, List.drop_append_of_le_length (by omega),
      List.take_append_of_le_length (by rw [List.length_drop]; omega)]
  rw [htext] at hl hspells hends
  refine ⟨hlt, hle, kind, hk, hl, hspells, fun b hb => hends b ?_⟩
  rw [List.drop_append_of_le_length hle, List.head?_append, hb]
  rfl

theorem Tiles.extends {rows : List (Located × Position)} {o : Nat} (ht : Tiles words data rows o)
    (h : words'.Extends words) : Tiles words' data rows o := by
  induction ht with
  | none => exact .none
  | more _ hstart hc ih => exact .more ih hstart (hc.extends h)

theorem Tiles.covers {rows : List (Located × Position)} {o : Nat} (ht : Tiles words data rows o)
    {r : Located × Position} (hr : r ∈ rows) : Covers words data r.1.token r.1.start.offset r.2.offset := by
  induction ht with
  | none => cases hr
  | more _ hstart hc ih =>
    rcases List.mem_append.mp hr with hr | hr
    · exact ih hr
    · obtain rfl := List.mem_singleton.mp hr
      rw [hstart]
      exact hc

theorem Tiles.front {rows : List (Located × Position)} {o : Nat} {more : List Byte}
    (ht : Tiles words (data ++ more) rows o) (hle : o ≤ data.length) : Tiles words data rows o := by
  induction ht with
  | none => exact .none
  | more _ hstart hc ih =>
    have hlt := hc.nonempty
    exact .more (ih (by omega)) hstart (hc.front hle)

end

namespace Lexer

def addRow {σ : Type} (rows : List (Located × Position)) (r : Except LexError Located × Lexer σ) :
    List (Located × Position) :=
  match r.1 with
  | .ok row => if row.token.isEof then rows else rows ++ [(row, r.2.position)]
  | .error _ => rows

def rows {σ : Type} [Cursor σ] (l : Lexer σ) : Nat → List (Located × Position)
  | 0 => []
  | n + 1 => addRow (l.rows n) (l.after n).nextLocated

theorem addRow_error {σ : Type} {rows : List (Located × Position)} {r : Except LexError Located × Lexer σ}
    {e : LexError} (h : r.1 = .error e) : addRow rows r = rows := by
  simp only [addRow, h]

theorem addRow_ok {σ : Type} {rows : List (Located × Position)} {r : Except LexError Located × Lexer σ}
    {row : Located} (h : r.1 = .ok row) :
    addRow rows r = if row.token.isEof then rows else rows ++ [(row, r.2.position)] := by
  simp only [addRow, h]

/-- How far a lexer over halves has come: it goes on beside a lexer over the whole stream, or it has
failed. Up to there the rows tile the stream, and all of it was loaded. -/
inductive Progress (capacity : Nat) (source : Source) (l : Lexer BufferPair) (rows : List (Located × Position)) :
    Prop where
  | running {m : Lexer Flat} : AtRest capacity l m → m.poisoned = false → m.cursor.data = source.pending.toArray →
      l.words.Consistent → l.cursor.Loaded capacity source m.cursor.pos →
      Tiles l.words source.pending rows m.cursor.pos → Progress capacity source l rows
  | stopped {o : Nat} : l.poisoned = true → l.cursor.HasLoaded capacity source o →
      Tiles l.words source.pending rows o → Progress capacity source l rows

section
variable {capacity : Nat} {source : Source} {l : Lexer BufferPair} {rows : List (Located × Position)}

theorem Progress.row {m : Lexer Flat} {row : Located} (hrest : AtRest capacity l m) (hp : m.poisoned = false)
    (hdata : m.cursor.data = source.pending.toArray) (hc : l.words.Consistent)
    (ht : Tiles l.words source.pending rows m.cursor.pos)
    (hloaded : l.nextLocated.2.cursor.Loaded capacity source m.cursor.pos)
    (hl : l.nextLocated.1 = .ok row) (hm : m.nextLocated.1 = .ok row)
    (hrest' : AtRest capacity l.nextLocated.2 m.nextLocated.2) (hp' : m.nextLocated.2.poisoned = false) :
    Progress capacity source l.nextLocated.2 (addRow rows l.nextLocated) := by
  have hc' : l.nextLocated.2.words.Consistent := words_nextLocated Lexicon.Consistent.resolve hc
  have hextends := extends_nextLocated l
  have hposition := hrest'.position_offset
  obtain ⟨hs, hstart⟩ := scan_of_nextLocated hp hm
  generalize m.nextLocated.2 = m' at hs hrest' hp' hposition
  rw [addRow_ok hl]
  rcases scan_finds hrest.free (by rw [hs]) with heof | ⟨kind, text, tail, hfinds⟩
  -- at the end of the stream nothing moves, and the row is not kept
  · rw [scan_eof hrest.free heof] at hs
    obtain ⟨htoken, rfl⟩ : Token.eof = row.token ∧ m = m' := by simpa using hs
    rw [← htoken]
    exact .running hrest' hp' hdata hc' hloaded (ht.extends hextends)
  · obtain ⟨hkind, hlexeme, hcursor, _⟩ := token_of_finish hrest.rest (hrest.words ▸ hc) hfinds.rest
      hfinds.longest.spells (hfinds.scan.symm.trans hs)
    have hnot : row.token.isEof = false := by
      cases htoken : row.token with
      | eof => rw [htoken] at hkind; cases hkind
      | _ => rfl
    have hdrop : source.pending.drop m.cursor.pos = text ++ tail := by
      rw [← hfinds.rest, Flat.rest, hdata]
    have hpos : m'.cursor.pos = m.cursor.pos + text.length := by rw [hcursor]
    have hdata' : m'.cursor.data = source.pending.toArray := by rw [hcursor]; exact hdata
    have hsize : m'.cursor.data.size = source.pending.length := by rw [hdata', List.size_toArray]
    have hcovers := covers_of_drop hdrop hkind hlexeme hfinds.longest
    rw [← hrest'.words, ← hpos, ← hposition] at hcovers
    have hoffset : row.start.offset = m.cursor.pos := by rw [hstart, hrest.offset, hrest.rest]
    have htiles := Tiles.more (ht.extends hextends) hoffset hcovers
    rw [hposition] at htiles
    have hupTo := hloaded.upTo (f := (m'.cursor.startAt _).framed capacity) hrest'.cursor hsize
    rw [hnot]
    exact .running hrest' hp' hdata' hc' hupTo htiles

theorem Progress.step (h : Progress capacity source l rows) :
    Progress capacity source l.nextLocated.2 (addRow rows l.nextLocated) := by
  cases h with
  | stopped hp hl ht =>
    rw [nextLocated_of_poisoned hp]
    exact .stopped hp hl ht
  | @running m hrest hp hdata hc hl ht =>
    -- during the call the loaded bytes only grow, so the offset of the last row stays among them
    have hinv := (BufferPair.respected_loaded capacity source m.cursor.pos).nextLocated l (fun _ => hl) hl.hasLoaded
    have hstop : ∀ {e}, l.nextLocated.1 = .error e → l.nextLocated.2.poisoned = true →
        Progress capacity source l.nextLocated.2 (addRow rows l.nextLocated) := by
      intro e he hpl
      rw [addRow_error he]
      apply Progress.stopped hpl hinv.2
      rw [words_of_nextLocated_error he]
      exact ht
    cases hrest.call hp with
    | tooLong _ he hpl => exact hstop he hpl
    | fault _ he hpl => exact hstop he hpl
    | error _ he _ hpl _ => exact hstop he hpl
    | row _ hlr hmr hrest' hp' _ =>
      have hloaded := hinv.1 (hrest'.poisoned.trans hp')
      exact Progress.row hrest hp hdata hc ht hloaded hlr hmr hrest' hp'

theorem progress_ofSource (h : ofSource capacity source = .ok l) : Progress capacity source l [] := by
  obtain ⟨hrest, _⟩ := atRest_ofSource h
  refine .running hrest rfl rfl ?_ ?_ .none
  · rw [hrest.words]
    exact Lexicon.consistent_initial
  · obtain ⟨p, hp, rfl⟩ := ofSource_eq_ok h
    exact BufferPair.loaded_ofSource hp

theorem progress_after (h : ofSource capacity source = .ok l) : ∀ n, Progress capacity source (l.after n) (l.rows n)
  | 0 => progress_ofSource h
  | n + 1 => (progress_after h n).step

theorem Progress.tiles (h : Progress capacity source l rows) :
    ∃ k o, l.cursor.source = (source.fills capacity k).2 ∧ Tiles l.words (source.fills capacity k).1 rows o := by
  have hfront : ∀ {o}, l.cursor.HasLoaded capacity source o → Tiles l.words source.pending rows o →
      ∃ k o, l.cursor.source = (source.fills capacity k).2 ∧ Tiles l.words (source.fills capacity k).1 rows o := by
    rintro o ⟨k, hk, ⟨more, hmore⟩, hle⟩ ht
    rw [← hmore] at ht
    exact ⟨k, o, hk, ht.front hle⟩
  cases h with
  | running _ _ _ _ hl ht => exact hfront hl.hasLoaded ht
  | stopped _ hl ht => exact hfront hl ht

theorem Progress.tiles_pending (h : Progress capacity source l rows) : ∃ o, Tiles l.words source.pending rows o := by
  cases h with
  | running _ _ _ _ _ ht => exact ⟨_, ht⟩
  | stopped _ _ ht => exact ⟨_, ht⟩

theorem Progress.eof (h : Progress capacity source l rows) {row : Located} (hr : l.nextLocated.1 = .ok row)
    (ht : row.token = .eof) : row.start.offset = source.pending.length := by
  cases h with
  | stopped hp _ _ =>
    rw [nextLocated_of_poisoned hp] at hr
    cases hr
  | @running m hrest hp hdata _ _ _ =>
    cases hrest.call hp with
    | tooLong _ he _ => rw [he] at hr; cases hr
    | fault _ he _ => rw [he] at hr; cases hr
    | error _ he _ _ _ => rw [he] at hr; cases hr
    | row _ hlr hmr _ _ _ =>
      rw [hr] at hlr
      cases hlr
      obtain ⟨hs, hstart⟩ := scan_of_nextLocated hp hmr
      rcases scan_finds hrest.free (by rw [hs]) with heof | ⟨kind, text, tail, hfinds⟩
      · have hle := Flat.peek_eq_eof heof
        have hge : m.cursor.pos ≤ m.cursor.data.size := hrest.cursor.pos_le
        rw [hdata, List.size_toArray] at hle hge
        rw [hstart, hrest.offset, hrest.rest]
        exact Nat.le_antisymm hge hle
      · have hkind := kind?_of_finish (hfinds.scan.symm.trans hs)
        rw [ht] at hkind
        cases hkind

end

/-- After any number of calls, over any source, the tokens given out tile the bytes that the completed
fills have loaded, and each is the longest of its kind; the end of the input is given out only at
the end of all that the source delivers. -/
theorem rows_tile_loaded (capacity : Nat) (source : Source) (l : Lexer BufferPair)
    (h : ofSource capacity source = .ok l) (n : Nat) :
    (∃ k, (l.after n).cursor.source = (source.fills capacity k).2) ∧
      (∀ k, (l.after n).cursor.source = (source.fills capacity k).2 →
        ∃ o, Tiles (l.after n).words (source.fills capacity k).1 (l.rows n) o) ∧
      ∀ row, l.result n = .ok row → row.token = .eof → row.start.offset = source.pending.length := by
  have hprogress := progress_after h n
  obtain ⟨k, o, hk, ht⟩ := hprogress.tiles
  refine ⟨⟨k, hk⟩, ?_, fun row hr => hprogress.eof hr⟩
  intro j hj
  rw [← Source.fills_unique (hk.symm.trans hj)]
  exact ⟨o, ht⟩

theorem rows_tile_loaded_before_fault :
    ∃ l, ofSource 3 (.ofEvents [.data [97, 98, 60], .fail ⟨.other, ""⟩] none) = .ok l ∧ (l.rows 2).length = 1 ∧
      ∃ k o, (l.after 2).cursor.source =
          (Source.fills (.ofEvents [.data [97, 98, 60], .fail ⟨.other, ""⟩] none) 3 k).2 ∧
        Tiles (l.after 2).words (Source.fills (.ofEvents [.data [97, 98, 60], .fail ⟨.other, ""⟩] none) 3 k).1
          (l.rows 2) o := by
  have hrows : ((ofSource 3 (.ofEvents [.data [97, 98, 60], .fail ⟨.other, ""⟩] none)).toOption.map
      fun l => (l.rows 2).length) = some 1 := by decide +kernel
  cases h : ofSource 3 (.ofEvents [.data [97, 98, 60], .fail ⟨.other, ""⟩] none) with
  | error e =>
    rw [h] at hrows
    cases hrows
  | ok l =>
    rw [h] at hrows
    obtain ⟨⟨k, hk⟩, htiles, _⟩ := rows_tile_loaded 3 _ l h 2
    obtain ⟨o, ho⟩ := htiles k hk
    exact ⟨l, rfl, Option.some.inj hrows, k, o, hk, ho⟩

end Lexer

end StreamLexer
