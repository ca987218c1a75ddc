import StreamLexer.Command.Report
import StreamLexer.Proofs.Faults

/-!
# A report lists a run

A report is written token by token, but what it writes can be told from the whole run of the lexer:
a header, a line for each token shown, and a footer where the run comes to the end of the input. The
lines are rendered while the words are still growing, and come out as they would with all words known.
So the texts of a report do not depend on the sink, and hiding layout deletes lines and does nothing else.
-/

namespace StreamLexer

namespace Text

theorem utf8_append (a b : String) : utf8 (a ++ b) = utf8 a ++ utf8 b := by
  simp [utf8]

theorem append_utf8 (written : Array Byte) (a b : String) : written ++ utf8 a ++ utf8 b = written ++ utf8 (a ++ b) := by
  rw [utf8_append]
  simp [← Array.toList_inj]

theorem size_append_utf8 (written : Array Byte) (a : String) :
    (written ++ utf8 a).size = written.size + (utf8 a).length := by
  simp [← Array.length_toList]

end Text

namespace Ending

def result : Ending → Except LexError Located
  | .eof start => .ok ⟨.eof, start⟩
  | .failed error => .error error

def outcome (summary : Summary) : Ending → Except CommandError Summary
  | .eof _ => .ok summary
  | .failed error => .error (.lex error)

end Ending

namespace Lexer

/-! ## Runs -/

section
variable {σ : Type} [Cursor σ]

/-- The lexer gives out the rows, one call for each, and comes to the ending, which leaves `last`. -/
inductive Runs : Lexer σ → List Located → Ending → Lexer σ → Prop where
  | eof {l : Lexer σ} {row : Located} : l.nextLocated.1 = .ok row → row.token = .eof →
      Runs l [] (.eof row.start) l.nextLocated.2
  | failed {l : Lexer σ} {e : LexError} : l.nextLocated.1 = .error e → Runs l [] (.failed e) l.nextLocated.2
  | row {l last : Lexer σ} {row : Located} {rows : List Located} {ending : Ending} : l.nextLocated.1 = .ok row →
      row.token ≠ .eof → Runs l.nextLocated.2 rows ending last → Runs l (row :: rows) ending last

theorem runs_runFrom (seen : Array Located) (l : Lexer σ) :
    ∃ rows, (runFrom seen l).rows.toList = seen.toList ++ rows ∧
      Runs l rows (runFrom seen l).ending (runFrom seen l).lexer := by
  fun_induction runFrom seen l with
  | case1 seen l row l' h ht =>
    have hruns : Runs l [] (.eof row.start) l.nextLocated.2 := .eof (by rw [h]) ht
    rw [h] at hruns
    exact ⟨[], by simp, hruns⟩
  | case2 seen l row l' h ht ih =>
    obtain ⟨rows, hrows, hruns⟩ := ih
    refine ⟨row :: rows, by simp [hrows], .row (by rw [h]) ht ?_⟩
    rw [h]
    exact hruns
  | case3 seen l e l' h =>
    have hruns : Runs l [] (.failed e) l.nextLocated.2 := .failed (by rw [h])
    rw [h] at hruns
    exact ⟨[], by simp, hruns⟩

theorem runs_run (l : Lexer σ) : Runs l l.run.rows.toList l.run.ending l.run.lexer := by
  obtain ⟨rows, hrows, hruns⟩ := runs_runFrom #[] l
  rw [List.nil_append] at hrows
  show Runs l (runFrom #[] l).rows.toList _ _
  rw [hrows]
  exact hruns

variable {l last : Lexer σ} {rows : List Located} {ending : Ending}

theorem Runs.result (h : Runs l rows ending last) {i : Nat} {row : Located} (hi : rows[i]? = some row) :
    l.result i = .ok row ∧ row.token ≠ .eof := by
  induction h generalizing i with
  | eof hr ht => cases hi
  | failed hr => cases hi
  | row hr ht _ ih =>
    cases i with
    | zero =>
      cases hi
      exact ⟨hr, ht⟩
    | succ i =>
      rw [result_succ]
      exact ih hi

theorem Runs.final (h : Runs l rows ending last) : l.result rows.length = ending.result := by
  induction h with
  | @eof l row hr ht =>
    show l.nextLocated.1 = .ok ⟨.eof, row.start⟩
    rw [hr, ← ht]
  | failed hr => exact hr
  | row hr ht _ ih =>
    rw [List.length_cons, result_succ]
    exact ih

theorem Runs.extends (h : Runs l rows ending last) : last.words.Extends l.words := by
  induction h with
  | @eof l row hr ht => exact extends_nextLocated l
  | @failed l e hr => exact extends_nextLocated l
  | @row l last row rows ending hr ht _ ih => exact ih.trans (extends_nextLocated l)

theorem render_of_extends (hc : l.words.Consistent) {row : Located} (hr : l.nextLocated.1 = .ok row) {t : Lexicon}
    (h : t.Extends l.nextLocated.2.words) : row.token.render l.nextLocated.2.words = row.token.render t := by
  cases htoken : row.token with
  | word w =>
    rcases nextLocated_words l with ⟨_, hnone⟩ | ⟨row', w', s, hr', ht', hs⟩
    · exact absurd htoken (hnone row w hr)
    · rw [hr] at hr'
      cases hr'
      rw [htoken] at ht'
      cases ht'
      -- the word was in the table when the token was given out, and later words leave it there
      have hget := hc.getElem?_resolve hs
      simp only [Token.render, Lexicon.text_of_getElem? hget, Lexicon.text_of_getElem? (h.getElem? hget)]
  | _ => rfl

theorem Runs.render (h : Runs l rows ending last) (hc : l.words.Consistent) {i : Nat} {row : Located}
    (hi : rows[i]? = some row) : row.token.render (l.after (i + 1)).words = row.token.render last.words := by
  induction h generalizing i with
  | eof hr ht => cases hi
  | failed hr => cases hi
  | row hr ht hruns ih =>
    cases i with
    | zero =>
      cases hi
      exact render_of_extends hc hr hruns.extends
    | succ i =>
      rw [after_succ]
      exact ih (words_nextLocated Lexicon.Consistent.resolve hc) hi

end

theorem consistent_ofSource {capacity : Nat} {source : Source} {l : Lexer BufferPair}
    (h : ofSource capacity source = .ok l) : l.words.Consistent := by
  rw [words_ofSource h]
  exact Lexicon.consistent_initial

end Lexer

namespace Report

open Lexer

/-! ## The texts of a report -/

def closing (printed : Nat) : Ending → List String
  | .eof _ => [footer printed]
  | .failed _ => []

section
variable {σ τ : Type} [Cursor σ] [Sink τ]

/-- Writes the texts one by one and then comes to `result`, unless a write fails. -/
def emitAll {α : Type} (result : Except CommandError α) (out : τ) : List String → Except CommandError α × τ
  | [] => (result, out)
  | text :: texts => emit out text fun out' => emitAll result out' texts

theorem line_of_extends {l : Lexer σ} (hc : l.words.Consistent) {row : Located} (hr : l.nextLocated.1 = .ok row)
    {t : Lexicon} (h : t.Extends l.nextLocated.2.words) : line l.nextLocated.2.words row = line t row := by
  rw [line, line, render_of_extends hc hr h]

/-- Whatever the sink does, the body of a report writes the lines of the run, as far as it writes. -/
theorem body_eq {l last : Lexer σ} {rows : List Located} {ending : Ending} (h : Runs l rows ending last)
    (hc : l.words.Consistent) (options : Options) (seen : Summary) (out : τ) :
    body options seen l out =
      emitAll (ending.outcome ⟨seen.printed + (rows.filter fun row => shown options row.token).length,
          seen.scanned + rows.length⟩) out
        ((rows.filter fun row => shown options row.token).map (line last.words) ++
          closing (seen.printed + (rows.filter fun row => shown options row.token).length) ending) := by
  induction h generalizing seen out with
  | eof hr ht =>
    rw [body_eof hr ht]
    rfl
  | failed hr =>
    rw [body_error hr]
    rfl
  | @row l last row rows ending hr ht hruns ih =>
    have hc' := words_nextLocated Lexicon.Consistent.resolve hc
    by_cases hs : shown options row.token = true
    -- the line is rendered with the words known by now, which say the same as those of the last lexer
    · rw [body_shown hr ht hs, line_of_extends hc hr hruns.extends]
      simp only [ih hc', List.filter_cons, hs, if_true, List.map_cons, List.cons_append, List.length_cons, emitAll,
        Nat.add_assoc, Nat.add_comm 1]
    · rw [Bool.not_eq_true] at hs
      rw [body_hidden hr ht hs, ih hc']
      simp only [List.filter_cons, hs, Bool.false_eq_true, if_false, List.length_cons, Nat.add_assoc, Nat.add_comm 1]

def listed (options : Options) (t : Transcript σ) : List Located :=
  t.rows.toList.filter fun row => shown options row.token

def texts (options : Options) (label : String) (t : Transcript σ) : List String :=
  header label :: ((listed options t).map (line t.lexer.words) ++ closing (listed options t).length t.ending)

def outcome (options : Options) (t : Transcript σ) : Except CommandError Summary :=
  t.ending.outcome ⟨(listed options t).length, t.rows.size⟩

theorem write_error {options : Options} {source : Source} {error : LexError}
    (h : ofSource options.capacity source = .error error) (label : String) (out : τ) :
    write options label source out = (.error (.lex error), out) := by
  simp only [write, h]

theorem write_eq {options : Options} {source : Source} {l : Lexer BufferPair}
    (h : ofSource options.capacity source = .ok l) (label : String) (out : τ) :
    write options label source out = emitAll (outcome options l.run) out (texts options label l.run) := by
  have hbody := fun out' : τ => body_eq (runs_run l) (consistent_ofSource h) options ⟨0, 0⟩ out'
  simp only [Nat.zero_add] at hbody
  simp only [write, h, hbody]
  rfl

end

/-! ## Sinks that take everything -/

theorem emitAll_unlimited {α : Type} (result : Except CommandError α) (fault : Fault) (texts : List String)
    (written : Array Byte) :
    emitAll result (⟨none, fault, written⟩ : LimitedSink) texts =
      (result, ⟨none, fault, written ++ Text.utf8 (String.join texts)⟩) := by
  induction texts generalizing written with
  | nil => simp [emitAll, Text.utf8]
  | cons text texts ih =>
    show emitAll result (⟨none, fault, written ++ Text.utf8 text⟩ : LimitedSink) texts = _
    rw [ih, Text.append_utf8, String.join_cons]

/-! ## The page spelled out -/

def display (words : Lexicon) : Token → String
  | .word ⟨name, some _⟩ => "Keyword(" ++ words.text name ++ ")"
  | .word ⟨name, none⟩ => "Ident(" ++ words.text name ++ ")"
  | .number text => "Number(" ++ text ++ ")"
  | .operator .lt => "RelOp(<, LT)"
  | .operator .le => "RelOp(<=, LE)"
  | .operator .eq => "RelOp(=, EQ)"
  | .operator .ne => "RelOp(<>, NE)"
  | .operator .gt => "RelOp(>, GT)"
  | .operator .ge => "RelOp(>=, GE)"
  | .whitespace => "Whitespace"
  | .eof => "Eof"

theorem render_eq_display (words : Lexicon) (token : Token) : token.render words = display words token := by
  cases token with
  | word w =>
    obtain ⟨name, keyword⟩ := w
    cases keyword <;> rfl
  | operator op => cases op <;> rfl
  | _ => rfl

theorem line_eq (words : Lexicon) (row : Located) : line words row =
    "  " ++ display words row.token ++ " @ " ++ toString row.start.line.val ++ ":" ++
      toString row.start.column.val ++ "\n" := by
  rw [line, render_eq_display, Position.render]
  simp only [String.append_assoc]

def isBlank (text : String) : Bool := "  Whitespace @ ".toList.isPrefixOf text.toList

theorem isBlank_line (words : Lexicon) (row : Located) : isBlank (line words row) = row.token.isTrivia := by
  obtain ⟨token, start⟩ := row
  cases token with
  | word w =>
    cases hw : w.isKeyword <;> simp [isBlank, line, Token.render, Token.isTrivia, hw, List.isPrefixOf]
  | _ => simp [isBlank, line, Token.render, Token.isTrivia, List.isPrefixOf]

section
variable {σ : Type} (t : Transcript σ)

theorem listed_of_shown (capacity : Nat) : listed ⟨capacity, true⟩ t = t.rows.toList :=
  List.filter_eq_self.mpr fun _ _ => rfl

theorem lines_of_hidden (capacity : Nat) : (listed ⟨capacity, false⟩ t).map (line t.lexer.words) =
    (t.rows.toList.map (line t.lexer.words)).filter fun text => !isBlank text := by
  simp only [List.filter_map, Function.comp_def, isBlank_line]
  rfl

theorem length_of_hidden (words : Lexicon) :
    ((t.rows.toList.map (line words)).filter fun text => !isBlank text).length +
      t.rows.toList.countP (fun row => row.token.isTrivia) = t.rows.size := by
  rw [List.filter_map, List.length_map, ← List.countP_eq_length_filter, ← Array.length_toList,
    List.length_eq_countP_add_countP (fun row => row.token.isTrivia)]
  simp only [Function.comp_def, isBlank_line, Bool.not_eq_true, Bool.decide_eq_false]
  exact Nat.add_comm _ _

end

theorem write_unlimited {capacity : Nat} {source : Source} {l : Lexer BufferPair}
    (h : ofSource capacity source = .ok l) (shows : Bool) (label : String) (fault : Fault) {kept : List String}
    (hkept : (listed ⟨capacity, shows⟩ l.run).map (line l.run.lexer.words) = kept) :
    write ⟨capacity, shows⟩ label source (LimitedSink.ofLimit none fault) =
      (l.run.ending.outcome ⟨kept.length, l.run.rows.size⟩,
        ⟨none, fault, ("Tokens for '" ++ label ++ "':\n" ++ String.join kept ++
          match l.run.ending with
          | .eof _ => "(" ++ toString kept.length ++ " tokens)\n"
          | .failed _ => "").toUTF8.data⟩) := by
  have hlength : (listed ⟨capacity, shows⟩ l.run).length = kept.length := by
    rw [← hkept, List.length_map]
  rw [write_eq h, LimitedSink.ofLimit, emitAll_unlimited, outcome, texts, hkept, hlength]
  cases l.run.ending with
  | eof start => simp [closing, footer, header, Text.utf8, String.append_assoc]
  | failed e => simp [closing, header, Text.utf8, String.append_assoc]

/-- What a report writes is the run of its lexer, row by row, and the footer where the run comes to the
end of the input; an error leaves the lines before it. Without layout the report is the same page less
the lines that show layout, with another number in its footer. Each line is written with the words known
by then, which is how it reads with all of them. -/
theorem report_lists_run (capacity : Nat) (label : String) (source : Source) (fault : Fault) :
    match ofSource capacity source with
    | .error error => ∀ shows,
      write ⟨capacity, shows⟩ label source (LimitedSink.ofLimit none fault) =
        (.error (.lex error), LimitedSink.ofLimit none fault)
    | .ok l => ∃ lines kept : List String,
      lines = (l.run.rows.toList.map fun row => "  " ++ display l.run.lexer.words row.token ++ " @ " ++
          toString row.start.line.val ++ ":" ++ toString row.start.column.val ++ "\n") ∧
        kept = lines.filter (fun text => !isBlank text) ∧
        (∀ i row, l.run.rows[i]? = some row → l.result i = .ok row ∧ row.token ≠ .eof ∧
          display (l.after (i + 1)).words row.token = display l.run.lexer.words row.token) ∧
        l.result l.run.rows.size = l.run.ending.result ∧
        write ⟨capacity, true⟩ label source (LimitedSink.ofLimit none fault) =
          (l.run.ending.outcome ⟨l.run.rows.size, l.run.rows.size⟩,
            ⟨none, fault, ("Tokens for '" ++ label ++ "':\n" ++ String.join lines ++
              match l.run.ending with
              | .eof _ => "(" ++ toString l.run.rows.size ++ " tokens)\n"
              | .failed _ => "").toUTF8.data⟩) ∧
        write ⟨capacity, false⟩ label source (LimitedSink.ofLimit none fault) =
          (l.run.ending.outcome ⟨kept.length, l.run.rows.size⟩,
            ⟨none, fault, ("Tokens for '" ++ label ++ "':\n" ++ String.join kept ++
              match l.run.ending with
              | .eof _ => "(" ++ toString kept.length ++ " tokens)\n"
              | .failed _ => "").toUTF8.data⟩) ∧
        kept.length + l.run.rows.toList.countP (fun row => row.token.isTrivia) = l.run.rows.size := by
  cases h : ofSource capacity source with
  | error error =>
    intro shows
    exact write_error h label _
  | ok l =>
    have hruns := runs_run l
    have hlines : (l.run.rows.toList.map (line l.run.lexer.words)).length = l.run.rows.size := by simp
    refine ⟨l.run.rows.toList.map (line l.run.lexer.words), _, ?_, rfl, ?_, ?_, ?_, ?_, length_of_hidden l.run _⟩
    · exact List.map_congr_left fun row _ => line_eq _ row
    · intro i row hi
      rw [← Array.getElem?_toList] at hi
      obtain ⟨hr, ht⟩ := hruns.result hi
      have hrender := hruns.render (consistent_ofSource h) hi
      rw [render_eq_display, render_eq_display] at hrender
      exact ⟨hr, ht, hrender⟩
    · rw [← Array.length_toList]
      exact hruns.final
    · have hshown := write_unlimited h true label fault (congrArg _ (listed_of_shown l.run capacity))
      rw [hlines] at hshown
      exact hshown
    · exact write_unlimited h false label fault (lines_of_hidden l.run capacity)

end Report

end StreamLexer
