import StreamLexer.Command.Error
import StreamLexer.Command.Options
import StreamLexer.Command.Sink
import StreamLexer.Text.Utf8

/-!
# Reports

A report has a header, one line for each token shown, and a footer with their number. It is
written as the tokens are read, so an error leaves all lines before it in place.
-/

namespace StreamLexer

/-- What a complete report counts. -/
structure Summary where
  /-- Tokens shown. -/
  printed : Nat
  /-- Tokens read, `eof` apart. -/
  scanned : Nat
deriving DecidableEq, Repr

namespace Report

def header (label : String) : String := "Tokens for '" ++ label ++ "':\n"

def line (words : Lexicon) (row : Located) : String :=
  "  " ++ row.token.render words ++ " @ " ++ row.start.render ++ "\n"

def footer (printed : Nat) : String := "(" ++ toString printed ++ " tokens)\n"

/-- Whether a token has a line of its own. -/
def shown (options : Options) (token : Token) : Bool := options.showWhitespace || !token.isTrivia

variable {σ τ : Type} [Cursor σ] [Sink τ]

/-- Writes one text and goes on unless that fails. -/
@[inline] def emit {α : Type} (out : τ) (text : String) (go : τ → Except CommandError α × τ) :
    Except CommandError α × τ :=
  match Sink.write out (Text.utf8 text) with
  | (.ok _, out') => go out'
  | (.error fault, out') => (.error (.write fault), out')

/-- Lines and footer from the lexer's place on, behind the tokens counted in `seen`. -/
def body (options : Options) (seen : Summary) (l : Lexer σ) (out : τ) : Except CommandError Summary × τ :=
  match _h : l.nextLocated with
  | (.error error, _) => (.error (.lex error), out)
  | (.ok row, l') =>
    if _ht : row.token = .eof then emit out (footer seen.printed) fun out' => (.ok seen, out')
    else if shown options row.token then
      emit out (line l'.words row) fun out' => body options ⟨seen.printed + 1, seen.scanned + 1⟩ l' out'
    else body options ⟨seen.printed, seen.scanned + 1⟩ l' out
termination_by Cursor.remaining l.cursor
decreasing_by all_goals exact Lexer.remaining_nextLocated _h _ht

section
variable {options : Options} {seen : Summary} {l : Lexer σ} {out : τ} {row : Located}

theorem body_error {error : LexError} (h : l.nextLocated.1 = .error error) :
    body options seen l out = (.error (.lex error), out) := by
  rw [body]
  split <;> simp_all

theorem body_eof (h : l.nextLocated.1 = .ok row) (ht : row.token = .eof) :
    body options seen l out = emit out (footer seen.printed) fun out' => (.ok seen, out') := by
  rw [body]
  split <;> simp_all

theorem body_shown (h : l.nextLocated.1 = .ok row) (ht : row.token ≠ .eof) (hs : shown options row.token = true) :
    body options seen l out = emit out (line l.nextLocated.2.words row) fun out' =>
      body options ⟨seen.printed + 1, seen.scanned + 1⟩ l.nextLocated.2 out' := by
  rw [body]
  split <;> simp_all

theorem body_hidden (h : l.nextLocated.1 = .ok row) (ht : row.token ≠ .eof) (hs : shown options row.token = false) :
    body options seen l out = body options ⟨seen.printed, seen.scanned + 1⟩ l.nextLocated.2 out := by
  rw [body]
  split <;> simp_all

end

/-- Reads all of `source` and reports its tokens under `label`. -/
def write (options : Options) (label : String) (source : Source) (out : τ) :
    Except CommandError Summary × τ :=
  match Lexer.ofSource options.capacity source with
  | .error error => (.error (.lex error), out)
  | .ok l => emit out (header label) fun out' => body options ⟨0, 0⟩ l out'

end Report

end StreamLexer
