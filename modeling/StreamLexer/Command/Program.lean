import StreamLexer.Command.FileTree
import StreamLexer.Command.Report

/-!
# The command line

The arguments ask for one thing. Carrying it out reads at most one input, and leaves an exit
status and what was written to the two output streams.
-/

namespace StreamLexer

inductive Request where
  | help
  | version
  /-- The report command without an input. -/
  | missingInput
  | badOptions (error : OptionError)
  | report (path : String) (options : Options)
  | unknown (command : String)
deriving DecidableEq

structure Outcome where
  status : Nat
  stdout : List Byte
  stderr : String
deriving DecidableEq

namespace Request

/-- Options are looked at before the input is. -/
def ofReportArgs : List String → Request
  | [] => .missingInput
  | path :: args =>
    match Options.parse args with
    | .ok options => .report path options
    | .error error => .badOptions error

def ofArgs : List String → Request
  | [] => .help
  | command :: args =>
    if command = "lex" then ofReportArgs args
    else if command = "help" ∨ command = "--help" ∨ command = "-h" then .help
    else if command = "version" ∨ command = "--version" ∨ command = "-V" then .version
    else .unknown command

/-- The path that stands for standard input. -/
def stdinPath : String := "-"

def lines (texts : List String) : String := String.join (texts.map (· ++ "\n"))

def usage : String :=
  lines
    ["Duplex streaming lexer",
      "",
      "Usage: duplex <command> [options]",
      "",
      "Commands:",
      "  lex <file|->         Tokenize a file (or stdin) and display tokens",
      "  help                 Show this help message",
      "  version              Show version information",
      "",
      "Lex options:",
      "  --buffer-size=<n>    Bytes per input buffer half (default: 4096)",
      "  --show-whitespace    Also print whitespace tokens",
      "",
      "Logging:",
      "  RUST_LOG=duplex_lexer=trace   Trace every token and buffer refill"]

def reportUsage : String :=
  lines
    ["Usage: duplex lex <file|-> [options]",
      "",
      "Options:",
      "  --buffer-size=<n>   Bytes per input buffer half (default: 4096)",
      "  --show-whitespace   Also print whitespace tokens"]

def versionLine : String := "duplex 0.1.0-alpha.1\n"

def errorLine (message : String) : String := "error: " ++ message ++ "\n"

section
variable {τ : Type} [BufferedSink τ]

/-- Prints `text` and exits with `status`. A failure to do so ends the program at once. -/
def print (out : τ) (status : Nat) (text stderr : String) : Outcome :=
  match Sink.write out (Text.utf8 text) with
  | (.error fault, out') => ended fault out' stderr
  | (.ok _, out') =>
    match BufferedSink.flush out' with
    | (.error fault, out'') => ended fault out'' stderr
    | (.ok _, out'') => ⟨status, BufferedSink.delivered out'', stderr⟩
where
  ended (fault : Fault) (out : τ) (stderr : String) : Outcome :=
    ⟨101, BufferedSink.delivered out, stderr ++ "failed printing to stdout: " ++ fault.message ++ "\n"⟩

/-- What the program ends with where there is no memory for the halves. -/
def overflowText (capacity : Nat) : String :=
  if capacity = Options.maxCapacity then
    "range end index " ++ toString capacity ++ " out of range for slice of length 0"
  else "capacity overflow"

/-- The report of an opened input, through a buffer that is flushed at the end. An error met while
reporting is told instead of a failed flush. Memory for the halves is taken first, and without it the
program ends at once. -/
def runReport (out : τ) (options : Options) (label : String) (source : Source) : Outcome :=
  if BufferPair.fits options.capacity then
    match Report.write options label source out with
    | (result, out') =>
      match result, BufferedSink.flush out' with
      | .error error, (_, out'') => ⟨1, BufferedSink.delivered out'', errorLine error.message⟩
      | .ok _, (.error fault, out'') =>
        ⟨1, BufferedSink.delivered out'', errorLine (CommandError.write fault).message⟩
      | .ok _, (.ok _, out'') => ⟨0, BufferedSink.delivered out'', ""⟩
  else ⟨101, BufferedSink.delivered out, overflowText options.capacity ++ "\n"⟩

/-- Carries out a request. `openFile` opens a path, `stdin` is the standard input, and `out` leads to the
standard output. -/
def executeTo (openFile : String → Except Fault Source) (stdin : Source) (out : τ) : Request → Outcome
  | .help => print out 0 usage ""
  | .version => print out 0 versionLine ""
  | .missingInput => ⟨1, [], reportUsage⟩
  | .badOptions error => ⟨1, [], errorLine error.message⟩
  | .unknown command => print out 1 usage (errorLine ("unknown command '" ++ command ++ "'") ++ "\n")
  | .report path options =>
    if path = stdinPath then runReport out options "<stdin>" stdin
    else
      match openFile path with
      | .ok source => runReport out options path source
      | .error fault => ⟨1, [], errorLine (CommandError.ofOpen path fault).message⟩

end

/-- Carries out a request through a buffer in front of the standard output; `broken` says why nothing can be
written there, if that is so. -/
def execute (openFile : String → Except Fault Source) (stdin : Source) (broken : Option Fault) (request : Request) :
    Outcome :=
  request.executeTo openFile stdin (BufferedOutput.ofDevice broken)

end Request

end StreamLexer
