import StreamLexer.Command.Program

/-!
# The program

Reads the one input that the request names, carries the request out, and passes the outcome on to
the output streams. What each request does is said by `Request.execute`.
-/

namespace StreamLexer

/-- A fault of the operating system: what it says and its number. -/
def Fault.ofCode (kind : FaultKind) (details : String) (code : UInt32) : Fault :=
  ⟨kind, details ++ " (os error " ++ toString code ++ ")"⟩

def Fault.ofError : IO.Error → Fault
  | .noFileOrDirectory _ code details => .ofCode .notFound details code
  | .permissionDenied _ code details => .ofCode .permissionDenied details code
  | .interrupted _ code details => .ofCode .interrupted details code
  | .inappropriateType _ code details => .ofCode .notADirectory details code
  | .resourceExhausted _ code details => .ofCode .storageFull details code
  | .resourceVanished code details => .ofCode .brokenPipe details code
  | .invalidArgument _ code details => .ofCode .other details code
  | .otherError code details => .ofCode .other details code
  | error => ⟨.other, toString error⟩

/-- What a reader delivers until it ends or fails. -/
def Source.ofReader (reader : IO ByteArray) : IO Source := do
  try
    let bytes ← reader
    return .ofBytes bytes.data.toList
  catch error => return .ofEvents [.fail (.ofError error)] none

def readPath (path : String) : IO (Except Fault Source) := do
  try
    let handle ← IO.FS.Handle.mk path .read
    return .ok (← Source.ofReader handle.readBinToEnd)
  catch error => return .error (.ofError error)

/-- The one input of a request, as a file and as standard input. -/
def readInput : Request → IO (Except Fault Source × Source)
  | .report path _ => do
    if path = Request.stdinPath then
      let stdin ← IO.getStdin
      return (.error FileTree.notFound, ← Source.ofReader stdin.readBinToEnd)
    else return (← readPath path, .ofBytes [])
  | _ => return (.error FileTree.notFound, .ofBytes [])

def writeOutput (bytes : List Byte) : IO (Option Fault) := do
  try
    let stdout ← IO.getStdout
    stdout.write ⟨bytes.toArray⟩
    stdout.flush
    return none
  catch error => return some (.ofError error)

end StreamLexer

open StreamLexer in
def main (args : List String) : IO UInt32 := do
  let request := Request.ofArgs args
  let (file, stdin) ← readInput request
  let outcome := request.execute (fun _ => file) stdin none
  let outcome ←
    match ← writeOutput outcome.stdout with
    | none => pure outcome
    | some fault => pure (request.execute (fun _ => file) stdin (some fault))
  (← IO.getStderr).putStr outcome.stderr
  return outcome.status.toUInt32
