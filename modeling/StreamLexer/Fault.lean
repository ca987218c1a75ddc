/-!
# Faults of the outside world

What a source, a sink or a file system reports when an operation on it fails.
-/

namespace StreamLexer

inductive FaultKind where
  /-- The operation was cut short and may be repeated. -/
  | interrupted
  | brokenPipe
  | unexpectedEnd
  | wouldBlock
  | notFound
  | permissionDenied
  | notADirectory
  | isADirectory
  | nameTooLong
  | storageFull
  | other
deriving DecidableEq, Repr

structure Fault where
  kind : FaultKind
  message : String
deriving DecidableEq, Repr

/-- An interrupted operation is repeated; every other fault is final. -/
def Fault.isFatal (f : Fault) : Bool := f.kind != .interrupted

end StreamLexer
