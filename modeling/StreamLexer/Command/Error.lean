import StreamLexer.Lexer.Error

/-! # Errors of the report command -/

namespace StreamLexer

inductive CommandError where
  | notFound (path : String)
  | permissionDenied (path : String)
  | openFailed (path : String) (fault : Fault)
  | lex (error : LexError)
  | write (fault : Fault)
deriving DecidableEq

namespace CommandError

/-- The error of a path that could not be opened. -/
def ofOpen (path : String) (fault : Fault) : CommandError :=
  match fault.kind with
  | .notFound => .notFound path
  | .permissionDenied => .permissionDenied path
  | _ => .openFailed path fault

def message : CommandError → String
  | .notFound path => "cannot find file '" ++ path ++ "'"
  | .permissionDenied path => "permission denied reading '" ++ path ++ "'"
  | .openFailed path fault => "error reading '" ++ path ++ "': " ++ fault.message
  | .lex error => error.message
  | .write fault => "failed to write tokens: " ++ fault.message

/-- The texts of the errors behind this one. -/
def causes : CommandError → List String
  | .openFailed _ fault => [fault.message]
  | .lex error => error.causes
  | .write fault => [fault.message]
  | _ => []

end CommandError

end StreamLexer
