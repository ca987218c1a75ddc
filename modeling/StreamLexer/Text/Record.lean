/-! # Records as one line of text -/

namespace StreamLexer.Text

def field (entry : String × String) : String := entry.1 ++ ": " ++ entry.2

def braced (name : String) (items : List String) : String :=
  name ++ " \x7b " ++ ", ".intercalate items ++ " \x7d"

/-- A record with all its fields. -/
def record (name : String) (fields : List (String × String)) : String := braced name (fields.map field)

/-- A record with fields left out at the end. -/
def openRecord (name : String) (fields : List (String × String)) : String :=
  braced name (fields.map field ++ [".."])

def wrapped (name item : String) : String := name ++ "(" ++ item ++ ")"

def flag (b : Bool) : String := if b then "true" else "false"

end StreamLexer.Text
