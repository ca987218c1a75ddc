import StreamLexer.Command.Options
import StreamLexer.Text.Record

/-!
# Values shown for inspection

One line of text for each kind of value, with the fields that matter to someone who follows a
run.
-/

namespace StreamLexer

open Text

def Name.inspect (n : Name) : String := wrapped "Name" (toString n.index)

def Position.inspect (p : Position) : String :=
  record "Position"
    [("offset", toString p.offset), ("line", toString p.line.val), ("column", toString p.column.val)]

def Keyword.inspect : Keyword → String
  | .kwIf => "If"
  | .kwThen => "Then"
  | .kwElse => "Else"
  | .kwWhile => "While"
  | .kwDo => "Do"
  | .kwFor => "For"

def Operator.inspect : Operator → String
  | .lt => "Lt"
  | .le => "Le"
  | .eq => "Eq"
  | .ne => "Ne"
  | .gt => "Gt"
  | .ge => "Ge"

def Context.inspect : Context → String
  | .topLevel => "TopLevel"
  | .fraction => "Fraction"
  | .exponent => "Exponent"

def Word.inspect (w : Word) : String :=
  let keyword :=
    match w.keyword with
    | some k => wrapped "Some" k.inspect
    | none => "None"
  record "Word" [("name", w.name.inspect), ("keyword", keyword)]

def Token.inspect : Token → String
  | .word w => wrapped "Word" w.inspect
  | .number text => wrapped "Number" (quoteString text)
  | .operator op => wrapped "RelOp" op.inspect
  | .whitespace => "Whitespace"
  | .eof => "Eof"

namespace Lexicon

/-- The table on its own. -/
def inspect (t : Lexicon) : String := openRecord "StringInterner" [("len", toString t.size)]

/-- The table as the lexer's words. -/
def inspectWords (t : Lexicon) : String := record "WordTable" [("interner", t.inspect)]

end Lexicon

namespace BufferPair

/-- The number of loaded bytes in the first and in the second half. -/
def loaded (p : BufferPair) : Nat × Nat :=
  if p.second then (p.idle.size, p.active.size) else (p.active.size, p.idle.size)

def inspect (p : BufferPair) : String :=
  openRecord "DoubleBuffer"
    [("capacity", toString p.capacity), ("active", if p.second then "1" else "0"),
      ("lexeme_start", toString p.start), ("forward", toString p.forward),
      ("crossed", flag p.crossed),
      ("lens", "[" ++ toString p.loaded.1 ++ ", " ++ toString p.loaded.2 ++ "]")]

end BufferPair

def Lexer.inspect (l : Lexer BufferPair) : String :=
  record "Lexer"
    [("buffer", l.cursor.inspect), ("words", toString l.words.size),
      ("position", l.position.inspect), ("poisoned", flag l.poisoned)]

def Options.inspect (o : Options) : String :=
  record "LexOptions"
    [("config", record "LexerConfig" [("buffer_capacity", toString o.capacity)]),
      ("show_whitespace", flag o.showWhitespace)]

end StreamLexer
