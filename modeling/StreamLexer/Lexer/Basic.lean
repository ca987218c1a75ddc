import StreamLexer.Lexer.Automaton
import StreamLexer.Lexer.Number
import StreamLexer.Token.Basic

/-!
# The lexer

A lexer reads tokens off a cursor one at a time. Words, numbers and runs of layout are as long
as they can be, and one character of look-ahead, which is taken back, decides where they end.
The first error poisons the lexer.
-/

namespace StreamLexer

structure Lexer (σ : Type) where
  cursor : σ
  words : Lexicon
  /-- Start of the next token. -/
  position : Position
  poisoned : Bool

/-- A token and where it starts. -/
structure Located where
  token : Token
  start : Position
deriving DecidableEq

namespace Operator

/-- The operator that a byte spells on its own. -/
def ofByte? (b : Byte) : Option Operator :=
  if b = '<'.toUInt8 then some .lt
  else if b = '='.toUInt8 then some .eq
  else if b = '>'.toUInt8 then some .gt
  else none

/-- Whether some operator goes on from this one. -/
def isOpen : Operator → Bool
  | .lt => true
  | .gt => true
  | _ => false

/-- The operator spelled by this one and one byte more. -/
def extend (op : Operator) (b : Byte) : Option Operator :=
  match op with
  | .lt =>
    if b = '='.toUInt8 then some .le
    else if b = '>'.toUInt8 then some .ne
    else none
  | .gt => if b = '='.toUInt8 then some .ge else none
  | _ => none

end Operator

namespace Lexer

variable {σ : Type} [Cursor σ]

/-- The words automaton: it stays for as long as letters and digits come. -/
def wordStep (_ : Unit) (b : Byte) : Option Unit := if b.isWordPart then some () else none

def ofCursor (cursor : σ) : Lexer σ := ⟨cursor, .initial, .start, false⟩

def moveTo (l : Lexer σ) (cursor : σ) : Lexer σ := { l with cursor }

/-- Takes the lexeme under way and moves the position past it. -/
def takeLexeme (l : Lexer σ) : List Byte × Lexer σ :=
  match Cursor.take l.cursor with
  | (bytes, cursor) => (bytes, { l with cursor, position := l.position.advance bytes })

/-- Gives up the lexeme under way if it is about to outgrow the cursor. -/
def relieve (l : Lexer σ) : Lexer σ := if Cursor.crowded l.cursor then l.takeLexeme.2 else l

def finishWord (l : Lexer σ) : Except LexError Token × Lexer σ :=
  match l.takeLexeme with
  | (bytes, l') =>
    match l'.words.resolve (Byte.text bytes) with
    | .ok (word, words) => (.ok (.word word), { l' with words })
    | .error error => (.error (.lexiconFull error), l')

/-- A word whose first letter has been read. -/
def scanWord (l : Lexer σ) : Except LexError Token × Lexer σ :=
  match Cursor.run wordStep () l.cursor with
  | (.char _ _, s) => (l.moveTo (Cursor.pushBack s)).finishWord
  | (.eof _, s) => (l.moveTo s).finishWord
  | (.failed error, s) => (.error (.input error), l.moveTo s)

def finishNumber (l : Lexer σ) : Except LexError Token × Lexer σ :=
  match l.takeLexeme with
  | (bytes, l') => (.ok (.number (Byte.text bytes)), l')

/-- A number whose first digit has been read. It is never cut back to a shorter one: where more
is needed, what stands there instead is an error. -/
def scanNumber (l : Lexer σ) : Except LexError Token × Lexer σ :=
  match Cursor.run NumberState.step .integer l.cursor with
  | (.char q b, s) =>
    match q.expectation with
    | none => (l.moveTo (Cursor.pushBack s)).finishNumber
    | some want =>
      (.error (.unexpectedChar (Char.ofUInt8 b) want (l.position.shift (Cursor.length s - 1))), l.moveTo s)
  | (.eof q, s) =>
    match q.expectation with
    | none => (l.moveTo s).finishNumber
    | some want => (.error (.unexpectedEof want (l.position.shift (Cursor.length s))), l.moveTo s)
  | (.failed error, s) => (.error (.input error), l.moveTo s)

def finishOperator (l : Lexer σ) (op : Operator) : Except LexError Token × Lexer σ :=
  (.ok (.operator op), l.takeLexeme.2)

/-- An operator that starts with `op`, whose byte has been read. -/
def scanOperator (l : Lexer σ) (op : Operator) : Except LexError Token × Lexer σ :=
  if op.isOpen then
    match Cursor.next l.cursor with
    | (.char b, s) =>
      match op.extend b with
      | some op' => (l.moveTo s).finishOperator op'
      | none => (l.moveTo (Cursor.pushBack s)).finishOperator op
    | (.eof, s) => (l.moveTo s).finishOperator op
    | (.failed error, s) => (.error (.input error), l.moveTo s)
  else l.finishOperator op

theorem remaining_takeLexeme (l : Lexer σ) :
    Cursor.remaining l.takeLexeme.2.cursor ≤ Cursor.remaining l.cursor := Cursor.remaining_take _

theorem remaining_relieve (l : Lexer σ) :
    Cursor.remaining l.relieve.cursor ≤ Cursor.remaining l.cursor := by
  unfold relieve; split
  · exact remaining_takeLexeme l
  · exact Nat.le_refl _

/-- A run of layout whose first byte has been read. Its text is not kept, so the run may be of any
length. -/
def scanLayout (l : Lexer σ) : Except LexError Token × Lexer σ :=
  match _h : Cursor.next l.relieve.cursor with
  | (.char b, s) =>
    if b.isLayout then scanLayout (l.relieve.moveTo s)
    else (.ok .whitespace, (l.relieve.moveTo (Cursor.pushBack s)).takeLexeme.2)
  | (.eof, s) => (.ok .whitespace, (l.relieve.moveTo s).takeLexeme.2)
  | (.failed error, s) => (.error (.input error), l.relieve.moveTo s)
termination_by Cursor.remaining l.cursor
decreasing_by exact Nat.lt_of_lt_of_le (Cursor.remaining_next _h) (remaining_relieve l)

/-- What may stand at the start of a token. -/
def tokenStart : Expectation :=
  ⟨.topLevel, "a letter, digit, relational operator or whitespace"⟩

/-- The next token, of which the first byte decides the kind. -/
def scan (l : Lexer σ) : Except LexError Token × Lexer σ :=
  match Cursor.next l.cursor with
  | (.char b, s) =>
    if b.isLetter then (l.moveTo s).scanWord
    else if b.isDigit then (l.moveTo s).scanNumber
    else if b.isLayout then (l.moveTo s).scanLayout
    else
      match Operator.ofByte? b with
      | some op => (l.moveTo s).scanOperator op
      | none => (.error (.unexpectedChar (Char.ofUInt8 b) tokenStart l.position), l.moveTo s)
  | (.eof, s) => (.ok .eof, l.moveTo s)
  | (.failed error, s) => (.error (.input error), l.moveTo s)

/-- The next token with its start. After the first error there is none. -/
def nextLocated (l : Lexer σ) : Except LexError Located × Lexer σ :=
  if l.poisoned then (.error .poisoned, l)
  else
    match l.scan with
    | (.ok token, l') => (.ok ⟨token, l.position⟩, l')
    | (.error error, l') => (.error error, { l' with poisoned := true })

def nextToken (l : Lexer σ) : Except LexError Token × Lexer σ :=
  match l.nextLocated with
  | (.ok located, l') => (.ok located.token, l')
  | (.error error, l') => (.error error, l')

/-- The next token of a sequence that ends before `eof` and behind the first error. -/
def nextItem (l : Lexer σ) : Option (Except LexError Token) × Lexer σ :=
  if l.poisoned then (none, l)
  else
    match l.nextToken with
    | (.ok .eof, l') => (none, l')
    | (result, l') => (some result, l')

end Lexer

end StreamLexer
