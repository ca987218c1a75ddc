import StreamLexer.Token.Keyword
import Std.Data.TreeMap

/-!
# The table of words

Every word met so far, under the name of its first occurrence. An array leads from names to
texts and a map from texts to names. A fresh table holds the keywords. A table is asked by callers
that insist on a name, by callers that are ready to be refused, and for words.
-/

namespace StreamLexer

/-- A word by its name, tagged if it is a keyword. -/
structure Word where
  name : Name
  keyword : Option Keyword
deriving DecidableEq, Repr

namespace Word

def ofName (n : Name) : Word := ⟨n, Keyword.ofName? n⟩

def isKeyword (w : Word) : Bool := w.keyword.isSome

end Word

/-- A name beyond the end of a table. -/
structure RangeError where
  size : Nat
  index : Nat
deriving DecidableEq, Repr

def RangeError.message (e : RangeError) : String :=
  "index out of bounds: the len is " ++ toString e.size ++ " but the index is " ++ toString e.index

/-- A table that already holds `count` words and has no name left for another. -/
structure LexiconFull where
  count : Nat
deriving DecidableEq, Repr

def LexiconFull.message (e : LexiconFull) : String :=
  "word table exceeded capacity: " ++ toString e.count ++ " entries, max is 4294967295 (0xFFFFFFFF)"

structure Lexicon where
  texts : Array String
  names : Std.TreeMap String Name

namespace Lexicon

/-- The greatest index a name can have. -/
def maxIndex : Nat := 4294967295

def size (t : Lexicon) : Nat := t.texts.size

def find? (t : Lexicon) (s : String) : Option Name := t.names[s]?

/-- Gives `s` the next name, whether or not it has one already. -/
def push (t : Lexicon) (s : String) : Lexicon := ⟨t.texts.push s, t.names.insert s ⟨t.size⟩⟩

def empty : Lexicon := ⟨#[], ∅⟩

def initial : Lexicon := (Keyword.all.map Keyword.spelling).foldl push empty

/-- The name of `s`, which is added to the table if it is new. -/
def intern (t : Lexicon) (s : String) : Except LexiconFull (Name × Lexicon) :=
  match t.find? s with
  | some n => .ok (n, t)
  | none => if maxIndex < t.size then .error ⟨t.size⟩ else .ok (⟨t.size⟩, t.push s)

def resolve (t : Lexicon) (s : String) : Except LexiconFull (Word × Lexicon) :=
  match t.intern s with
  | .ok (n, t') => .ok (.ofName n, t')
  | .error e => .error e

def keyword? (t : Lexicon) (s : String) : Option Keyword := (t.find? s).bind Keyword.ofName?

def lookup (t : Lexicon) (n : Name) : Except RangeError String :=
  match t.texts[n.index]? with
  | some s => .ok s
  | none => .error ⟨t.size, n.index⟩

/-- The text of a name of this table, and no text for any other. -/
def text (t : Lexicon) (n : Name) : String := t.texts.getD n.index ""

/-! ## Queries -/

inductive Query where
  /-- For a name that has to be there. -/
  | insist (text : String)
  | intern (text : String)
  | resolve (text : String)
deriving DecidableEq

inductive Answer where
  | name (n : Name)
  | word (w : Word)
  | full (error : LexiconFull)
  /-- The caller insisted, and the program ends with this message. -/
  | abort (message : String)
deriving DecidableEq

def Query.text : Query → String
  | .insist text => text
  | .intern text => text
  | .resolve text => text

def Answer.name? : Answer → Option Name
  | .name n => some n
  | .word w => some w.name
  | .full _ => none
  | .abort _ => none

def ask (t : Lexicon) : Query → Answer × Lexicon
  | .insist text =>
    match t.intern text with
    | .ok (n, t') => (.name n, t')
    | .error e => (.abort e.message, t)
  | .intern text =>
    match t.intern text with
    | .ok (n, t') => (.name n, t')
    | .error e => (.full e, t)
  | .resolve text =>
    match t.resolve text with
    | .ok (w, t') => (.word w, t')
    | .error e => (.full e, t)

def after (t : Lexicon) (history : List Query) : Lexicon := history.foldl (fun t q => (t.ask q).2) t

end Lexicon

end StreamLexer
