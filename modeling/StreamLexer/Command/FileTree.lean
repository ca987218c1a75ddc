import StreamLexer.Input.Source

/-!
# Files and paths

A tree of files below a working directory and the rules by which a path is looked up in it,
component by component. Above the working directory nothing is known: what lies there is a
directory without entries.
-/

namespace StreamLexer

inductive FileTree where
  | file (bytes : List Byte)
  | directory (entries : List (String × FileTree))

namespace FileTree

def notFound : Fault := ⟨.notFound, "No such file or directory (os error 2)"⟩

def notADirectory : Fault := ⟨.notADirectory, "Not a directory (os error 20)"⟩

def isADirectory : Fault := ⟨.isADirectory, "Is a directory (os error 21)"⟩

def nameTooLong : Fault := ⟨.nameTooLong, "File name too long (os error 36)"⟩

/-- The most bytes a component of a path may have. -/
def maxName : Nat := 255

/-- The most bytes a whole path may have. -/
def maxPath : Nat := 4095

def empty : FileTree := .directory []

/-- Follows `components` down from `here`; `above` holds the directories passed on the way. -/
def descend (above : List FileTree) (here : FileTree) : List String → Except Fault FileTree
  | [] => .ok here
  | name :: rest =>
    match here with
    | .file _ => .error notADirectory
    | .directory entries =>
      if name = "" ∨ name = "." then descend above here rest
      else if name = ".." then
        match above with
        | [] => descend [] empty rest
        | parent :: higher => descend higher parent rest
      else if maxName < name.utf8ByteSize then .error nameTooLong
      else
        match entries.lookup name with
        | none => .error notFound
        | some child => descend (here :: above) child rest

/-- What a path leads to. -/
def find (tree : FileTree) (path : String) : Except Fault FileTree :=
  if path = "" then .error notFound
  else if maxPath < path.utf8ByteSize then .error nameTooLong
  else descend [] (if path.startsWith "/" then empty else tree) (path.splitOn "/")

/-- A source for the contents of what was opened. A directory opens, but it cannot be read. -/
def source : FileTree → Source
  | .file bytes => .ofBytes bytes
  | .directory _ => .ofEvents [.fail isADirectory] none

def openFile (tree : FileTree) (path : String) : Except Fault Source :=
  match tree.find path with
  | .ok found => .ok found.source
  | .error fault => .error fault

/-- Puts `leaf` at the end of a chain of directories, which are made where they are missing. -/
def insert (tree : FileTree) (path : List String) (leaf : FileTree) : FileTree :=
  match path, tree with
  | [], _ => leaf
  | name :: rest, .file _ => .directory [(name, insert empty rest leaf)]
  | name :: rest, .directory entries =>
    .directory ((name, insert ((entries.lookup name).getD empty) rest leaf) ::
      entries.filter fun entry => entry.1 != name)

end FileTree

end StreamLexer
