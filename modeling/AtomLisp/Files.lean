import AtomLisp.Path
import AtomLisp.Text.Quoted

/-! # Files

  A tree of files that programs read from.

  * `FileTree.resolve` walks a path from the working directory, as a file system does;
  * `FileTree.readText` is the text of a file, with every line end written as a line feed.
-/

namespace AtomLisp

/-! ### Faults -/

/-- Why a path could not be read. -/
inductive FileFault where
  | missing
  | notDirectory
  | isDirectory
  | nameTooLong
  deriving DecidableEq, Repr

namespace FileFault

/-- The number that the system gives the fault. -/
def number : FileFault → Nat
  | missing => 2
  | notDirectory => 20
  | isDirectory => 21
  | nameTooLong => 36

/-- What the system calls the fault. -/
def description : FileFault → String
  | missing => "No such file or directory"
  | notDirectory => "Not a directory"
  | isDirectory => "Is a directory"
  | nameTooLong => "File name too long"

/-- The fault of a path in words. -/
def message (fault : FileFault) (path : Path) : String :=
  s!"[Errno {fault.number}] {fault.description}: {Text.quoted path.toString}"

end FileFault

/-! ### Trees -/

/-- What stands at a place of the tree. -/
inductive FileEntry where
  | file (bytes : ByteArray)
  | directory

/-- Files and directories, each with the names that lead to it from the root. The directories on
the way to a file are there without an entry of their own. -/
structure FileTree where
  /-- The names that lead to the working directory. -/
  home    : List String
  entries : List (List String × FileEntry)

/-- Why a path has no text. -/
inductive ReadFault where
  | file (fault : FileFault)
  /-- The bytes are no UTF-8. -/
  | undecodable
  deriving DecidableEq, Repr

namespace FileTree

/-- What stands at a place. -/
def at? (tree : FileTree) (names : List String) : Option FileEntry :=
  match tree.entries.lookup names with
  | some entry => some entry
  | none =>
    if names.isPrefixOf tree.home || tree.entries.any (fun entry => names.isPrefixOf entry.1) then
      some .directory
    else none

/-- The longest name of a file, in bytes. -/
def maxName : Nat := 255

/-- The longest path, in bytes. -/
def maxPath : Nat := 4095

/-- Takes the steps of a path, one after another, from the place `here`. The root is its own outer
directory. -/
def walk (tree : FileTree) (here : List String) : List String → Except FileFault FileEntry
  | [] => (tree.at? here).elim (.error .missing) .ok
  | name :: steps =>
    match tree.at? here with
    | none => .error .missing
    | some (.file _) => .error .notDirectory
    | some .directory =>
      if name = ".." then tree.walk here.dropLast steps
      else if name.utf8ByteSize ≤ maxName then tree.walk (here ++ [name]) steps
      else .error .nameTooLong

/-- What a path leads to. -/
def resolve (tree : FileTree) (p : Path) : Except FileFault FileEntry :=
  if maxPath < p.toString.utf8ByteSize then .error .nameTooLong
  else tree.walk (if p.root = "" then tree.home else []) p.steps

/-- Writes every line end as a line feed: a carriage return counts, and so does the pair. -/
def unifyLines : List Char → List Char
  | [] => []
  | '\r' :: '\n' :: cs => '\n' :: unifyLines cs
  | '\r' :: cs => '\n' :: unifyLines cs
  | c :: cs => c :: unifyLines cs

/-- The text of the file at a path. -/
def readText (tree : FileTree) (p : Path) : Except ReadFault String :=
  match tree.resolve p with
  | .error fault => .error (.file fault)
  | .ok .directory => .error (.file .isDirectory)
  | .ok (.file bytes) =>
    match String.fromUTF8? bytes with
    | none => .error .undecodable
    | some text => .ok (String.ofList (unifyLines text.toList))

end FileTree

end AtomLisp
