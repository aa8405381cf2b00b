/-! # Paths

  How files are named: the names that lead to a file, one after another.

  * `Path.ofString` brings a path to its normal form: steps that stay in place are dropped, steps
    up are kept;
  * `Path.toString` writes it.
-/

namespace AtomLisp

/-- A path in normal form. -/
structure Path where
  /-- The slashes that an absolute path starts with; empty for a relative one. -/
  root  : String
  /-- The names that the path leads through; `..` steps up. -/
  steps : List String
  deriving DecidableEq, Repr

namespace Path

/-- The slashes at the start of a path: exactly two are kept, any other number counts as one. -/
def rootOf (cs : List Char) : String :=
  match (cs.takeWhile (· == '/')).length with
  | 0 => ""
  | 2 => "//"
  | _ => "/"

/-- The pieces of a text between slashes. -/
def pieces (cs : List Char) : List String :=
  (cs.foldr (fun c acc =>
    match c, acc with
    | '/', _ => [] :: acc
    | _, piece :: rest => (c :: piece) :: rest
    | _, [] => [[c]]) [[]]).map String.ofList

/-- The normal form of a path: empty names and single dots are dropped. -/
def ofString (s : String) : Path where
  root := rootOf s.toList
  steps := (pieces s.toList).filter fun name => name != "" && name != "."

/-- The text of a path; the working directory is written as a dot. -/
def toString (p : Path) : String :=
  if p.root = "" ∧ p.steps = [] then "." else p.root ++ "/".intercalate p.steps

/-- The path without its last step. -/
def parent (p : Path) : Path := { p with steps := p.steps.dropLast }

/-- The path of a name below a path. -/
def child (p : Path) (name : String) : Path := { p with steps := p.steps ++ [name] }

end Path

end AtomLisp
