/-!
# Paths

A path is a root, which is empty for a relative path, and the names between its slashes. Empty names
and `.` are dropped when a path is read; `..` stays, because only a directory tree can tell where it
leads. `Path.resolve` settles `..` by the text alone.
-/

namespace PackedSchema

structure Path where
  root : String
  parts : List String
  deriving Repr, DecidableEq

namespace Path

/-- The pieces of a text between the characters `sep`; there is always at least one. -/
def pieces (sep : Char) : List Char → List (List Char)
  | [] => [[]]
  | c :: cs =>
    if c = sep then [] :: pieces sep cs
    else match pieces sep cs with
      | [] => [[c]]
      | p :: ps => (c :: p) :: ps

/-- Two leading slashes are a root of their own; one slash, or more than two, are the plain root. -/
def rootOf : List Char → String
  | '/' :: '/' :: '/' :: _ => "/"
  | '/' :: '/' :: _ => "//"
  | '/' :: _ => "/"
  | _ => ""

def ofText (s : String) : Path :=
  { root := rootOf s.toList
    parts := ((pieces '/' s.toList).map String.ofList).filter fun p => p != "" && p != "." }

/-- The text of a path; the relative path without names is `.`. -/
def text (p : Path) : String :=
  if p.root == "" && p.parts.isEmpty then "." else p.root ++ "/".intercalate p.parts

/-- Whether a path has a null character, which no file can have in its name. -/
def hasNull (p : Path) : Bool := p.parts.any fun n => n.toList.contains '\x00'

/-- The last name, if there is one. -/
def name? (p : Path) : Option String := p.parts.getLast?

/-- Follows names from a place given by its names; `..` goes to the parent, and stays at the root. -/
def follow (start : List String) (names : List String) : List String :=
  names.foldl (fun place n => if n == ".." then place.dropLast else place ++ [n]) start

/-- The path as seen from the working directory, without any `..`. -/
def resolve (cwd p : Path) : Path :=
  if p.root == "" then { cwd with parts := follow cwd.parts p.parts }
  else { root := "/", parts := follow [] p.parts }

/-- The path that leads to a place from a directory that it lies in. -/
def relativeTo? (p dir : Path) : Option Path :=
  if p.root == dir.root && dir.parts.isPrefixOf p.parts then
    some { root := "", parts := p.parts.drop dir.parts.length }
  else none

end Path

end PackedSchema
