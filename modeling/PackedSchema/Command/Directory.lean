import PackedSchema.Path
import PackedSchema.Text.Utf8

/-!
# Directories

The files that a command works on, as a value: a working directory and the files and directories below
it. Outside of it there is nothing but the directories that lead to it.
-/

namespace PackedSchema.Command

inductive Node
  | file (bytes : List UInt8)
  | directory
  deriving Repr, DecidableEq

structure Directory where
  cwd : Path
  /-- Files and directories, by the names that lead to them from the root. -/
  nodes : List (List String × Node) := []
  deriving Repr, DecidableEq

/-- Why a path cannot be used. -/
inductive FileFault
  | missing (path : String)
  | notADirectory (path : String)
  | isADirectory (path : String)
  | nameTooLong (path : String)
  /-- The path has a null character. -/
  | nullCharacter
  deriving Repr, DecidableEq

def FileFault.message : FileFault → String
  | missing p => "[Errno 2] No such file or directory: " ++ Text.quote p
  | notADirectory p => "[Errno 20] Not a directory: " ++ Text.quote p
  | isADirectory p => "[Errno 21] Is a directory: " ++ Text.quote p
  | nameTooLong p => "[Errno 36] File name too long: " ++ Text.quote p
  | nullCharacter => "embedded null byte"

namespace Directory

/-- The most bytes that a name in a path may have. -/
def nameLimit : Nat := 255

/-- The most bytes that a path may have. -/
def pathLimit : Nat := 4095

/-- What stands at a place. The places on the way to another one are directories. -/
def node? (d : Directory) (place : List String) : Option Node :=
  match d.nodes.lookup place with
  | some n => some n
  | none =>
    if place.isPrefixOf d.cwd.parts || d.nodes.any fun e => place.isPrefixOf e.1 then
      some .directory
    else none

/-- Follows names from a place; `path` is the path they come from. -/
def walk (d : Directory) (path : String) (place : List String) :
    List String → Except FileFault (List String)
  | [] => .ok place
  | n :: ns =>
    match d.node? place with
    | none => .error (.missing path)
    | some (.file _) => .error (.notADirectory path)
    | some .directory =>
      if (Text.Utf8.encode n).length > nameLimit then .error (.nameTooLong path)
      else walk d path (if n == ".." then place.dropLast else place ++ [n]) ns

/-- The place that a path leads to; the last name need not exist. -/
def locate (d : Directory) (p : Path) : Except FileFault (List String) :=
  if p.hasNull then .error .nullCharacter
  else if (Text.Utf8.encode p.text).length > pathLimit then .error (.nameTooLong p.text)
  else d.walk p.text (if p.root == "" then d.cwd.parts else []) p.parts

def read (d : Directory) (p : Path) : Except FileFault (List UInt8) := do
  match d.node? (← d.locate p) with
  | some (.file bytes) => return bytes
  | some .directory => throw (.isADirectory p.text)
  | none => throw (.missing p.text)

/-- Whether a path leads to something. A path that cannot be followed leads to nothing, unless it or one
of its names is too long. -/
def hasNode (d : Directory) (p : Path) : Except FileFault Bool :=
  match d.locate p with
  | .ok place => .ok (d.node? place).isSome
  | .error (.nameTooLong t) => .error (.nameTooLong t)
  | .error _ => .ok false

/-- Puts a file at a place. -/
def put (d : Directory) (place : List String) (bytes : List UInt8) : Directory :=
  { d with nodes := d.nodes.filter (fun e => e.1 != place) ++ [(place, .file bytes)] }

def write (d : Directory) (p : Path) (bytes : List UInt8) : Except FileFault Directory := do
  let place ← d.locate p
  match d.node? place with
  | some .directory => throw (.isADirectory p.text)
  | _ => return d.put place bytes

/-- The files that differ from those of an earlier state, by their places. -/
def changes (before after : Directory) : List (List String × List UInt8) :=
  after.nodes.filterMap fun (place, n) =>
    match n with
    | .directory => none
    | .file bytes => if before.nodes.lookup place = some n then none else some (place, bytes)

/-- The path that leads from the working directory to a place below it. -/
def pathOf? (d : Directory) (place : List String) : Option Path :=
  ({ root := d.cwd.root, parts := place } : Path).relativeTo? d.cwd

end Directory

end PackedSchema.Command
