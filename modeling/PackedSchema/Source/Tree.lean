import PackedSchema.Schema.Dump

/-!
# Syntax trees

A syntax tree is a labelled node with children, or a leaf with the text of a token. Reading a schema
gives trees of fixed shapes; trees made by hand may have any.
-/

namespace PackedSchema.Source

structure Leaf where
  kind : String
  text : String
  span : Option Span := none
  deriving Repr, DecidableEq, Inhabited

inductive Tree
  | node (label : String) (children : List Tree) (span : Option Span)
  | leaf (l : Leaf)
  deriving Inhabited

namespace Tree

def span : Tree → Option Span
  | node _ _ s => s
  | leaf l => l.span

/-! ## Outline -/

def indent (level : Nat) : String := String.ofList (List.replicate (2 * level) ' ')

mutual

/-- The outline of a node at a level: one line per node and leaf, two blanks per level. A leaf that is
an only child stands on the line of its parent, behind a tab. -/
def outlineAt (level : Nat) : Tree → String
  | leaf l => indent level ++ l.text ++ "\n"
  | node label children _ => indent level ++ label ++ outlineChildren level children

def outlineChildren (level : Nat) : List Tree → String
  | [leaf l] => "\t" ++ l.text ++ "\n"
  | children => "\n" ++ outlineList (level + 1) children

def outlineList (level : Nat) : List Tree → String
  | [] => ""
  | t :: ts => outlineAt level t ++ outlineList level ts

end

def outline (t : Tree) : String := t.outlineAt 0

/-! ## Dump -/

mutual

/-- The tree on one line. -/
def dump : Tree → String
  | leaf l => "Token(" ++ Text.quote l.kind ++ ", " ++ Text.quote l.text ++ ")"
  | node label children _ =>
    "Tree(" ++ Text.quote label ++ ", " ++ dumpList (dumpChildren children) ++ ")"

def dumpChildren : List Tree → List String
  | [] => []
  | t :: ts => dump t :: dumpChildren ts

end

/-- What a message shows of a tree: the text of a leaf, the dump of a node. -/
def shown : Tree → String
  | leaf l => l.text
  | t => t.dump

/-! ## Navigation -/

def leaf? : Tree → Option Leaf
  | leaf l => some l
  | node .. => none

/-- The first leaf that is a name. -/
def firstName? (children : List Tree) : Option Leaf :=
  (children.filterMap leaf?).find? fun l => l.kind == "NAME"

/-- Whether a tree is a node with that label. -/
def hasLabel (label : String) : Tree → Bool
  | node l _ _ => l == label
  | leaf _ => false

/-- Whether a tree is a node for a type. -/
def isType (t : Tree) : Bool :=
  t.hasLabel "name_t" || t.hasLabel "array_t" || t.hasLabel "generic_t"

end Tree

end PackedSchema.Source
