import PackedSchema.Layout.Rules

/-!
# Layout sessions

Layouts are asked for in a session, which remembers what it has computed for each declaration and which
declarations it is computing. A declaration that is reached while it is being computed is refused. A
question that fails leaves its declarations marked, so a later question about them fails too.
-/

namespace PackedSchema

namespace Layout

structure Session where
  shapes : List (String × StructShape) := []
  alignments : List (String × Int) := []
  extents : List (String × Int) := []
  inProgress : List String := []
  deriving Repr, DecidableEq

/-- A question to a session: an answer or a failure, and in both cases the session afterwards. -/
abbrev Query := ExceptT Failure (StateM Session)

/-! ## Computing once -/

/-- Marks a declaration as being computed. -/
def enter (d : Decl) : Query Unit := do
  if (← get).inProgress.contains d.name then throw (.of (.recursiveLayout [d.name]) d.site)
  modify fun s => { s with inProgress := d.name :: s.inProgress }

def leave (name : String) : Query Unit :=
  modify fun s => { s with inProgress := s.inProgress.filter fun n => n != name }

/-- The memory of a session for one part of its declarations. -/
structure Memory (α : Type) where
  known : Session → String → Option α
  record : Session → String → α → Session

namespace Memory

def shapes : Memory StructShape where
  known s name := s.shapes.lookup name
  record s name shape := { s with shapes := (name, shape) :: s.shapes }

def alignments : Memory Int where
  known s name := s.alignments.lookup name
  record s name alignment := { s with alignments := (name, alignment) :: s.alignments }

def extents : Memory Int where
  known s name := s.extents.lookup name
  record s name extent := { s with extents := (name, extent) :: s.extents }

/-- Recalls a part of a declaration, or computes it while the declaration is marked. -/
def once {α δ : Type} (memory : Memory α) (name : String) (found : Except Failure δ)
    (decl : δ → Decl) (compute : δ → Query α) : Query α := do
  match memory.known (← get) name with
  | some a => return a
  | none =>
    let d ← found
    enter (decl d)
    -- The mark is not taken away if this fails.
    let a ← compute d
    leave name
    modify fun s => memory.record s name a
    return a

end Memory

/-- Parts that follow names to a depth. A name below that depth is taken to contain itself. -/
def parts (t : TypeTable) : Nat → Parts Query
  | 0 =>
    { shape := tooDeep, alignment := tooDeep, extent := tooDeep }
  | depth + 1 =>
    let below := parts t depth
    { shape := fun name =>
        Memory.shapes.once name (resolveStruct t name) .struct (below.shapeOf t)
      alignment := fun name =>
        Memory.alignments.once name (resolveStruct t name) .struct (below.structAlignmentOf t)
      extent := fun name =>
        Memory.extents.once name (resolveEnum t name) .enum (below.extentOf t) }
where
  tooDeep {α : Type} (name : String) : Query α := throw (.of (.recursiveLayout [name]) none)

/-- Parts that follow names deep enough: among one name more than there are declarations some name
comes twice, and the second time it is refused because it is being computed. -/
def deep (t : TypeTable) : Parts Query := parts t (t.decls.length + 1)

/-! ## Questions -/

variable (t : TypeTable)

def size (ty : FieldType) (site : Site := .query) : Query Int := (deep t).sizeOf t site ty

def alignment (ty : FieldType) (site : Site := .query) : Query Int := (deep t).alignmentOf t site ty

def structOffsets (name : String) : Query (List FieldLayout) := (deep t).structOffsets name

def structSize (name : String) : Query Int := (deep t).structSize name

def structAlignment (name : String) : Query Int := (deep t).alignment name

def enumExtent (name : String) : Query Int := (deep t).extent name

def enumBodyWords (name : String) : Query Int := (deep t).bodyWords name

def enumSize (name : String) : Query Int := (deep t).enumSize name

/-- The layout of a declaration. -/
def layoutOf (name : String) : Query TypeLayout := (deep t).layoutOf t name

/-- The layouts of all declarations in order. -/
def layouts : Query (List TypeLayout) := t.order.mapM (layoutOf t)

end Layout

end PackedSchema
