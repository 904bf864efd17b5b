import PackedSchema.Layout.Basic

/-!
# Layout rules

How the layout of a declaration follows from the layouts of the declarations that it contains. The rules
leave open how those are found: they hold for every kind of computation `M` that can fail, and what they
need of other declarations they ask for by name.
-/

namespace PackedSchema

namespace Layout

/-- Where a type is used. -/
structure Site where
  owner : Owner
  span : Option Span := none

namespace Site

/-- A type whose layout is asked for by itself. -/
def query : Site := { owner := .query }

def field (struct : String) (f : Field) : Site := { owner := .field f.name struct, span := f.loc }

def variant (enum : String) (v : Variant) : Site := { owner := .variant v.name enum, span := v.loc }

end Site

/-! ## Names -/

def resolve (t : TypeTable) (name : String) (site : Site) : Except Failure Decl :=
  match t.lookup name with
  | some d => .ok d
  | none => .error (.of (.unresolvedType name site.owner) site.span)

def resolveStruct (t : TypeTable) (name : String) : Except Failure StructDecl := do
  match ← resolve t name .query with
  | .struct d => .ok d
  | .enum _ => .error (.notAStruct name)

def resolveEnum (t : TypeTable) (name : String) : Except Failure EnumDecl := do
  match ← resolve t name .query with
  | .struct _ => .error (.notAnEnum name)
  | .enum d => .ok d

/-! ## Rules -/

/-- What is computed of every declaration by its name. -/
structure Parts (M : Type → Type) where
  shape : String → M StructShape
  /-- The alignment of a struct. -/
  alignment : String → M Int
  /-- The bytes that the largest variant of an enum spans, with the tag. -/
  extent : String → M Int

/-- The fields of a struct start behind its tag word. -/
def startShape (t : TypeTable) (name : String) : StructShape :=
  { fields := [], size := if t.isTagged name then word else 0 }

/-- Where the payload of a variant starts: behind the tag, unless its leading type has the tag word
inside. -/
def payloadStart (payload : List FieldType) : Int :=
  match payload with
  | .named _ :: _ => 0
  | _ => word

namespace Parts

variable {M : Type → Type} [Monad M] [MonadLiftT (Except Failure) M] (t : TypeTable) (p : Parts M)

def structOffsets (name : String) : M (List FieldLayout) := return (← p.shape name).fields

def structSize (name : String) : M Int := return (← p.shape name).size

def bodyWords (name : String) : M Int := return Layout.bodyWords (← p.extent name)

def enumSize (name : String) : M Int := return word + word * (← p.bodyWords name)

/-- The size of a declared type. -/
def declSize (name : String) : M Int := do
  match ← resolve t name .query with
  | .struct _ => p.structSize name
  | .enum _ => p.enumSize name

def sizeOf (site : Site) : FieldType → M Int
  | .scalar _ => return word
  | .vector _ count => return word * count
  | .ref _ => return word
  | .named name => do
    let _ ← resolve t name site
    p.declSize t name
  | .missing => liftM (m := Except Failure) (.error .notAFieldType)

def alignmentOf (site : Site) : FieldType → M Int
  | .scalar _ => return word
  | .vector _ count => return word * count
  | .ref _ => return word
  | .named name => do
    match ← resolve t name site with
    | .enum _ => liftM (m := Except Failure) (.error (.of (.inlineEnum name site.owner) site.span))
    | .struct _ => p.alignment name
  | .missing => liftM (m := Except Failure) (.error .notAFieldType)

/-- Puts a field behind the fields of a shape. -/
def placeField (struct : String) (shape : StructShape) (f : Field) : M StructShape := do
  -- If both fail, it is the alignment that is reported: an enum has a size, but no alignment.
  let alignment ← p.alignmentOf t (.field struct f) f.ty
  let size ← p.sizeOf t (.field struct f) f.ty
  let offset := shape.size + (← padding shape.size alignment)
  return { fields := shape.fields ++ [{ name := f.name, ty := f.ty, offset, size, alignment }]
           size := offset + size }

def shapeOf (d : StructDecl) : M StructShape :=
  d.fields.foldlM (p.placeField t d.name) (startShape t d.name)

/-- Raises an alignment to that of a field. -/
def alignField (struct : String) (alignment : Int) (f : Field) : M Int :=
  return max alignment (← p.alignmentOf t (.field struct f) f.ty)

def structAlignmentOf (d : StructDecl) : M Int :=
  d.fields.foldlM (p.alignField t d.name) (if t.isTagged d.name then word else 1)

/-- Puts a type behind the payload that ends at an offset. -/
def appendPayload (site : Site) (offset : Int) (ty : FieldType) : M Int :=
  return offset + (← p.sizeOf t site ty)

/-- The end of a variant. -/
def variantEnd (enum : String) (v : Variant) : M Int :=
  v.payload.foldlM (p.appendPayload t (.variant enum v)) (payloadStart v.payload)

/-- Raises an extent to that of a variant. -/
def coverVariant (enum : String) (extent : Int) (v : Variant) : M Int :=
  return max extent (← p.variantEnd t enum v)

def extentOf (d : EnumDecl) : M Int := d.variants.foldlM (p.coverVariant t d.name) word

def structLayout (name : String) : M TypeLayout := do
  let size ← p.structSize name
  let alignment ← p.alignment name
  return .struct name size alignment (t.isTagged name) (← p.structOffsets name)

def enumLayout (d : EnumDecl) (name : String) : M TypeLayout := do
  let size ← p.enumSize name
  return .enum name size (← p.bodyWords name) (d.variants.map Variant.name |>.zipIdx firstTag)

/-- The layout of a declaration. -/
def layoutOf (name : String) : M TypeLayout := do
  match ← resolve t name .query with
  | .struct _ => p.structLayout t name
  | .enum d => p.enumLayout d name

end Parts

end Layout

end PackedSchema
