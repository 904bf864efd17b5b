import PackedSchema.Containment
import PackedSchema.Diagnostic.SchemaError

/-!
# Type tables

A type table holds the declarations of a schema that is well formed: names are distinct, every variant
has at most one payload field, and no type contains itself inline. Names that are only used need not
be declared; they matter when a layout asks for them.

A struct that leads the payload of some variant is tagged: it starts with the tag word of the enum.
-/

namespace PackedSchema

structure TypeTable where
  schemaName : Option String
  decls : List Decl
  /-- The names that lead the payload of a variant, each once. -/
  tagged : List String
  deriving Repr, DecidableEq

/-- The name of the tag word in structs and enums. -/
def tagName : String := "tag"

namespace TypeTable

def lookup (t : TypeTable) (name : String) : Option Decl := t.decls.find? fun d => d.name == name

def isTagged (t : TypeTable) (name : String) : Bool := t.tagged.contains name

def order (t : TypeTable) : List String := t.decls.map Decl.name

/-! ## Checks -/

/-- The inline name that leads the payload of a variant. -/
def leadingName? (v : Variant) : Option String := v.payload.head?.bind FieldType.inlineName?

def taggedNames (enums : List EnumDecl) : List String :=
  (enums.flatMap fun e => e.variants.filterMap leadingName?).eraseDups

/-- Declarations have different names from each other and from `seen`. -/
def checkNames (seen : List String) : List Decl → Except SchemaError Unit
  | [] => .ok ()
  | d :: ds =>
    if seen.contains d.name then .error ⟨.duplicateType d.name, d.site⟩
    else checkNames (d.name :: seen) ds

/-- Fields have different names, and none takes the name of the tag word of a tagged struct. -/
def checkFields (struct : String) (tagged : Bool) (seen : List String) :
    List Field → Except SchemaError Unit
  | [] => .ok ()
  | f :: fs =>
    if tagged && f.name == tagName then .error ⟨.reservedField f.name struct, f.loc⟩
    else if seen.contains f.name then .error ⟨.duplicateField f.name struct, f.loc⟩
    else checkFields struct tagged (f.name :: seen) fs

/-- What is wrong with a payload. -/
def payloadFault? (payload : List FieldType) : Option PayloadFault :=
  match (payload.drop 1).findSome? FieldType.inlineName? with
  | some n => some (.inlineNotLeading n)
  | none => if payload.length > 1 then some (.tooMany payload.length) else none

/-- Variants have different names, and payloads of at most one field. -/
def checkVariants (enum : String) (seen : List String) : List Variant → Except SchemaError Unit
  | [] => .ok ()
  | v :: vs =>
    if seen.contains v.name then .error ⟨.duplicateVariant v.name enum, v.nameSpan⟩
    else
      match payloadFault? v.payload with
      | some fault => .error ⟨.unsupportedPayload enum v.name fault, v.loc⟩
      | none => checkVariants enum (v.name :: seen) vs

/-- No declaration contains itself inline. -/
def checkContainment (decls : List Decl) : Except SchemaError Unit :=
  match (Containment.ofDecls decls).findCycle with
  | [] => .ok ()
  | head :: rest =>
    .error ⟨.recursiveLayout (head :: rest), (decls.find? fun d => d.name == head).bind Decl.site⟩

/-- The table of a schema, or the first rule it breaks. -/
def ofSchema (s : Schema) : Except SchemaError TypeTable := do
  let tagged := taggedNames s.enums
  checkNames [] s.decls
  s.structs.forM fun d => checkFields d.name (tagged.contains d.name) [] d.fields
  s.enums.forM fun d => checkVariants d.name [] d.variants
  checkContainment s.decls
  return { schemaName := s.name, decls := s.decls, tagged }

end TypeTable

end PackedSchema
