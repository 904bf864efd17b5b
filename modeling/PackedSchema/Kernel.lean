import PackedSchema.Diagnostic.Report
import PackedSchema.Layout.Session

/-!
# Kernel text

The declarations and accessors of a schema in the kernel dialect. An alias for references to each
declaration comes first. A struct gives its packed declaration, an accessor that reads all of it, and
one for each field that a single load can read. An enum gives a declaration of its tag and body words,
an accessor for the tag, and a macro for the tag of each variant.

Warnings are told to a report while the types of fields are named.
-/

namespace PackedSchema

/-- A computation that tells what it finds to a report. What was told stays when it fails. -/
abbrev Telling := ExceptT Failure (StateM Report)

namespace Telling

def tell (w : Finding) : Telling Unit := modify fun r => r.add w

/-- The outcome of a computation and the report after it. -/
def exec {α : Type} (m : Telling α) (r : Report) : Except Failure α × Report := m.run.run r

end Telling

namespace Kernel

/-- The kernel type of a word. -/
def wordType : String := "uint"

def aliasOf (name : String) : String := name ++ "Ref"

def packedOf (name : String) : String := name ++ "Packed"

/-- The kernel type of a field, with a count of any length. A reference to a bare declared name has the
alias of that name, every other reference is a word. No field without a type has a layout, so none is
emitted. -/
def typeName (t : TypeTable) : FieldType → String
  | .scalar k => k.kernelName
  | .vector k count => k.kernelName ++ Numeral.text count
  | .named n => packedOf n
  | .ref (.named n) => if (t.lookup n).isSome then aliasOf n else wordType
  | .ref _ => wordType
  | .missing => wordType

/-- The kernel type of a field, with a count of at most `Numeral.limit` digits. -/
def writeType (t : TypeTable) : FieldType → Except Numeral.Fault String
  | .vector k count => return k.kernelName ++ (← Numeral.write count)
  | ty => .ok (typeName t ty)

/-- The kernel type of a field type, if it is one. -/
def typeNameOf (t : TypeTable) (ty : FieldType) : Except Failure String :=
  if ty = .missing then .error .notAFieldType else (writeType t ty).mapError .numeral

/-! ## Warnings -/

/-- A reference to a bare name that is not declared. -/
def undeclaredTarget? (t : TypeTable) (ty : FieldType) : Option String :=
  ty.target?.filter fun n => (t.lookup n).isNone

/-- The warning about a type that its owner holds by reference. -/
def warning? (t : TypeTable) (owner : Owner) (ty : FieldType) : Option Finding :=
  (undeclaredTarget? t ty).map fun n =>
    { severity := .warning, code := Diagnostic.Code.undeclaredTarget.id
      message := Diagnostic.Code.undeclaredTarget.message [("name", n), ("owner", owner.text)] }

/-! ## Items -/

/-- A piece of kernel text that defines one identifier. -/
inductive Item
  /-- The type of references to a declaration. -/
  | refAlias (name : String)
  /-- The packed declaration of a struct, with the types and names of its members. -/
  | packed (name : String) (members : List (String × String))
  /-- The accessor that reads a whole struct. -/
  | reader (name : String)
  /-- The accessor of one field of a struct. -/
  | accessor (name field type : String) (offset : Int)
  /-- The declaration of an enum. -/
  | tagged (name : String) (bodyWords : Int)
  /-- The accessor of the tag of an enum. -/
  | tagReader (name : String)
  /-- The tag of a variant. -/
  | tagMacro (enum variant : String) (tag : Nat)
  deriving Repr, DecidableEq

def members (t : TypeTable) (tagged : Bool) (fields : List FieldLayout) : List (String × String) :=
  (if tagged then [(wordType, tagName)] else []) ++ fields.map fun f => (typeName t f.ty, f.name)

def accessors (t : TypeTable) (name : String) (fields : List FieldLayout) : List Item :=
  (fields.filter fun f => f.ty.isSmall).map fun f =>
    .accessor name f.name (typeName t f.ty) f.offset

/-- The items of one declaration. -/
def itemsOf (t : TypeTable) : TypeLayout → List Item
  | .struct name _ _ tagged fields =>
    .packed name (members t tagged fields) :: .reader name :: accessors t name fields
  | .enum name _ words variants =>
    .tagged name words :: .tagReader name :: variants.map fun v => .tagMacro name v.1 v.2

/-! ## Lines -/

def opening : String := "\x7b"

def closing : String := "\x7d"

/-- The first line of an accessor. -/
def signature (result name declared : String) : String :=
  result ++ " " ++ name ++ "(const device char *buf, " ++ aliasOf declared ++ " ref) " ++ opening

/-- The line of an accessor that loads a value of a type. -/
def load (type address : String) : String :=
  "    return *((const device " ++ type ++ " *)(" ++ address ++ "));"

/-- The address of a byte behind the reference. -/
def address (offset : Int) : Except Numeral.Fault String :=
  if offset = 0 then .ok "buf + ref" else return "buf + ref + " ++ (← Numeral.write offset)

def member (type name : String) : String := "    " ++ type ++ " " ++ name ++ ";"

def Item.lines : Item → Except Numeral.Fault (List String)
  | refAlias name => .ok ["typedef " ++ wordType ++ " " ++ aliasOf name ++ ";"]
  | packed name members =>
    .ok (["struct " ++ packedOf name ++ " " ++ opening] ++ members.map (fun m => member m.1 m.2)
      ++ [closing ++ ";"])
  | reader name =>
    .ok [signature (packedOf name) (name ++ "_read") name, load (packedOf name) "buf + ref", closing]
  | accessor name field type offset => do
    return [signature type (name ++ "_" ++ field) name, load type (← address offset), closing]
  | tagged name words => do
    return ["struct " ++ name ++ " " ++ opening, member wordType tagName,
      "    " ++ wordType ++ " body[" ++ (← Numeral.write words) ++ "];", closing ++ ";"]
  | tagReader name =>
    .ok [signature wordType (name ++ "_tag") name,
      "    return ((const device " ++ name ++ " *)(buf + ref))->" ++ tagName ++ ";", closing]
  | tagMacro enum variant tag => .ok ["#define " ++ enum ++ "_" ++ variant ++ " " ++ Nat.repr tag]

/-- The lines of some items. -/
def linesOf (items : List Item) : Except Numeral.Fault (List String) :=
  return (← items.mapM Item.lines).flatten

/-! ## Emission -/

/-- Names the type of a field. A warning about it is told to the report. -/
def tellType (t : TypeTable) (owner : Owner) (ty : FieldType) : Telling String := do
  (warning? t owner ty).forM Telling.tell
  (writeType t ty).mapError Failure.numeral

/-- Names the types of all fields of a declaration, before any line of it is made. -/
def tellTypes (t : TypeTable) : TypeLayout → Telling (List String)
  | .struct name _ _ _ fields => fields.mapM fun f => tellType t (.field f.name name) f.ty
  | .enum .. => return []

/-- The lines of one declaration, behind an empty one. -/
def tellLines (t : TypeTable) (layout : TypeLayout) : Telling (List String) := do
  discard (tellTypes t layout)
  let lines ← (linesOf (itemsOf t layout)).mapError Failure.numeral
  return "" :: lines

/-- The kernel text of a table whose declarations have these layouts. -/
def tellText (t : TypeTable) (layouts : List TypeLayout) : Telling String := do
  let aliases ← (linesOf (t.decls.map fun d => .refAlias d.name)).mapError Failure.numeral
  let decls ← layouts.mapM (tellLines t)
  return "\n".intercalate (aliases ++ decls.flatten) ++ "\n"

/-- The kernel text without what is told about it. -/
def text (t : TypeTable) (layouts : List TypeLayout) : Except Failure String :=
  ((tellText t layouts).exec {}).1

/-- The kernel text of a table, all of whose layouts are asked for first. -/
def emit (t : TypeTable) : Layout.Query String := do
  text t (← Layout.layouts t)

end Kernel

end PackedSchema
