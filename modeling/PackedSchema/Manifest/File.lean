import PackedSchema.Layout.Session
import PackedSchema.Manifest.Unpacking

/-!
# Manifests

A manifest records the layouts of a schema for programs that build its data. Its file is a magic word,
a version, the length of the value that follows, both numbers with the lowest byte first, and the value
itself. Bytes behind the value are ignored.
-/

namespace PackedSchema.Manifest

/-! ## The manifest of a schema -/

def fieldValue (f : FieldLayout) : Value :=
  .record [("name", .text f.name), ("type", .text f.ty.text), ("offset", .int f.offset),
    ("size", .int f.size)]

def typeValue : TypeLayout → Value
  | .struct name size alignment tagged fields =>
    .record [("name", .text name), ("kind", .text "struct"), ("size", .int size),
      ("alignment", .int alignment), ("tagged", .bool tagged),
      ("fields", .list (fields.map fieldValue))]
  | .enum name size words variants =>
    .record [("name", .text name), ("kind", .text "enum"), ("size", .int size),
      ("body_words", .int words),
      ("variants", .list (variants.map fun v =>
        .record [("name", .text v.1), ("tag", .int v.2)]))]

/-- The manifest of a table whose declarations have these layouts, with types of any length. -/
def ofLayouts (t : TypeTable) (layouts : List TypeLayout) : Value :=
  .record [("module", (t.schemaName.map Value.text).getD .nil),
    ("types", .list (layouts.map typeValue))]

/-- The manifest of a table whose declarations have these layouts. A type whose count has too many digits
cannot be written, and then there is no manifest. -/
def describe (t : TypeTable) (layouts : List TypeLayout) : Except Failure Value := do
  discard (((layouts.flatMap TypeLayout.types).mapM FieldType.write).mapError Failure.numeral)
  return ofLayouts t layouts

/-- The manifest of a table, all of whose layouts are asked for first. -/
def build (t : TypeTable) : Layout.Query Value := do
  describe t (← Layout.layouts t)

/-! ## Writing -/

def magic : List UInt8 := [0x50, 0x49, 0x45, 0x54, 0x4c, 0x59, 0x54, 0x00]

def version : Nat := 1

/-- The lowest `width` bytes of a number, the lowest first. -/
def littleEndian : (width : Nat) → Nat → List UInt8
  | 0, _ => []
  | w + 1, n => UInt8.ofNat n :: littleEndian w (n / 256)

def write (v : Value) : Except Failure (List UInt8) := do
  let blob ← v.pack
  return magic ++ littleEndian 4 version ++ littleEndian 8 blob.length ++ blob

/-! ## Reading -/

/-- Why a file is not read as a manifest. -/
inductive ReadFailure
  | schema (e : SchemaError)
  /-- The length of the value is no index into memory. -/
  | lengthNoIndex
  /-- The length of the value leaves no index for what stands beside it in memory. -/
  | lengthTooLarge
  /-- There is no memory to set aside for a value of that length. -/
  | outOfMemory
  deriving Repr, DecidableEq

def ReadFailure.message : ReadFailure → String
  | .schema e => e.message
  | .lengthNoIndex => "cannot fit 'int' into an index-sized integer"
  | .lengthTooLarge => "byte string is too large"
  | .outOfMemory => ""

def ofLittleEndian (bytes : List UInt8) : Nat := bytes.foldr (fun b n => b.toNat + 256 * n) 0

/-- That many bytes of the file at `path`, and the rest. -/
def split (path : String) (n : Nat) (bytes : List UInt8) :
    Except ReadFailure (List UInt8 × List UInt8) :=
  if bytes.length < n then .error (.schema { cause := .truncatedManifest path n bytes.length })
  else .ok (bytes.take n, bytes.drop n)

def isLayoutTable (v : Value) : Bool :=
  match v.get? "types" with
  | some (.list types) =>
    types.all fun t =>
      match t.get? "kind" with
      | some (.text k) => k == "struct" || k == "enum"
      | _ => false
  | _ => false

/-- The bytes that stand beside a value in memory. -/
def memoryOverhead : Nat := 33

/-- The bytes that can be addressed, whatever memory there is. -/
def addressable : Nat := Nat.pow 2 47

/-- Sets aside memory for a value of that length, which is done before any of it is read. -/
def checkLength (memory length : Nat) : Except ReadFailure Unit :=
  if Nat.pow 2 63 ≤ length then .error .lengthNoIndex
  else if Nat.pow 2 63 ≤ length + memoryOverhead then .error .lengthTooLarge
  else if memory < length + memoryOverhead then .error .outOfMemory
  else .ok ()

/-- The manifest in the bytes behind the two numbers, of which the second is `length`. -/
def readBlob (path : String) (memory length : Nat) (rest : List UInt8) : Except ReadFailure Value := do
  checkLength memory length
  let (blob, _) ← split path length rest
  match unpack blob with
  | .error f => throw (.schema { cause := .undecodableManifest path f.reason })
  | .ok m =>
    if isLayoutTable m then return m
    else throw (.schema { cause := .undecodableManifest path "metadata is not a layout table" })

/-- The manifest in the bytes of the file at `path`, as far as there is memory for it. -/
def read (path : String) (bytes : List UInt8) (memory : Nat := addressable) : Except ReadFailure Value := do
  if bytes.take magic.length != magic then throw (.schema { cause := .notAManifest path })
  let (v, rest) ← split path 4 (bytes.drop magic.length)
  if ofLittleEndian v != version then
    throw (.schema { cause := .unsupportedVersion path (ofLittleEndian v) version })
  let (n, rest) ← split path 8 rest
  readBlob path memory (ofLittleEndian n) rest

end PackedSchema.Manifest
