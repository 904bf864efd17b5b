import PackedSchema.Schema.Dump

/-!
# The message catalogue

Every diagnostic has a code, and every code has one entry: its severity, the template of its message,
its category and a note. A template is filled from named arguments.
-/

namespace PackedSchema.Diagnostic

/-! ## Templates -/

/-- A piece of a message template: text, or a slot that an argument fills. -/
inductive Piece
  | text (s : String)
  | slot (name : String)
  deriving Repr, DecidableEq

abbrev Template := List Piece

/-- Named arguments of a message, already as text. -/
abbrev Arguments := List (String × String)

namespace Template

/-- A template as it is written, its slots between braces. -/
def source (t : Template) : String :=
  String.join (t.map fun
    | .text s => s
    | .slot n => "\x7b" ++ n ++ "\x7d")

/-- Fills every slot; the error is the first slot that no argument fills. -/
def fill (args : Arguments) : Template → Except String String
  | [] => .ok ""
  | .text s :: t => return s ++ (← fill args t)
  | .slot n :: t =>
    match args.lookup n with
    | none => .error n
    | some s => return s ++ (← fill args t)

end Template

/-! ## Codes -/

inductive Severity
  | error | warning
  deriving Repr, DecidableEq

def Severity.name : Severity → String
  | .error => "error"
  | .warning => "warning"

def Severity.dump : Severity → String
  | .error => dumpChoice "Severity" "ERROR" "error"
  | .warning => dumpChoice "Severity" "WARNING" "warning"

inductive Category
  | parse | resolution | shape | manifest
  deriving Repr, DecidableEq

def Category.name : Category → String
  | .parse => "parse"
  | .resolution => "resolution"
  | .shape => "shape"
  | .manifest => "manifest"

def Category.dump : Category → String
  | .parse => dumpChoice "Category" "PARSE" "parse"
  | .resolution => dumpChoice "Category" "RESOLUTION" "resolution"
  | .shape => dumpChoice "Category" "SHAPE" "shape"
  | .manifest => dumpChoice "Category" "MANIFEST" "manifest"

inductive Code
  | syntaxError | unnamedField | unsupportedType | variableLength | nonScalarElement | zeroLength
  | unresolvedType | duplicateType | duplicateField | duplicateVariant | reservedField
  | recursiveLayout | unsupportedPayload | inlineEnum
  | undeclaredTarget
  | notAManifest | unsupportedVersion | truncatedManifest | undecodableManifest
  deriving Repr, DecidableEq

namespace Code

/-- All codes in the order of the catalogue. -/
def all : List Code :=
  [syntaxError, unnamedField, unsupportedType, variableLength, nonScalarElement, zeroLength,
    unresolvedType, duplicateType, duplicateField, duplicateVariant, reservedField,
    recursiveLayout, unsupportedPayload, inlineEnum,
    undeclaredTarget,
    notAManifest, unsupportedVersion, truncatedManifest, undecodableManifest]

def id : Code → String
  | syntaxError => "CE0001"
  | unnamedField => "CE0002"
  | unsupportedType => "CE0003"
  | variableLength => "CE0004"
  | nonScalarElement => "CE0005"
  | zeroLength => "CE0006"
  | unresolvedType => "CE0101"
  | duplicateType => "CE0104"
  | duplicateField => "CE0105"
  | duplicateVariant => "CE0106"
  | reservedField => "CE0107"
  | recursiveLayout => "CE0201"
  | unsupportedPayload => "CE0202"
  | inlineEnum => "CE0203"
  | undeclaredTarget => "CW0101"
  | notAManifest => "CE3001"
  | unsupportedVersion => "CE3002"
  | truncatedManifest => "CE3003"
  | undecodableManifest => "CE3004"

def ofId? (s : String) : Option Code := all.find? fun c => c.id == s

def severity : Code → Severity
  | undeclaredTarget => .warning
  | _ => .error

def category : Code → Category
  | syntaxError | unnamedField | unsupportedType | variableLength | nonScalarElement
  | zeroLength => .parse
  | unresolvedType | duplicateType | duplicateField | duplicateVariant | reservedField
  | undeclaredTarget => .resolution
  | recursiveLayout | unsupportedPayload | inlineEnum => .shape
  | notAManifest | unsupportedVersion | truncatedManifest | undecodableManifest => .manifest

def template : Code → Template
  | syntaxError => [.text "syntax error: ", .slot "detail"]
  | unnamedField => [.text "missing field name in struct '", .slot "struct", .text "'"]
  | unsupportedType =>
    [.text "unsupported field type '", .slot "shape", .text "' in ", .slot "owner"]
  | variableLength =>
    [.text "variable-length array '[", .slot "elem", .text "; ", .slot "length", .text "]' in ",
      .slot "owner"]
  | nonScalarElement =>
    [.text "non-scalar array element '", .slot "elem", .text "' in ", .slot "owner"]
  | zeroLength => [.text "zero-length array '[", .slot "elem", .text "; 0]' in ", .slot "owner"]
  | unresolvedType =>
    [.text "unresolved type '", .slot "name", .text "' referenced by ", .slot "owner"]
  | duplicateType => [.text "type '", .slot "name", .text "' is declared more than once"]
  | duplicateField =>
    [.text "duplicate field '", .slot "field", .text "' in struct '", .slot "struct", .text "'"]
  | duplicateVariant =>
    [.text "duplicate variant '", .slot "variant", .text "' in enum '", .slot "enum", .text "'"]
  | reservedField =>
    [.text "field name '", .slot "field", .text "' is reserved in variant payload struct '",
      .slot "struct", .text "'"]
  | recursiveLayout => [.text "recursive type layout: ", .slot "cycle"]
  | unsupportedPayload =>
    [.text "variant '", .slot "enum", .text "::", .slot "variant",
      .text "' has an unsupported payload: ", .slot "reason"]
  | inlineEnum =>
    [.text "enum '", .slot "name", .text "' cannot be laid out inline in ", .slot "owner"]
  | undeclaredTarget =>
    [.text "reference to undeclared type '", .slot "name", .text "' in ", .slot "owner",
      .text " is emitted as plain uint"]
  | notAManifest => [.text "'", .slot "path", .text "' is not a layout manifest"]
  | unsupportedVersion =>
    [.text "manifest '", .slot "path", .text "' has version ", .slot "version",
      .text ", supported version is ", .slot "supported"]
  | truncatedManifest =>
    [.text "manifest '", .slot "path", .text "' is truncated: expected ", .slot "expected",
      .text " bytes, got ", .slot "actual"]
  | undecodableManifest =>
    [.text "manifest '", .slot "path", .text "' could not be decoded: ", .slot "reason"]

def note : Code → String
  | syntaxError => "The schema text does not match the declaration grammar."
  | unnamedField => "Every struct field must be written as `name: type`."
  | unsupportedType => "Only scalars, [scalar; N] vectors, type names and Ref<T> are supported."
  | variableLength => "Array lengths must be integer literals."
  | nonScalarElement => "Array elements must be one of the scalar kinds."
  | zeroLength => "Vectors must hold at least one element."
  | unresolvedType => "An inline type name must be declared in the same schema."
  | duplicateType => "Struct and enum names share one namespace."
  | reservedField => "Structs that lead an enum variant start with a tag word of that name."
  | recursiveLayout =>
    "Inline types cannot contain themselves; use Ref<T> to break the cycle."
  | unsupportedPayload =>
    "A variant carries at most one payload field; an inline type may only lead it."
  | inlineEnum => "Enums have no field alignment; reference them with Ref<T> instead."
  | duplicateField | duplicateVariant | undeclaredTarget
  | notAManifest | unsupportedVersion | truncatedManifest | undecodableManifest => ""

/-- The message of a code. The arguments of a cause fill every slot of its template; a slot that is
not filled is shown by its name. -/
def message (c : Code) (args : Arguments) : String :=
  match c.template.fill args with
  | .ok s => s
  | .error slot => slot

end Code

/-! ## Entries -/

/-- An entry of a catalogue. -/
structure Entry where
  code : String
  severity : Severity
  text : String
  category : Category
  note : String
  deriving Repr, DecidableEq

def Entry.dump (e : Entry) : String :=
  dumpRecord "ErrorMessage" [("code", Text.quote e.code), ("severity", e.severity.dump),
    ("text", Text.quote e.text), ("category", e.category.dump), ("doc", Text.quote e.note)]

def Code.entry (c : Code) : Entry :=
  ⟨c.id, c.severity, c.template.source, c.category, c.note⟩

def entries : List Entry := Code.all.map Code.entry

/-- Two entries of one code. -/
structure DuplicateEntry where
  present : Entry
  added : Entry

def DuplicateEntry.message (d : DuplicateEntry) : String :=
  "duplicate error code " ++ d.present.dump ++ " in " ++ d.added.dump

/-- A catalogue with one entry more, unless it has that code. -/
def addEntry (es : List Entry) (e : Entry) : Except DuplicateEntry (List Entry) :=
  match es.find? fun p => p.code == e.code with
  | some p => .error ⟨p, e⟩
  | none => .ok (es ++ [e])

/-! ## Messages by code text -/

/-- What makes a message from named arguments. It has parameters of its own, whose names the arguments
cannot take. -/
inductive Maker
  /-- Fills the template of a code. -/
  | text
  /-- Adds a finding to a report. -/
  | report
  /-- Makes an error. -/
  | error
  deriving Repr, DecidableEq

namespace Maker

def label : Maker → String
  | text => "_fmt"
  | report => "emit"
  | error => "SchemaError.__init__"

def parameters : Maker → List String
  | text => ["code"]
  | report => ["r", "em", "span"]
  | error => ["self", "code", "span"]

end Maker

/-- Why a message that is asked for by the text of its code cannot be made. -/
inductive LookupFault
  | unknownCode (id : String)
  | missingArgument (name : String) (code : Code)
  /-- An argument has the name of a parameter. -/
  | repeatedArgument (name : String) (maker : Maker)
  deriving Repr, DecidableEq

def LookupFault.message : LookupFault → String
  | .unknownCode id => "unknown error code: " ++ id
  | .repeatedArgument name maker =>
    maker.label ++ "() got multiple values for argument '" ++ name ++ "'"
  | .missingArgument name code =>
    "missing text key '" ++ name ++ "' for " ++ code.id ++ " (needed by: "
      ++ Text.quote code.template.source ++ ")"

/-- Refuses the first argument that has the name of a parameter. -/
def Maker.checkArguments (m : Maker) (args : Arguments) : Except LookupFault Unit :=
  match args.find? fun a => m.parameters.contains a.1 with
  | some a => .error (.repeatedArgument a.1 m)
  | none => .ok ()

/-- The message of the code with that text, filled from the arguments. -/
def messageOf (id : String) (args : Arguments) : Except LookupFault String := do
  Maker.text.checkArguments args
  match Code.ofId? id with
  | none => .error (.unknownCode id)
  | some c => (c.template.fill args).mapError fun slot => .missingArgument slot c

end PackedSchema.Diagnostic
