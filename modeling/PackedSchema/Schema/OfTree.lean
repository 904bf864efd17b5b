import PackedSchema.Failure
import PackedSchema.Source.Place

/-!
# Schemas from syntax trees

A schema is built from the syntax tree of its text. Trees that come from a text are well shaped and
fail only with schema errors; for any other tree the failures say what is missing.
-/

namespace PackedSchema

namespace Source.Tree

/-! ## Types -/

/-- The text of the first name among the children, or the text for none. -/
def nameText (children : List Tree) : String :=
  ((firstName? children).map Leaf.text).getD "None"

def nameSpan (children : List Tree) : Option Span := (firstName? children).bind Leaf.span

/-- A type that is missing below a list of arguments is reported as a fault of the list. -/
def argumentFailure : Failure → Failure
  | .missingType => .missingTypeInArguments
  | f => f

mutual

/-- A type as a schema writes it. -/
def typeText : Tree → Except Failure String
  | leaf _ => .error .leafForType
  | node label children _ =>
    if label == "name_t" then .ok (nameText children)
    else if label == "array_t" then
      match typeTexts children, children.getLast? with
      | elem :: _, some length => return "[" ++ (← elem) ++ "; " ++ length.shown ++ "]"
      | _, _ => .error .missingType
    else if label == "generic_t" then do
      let args ← (typeTexts children).mapM (Except.mapError argumentFailure)
      return nameText children ++ "<" ++ ", ".intercalate args ++ ">"
    else .ok label

/-- The texts of the types among some trees. -/
def typeTexts : List Tree → List (Except Failure String)
  | [] => []
  | t :: ts => if t.isType then typeText t :: typeTexts ts else typeTexts ts

end

/-- The scalar that a type node names. -/
def scalar? : Tree → Option ScalarKind
  | node label children _ =>
    if label == "name_t" then ScalarKind.ofKeyword? (nameText children) else none
  | leaf _ => none

/-- The vector type of an element node and a length. -/
def vectorType (owner : Owner) (elem length : Tree) : Except Failure FieldType :=
  match length with
  | node .. => .error .malformedTree
  | leaf l =>
    match elem.scalar? with
    | none => do throw (.of (.nonScalarElement (← elem.typeText) owner) elem.span)
    | some kind =>
      if l.kind != "INT" then .error (.of (.variableLength kind l.text owner) l.span)
      else
        match Numeral.read l.text with
        | .error f => .error (.numeral f)
        | .ok count =>
          if count = 0 then .error (.of (.zeroLength kind owner) l.span)
          else .ok (.vector kind count)

/-- The wrapper whose argument is held by reference. -/
def referenceWrapper : String := "Ref"

mutual

/-- The field type that a type node stands for; `owner` is who uses it. -/
def fieldType (owner : Owner) : Tree → Except Failure FieldType
  | leaf _ => .error .leafForType
  | node label children span =>
    if label == "name_t" then
      let name := nameText children
      .ok (((ScalarKind.ofKeyword? name).map FieldType.scalar).getD (.named name))
    else if label == "array_t" then
      match children.find? isType, children.getLast? with
      | some elem, some length => vectorType owner elem length
      | _, _ => .error .missingType
    else if label == "generic_t" then
      match nameText children == referenceWrapper, fieldTypes owner children with
      | true, [inner] => inner.map .ref
      | _, _ => do
        let shape ← typeText (node label children span)
        throw (.of (.unsupportedType shape owner) span)
    else .error (.of (.unsupportedType label owner) span)

/-- The field types of the type nodes among some trees. -/
def fieldTypes (owner : Owner) : List Tree → List (Except Failure FieldType)
  | [] => []
  | t :: ts => if t.isType then fieldType owner t :: fieldTypes owner ts else fieldTypes owner ts

end

/-! ## Declarations -/

/-- A field of the struct with that name. -/
def field (struct : String) : Tree → Except Failure Field
  | leaf _ => .error .malformedTree
  | node label children span =>
    match label == "struct_field", firstName? children with
    | true, some name =>
      match children.find? isType with
      | none => .error .missingType
      | some ty => do
        return { name := name.text, ty := ← ty.fieldType (.field name.text struct), loc := span }
    | _, _ => .error (.of (.unnamedField struct) span)

def structDecl (children : List Tree) (span : Option Span) : Except Failure StructDecl := do
  let name := nameText children
  let fields := children.filter fun t => t.hasLabel "struct_field" || t.hasLabel "unnamed_field"
  return { name, fields := ← fields.mapM (field name), loc := span, nameSpan := nameSpan children }

def children : Tree → List Tree
  | leaf _ => []
  | node _ cs _ => cs

/-- A variant of the enum with that name. -/
def variant (enum : String) (t : Tree) : Except Failure Variant := do
  let name := nameText t.children
  let payload := ((t.children.find? (hasLabel "enum_variant_fields")).map children).getD []
  return { name, payload := ← (fieldTypes (.variant name enum) payload).mapM id
           nameSpan := nameSpan t.children, loc := t.span }

def enumDecl (children : List Tree) (span : Option Span) : Except Failure EnumDecl := do
  let name := nameText children
  let variants := children.filter (hasLabel "enum_variant")
  return { name, variants := ← variants.mapM (variant name), loc := span
           nameSpan := nameSpan children }

def decl (t : Tree) : Except Failure Decl :=
  if t.hasLabel "struct_def" then (structDecl t.children t.span).map .struct
  else (enumDecl t.children t.span).map .enum

/-- The declarations among some trees. -/
def decls (ts : List Tree) : Except Failure (List Decl) :=
  (ts.filter fun t => t.hasLabel "struct_def" || t.hasLabel "enum_def").mapM decl

end Source.Tree

open Source (Tree File)

namespace Schema

/-- The schema of a syntax tree: the declarations of its first module block, or of the whole tree if
it has none. -/
def ofTree (t : Tree) : Except Failure Schema :=
  if t.hasLabel "start" then
    match t.children.find? (Tree.hasLabel "module_def") with
    | some block => do
      return { loc := block.span, name := (Tree.firstName? block.children).map Source.Leaf.text
               decls := ← Tree.decls block.children }
    | none => do return { loc := t.span, decls := ← Tree.decls t.children }
  else .error .malformedTree

end Schema

/-! ## Schemas from text -/

namespace Source

/-- A syntax error as a schema error. -/
def SyntaxError.toSchemaError (e : SyntaxError) : SchemaError :=
  { cause := .syntaxError (e.fault.detail?.getD ""), span := some (.point e.line e.col) }

/-- The syntax tree of a schema text. -/
def Tree.ofText (s : String) : Except Failure Tree :=
  ((File.read s).map File.tree).mapError fun e => .schema e.toSchemaError

end Source

/-- The schema that a text spells. -/
def Schema.ofText (s : String) : Except Failure Schema := do
  Schema.ofTree (← Tree.ofText s)

end PackedSchema
