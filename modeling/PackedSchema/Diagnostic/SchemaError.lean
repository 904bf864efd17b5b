import PackedSchema.Diagnostic.Catalog

/-!
# Schema errors

What is wrong with a schema or a manifest: a cause and, where there is one, the place in the source.
-/

namespace PackedSchema

/-- Where a type is used, as a message names it. -/
inductive Owner
  | field (name struct : String)
  | variant (name enum : String)
  | described (text : String)
  deriving Repr, DecidableEq

namespace Owner

def text : Owner → String
  | field f s => "field '" ++ f ++ "' of struct '" ++ s ++ "'"
  | variant v e => "variant '" ++ e ++ "::" ++ v ++ "'"
  | described t => t

/-- The owner of a type whose layout is asked for by itself. -/
def query : Owner := described "layout query"

end Owner

/-- Why the payload of a variant is refused. -/
inductive PayloadFault
  | inlineNotLeading (name : String)
  | tooMany (count : Nat)
  deriving Repr, DecidableEq

def PayloadFault.text : PayloadFault → String
  | .inlineNotLeading n => "inline type '" ++ n ++ "' is not the leading field"
  | .tooMany n => Nat.repr n ++ " fields given, at most one is supported"

inductive Cause
  | syntaxError (detail : String)
  | unnamedField (struct : String)
  | unsupportedType (shape : String) (owner : Owner)
  | variableLength (elem : ScalarKind) (length : String) (owner : Owner)
  | nonScalarElement (elem : String) (owner : Owner)
  | zeroLength (elem : ScalarKind) (owner : Owner)
  | unresolvedType (name : String) (owner : Owner)
  | duplicateType (name : String)
  | duplicateField (field struct : String)
  | duplicateVariant (variant enum : String)
  | reservedField (field struct : String)
  /-- A chain of inline types that leads from the first name back to it. -/
  | recursiveLayout (names : List String)
  | unsupportedPayload (enum variant : String) (reason : PayloadFault)
  | inlineEnum (name : String) (owner : Owner)
  | notAManifest (path : String)
  | unsupportedVersion (path : String) (version supported : Nat)
  | truncatedManifest (path : String) (expected actual : Nat)
  | undecodableManifest (path reason : String)
  deriving Repr, DecidableEq

namespace Cause

open Diagnostic (Code Arguments)

def code : Cause → Code
  | syntaxError .. => .syntaxError
  | unnamedField .. => .unnamedField
  | unsupportedType .. => .unsupportedType
  | variableLength .. => .variableLength
  | nonScalarElement .. => .nonScalarElement
  | zeroLength .. => .zeroLength
  | unresolvedType .. => .unresolvedType
  | duplicateType .. => .duplicateType
  | duplicateField .. => .duplicateField
  | duplicateVariant .. => .duplicateVariant
  | reservedField .. => .reservedField
  | recursiveLayout .. => .recursiveLayout
  | unsupportedPayload .. => .unsupportedPayload
  | inlineEnum .. => .inlineEnum
  | notAManifest .. => .notAManifest
  | unsupportedVersion .. => .unsupportedVersion
  | truncatedManifest .. => .truncatedManifest
  | undecodableManifest .. => .undecodableManifest

/-- A chain of names closed on its first one. -/
def chain (names : List String) : String := " -> ".intercalate (names ++ names.take 1)

def arguments : Cause → Arguments
  | syntaxError detail => [("detail", detail)]
  | unnamedField s => [("struct", s)]
  | unsupportedType shape owner => [("shape", shape), ("owner", owner.text)]
  | variableLength elem length owner =>
    [("elem", elem.keyword), ("length", length), ("owner", owner.text)]
  | nonScalarElement elem owner => [("elem", elem), ("owner", owner.text)]
  | zeroLength elem owner => [("elem", elem.keyword), ("owner", owner.text)]
  | unresolvedType name owner => [("name", name), ("owner", owner.text)]
  | duplicateType name => [("name", name)]
  | duplicateField field s => [("field", field), ("struct", s)]
  | duplicateVariant variant e => [("variant", variant), ("enum", e)]
  | reservedField field s => [("field", field), ("struct", s)]
  | recursiveLayout names => [("cycle", chain names)]
  | unsupportedPayload e variant reason =>
    [("enum", e), ("variant", variant), ("reason", reason.text)]
  | inlineEnum name owner => [("name", name), ("owner", owner.text)]
  | notAManifest path => [("path", path)]
  | unsupportedVersion path version supported =>
    [("path", path), ("version", Nat.repr version), ("supported", Nat.repr supported)]
  | truncatedManifest path expected actual =>
    [("path", path), ("expected", Nat.repr expected), ("actual", Nat.repr actual)]
  | undecodableManifest path reason => [("path", path), ("reason", reason)]

def message (c : Cause) : String := c.code.message c.arguments

end Cause

structure SchemaError where
  cause : Cause
  span : Option Span := none
  deriving Repr, DecidableEq

namespace SchemaError

def code (e : SchemaError) : Diagnostic.Code := e.cause.code

def message (e : SchemaError) : String := e.cause.message

/-- The error on one line: its code and its message. -/
def text (e : SchemaError) : String := e.code.id ++ ": " ++ e.message

end SchemaError

end PackedSchema
