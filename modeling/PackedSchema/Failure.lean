import PackedSchema.Diagnostic.SchemaError

/-!
# Failures

Everything that can end the compilation of a schema. A schema error is the fault of the schema; the
other failures come from syntax trees or schemas that were made by hand and are not well formed, and
from numbers beyond the limits of a format.
-/

namespace PackedSchema

inductive Failure
  | schema (e : SchemaError)
  | numeral (f : Numeral.Fault)
  /-- A syntax tree is not of the shape that its label demands. -/
  | malformedTree
  /-- A syntax tree has no type where it needs one. -/
  | missingType
  /-- A syntax tree has no type where it needs one, found while its type arguments were listed. -/
  | missingTypeInArguments
  /-- A leaf stands where a type must stand. -/
  | leafForType
  /-- A field of a schema has no type. -/
  | notAFieldType
  /-- A field has the alignment zero, to which no offset can be raised. -/
  | zeroAlignment
  | notAStruct (name : String)
  | notAnEnum (name : String)
  /-- An integer outside the range of the manifest format. -/
  | integerOutOfRange
  deriving Repr, DecidableEq

namespace Failure

def message : Failure → String
  | schema e => e.message
  | numeral f => f.message
  | malformedTree | missingType => ""
  | missingTypeInArguments => "generator raised StopIteration"
  | leafForType => "'Token' object has no attribute 'data'"
  | notAFieldType => "not a field type: None"
  | zeroAlignment => "integer modulo by zero"
  | notAStruct n => "'" ++ n ++ "' is not a struct"
  | notAnEnum n => "'" ++ n ++ "' is not an enum"
  | integerOutOfRange => "Integer value out of range"

/-- The failure for a cause and the place it arises at. -/
def of (cause : Cause) (span : Option Span) : Failure := .schema ⟨cause, span⟩

end Failure

end PackedSchema
