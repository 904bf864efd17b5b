import PackedSchema.Decimal.Numeral

/-!
# Field types

The types a field or a variant payload may have. Every scalar takes one 32-bit word of a packed
layout; the kinds below a word are packed by software into a `uint`.
-/

namespace PackedSchema

inductive ScalarKind
  | i32 | f32 | u32 | u16 | u16x2 | u8x4 | u8
  deriving Repr, DecidableEq

namespace ScalarKind

def all : List ScalarKind := [i32, f32, u32, u16, u16x2, u8x4, u8]

/-- The word that stands for the kind in a schema. -/
def keyword : ScalarKind → String
  | i32 => "i32" | f32 => "f32" | u32 => "u32" | u16 => "u16"
  | u16x2 => "u16x2" | u8x4 => "u8x4" | u8 => "u8"

def ofKeyword? (word : String) : Option ScalarKind :=
  all.find? fun k => k.keyword == word

/-- The name of the kind in a dump. -/
def label : ScalarKind → String
  | i32 => "I32" | f32 => "F32" | u32 => "U32" | u16 => "U16"
  | u16x2 => "U16x2" | u8x4 => "U8x4" | u8 => "U8"

/-- The kernel type that holds one value of the kind. -/
def kernelName : ScalarKind → String
  | f32 => "float"
  | i32 => "int"
  | _ => "uint"

end ScalarKind

inductive FieldType
  | scalar (kind : ScalarKind)
  /-- A vector of `count` scalars. -/
  | vector (kind : ScalarKind) (count : Int)
  /-- The declaration of that name, laid out inline. -/
  | named (name : String)
  /-- A 32-bit offset into a buffer; what it points at has no influence on the layout. -/
  | ref (inner : FieldType)
  /-- No type at all. Reading a schema never gives it; it has a text, but no layout. -/
  | missing
  deriving Repr, DecidableEq, Inhabited

namespace FieldType

/-- The type as a schema writes it, with a count of any length. -/
def text : FieldType → String
  | scalar k => k.keyword
  | vector k n => "[" ++ k.keyword ++ "; " ++ Numeral.text n ++ "]"
  | named n => n
  | ref t => "Ref<" ++ t.text ++ ">"
  | missing => "None"

/-- The type as a schema writes it, with a count of at most `Numeral.limit` digits. -/
def write : FieldType → Except Numeral.Fault String
  | vector k n => return "[" ++ k.keyword ++ "; " ++ (← Numeral.write n) ++ "]"
  | ref t => return "Ref<" ++ (← t.write) ++ ">"
  | ty => .ok ty.text

/-- Whether one load reads the field: everything but a nested declaration. -/
def isSmall : FieldType → Bool
  | named _ => false
  | _ => true

/-- The declaration a reference points at, if it points at a bare name. -/
def target? : FieldType → Option String
  | ref (named n) => some n
  | _ => none

/-- The name of the declaration that the type lays out inline. -/
def inlineName? : FieldType → Option String
  | named n => some n
  | _ => none

end FieldType

end PackedSchema
