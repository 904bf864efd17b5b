import PackedSchema.Failure
import PackedSchema.TypeTable

/-!
# Layouts

Sizes and places, in bytes, of packed data. Scalars and references take one word; a vector of `n`
scalars takes `n` words and is aligned to its size. Fields of a struct stand in order, each raised to
its alignment, behind the tag word if the struct is tagged, with nothing behind the last. An enum is a
tag word and as many words as its largest payload needs.
-/

namespace PackedSchema

namespace Layout

/-- A word, which every scalar, reference and tag takes. -/
def word : Int := 4

/-- Variants are tagged from here on; zero is no tag. -/
def firstTag : Nat := 1

/-- The bytes from an offset up to the next multiple of an alignment. The remainder has the sign of
the alignment. -/
def padding (offset alignment : Int) : Except Failure Int :=
  if alignment = 0 then .error .zeroAlignment else .ok ((-offset).fmod alignment)

/-- The words behind the tag of an enum that spans `extent` bytes. -/
def bodyWords (extent : Int) : Int := -((-extent).fdiv word) - 1

end Layout

structure FieldLayout where
  name : String
  ty : FieldType
  offset : Int
  size : Int
  alignment : Int
  deriving Repr, DecidableEq

/-- The fields of a struct, and the end of the last one. -/
structure StructShape where
  fields : List FieldLayout
  size : Int
  deriving Repr, DecidableEq

inductive TypeLayout
  | struct (name : String) (size alignment : Int) (tagged : Bool) (fields : List FieldLayout)
  | enum (name : String) (size bodyWords : Int) (variants : List (String × Nat))
  deriving Repr, DecidableEq

namespace TypeLayout

def name : TypeLayout → String
  | struct n .. => n
  | enum n .. => n

def size : TypeLayout → Int
  | struct _ s .. => s
  | enum _ s .. => s

/-- The types of the fields that stand in the layout. -/
def types : TypeLayout → List FieldType
  | struct _ _ _ _ fields => fields.map FieldLayout.ty
  | enum .. => []

end TypeLayout

end PackedSchema
