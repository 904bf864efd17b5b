import PackedSchema.FieldType
import PackedSchema.Span

/-!
# Schemas

A schema is an ordered list of struct and enum declarations, with a name if it is wrapped in a
module block. Field order decides offsets and variant order decides tags.
-/

namespace PackedSchema

structure Field where
  name : String
  ty : FieldType
  loc : Option Span := none
  deriving Repr, DecidableEq

structure Variant where
  name : String
  payload : List FieldType
  nameSpan : Option Span := none
  loc : Option Span := none
  deriving Repr, DecidableEq

structure StructDecl where
  name : String
  fields : List Field
  loc : Option Span := none
  nameSpan : Option Span := none
  deriving Repr, DecidableEq

structure EnumDecl where
  name : String
  variants : List Variant
  loc : Option Span := none
  nameSpan : Option Span := none
  deriving Repr, DecidableEq

inductive Decl
  | struct (d : StructDecl)
  | enum (d : EnumDecl)
  deriving Repr, DecidableEq

namespace Decl

def name : Decl → String
  | struct d => d.name
  | enum d => d.name

def loc : Decl → Option Span
  | struct d => d.loc
  | enum d => d.loc

def nameSpan : Decl → Option Span
  | struct d => d.nameSpan
  | enum d => d.nameSpan

/-- Where an error about the declaration points: at its name, or else at the whole of it. -/
def site (d : Decl) : Option Span := d.nameSpan <|> d.loc

/-- The types a declaration lays out inside itself, in order. -/
def contents : Decl → List FieldType
  | struct d => d.fields.map Field.ty
  | enum d => d.variants.flatMap Variant.payload

/-- The names of the declarations it lays out inline, in order and with repetition. -/
def inlineNames (d : Decl) : List String := d.contents.filterMap FieldType.inlineName?

def struct? : Decl → Option StructDecl
  | struct d => some d
  | enum _ => none

def enum? : Decl → Option EnumDecl
  | struct _ => none
  | enum d => some d

end Decl

structure Schema where
  loc : Option Span := none
  name : Option String := none
  decls : List Decl
  deriving Repr, DecidableEq

namespace Schema

def structs (s : Schema) : List StructDecl := s.decls.filterMap Decl.struct?

def enums (s : Schema) : List EnumDecl := s.decls.filterMap Decl.enum?

end Schema

end PackedSchema
