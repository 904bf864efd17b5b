import PackedSchema.Schema.Basic

/-!
# Dumps

The one-line dump of a schema and its parts, which shows every component by name.
-/

namespace PackedSchema

/-- A record in a dump: its name and its components in order. -/
def dumpRecord (name : String) (components : List (String × String)) : String :=
  name ++ "(" ++ ", ".intercalate (components.map fun c => c.1 ++ "=" ++ c.2) ++ ")"

/-- A choice among named alternatives in a dump, with its value. -/
def dumpChoice (family member value : String) : String :=
  "<" ++ family ++ "." ++ member ++ ": " ++ Text.quote value ++ ">"

def dumpList (items : List String) : String := "[" ++ ", ".intercalate items ++ "]"

def dumpOption {α : Type} (dump : α → String) : Option α → String
  | none => "None"
  | some a => dump a

def Span.dump (s : Span) : String :=
  dumpRecord "Span" [("line", Numeral.text s.line), ("col", Numeral.text s.col),
    ("end_line", Numeral.text s.endLine), ("end_col", Numeral.text s.endCol)]

def ScalarKind.dump (k : ScalarKind) : String := dumpChoice "ScalarKind" k.label k.keyword

def FieldType.dump : FieldType → String
  | .scalar k => dumpRecord "ScalarType" [("kind", k.dump)]
  | .vector k n => dumpRecord "VectorType" [("kind", k.dump), ("count", Numeral.text n)]
  | .named n => dumpRecord "NamedRef" [("name", Text.quote n)]
  | .ref t => dumpRecord "RefType" [("inner", t.dump)]
  | .missing => "None"

def Field.dump (f : Field) : String :=
  dumpRecord "StructField" [("name", Text.quote f.name), ("ty", f.ty.dump),
    ("loc", dumpOption Span.dump f.loc)]

def Variant.dump (v : Variant) : String :=
  dumpRecord "EnumVariant" [("name", Text.quote v.name),
    ("payload", dumpList (v.payload.map FieldType.dump)),
    ("name_span", dumpOption Span.dump v.nameSpan), ("loc", dumpOption Span.dump v.loc)]

def Decl.dump : Decl → String
  | .struct d => dumpRecord "StructDef" [("loc", dumpOption Span.dump d.loc),
      ("name", Text.quote d.name), ("fields", dumpList (d.fields.map Field.dump)),
      ("name_span", dumpOption Span.dump d.nameSpan)]
  | .enum d => dumpRecord "EnumDef" [("loc", dumpOption Span.dump d.loc),
      ("name", Text.quote d.name), ("variants", dumpList (d.variants.map Variant.dump)),
      ("name_span", dumpOption Span.dump d.nameSpan)]

def Schema.dump (s : Schema) : String :=
  dumpRecord "SchemaModule" [("loc", dumpOption Span.dump s.loc),
    ("name", dumpOption Text.quote s.name), ("defs", dumpList (s.decls.map Decl.dump))]

end PackedSchema
