import PackedSchema.Source.Token
import PackedSchema.Source.Tree

/-!
# Schema files

The syntax of a schema text with the tokens it was read from. Every part of it has a span, from its
first token to its last, and is a syntax tree.
-/

namespace PackedSchema.Source

inductive TypeNode
  | name (token : Token)
  | array (opening : Token) (elem : TypeNode) (length closing : Token)
  | apply (name : Token) (args : List TypeNode) (closing : Token)

/-- A field; its name may have been left out. -/
structure FieldNode where
  name : Option Token
  ty : TypeNode

structure PayloadNode where
  opening : Token
  types : List TypeNode
  closing : Token

structure VariantNode where
  name : Token
  payload : Option PayloadNode := none

inductive DeclNode
  | struct (keyword name : Token) (fields : List FieldNode) (closing : Token)
  | enum (keyword name : Token) (variants : List VariantNode) (closing : Token)

inductive File
  | bare (decls : List DeclNode)
  | block (keyword name : Token) (decls : List DeclNode) (closing : Token)

/-! ## Spans -/

def TypeNode.span : TypeNode → Span
  | name t => t.span
  | array opening _ _ closing => opening.span.cover closing.span
  | apply n _ closing => n.span.cover closing.span

def FieldNode.span (f : FieldNode) : Span :=
  match f.name with
  | some n => n.span.cover f.ty.span
  | none => f.ty.span

def PayloadNode.span (p : PayloadNode) : Span := p.opening.span.cover p.closing.span

def VariantNode.span (v : VariantNode) : Span :=
  match v.payload with
  | some p => v.name.span.cover p.closing.span
  | none => v.name.span

def DeclNode.span : DeclNode → Span
  | struct keyword _ _ closing => keyword.span.cover closing.span
  | enum keyword _ _ closing => keyword.span.cover closing.span

/-- A file without declarations has no span. -/
def File.span : File → Option Span
  | bare decls => do return (← decls.head?).span.cover (← decls.getLast?).span
  | block keyword _ _ closing => some (keyword.span.cover closing.span)

/-! ## Trees -/

def Token.tree (t : Token) : Tree := .leaf ⟨t.terminal.id, t.text, some t.span⟩

mutual

def TypeNode.tree : TypeNode → Tree
  | name t => .node "name_t" [t.tree] (some t.span)
  | array opening elem length closing =>
    .node "array_t" [elem.tree, length.tree] (some (opening.span.cover closing.span))
  | apply n args closing =>
    .node "generic_t" (n.tree :: TypeNode.trees args) (some (n.span.cover closing.span))

def TypeNode.trees : List TypeNode → List Tree
  | [] => []
  | t :: ts => t.tree :: TypeNode.trees ts

end

def FieldNode.tree (f : FieldNode) : Tree :=
  match f.name with
  | some n => .node "struct_field" [n.tree, f.ty.tree] (some f.span)
  | none => .node "unnamed_field" [f.ty.tree] (some f.span)

def PayloadNode.tree (p : PayloadNode) : Tree :=
  .node "enum_variant_fields" (TypeNode.trees p.types) (some p.span)

def VariantNode.tree (v : VariantNode) : Tree :=
  .node "enum_variant" (v.name.tree :: (v.payload.map PayloadNode.tree).toList) (some v.span)

def DeclNode.tree (d : DeclNode) : Tree :=
  match d with
  | struct _ n fields _ => .node "struct_def" (n.tree :: fields.map FieldNode.tree) (some d.span)
  | enum _ n variants _ => .node "enum_def" (n.tree :: variants.map VariantNode.tree) (some d.span)

def File.tree (f : File) : Tree :=
  match f with
  | bare decls => .node "start" (decls.map DeclNode.tree) f.span
  | block _ n decls _ =>
    .node "start" [.node "module_def" (n.tree :: decls.map DeclNode.tree) f.span] f.span

end PackedSchema.Source
