import PackedSchema.Source.File

/-!
# The grammar

A place says what has been read of a schema text and what may follow. Each token leads from one place
to the next; the text is a schema if its end is reached at a place where it may end.

```text
file    = { decl } | "mod" NAME "{" { decl } "}"
decl    = "struct" NAME "{" [ field { "," field } [ "," ] ] "}"
        | "enum" NAME "{" [ variant { "," variant } [ "," ] ] "}"
field   = [ NAME ":" ] type
variant = NAME [ "(" [ type { "," type } [ "," ] ] ")" ]
type    = NAME | "[" type ";" ( INT | NAME ) "]" | NAME "<" type { "," type } ">"
```

A name without a colon is read as a field whose name is missing, so that the schema can be refused
with a better message than a syntax error.

`Place.expected` are the terminals that are tried at a place. At the end of a type they are the tokens
that may follow a type anywhere; one that does not fit the type's own surroundings is refused by
`Place.step`, with the symbols that do fit.
-/

namespace PackedSchema.Source

/-- The declarations read so far, with the keyword and name of the module block around them. -/
structure Scope where
  block : Option (Token × Token) := none
  decls : List DeclNode := []

/-- The declaration that is being read: what came before it, its keyword and its name. -/
structure Head where
  scope : Scope
  keyword : Token
  name : Token

/-- Where an outermost type stands. -/
inductive Site
  | field (head : Head) (done : List FieldNode) (name : Option Token)
  | payload (head : Head) (done : List VariantNode) (name opening : Token) (types : List TypeNode)

/-- A type that is not finished, around a type that is being read. -/
inductive Frame
  | element (opening : Token)
  | argument (name : Token) (done : List TypeNode)

inductive Place
  /-- A declaration, or the end of the block or of the file. -/
  | items (scope : Scope)
  | blockName (keyword : Token)
  | blockOpening (keyword name : Token)
  /-- Behind the module block. -/
  | closed (file : File)
  | declName (scope : Scope) (keyword : Token)
  | declOpening (head : Head)
  /-- A field, or the end of the struct. -/
  | fields (head : Head) (done : List FieldNode)
  | fieldName (head : Head) (done : List FieldNode) (name : Token)
  /-- A variant, or the end of the enum. -/
  | variants (head : Head) (done : List VariantNode)
  | variantName (head : Head) (done : List VariantNode) (name : Token)
  | variantEnd (head : Head) (done : List VariantNode)
  /-- A type; in a payload also the end of the payload. -/
  | type (site : Site) (frames : List Frame)
  | typeName (site : Site) (frames : List Frame) (name : Token)
  | typeEnd (site : Site) (frames : List Frame) (ty : TypeNode)
  | length (site : Site) (frames : List Frame) (opening : Token) (elem : TypeNode)
  | lengthEnd (site : Site) (frames : List Frame) (opening : Token) (elem : TypeNode)
      (count : Token)

/-- The start of every text. -/
def Place.start : Place := .items {}

/-- The tokens that may follow a type somewhere. -/
def afterType : List Terminal := [.comma, .more, .rbrace, .rpar, .semicolon]

/-- The terminals that are tried at a place. -/
def Place.expected : Place → List Terminal
  | items { block := none, decls := [] } => [.enum, .mod, .struct]
  | items _ => [.enum, .rbrace, .struct]
  | blockName _ | declName .. => [.name]
  | blockOpening .. | declOpening _ => [.lbrace]
  | closed _ => []
  | fields .. => [.lsqb, .name, .rbrace]
  | fieldName .. => [.colon, .less, .comma, .rbrace]
  | variants .. => [.name, .rbrace]
  | variantName .. => [.lpar, .comma, .rbrace]
  | variantEnd .. => [.comma, .rbrace]
  | type (.payload ..) [] => [.lsqb, .name, .rpar]
  | type .. => [.lsqb, .name]
  | typeName .. => .less :: afterType
  | typeEnd .. => afterType
  | length .. => [.int, .name]
  | lengthEnd .. => [.rsqb]

/-- A step to the next place, or the symbols that could have stood instead. -/
abbrev Step := Except (List Symbol) Place

def refuse (expected : List Terminal) : Step := .error (expected.map .terminal)

def Scope.add (s : Scope) (d : DeclNode) : Place := .items { s with decls := s.decls ++ [d] }

/-- The token behind a field. -/
def endField (head : Head) (done : List FieldNode) (t : Token) : Step :=
  match t.terminal with
  | .comma => .ok (.fields head done)
  | .rbrace => .ok (head.scope.add (.struct head.keyword head.name done t))
  | _ => refuse [.comma, .rbrace]

/-- The token behind a variant. -/
def endVariant (head : Head) (done : List VariantNode) (t : Token) : Step :=
  match t.terminal with
  | .comma => .ok (.variants head done)
  | .rbrace => .ok (head.scope.add (.enum head.keyword head.name done t))
  | _ => refuse [.comma, .rbrace]

/-- The token behind a type in a list of types that `closing` ends. Behind the second and later types,
a token that can end neither kind of list is refused for both. -/
def refuseInList (first : Bool) (closing other : Terminal) (t : Token) : Step :=
  if first ∨ t.terminal = other then refuse [.comma, closing] else refuse [.comma, .more, .rpar]

/-- The token behind a type. -/
def endType (site : Site) (frames : List Frame) (ty : TypeNode) (t : Token) : Step :=
  match frames with
  | .element opening :: frames =>
    match t.terminal with
    | .semicolon => .ok (.length site frames opening ty)
    | _ => refuse [.semicolon]
  | .argument name done :: frames =>
    match t.terminal with
    | .comma => .ok (.type site (.argument name (done ++ [ty]) :: frames))
    | .more => .ok (.typeEnd site frames (.apply name (done ++ [ty]) t))
    | _ => refuseInList done.isEmpty .more .rpar t
  | [] =>
    match site with
    | .field head done name => endField head (done ++ [⟨name, ty⟩]) t
    | .payload head done name opening types =>
      match t.terminal with
      | .comma => .ok (.type (.payload head done name opening (types ++ [ty])) [])
      | .rpar => .ok (.variantEnd head (done ++ [⟨name, some ⟨opening, types ++ [ty], t⟩⟩]))
      | _ => refuseInList types.isEmpty .rpar .more t

/-- The place behind a token. -/
def Place.step (p : Place) (t : Token) : Step :=
  match p with
  | items scope =>
    match t.terminal, scope.block, scope.decls with
    | .struct, _, _ | .enum, _, _ => .ok (.declName scope t)
    | .mod, none, [] => .ok (.blockName t)
    | .rbrace, some (keyword, name), decls => .ok (.closed (.block keyword name decls t))
    | .rbrace, none, _ :: _ =>
      .error [.terminal .enum, .terminal .struct, .endOfInput]
    | _, _, _ => refuse p.expected
  | blockName keyword =>
    match t.terminal with
    | .name => .ok (.blockOpening keyword t)
    | _ => refuse p.expected
  | blockOpening keyword name =>
    match t.terminal with
    | .lbrace => .ok (.items { block := some (keyword, name) })
    | _ => refuse p.expected
  | closed _ => refuse p.expected
  | declName scope keyword =>
    match t.terminal with
    | .name => .ok (.declOpening ⟨scope, keyword, t⟩)
    | _ => refuse p.expected
  | declOpening head =>
    match t.terminal, head.keyword.terminal with
    | .lbrace, .enum => .ok (.variants head [])
    | .lbrace, _ => .ok (.fields head [])
    | _, _ => refuse p.expected
  | fields head done =>
    match t.terminal with
    | .lsqb => .ok (.type (.field head done none) [.element t])
    | .name => .ok (.fieldName head done t)
    | .rbrace => .ok (head.scope.add (.struct head.keyword head.name done t))
    | _ => refuse p.expected
  | fieldName head done name =>
    match t.terminal with
    | .colon => .ok (.type (.field head done (some name)) [])
    | .less => .ok (.type (.field head done none) [.argument name []])
    | _ => endType (.field head done none) [] (.name name) t
  | variants head done =>
    match t.terminal with
    | .name => .ok (.variantName head done t)
    | .rbrace => .ok (head.scope.add (.enum head.keyword head.name done t))
    | _ => refuse p.expected
  | variantName head done name =>
    match t.terminal with
    | .lpar => .ok (.type (.payload head done name t []) [])
    | _ => endVariant head (done ++ [⟨name, none⟩]) t
  | variantEnd head done => endVariant head done t
  | type site frames =>
    match t.terminal, site, frames with
    | .lsqb, _, _ => .ok (.type site (.element t :: frames))
    | .name, _, _ => .ok (.typeName site frames t)
    | .rpar, .payload head done name opening types, [] =>
      .ok (.variantEnd head (done ++ [⟨name, some ⟨opening, types, t⟩⟩]))
    | _, _, _ => refuse p.expected
  | typeName site frames name =>
    match t.terminal with
    | .less => .ok (.type site (.argument name [] :: frames))
    | _ => endType site frames (.name name) t
  | typeEnd site frames ty => endType site frames ty t
  | length site frames opening elem =>
    match t.terminal with
    | .int | .name => .ok (.lengthEnd site frames opening elem t)
    | _ => refuse p.expected
  | lengthEnd site frames opening elem count =>
    match t.terminal with
    | .rsqb => .ok (.typeEnd site frames (.array opening elem count t))
    | _ => refuse p.expected

/-- The file, if the text may end here. -/
def Place.finish (p : Place) : Except (List Symbol) File :=
  match p with
  | items { block := none, decls } => .ok (.bare decls)
  | closed file => .ok file
  | _ => .error (p.expected.map .terminal)

/-! ## Reading a text -/

/-- What stops the reading, and where. -/
structure SyntaxError where
  fault : SyntaxFault
  line : Nat
  col : Nat
  deriving Repr, DecidableEq

/-- The symbols a message names when no expected terminal has a token here. -/
def Place.wanted (p : Place) : List Symbol :=
  if p.expected.isEmpty then [.nothingElse] else p.expected.map .terminal

def SyntaxError.atToken (t : Token) (expected : List Symbol) : SyntaxError :=
  ⟨.unexpected (.terminal t.terminal) t.text expected, t.span.line.toNat, t.span.col.toNat⟩

/-- The end of the input is reported at the last token, or at the start if there is none. -/
def SyntaxError.atEnd (last : Option Token) (expected : List Symbol) : SyntaxError :=
  let (line, col) := (last.map fun t => (t.span.line.toNat, t.span.col.toNat)).getD (1, 1)
  ⟨.unexpected .endOfInput "" expected, line, col⟩

/-- Reads a text to its end, from a place that was reached with the token `last`. -/
def Place.read (p : Place) (last : Option Token) (cur : Cursor) : Except SyntaxError File :=
  match h : cur.next p.expected with
  | .finished => p.finish.mapError (SyntaxError.atEnd last)
  | .unexpected t => .error (.atToken t p.wanted)
  | .stray c line col => .error ⟨.stray c, line, col⟩
  | .token t next =>
    have : next.rest.length < cur.rest.length := Cursor.next_length_lt h
    match p.step t with
    | .error expected => .error (.atToken t expected)
    | .ok q => q.read (some t) next
termination_by cur.rest.length

/-- Reads a schema text. -/
def File.read (s : String) : Except SyntaxError File :=
  Place.start.read none (Cursor.ofText s)

end PackedSchema.Source
