import PackedSchema.Proofs.Kernel.Agreement
import PackedSchema.Proofs.Layout.Answers

/-!
# Identifiers of kernel texts

A kernel text glues the names of declarations to fixed endings and to the names of members. Nothing is
escaped, so two declarations may define one identifier. This happens in five ways, which can be told from the
names in the schema, and in no other.
-/

namespace PackedSchema

/-! ## What a text defines -/

namespace Kernel

/-- The identifier that an item defines. -/
def Item.identifier : Item → String
  | refAlias name => aliasOf name
  | packed name _ => packedOf name
  | reader name => name ++ "_read"
  | accessor name field _ _ => name ++ "_" ++ field
  | tagged name _ => name
  | tagReader name => name ++ "_tag"
  | tagMacro enum variant _ => enum ++ "_" ++ variant

/-- The identifiers that the items of a kernel text define, in order. -/
def identifiers (t : TypeTable) (layouts : List TypeLayout) : List String :=
  (t.decls.map fun d => aliasOf d.name) ++ layouts.flatMap fun l => (itemsOf t l).map Item.identifier

/-- The line belongs to what a line before it defines. -/
def isInner (line : List Char) : Bool :=
  line.isEmpty || line.head? == some '\x7d' || line.take 2 == [' ', ' ']

/-- The identifier that a line defines. It is the second word, behind a keyword or a type, except in an
alias. -/
def defined? (line : List Char) : Option String :=
  if isInner line then none else
    match between? "typedef uint " ";" line with
    | some name => some (String.ofList name)
    | none => some (String.ofList ((behind ' ' line).takeWhile Source.isNameChar))

/-- The identifiers that a kernel text defines, found from its lines. -/
def defined (text : String) : List String := (text.toList.splitOn '\n').filterMap defined?

/-! ## Definitions read back -/

section Lines

variable {i : Item} {lines : List String} {keyword rest : List Char} {name declared : String}

theorem defined?_inner {line : List Char} (h : isInner line = true) : defined? line = none := by
  rw [defined?, if_pos h]

/-- A line of a keyword and a name, which has no semicolon and so is no alias. -/
theorem defined?_word (hkeyword : ' ' ∉ keyword) (hname : IsName name)
    (hrest : rest.takeWhile Source.isNameChar = [])
    (hinner : isInner (keyword ++ ' ' :: (name.toList ++ rest)) = false)
    (hplain : ';' ∉ keyword ∧ ';' ∉ rest) :
    defined? (keyword ++ ' ' :: (name.toList ++ rest)) = some name := by
  have halias : between? "typedef uint " ";" (keyword ++ ' ' :: (name.toList ++ rest)) = none := by
    apply Option.eq_none_iff_forall_ne_some.mpr
    intro inner hline
    rw [between?_eq_some_iff] at hline
    have hmem : ';' ∈ keyword ++ ' ' :: (name.toList ++ rest) := by simp [hline]
    have hfree : ';' ∉ name.toList := hname.notMem rfl
    simp [hplain, hfree] at hmem
  have hword : (name.toList ++ rest).takeWhile Source.isNameChar = name.toList := by
    rw [List.takeWhile_append_of_pos hname, hrest, List.append_nil]
  rw [defined?, hinner, halias, behind_append hkeyword, hword, String.ofList_toList]
  rfl

theorem defined?_alias (name : String) :
    defined? ("typedef " ++ wordType ++ " " ++ aliasOf name ++ ";").toList = some (aliasOf name) := by
  have halias : between? "typedef uint " ";" ("typedef " ++ wordType ++ " " ++ aliasOf name ++ ";").toList =
      some (aliasOf name).toList := by
    rw [between?_eq_some_iff]
    simp [wordType]
  have hinner : isInner ("typedef " ++ wordType ++ " " ++ aliasOf name ++ ";").toList = false := by
    simp [isInner]
  rw [defined?, hinner, halias]
  exact congrArg some String.ofList_toList

theorem defined?_struct (hname : IsName name) :
    defined? ("struct " ++ name ++ " " ++ opening).toList = some name := by
  have hline : ("struct " ++ name ++ " " ++ opening).toList =
      "struct".toList ++ ' ' :: (name.toList ++ " \x7b".toList) := by simp [opening]
  rw [hline]
  exact defined?_word (by decide) hname rfl (by simp [isInner]) (by decide)

theorem defined?_define (hname : IsName name) (tag : Nat) :
    defined? ("#define " ++ name ++ " " ++ Nat.repr tag).toList = some name := by
  have hline : ("#define " ++ name ++ " " ++ Nat.repr tag).toList =
      "#define".toList ++ ' ' :: (name.toList ++ ' ' :: (Nat.repr tag).toList) := by
    simp [-Nat.toList_repr]
  have hdigits : ';' ∉ (Nat.repr tag).toList := (isName_repr tag).notMem rfl
  rw [hline]
  exact defined?_word (by decide) hname rfl (by simp [isInner]) ⟨by decide, by simp [-Nat.toList_repr, hdigits]⟩

theorem isInner_signature {result : String} (hresult : IsName result) (hname : IsName name) :
    isInner (result.toList ++ ' ' :: (name.toList ++ '(' :: rest)) = false := by
  have hblank {s : String} (h : IsName s) {c : Char} {cs : List Char} (hs : s.toList = c :: cs) :
      c ≠ ' ' ∧ c ≠ '\x7d' := by
    constructor <;>
    · rintro rfl
      exact h.notMem rfl (by rw [hs]; exact List.mem_cons_self)
  cases hfirst : result.toList with
  | cons c cs => simp [isInner, hblank hresult hfirst]
  | nil =>
    -- Without a result, the blank is first, but no other one follows it.
    cases hsecond : name.toList with
    | cons c cs => simp [isInner, hblank hname hsecond]
    | nil => simp [isInner]

theorem defined?_signature {result : String} (hresult : IsName result) (hname : IsName name)
    (hdeclared : IsName declared) : defined? (signature result name declared).toList = some name := by
  have hline : (signature result name declared).toList = result.toList ++ ' ' :: (name.toList ++
      '(' :: ("const device char *buf, " ++ declared ++ "Ref ref) \x7b").toList) := by
    simp [signature, aliasOf, opening]
  have hfree : ';' ∉ declared.toList := hdeclared.notMem rfl
  rw [hline]
  exact defined?_word (hresult.notMem rfl) hname rfl (isInner_signature hresult hname)
    ⟨hresult.notMem rfl, by simp [hfree]⟩

/-- A line that defines a name, with what belongs to it. -/
theorem filterMap_first {first : String} {inner : List String} (hfirst : defined? first.toList = some name)
    (hinner : ∀ line ∈ inner, isInner line.toList = true) :
    ((first :: inner).map String.toList).filterMap defined? = [name] := by
  have hnone : (inner.map String.toList).filterMap defined? = [] := by
    rw [List.filterMap_eq_nil_iff, List.forall_mem_map]
    exact fun line hline => defined?_inner (hinner line hline)
  rw [List.map_cons, List.filterMap_cons_some hfirst, hnone]

/-- The lines of an item define its identifier and nothing else. -/
theorem filterMap_lines (hlegible : i.Legible) (h : i.lines = .ok lines) :
    (lines.map String.toList).filterMap defined? = [i.identifier] := by
  have hmember (type name : String) : isInner (member type name).toList = true := by
    simp [member, isInner]
  have hload (type address : String) : isInner (load type address).toList = true := by
    unfold load
    simp [isInner]
  cases i with
  | refAlias name =>
    cases h
    exact filterMap_first (defined?_alias name) (List.forall_mem_nil _)
  | packed name members =>
    cases h
    have hpacked : IsName (packedOf name) := isName_append hlegible.1 (by decide)
    change ((_ :: (members.map (fun m => member m.1 m.2) ++ [closing ++ ";"])).map
      String.toList).filterMap defined? = _
    refine filterMap_first (defined?_struct hpacked) ?_
    simp only [List.forall_mem_append, List.forall_mem_map, List.forall_mem_singleton]
    exact ⟨fun m _ => hmember m.1 m.2, rfl⟩
  | reader name =>
    cases h
    have hpacked : IsName (packedOf name) := isName_append hlegible (by decide)
    have hread : IsName (name ++ "_read") := isName_append hlegible (by decide)
    refine filterMap_first (defined?_signature hpacked hread hlegible) ?_
    simp only [List.forall_mem_cons]
    exact ⟨hload _ _, rfl, List.forall_mem_nil _⟩
  | accessor name field type offset =>
    obtain ⟨a, -, h⟩ := bind_eq_ok_iff.mp h
    cases h
    obtain ⟨hname, hfield, htype⟩ := hlegible
    have hcalled : IsName (name ++ "_" ++ field) :=
      isName_append (isName_append hname (by decide)) hfield
    refine filterMap_first (defined?_signature htype hcalled hname) ?_
    simp only [List.forall_mem_cons]
    exact ⟨hload _ _, rfl, List.forall_mem_nil _⟩
  | tagged name words =>
    obtain ⟨digits, -, h⟩ := bind_eq_ok_iff.mp h
    cases h
    refine filterMap_first (defined?_struct hlegible) ?_
    simp only [List.forall_mem_cons]
    refine ⟨hmember _ _, ?_, rfl, List.forall_mem_nil _⟩
    simp [isInner]
  | tagReader name =>
    cases h
    have htag : IsName (name ++ "_tag") := isName_append hlegible (by decide)
    refine filterMap_first (defined?_signature (by decide) htag hlegible) ?_
    simp only [List.forall_mem_cons]
    refine ⟨?_, rfl, List.forall_mem_nil _⟩
    simp [isInner]
  | tagMacro enum variant tag =>
    cases h
    obtain ⟨henum, hvariant⟩ := hlegible
    have hmacro : IsName (enum ++ "_" ++ variant) :=
      isName_append (isName_append henum (by decide)) hvariant
    exact filterMap_first (defined?_define hmacro tag) (List.forall_mem_nil _)

end Lines

section Texts

variable {t : TypeTable} {lines : List String} {layouts : List TypeLayout}

theorem filterMap_linesOf {items : List Item} (hitems : ∀ i ∈ items, i.Legible)
    (h : linesOf items = .ok lines) :
    (lines.map String.toList).filterMap defined? = items.map Item.identifier := by
  induction items generalizing lines with
  | nil =>
    cases h
    rfl
  | cons i items ih =>
    obtain ⟨first, later, hfirst, hlater, rfl⟩ := linesOf_cons_eq_ok h
    rw [List.forall_mem_cons] at hitems
    rw [List.map_append, List.filterMap_append, filterMap_lines hitems.1 hfirst, ih hitems.2 hlater]
    rfl

theorem defined_intercalate (hlines : ∀ line ∈ lines, '\n' ∉ line.toList) :
    defined ("\n".intercalate lines ++ "\n") = (lines.map String.toList).filterMap defined? := by
  by_cases hne : lines = []
  · subst hne
    rfl
  · rw [defined, splitOn_text hne hlines, List.filterMap_append]
    simp [defined?, isInner]

/-- The lines of all declarations, which stand behind empty ones. -/
theorem filterMap_bodies {bodies : List (List String)} (hlayouts : ∀ l ∈ layouts, l.Sound)
    (h : List.Forall₂ (fun l body => linesOf (itemsOf t l) = .ok body) layouts bodies) :
    (∀ line ∈ (bodies.map ("" :: ·)).flatten, '\n' ∉ line.toList) ∧
      ((bodies.map ("" :: ·)).flatten.map String.toList).filterMap defined? =
        layouts.flatMap fun l => (itemsOf t l).map Item.identifier := by
  induction h with
  | nil => exact ⟨List.forall_mem_nil _, rfl⟩
  | cons hbody _ ih =>
    rw [List.forall_mem_cons] at hlayouts
    obtain ⟨hl, hlayouts⟩ := hlayouts
    obtain ⟨hlines, hdefined⟩ := ih hlayouts
    have hlegible := legible_itemsOf (t := t) hl
    have hempty : defined? "".toList = none := rfl
    rw [List.map_cons, List.flatten_cons, List.forall_mem_append, List.map_append, List.filterMap_append, hdefined,
      List.forall_mem_cons, List.map_cons, List.filterMap_cons_none hempty, filterMap_linesOf hlegible hbody]
    exact ⟨⟨⟨by simp, fun line hline => (linesOf_closed hbody hlegible line hline).2⟩, hlines⟩, rfl⟩

/-- A kernel text with names that are names defines the identifiers of its items. -/
theorem defined_text {s : String} (hnames : ∀ d ∈ t.decls, IsName d.name) (hlayouts : ∀ l ∈ layouts, l.Sound)
    (h : text t layouts = .ok s) : defined s = identifiers t layouts := by
  obtain ⟨aliases, bodies, haliases, hbodies, rfl⟩ := text_eq_ok h
  have hlegible : ∀ i ∈ t.decls.map fun d => Item.refAlias d.name, i.Legible :=
    List.forall_mem_map.mpr hnames
  obtain ⟨hlines, hdefined⟩ := filterMap_bodies hlayouts hbodies
  rw [defined_intercalate, List.map_append, List.filterMap_append, filterMap_linesOf hlegible haliases,
    hdefined, List.map_map]
  · rfl
  · rw [List.forall_mem_append]
    exact ⟨fun line hline => (linesOf_closed haliases hlegible line hline).2, hlines⟩

end Texts

end Kernel

/-! ## Names and endings -/

theorem eq_append_ofList {a b : String} {cs : List Char} (h : a.toList = b.toList ++ cs) :
    a = b ++ String.ofList cs := by
  rw [← String.toList_inj, h, String.toList_append, String.toList_ofList]

theorem eq_ofList_append {a b : String} {cs : List Char} (h : a.toList = cs ++ b.toList) :
    a = String.ofList cs ++ b := by
  rw [← String.toList_inj, h, String.toList_append, String.toList_ofList]

/-- A text that is glued together in two ways: one of the starts goes on as the other. -/
theorem append_eq_append_cases {a b x y : String} (h : a ++ x = b ++ y) :
    (∃ z, b = a ++ z ∧ x = z ++ y) ∨ ∃ z, a = b ++ z ∧ y = z ++ x := by
  have hchars : a.toList ++ x.toList = b.toList ++ y.toList := by
    rw [← String.toList_append, h, String.toList_append]
  rcases List.append_eq_append_iff.mp hchars with ⟨cs, hb, hx⟩ | ⟨cs, ha, hy⟩
  · exact .inl ⟨String.ofList cs, eq_append_ofList hb, eq_ofList_append hx⟩
  · exact .inr ⟨String.ofList cs, eq_append_ofList ha, eq_ofList_append hy⟩

theorem append_left_injective (a : String) : Function.Injective (a ++ ·) := by
  intro x y h
  have hchars := congrArg String.toList h
  simpa [String.toList_inj] using hchars

theorem name_ne_append {a z : String} (hz : z ≠ "") : a ≠ a ++ z := by
  intro h
  have hchars := congrArg String.toList h
  simp [hz] at hchars

namespace Decl

/-- What stands behind the name of a declaration and a low line in its identifiers. -/
def members : Decl → List String
  | .struct d => "read" :: (d.fields.filter fun f => f.ty.isSmall).map Field.name
  | .enum d => tagName :: d.variants.map Variant.name

/-- What the type of a declaration has behind its name. -/
def typeEnding : Decl → String
  | .struct _ => "Packed"
  | .enum _ => ""

/-- What stands behind the name of a declaration in its identifiers. -/
def endings (d : Decl) : List String := "Ref" :: d.typeEnding :: d.members.map ("_" ++ ·)

def identifiers (d : Decl) : List String := d.endings.map (d.name ++ ·)

variable {d e : Decl} {y z : String}

theorem mem_endings : y ∈ d.endings ↔ y = "Ref" ∨ y = d.typeEnding ∨ ∃ m ∈ d.members, "_" ++ m = y := by
  simp [endings]

theorem low_append_ne {s : String} (h : '_' ∉ s.toList) (m : String) : "_" ++ m ≠ s := by
  rintro rfl
  simp at h

theorem low_notMem_typeEnding (d : Decl) : '_' ∉ d.typeEnding.toList := by
  cases d <;> simp [typeEnding]

theorem identifiers_itemsOf (t : TypeTable) {l : TypeLayout} (h : Layout.LaysOut d l) :
    Kernel.aliasOf d.name :: (Kernel.itemsOf t l).map Kernel.Item.identifier = d.identifiers := by
  cases h with
  | @struct d size alignment tagged fields hfields =>
    -- Fields with accessors are told by their types, so they are the same in the layout.
    have hsmall : (fields.filter fun f => f.ty.isSmall).map FieldLayout.name =
        (d.fields.filter fun f => f.ty.isSmall).map Field.name := by
      have hfilter := congrArg (fun pairs => (pairs.filter fun p => p.2.isSmall).map Prod.fst) hfields
      simpa [List.filter_map, Function.comp_def] using hfilter
    have hnames := congrArg (List.map fun m => d.name ++ ("_" ++ m)) hsmall
    simpa [Kernel.itemsOf, Kernel.accessors, Kernel.Item.identifier, Kernel.aliasOf, Kernel.packedOf,
      identifiers, endings, members, typeEnding, Function.comp_def, String.append_assoc, Decl.name] using hnames
  | @enum d size words variants hvariants =>
    have hnames := congrArg (List.map fun m => d.name ++ ("_" ++ m)) hvariants
    simpa [Kernel.itemsOf, Kernel.Item.identifier, Kernel.aliasOf, identifiers, endings, members, typeEnding,
      Function.comp_def, String.append_assoc, Decl.name, tagName] using hnames

/-- Within a declaration, only the names of its members may clash. -/
theorem nodup_identifiers_iff : d.identifiers.Nodup ↔ d.members.Nodup := by
  have hmembers (s : String) (h : '_' ∉ s.toList) : s ∉ d.members.map ("_" ++ ·) := by
    intro hmem
    obtain ⟨m, -, hm⟩ := List.mem_map.mp hmem
    exact low_append_ne h m hm
  have hfirst : "Ref" ∉ d.typeEnding :: d.members.map ("_" ++ ·) := by
    rw [List.mem_cons, not_or]
    refine ⟨?_, hmembers "Ref" (by decide)⟩
    cases d <;> simp [typeEnding]
  have hsecond := hmembers _ d.low_notMem_typeEnding
  rw [identifiers, List.nodup_map_iff (append_left_injective _), endings, List.nodup_cons, List.nodup_cons,
    List.nodup_map_iff (append_left_injective _)]
  exact ⟨fun h => h.2.2, fun h => ⟨hfirst, hsecond, h⟩⟩

/-- The second declaration is called as the first one with something behind it, so that they have an
identifier in common. -/
def Overlaps (d e : Decl) : Prop :=
  ∃ z y, z ≠ "" ∧ e.name = d.name ++ z ∧ y ∈ e.endings ∧ z ++ y ∈ d.endings

theorem disjoint_identifiers_iff (hne : d.name ≠ e.name) :
    d.identifiers.Disjoint e.identifiers ↔ ¬ Overlaps d e ∧ ¬ Overlaps e d := by
  constructor
  · intro hdisjoint
    constructor
    · rintro ⟨z, y, -, hname, hy, hzy⟩
      apply hdisjoint (List.mem_map_of_mem hzy)
      rw [← String.append_assoc, ← hname]
      exact List.mem_map_of_mem hy
    · rintro ⟨z, y, -, hname, hy, hzy⟩
      refine hdisjoint ?_ (List.mem_map_of_mem hzy)
      rw [← String.append_assoc, ← hname]
      exact List.mem_map_of_mem hy
  · rintro ⟨hde, hed⟩ identifier hd he
    obtain ⟨x, hx, rfl⟩ := List.mem_map.mp hd
    obtain ⟨y, hy, heq⟩ := List.mem_map.mp he
    -- The common identifier is split in two ways, so one of the names goes on as the other.
    rcases append_eq_append_cases heq with ⟨z, hname, rfl⟩ | ⟨z, hname, rfl⟩
    · refine hed ⟨z, x, ?_, hname, hx, hy⟩
      rintro rfl
      exact hne (by simpa using hname)
    · refine hde ⟨z, y, ?_, hname, hy, hx⟩
      rintro rfl
      exact hne (by simpa using hname.symm)

end Decl

/-! ## Clashes -/

/-- The ways in which two items of the kernel text of a schema define one identifier. -/
inductive Schema.Clash (s : Schema) : Prop
  /-- The accessor of a field is the one of the whole struct. -/
  | reader {d : StructDecl} {f : Field} (hd : .struct d ∈ s.decls) (hf : f ∈ d.fields)
      (hsmall : f.ty.isSmall = true) (hname : f.name = "read")
  /-- The macro of a variant is the accessor of the tag. -/
  | tagReader {d : EnumDecl} {v : Variant} (hd : .enum d ∈ s.decls) (hv : v ∈ d.variants)
      (hname : v.name = tagName)
  /-- An enum is the alias of a declaration. -/
  | refAlias {d : Decl} {e : EnumDecl} (hd : d ∈ s.decls) (he : .enum e ∈ s.decls)
      (hname : e.name = d.name ++ "Ref")
  /-- An enum is the packed declaration of a struct. -/
  | packed {d : StructDecl} {e : EnumDecl} (hd : .struct d ∈ s.decls) (he : .enum e ∈ s.decls)
      (hname : e.name = d.name ++ "Packed")
  /-- A declaration is called as another one and the start of a member of it, and the rest of the member is
  what an identifier of the declaration ends with. -/
  | member {d e : Decl} {start ending : String} (hd : d ∈ s.decls) (he : e ∈ s.decls)
      (hname : e.name = d.name ++ "_" ++ start) (hending : ending ∈ e.endings)
      (hmember : start ++ ending ∈ d.members)

namespace Decl

variable {s : Schema} {d e : Decl} {y z : String}

theorem members_nodup_iff (h : s.Lawful) (hd : d ∈ s.decls) :
    d.members.Nodup ↔ match d with
      | .struct d => ∀ f ∈ d.fields, f.ty.isSmall = true → f.name ≠ "read"
      | .enum d => ∀ v ∈ d.variants, v.name ≠ tagName := by
  cases d with
  | struct d =>
    have hnames := (h.fields d (List.mem_filterMap.mpr ⟨_, hd, rfl⟩)).1
    have hsmall : ((d.fields.filter fun f => f.ty.isSmall).map Field.name).Nodup :=
      hnames.sublist (List.filter_sublist.map _)
    simp only [members, List.nodup_cons, hsmall, and_true, List.mem_map, List.mem_filter, not_exists, not_and,
      and_imp, ne_eq]
  | enum d =>
    have hnames := (h.variants d (List.mem_filterMap.mpr ⟨_, hd, rfl⟩)).1
    simp only [members, List.nodup_cons, hnames, and_true, List.mem_map, not_exists, not_and, ne_eq]

/-- An ending that is the end of a fixed one is empty, and so it is that of an enum. -/
theorem enum_of_append_eq {word : String} (hword : word = "Ref" ∨ word = "Packed") (hz : z ≠ "")
    (hy : y ∈ e.endings) (h : z ++ y = word) : z = word ∧ ∃ e', e = .enum e' := by
  have hsuffix : y.toList <:+ word.toList := ⟨z.toList, by rw [← String.toList_append, h]⟩
  have hfull : y ≠ word := by
    rintro rfl
    have hchars := congrArg String.toList h
    simp [hz] at hchars
  rcases mem_endings.mp hy with rfl | rfl | ⟨m, -, rfl⟩
  · rcases hword with rfl | rfl
    · exact absurd rfl hfull
    · exact absurd hsuffix (by decide)
  · cases e with
    | struct e =>
      have hsuffix : "Packed".toList <:+ word.toList := hsuffix
      rcases hword with rfl | rfl
      · exact absurd hsuffix (by decide)
      · exact absurd rfl hfull
    | enum e => exact ⟨by simpa [typeEnding] using h, e, rfl⟩
  · have hlow : '_' ∈ word.toList := hsuffix.subset (by simp)
    rcases hword with rfl | rfl <;> exact absurd hlow (by decide)

/-- What the names differ by begins with the low line. -/
theorem low_append_eq {m : String} (hz : z ≠ "") (h : "_" ++ m = z ++ y) :
    ∃ start, z = "_" ++ start ∧ m = start ++ y := by
  have hchars : '_' :: m.toList = z.toList ++ y.toList := by
    rw [← String.toList_append, ← h, String.toList_append]
    rfl
  cases hfirst : z.toList with
  | nil => exact absurd (String.toList_eq_nil_iff.mp hfirst) hz
  | cons c cs =>
    rw [hfirst] at hchars
    obtain ⟨rfl, hrest⟩ := List.cons.inj hchars
    exact ⟨String.ofList cs, eq_append_ofList hfirst, eq_ofList_append hrest⟩

theorem Overlaps.clash (hd : d ∈ s.decls) (he : e ∈ s.decls) (h : Overlaps d e) : s.Clash := by
  obtain ⟨z, y, hz, hname, hy, hzy⟩ := h
  -- The shorter name decides: the common identifier is its alias, its type or one of its members.
  rcases mem_endings.mp hzy with hzy | hzy | ⟨m, hm, hzy⟩
  · obtain ⟨rfl, e', rfl⟩ := enum_of_append_eq (.inl rfl) hz hy hzy
    exact .refAlias hd he hname
  · cases d with
    | struct d =>
      obtain ⟨rfl, e', rfl⟩ := enum_of_append_eq (.inr rfl) hz hy hzy
      exact .packed hd he hname
    | enum d =>
      have hchars := congrArg String.toList hzy
      simp [typeEnding, hz] at hchars
  · obtain ⟨start, rfl, rfl⟩ := low_append_eq hz hzy
    refine .member hd he ?_ hy hm
    rw [hname, String.append_assoc]

theorem overlaps_enum {e : EnumDecl} {word : String} (hword : word ≠ "") (hd : word ∈ d.endings)
    (hname : e.name = d.name ++ word) : Overlaps d (.enum e) :=
  ⟨word, "", hword, hname, mem_endings.mpr (.inr (.inl rfl)), by rwa [String.append_empty]⟩

theorem overlaps_member {start ending : String} (hname : e.name = d.name ++ "_" ++ start)
    (hending : ending ∈ e.endings) (hmember : start ++ ending ∈ d.members) : Overlaps d e := by
  refine ⟨"_" ++ start, ending, low_append_ne (by decide) start, ?_, hending, ?_⟩
  · rw [hname, String.append_assoc]
  · exact mem_endings.mpr (.inr (.inr ⟨_, hmember, (String.append_assoc ..).symm⟩))

end Decl

/-- A schema clashes within a declaration or between two. -/
theorem Schema.Lawful.clash_iff {s : Schema} (h : s.Lawful) :
    s.Clash ↔ (∃ d ∈ s.decls, ¬ d.members.Nodup) ∨ ∃ d ∈ s.decls, ∃ e ∈ s.decls, d.Overlaps e := by
  constructor
  · intro hclash
    cases hclash with
    | reader hd hf hsmall hname =>
      exact .inl ⟨_, hd, fun hnodup => (Decl.members_nodup_iff h hd).mp hnodup _ hf hsmall hname⟩
    | tagReader hd hv hname =>
      exact .inl ⟨_, hd, fun hnodup => (Decl.members_nodup_iff h hd).mp hnodup _ hv hname⟩
    | refAlias hd he hname =>
      exact .inr ⟨_, hd, _, he, Decl.overlaps_enum (by decide) (Decl.mem_endings.mpr (.inl rfl)) hname⟩
    | packed hd he hname =>
      have hpacked : "Packed" ≠ "" := by decide
      exact .inr ⟨_, hd, _, he, Decl.overlaps_enum hpacked (Decl.mem_endings.mpr (.inr (.inl rfl))) hname⟩
    | member hd he hname hending hmember =>
      exact .inr ⟨_, hd, _, he, Decl.overlaps_member hname hending hmember⟩
  · rintro (⟨d, hd, hmembers⟩ | ⟨d, hd, e, he, hoverlaps⟩)
    · rw [Decl.members_nodup_iff h hd] at hmembers
      cases d with
      | struct d =>
        push Not at hmembers
        obtain ⟨f, hf, hsmall, hname⟩ := hmembers
        exact .reader hd hf hsmall hname
      | enum d =>
        push Not at hmembers
        obtain ⟨v, hv, hname⟩ := hmembers
        exact .tagReader hd hv hname
    · exact hoverlaps.clash hd he

/-- The identifiers of the declarations of a schema are different, unless they clash. -/
theorem Schema.Lawful.nodup_identifiers_iff {s : Schema} (h : s.Lawful) :
    (s.decls.flatMap Decl.identifiers).Nodup ↔ ¬ s.Clash := by
  rw [List.nodup_flatMap, h.clash_iff, not_or]
  refine and_congr ?_ ?_
  · simp only [not_exists, not_and, not_not, Decl.nodup_identifiers_iff]
  · constructor
    · rintro hpairs ⟨d, hd, e, he, hoverlaps⟩
      have hsymm : Std.Symm (Function.onFun List.Disjoint Decl.identifiers) :=
        ⟨fun _ _ hdisjoint => hdisjoint.symm⟩
      have hne : d.name ≠ e.name := by
        obtain ⟨z, y, hz, hname, -⟩ := hoverlaps
        rw [hname]
        exact name_ne_append hz
      have hdisjoint := hpairs.forall hd he (fun heq => hne (congrArg Decl.name heq))
      exact ((Decl.disjoint_identifiers_iff hne).mp hdisjoint).1 hoverlaps
    · intro hapart
      -- Different declarations have different names.
      refine (List.pairwise_map.mp h.names).imp_of_mem fun {d e} hd he hne => ?_
      refine (Decl.disjoint_identifiers_iff hne).mpr ⟨fun h => ?_, fun h => ?_⟩
      · exact hapart ⟨d, hd, e, he, h⟩
      · exact hapart ⟨e, he, d, hd, h⟩

/-! ## Compiled schemas -/

/-- The identifiers of a text are those of the declarations, though not in this order. -/
theorem Kernel.identifiers_perm {t : TypeTable} {layouts : List TypeLayout}
    (h : List.Forall₂ Layout.LaysOut t.decls layouts) :
    (Kernel.identifiers t layouts).Perm (t.decls.flatMap Decl.identifiers) := by
  unfold Kernel.identifiers
  generalize t.decls = decls at h
  induction h with
  | nil => exact .nil
  | @cons d l decls layouts hl _ ih =>
    rw [List.map_cons, List.flatMap_cons, List.flatMap_cons, ← d.identifiers_itemsOf t hl,
      List.cons_append, List.cons_append]
    -- The identifiers of the items move in front of the other aliases.
    refine List.Perm.cons _ ?_
    refine List.Perm.trans ?_ (ih.append_left _)
    rw [← List.append_assoc, ← List.append_assoc]
    exact List.perm_append_comm.append_right _

namespace Schema

variable {s : Schema} {c : Compiled}

/-- The lines of a compiled text define the identifiers of its items. -/
theorem defined_compiled (hc : s.compile = .ok c) (hlegible : ∀ d ∈ s.decls, d.Legible) :
    Kernel.defined c.text = Kernel.identifiers c.table c.layouts := by
  obtain ⟨htable, hlayouts, htext⟩ := compile_eq_ok hc
  obtain ⟨ht, hw⟩ := TypeTable.ofSchema_eq_ok htable
  obtain ⟨hsound, -⟩ := Layout.sound_layouts htable hlegible (Layout.layouts_direct hw hlayouts)
  refine Kernel.defined_text ?_ hsound htext
  rw [ht]
  exact fun d hd => (hlegible d hd).isName

/-- The items of the kernel text of a schema define different identifiers, unless the names in the schema
clash in one of five ways. These are the identifiers that the lines of the text define, if the declarations
can stand in a schema text. -/
theorem identifiers_apart (hc : s.compile = .ok c) :
    ((Kernel.identifiers c.table c.layouts).Nodup ↔ ¬ s.Clash) ∧
      ((∀ d ∈ s.decls, d.Legible) → Kernel.defined c.text = Kernel.identifiers c.table c.layouts) := by
  refine ⟨?_, defined_compiled hc⟩
  obtain ⟨htable, hlayouts, -⟩ := compile_eq_ok hc
  obtain ⟨ht, hw⟩ := TypeTable.ofSchema_eq_ok htable
  have hdecls : c.table.decls = s.decls := by rw [ht]
  have hlawful : s.Lawful := (TypeTable.succeeds_ofSchema_iff s).mp ⟨_, htable⟩
  rw [(Kernel.identifiers_perm (Layout.laysOut_layouts hw hlayouts)).nodup_iff, hdecls]
  exact hlawful.nodup_identifiers_iff

theorem identifiers_apart_point :
    ∃ c, pointSchema.compile = .ok c ∧ ¬ pointSchema.Clash ∧
      Kernel.defined c.text = ["PointRef", "ShapeRef", "PointPacked", "Point_read", "Point_at", "Point_next",
        "Shape", "Shape_tag", "Shape_Dot"] := by
  have hc : pointSchema.compile = .ok _ := rfl
  have hlegible : ∀ d ∈ pointSchema.decls, d.Legible := by decide
  exact ⟨_, hc, (identifiers_apart hc).1.mp (by decide), ((identifiers_apart hc).2 hlegible).trans rfl⟩

/-- A struct with a field that is called as the accessor of the whole struct. -/
def readSchema : Schema where
  decls := [.struct { name := "A", fields := [{ name := "read", ty := .scalar .u32 }] }]

/-- One identifier is defined twice. -/
theorem defined_read_twice :
    ∃ c, readSchema.compile = .ok c ∧ Kernel.defined c.text = ["ARef", "APacked", "A_read", "A_read"] := by
  have hc : readSchema.compile = .ok _ := rfl
  have hlegible : ∀ d ∈ readSchema.decls, d.Legible := by decide
  exact ⟨_, hc, (defined_compiled hc hlegible).trans rfl⟩

end Schema

end PackedSchema
