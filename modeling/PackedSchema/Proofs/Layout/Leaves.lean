import PackedSchema.Proofs.Layout.Placement
import PackedSchema.Proofs.Layout.Session

/-!
# Leaves of structs

A struct that is expanded through all of its nested structs consists of leaves: the fields that are no
structs, and the tag words. Leaves lie inside of the struct and do not overlap.
-/

namespace PackedSchema.Layout

variable {t : TypeTable} {name : String} {fields : List FieldLayout} {shape : StructShape}

/-! ## Leaves -/

/-- A piece of a struct: the names of the fields that lead to it, and the bytes that it takes. -/
structure Leaf where
  path : List String
  offset : Int
  length : Int

namespace Leaf

/-- The tag word of a struct. -/
def tag : Leaf := ⟨[tagName], 0, word⟩

/-- A field that is no struct. -/
def ofField (f : FieldLayout) : Leaf := ⟨[f.name], f.offset, f.size⟩

/-- A leaf of the struct that is the type of a field. -/
def under (f : FieldLayout) (leaf : Leaf) : Leaf :=
  ⟨f.name :: leaf.path, f.offset + leaf.offset, leaf.length⟩

/-- The leaves have no byte in common. -/
def Apart (a b : Leaf) : Prop := a.offset + a.length ≤ b.offset ∨ b.offset + b.length ≤ a.offset

/-- The leaf lies in the bytes of a field. -/
def Inside (leaf : Leaf) (f : FieldLayout) : Prop :=
  f.offset ≤ leaf.offset ∧ leaf.offset + leaf.length ≤ f.offset + f.size

/-- The leaf takes bytes, all of them below a size. -/
def Below (leaf : Leaf) (size : Int) : Prop :=
  0 ≤ leaf.offset ∧ 0 < leaf.length ∧ leaf.offset + leaf.length ≤ size

end Leaf

/-- The offsets of a struct, as an empty session gives them. -/
def offsets (t : TypeTable) (name : String) : Except Failure (List FieldLayout) :=
  (ask (structOffsets t name) {}).1

/-- The leaves of a struct and, through its fields, of the structs inside of it. -/
inductive LeafOf (t : TypeTable) : String → Leaf → Prop
  | tag {name : String} {fields : List FieldLayout} (hfields : offsets t name = .ok fields)
      (htagged : t.isTagged name = true) : LeafOf t name .tag
  | field {name : String} {fields : List FieldLayout} {f : FieldLayout}
      (hfields : offsets t name = .ok fields) (hf : f ∈ fields) (hsmall : f.ty.isSmall = true) :
      LeafOf t name (.ofField f)
  | nested {name inner : String} {fields : List FieldLayout} {f : FieldLayout} {leaf : Leaf}
      (hfields : offsets t name = .ok fields) (hf : f ∈ fields) (hty : f.ty = .named inner)
      (hleaf : LeafOf t inner leaf) : LeafOf t name (leaf.under f)

/-! ## Leaves of one field -/

/-- The leaf is a field, or it is a leaf of the struct that is the type of the field. -/
inductive FromField (t : TypeTable) (f : FieldLayout) : Leaf → Prop
  | small (hsmall : f.ty.isSmall = true) : FromField t f (.ofField f)
  | nested {inner : String} {leaf : Leaf} (hty : f.ty = .named inner) (hleaf : LeafOf t inner leaf) :
      FromField t f (leaf.under f)

theorem Leaf.inside_ofField (f : FieldLayout) : (Leaf.ofField f).Inside f :=
  ⟨Int.le_refl _, Int.le_refl _⟩

theorem Leaf.Below.inside_under {leaf : Leaf} {f : FieldLayout} (h : leaf.Below f.size) :
    (leaf.under f).Inside f := by
  obtain ⟨hoffset, -, hend⟩ := h
  constructor <;> simp only [Leaf.under] <;> omega

theorem Leaf.Apart.under {a b : Leaf} (h : a.Apart b) (f : FieldLayout) :
    (a.under f).Apart (b.under f) := by
  unfold Leaf.Apart at h ⊢
  simp only [Leaf.under]
  omega

theorem Leaf.Apart.symm {a b : Leaf} (h : a.Apart b) : b.Apart a := Or.symm h

/-! ## Leaves of a shape -/

section Shape

variable {start : Int} {f g : FieldLayout} {a b : Leaf}

theorem Arranged.below (h : Arranged start shape) (hstart : 0 ≤ start) (hf : f ∈ shape.fields)
    (ha : a.Inside f) (hpos : 0 < a.length) : a.Below shape.size := by
  have hoffset := h.start_le_offset f hf
  have hend := h.end_le_size f hf
  obtain ⟨hle, hge⟩ := ha
  refine ⟨?_, hpos, ?_⟩ <;> omega

/-- Leaves of different fields are apart. -/
theorem Arranged.apart_of_ne (h : Arranged start shape) (hf : f ∈ shape.fields)
    (hg : g ∈ shape.fields) (hne : f ≠ g) (ha : a.Inside f) (hb : b.Inside g) : a.Apart b := by
  -- The fields are apart in their order, and being apart does not depend on the order.
  have hsymm : Std.Symm fun x y => (Leaf.ofField x).Apart (Leaf.ofField y) := ⟨fun _ _ h => h.symm⟩
  have hpairs : shape.fields.Pairwise fun x y => (Leaf.ofField x).Apart (Leaf.ofField y) :=
    h.ordered.imp Or.inl
  have hfields := hpairs.forall hf hg hne
  unfold Leaf.Inside at ha hb
  unfold Leaf.Apart at hfields ⊢
  simp only [Leaf.ofField] at hfields
  omega

/-- The fields of a tagged struct are behind its tag word. -/
theorem Arranged.tag_apart (h : Arranged word shape) (hf : f ∈ shape.fields) (ha : a.Inside f) :
    Leaf.tag.Apart a := by
  have hoffset := h.start_le_offset f hf
  left
  simp only [Leaf.tag]
  have hle := ha.1
  omega

end Shape

/-! ## Leaves of a struct -/

theorem sizeOf_small_pos {ty : FieldType} {site : Site} {size : Int} (hsmall : ty.isSmall = true)
    (hc : ty.Counted) (h : (direct t).sizeOf t site ty = .ok size) : 0 < size := by
  cases ty with
  | scalar k =>
    cases h
    decide
  | ref inner =>
    cases h
    decide
  | vector k count =>
    cases h
    simp only [FieldType.Counted] at hc
    simp only [word]
    omega
  | missing => cases h
  | named n => cases hsmall

section Struct

variable (hw : t.WellFormed) (hc : Counted t.decls)

include hw hc

theorem offsets_eq_ok_iff : offsets t name = .ok fields ↔
    ∃ shape, (direct t).shape name = .ok shape ∧ shape.fields = fields := by
  have hfollows : Follows t _ (structOffsets t name) _ :=
    (following t _).rel_structOffsets (deep_follow hw hc name).shape
  rw [offsets, hfollows.fresh, Parts.structOffsets, bind_eq_ok_iff]
  simp [pure, Except.pure]

theorem structSize_eq_ok_iff {size : Int} : (ask (structSize t name) {}).1 = .ok size ↔
    ∃ shape, (direct t).shape name = .ok shape ∧ shape.size = size := by
  have hfollows : Follows t _ (structSize t name) _ :=
    (following t _).rel_structSize (deep_follow hw hc name).shape
  rw [hfollows.fresh, Parts.structSize, bind_eq_ok_iff]
  simp [pure, Except.pure]

/-- The field of a shape has bytes if it is no struct, and otherwise the size of that struct. -/
theorem field_size {f : FieldLayout} (hshape : (direct t).shape name = .ok shape)
    (hf : f ∈ shape.fields) :
    (f.ty.isSmall = true → 0 < f.size) ∧
      ∀ inner, f.ty = .named inner → ∃ shape', (direct t).shape inner = .ok shape' ∧
        shape'.size = f.size := by
  obtain ⟨d, hlook, hplaced⟩ := placed_of_shape hw hshape
  obtain ⟨g, hg, hty, halignment, hsize⟩ := hplaced.exists_field hf
  rw [hty]
  constructor
  · intro hsmall
    have hcounted := hc _ (TypeTable.mem_of_lookup hlook).1 g.ty (List.mem_map_of_mem hg)
    exact sizeOf_small_pos hsmall hcounted hsize
  · intro inner hinner
    -- An enum has no alignment, so the name is that of a struct.
    obtain ⟨⟨d', hd'⟩, -⟩ := (succeeds_alignmentOf_iff.mp ⟨_, halignment⟩).2 inner hinner
    rw [hinner] at hsize
    exact (sizeOf_struct_eq_ok_iff hd').mp hsize

omit hw hc in
/-- The start of a tagged struct is behind its tag word. -/
theorem startShape_tagged (htagged : t.isTagged name = true) : (startShape t name).size = word := by
  rw [startShape, if_pos htagged]

theorem mem_shape_of_offsets {f : FieldLayout} (hshape : (direct t).shape name = .ok shape)
    (hfields : offsets t name = .ok fields) (hf : f ∈ fields) : f ∈ shape.fields := by
  obtain ⟨shape', hshape', rfl⟩ := (offsets_eq_ok_iff hw hc).mp hfields
  cases hshape.symm.trans hshape'
  exact hf

/-- Leaves lie inside of their struct. -/
theorem LeafOf.inBounds {leaf : Leaf} (h : LeafOf t name leaf)
    (hshape : (direct t).shape name = .ok shape) : leaf.Below shape.size := by
  induction h generalizing shape with
  | @tag name fields hfields htagged =>
    have hsize := (shape_arranged hw hc hshape).start_le
    rw [startShape_tagged htagged] at hsize
    exact ⟨Int.le_refl 0, by decide, by simpa [Leaf.tag] using hsize⟩
  | @field name fields f hfields hf hsmall =>
    have hmem := mem_shape_of_offsets hw hc hshape hfields hf
    have hpos := (field_size hw hc hshape hmem).1 hsmall
    exact (shape_arranged hw hc hshape).below (startShape_nonneg t name) hmem
      (Leaf.inside_ofField f) hpos
  | @nested name inner fields f leaf hfields hf hty hleaf ih =>
    have hmem := mem_shape_of_offsets hw hc hshape hfields hf
    obtain ⟨shape', hshape', hsize⟩ := (field_size hw hc hshape hmem).2 inner hty
    have hbelow := ih hshape'
    rw [hsize] at hbelow
    exact (shape_arranged hw hc hshape).below (startShape_nonneg t name) hmem
      hbelow.inside_under hbelow.2.1

theorem FromField.inside {f : FieldLayout} {leaf : Leaf} (h : FromField t f leaf)
    (hshape : (direct t).shape name = .ok shape) (hf : f ∈ shape.fields) : leaf.Inside f := by
  cases h with
  | small hsmall => exact Leaf.inside_ofField f
  | nested hty hleaf =>
    obtain ⟨shape', hshape', hsize⟩ := (field_size hw hc hshape hf).2 _ hty
    have hbelow := hleaf.inBounds hw hc hshape'
    rw [hsize] at hbelow
    exact hbelow.inside_under

/-- A leaf is the tag word, or it comes from one of the fields. -/
theorem LeafOf.origin {leaf : Leaf} (h : LeafOf t name leaf)
    (hshape : (direct t).shape name = .ok shape) :
    leaf = .tag ∧ t.isTagged name = true ∨ ∃ f ∈ shape.fields, FromField t f leaf := by
  cases h with
  | tag hfields htagged => exact Or.inl ⟨rfl, htagged⟩
  | field hfields hf hsmall =>
    exact Or.inr ⟨_, mem_shape_of_offsets hw hc hshape hfields hf, .small hsmall⟩
  | nested hfields hf hty hleaf =>
    exact Or.inr ⟨_, mem_shape_of_offsets hw hc hshape hfields hf, .nested hty hleaf⟩

theorem LeafOf.tag_apart {leaf : Leaf} (h : LeafOf t name leaf)
    (hshape : (direct t).shape name = .ok shape) (htagged : t.isTagged name = true)
    (hne : leaf ≠ .tag) : Leaf.tag.Apart leaf := by
  have harranged := shape_arranged hw hc hshape
  rw [startShape_tagged htagged] at harranged
  rcases h.origin hw hc hshape with ⟨htag, -⟩ | ⟨f, hf, hfrom⟩
  · exact absurd htag hne
  · exact harranged.tag_apart hf (hfrom.inside hw hc hshape hf)

/-- Different leaves of a struct have no byte in common. -/
theorem LeafOf.apart {a b : Leaf} (ha : LeafOf t name a) (hb : LeafOf t name b)
    (hshape : (direct t).shape name = .ok shape) (hne : a ≠ b) : a.Apart b := by
  -- By induction on the first leaf, for the case that both come from the same nested struct.
  induction ha generalizing b shape with
  | tag hfields htagged => exact hb.tag_apart hw hc hshape htagged hne.symm
  | @field name fields f hfields hf hsmall =>
    have hmem := mem_shape_of_offsets hw hc hshape hfields hf
    rcases hb.origin hw hc hshape with ⟨rfl, htagged⟩ | ⟨g, hg, hfrom⟩
    · exact ((LeafOf.field hfields hf hsmall).tag_apart hw hc hshape htagged hne).symm
    · by_cases hfg : f = g
      · subst hfg
        cases hfrom with
        | small hsmall' => exact absurd rfl hne
        | nested hty hleaf =>
          rw [hty] at hsmall
          cases hsmall
      · exact (shape_arranged hw hc hshape).apart_of_ne hmem hg hfg (Leaf.inside_ofField f)
          (hfrom.inside hw hc hshape hg)
  | @nested name inner fields f leaf hfields hf hty hleaf ih =>
    have hmem := mem_shape_of_offsets hw hc hshape hfields hf
    rcases hb.origin hw hc hshape with ⟨rfl, htagged⟩ | ⟨g, hg, hfrom⟩
    · exact ((LeafOf.nested hfields hf hty hleaf).tag_apart hw hc hshape htagged hne).symm
    · by_cases hfg : f = g
      · subst hfg
        cases hfrom with
        | small hsmall =>
          rw [hty] at hsmall
          cases hsmall
        | @nested inner' leaf' hty' hleaf' =>
          cases hty.symm.trans hty'
          obtain ⟨shape', hshape', -⟩ := (field_size hw hc hshape hmem).2 inner hty
          have hleaves : leaf ≠ leaf' := by
            rintro rfl
            exact hne rfl
          exact (ih hleaf' hshape' hleaves).under f
      · exact (shape_arranged hw hc hshape).apart_of_ne hmem hg hfg
          ((FromField.nested hty hleaf).inside hw hc hshape hmem) (hfrom.inside hw hc hshape hg)

end Struct

/-- A struct that has a size is laid out with all of its fields in order. Its leaves at any depth lie inside
of it and do not overlap. -/
theorem leaves_apart {schema : Schema} (htable : TypeTable.ofSchema schema = .ok t)
    (hcounted : Counted schema.decls) {size : Int}
    (hsize : (ask (structSize t name) {}).1 = .ok size) :
    (∃ d fields, t.lookup name = some (.struct d) ∧ offsets t name = .ok fields ∧
        fields.map (fun l => (l.name, l.ty)) = d.fields.map fun f => (f.name, f.ty)) ∧
      (∀ leaf, LeafOf t name leaf → leaf.Below size) ∧
      ∀ a b, LeafOf t name a → LeafOf t name b → a ≠ b → a.Apart b := by
  obtain ⟨ht, hw⟩ := TypeTable.ofSchema_eq_ok htable
  have hc : Counted t.decls := by
    rw [ht]
    exact hcounted
  obtain ⟨shape, hshape, rfl⟩ := (structSize_eq_ok_iff hw hc).mp hsize
  obtain ⟨d, hlook, hplaced⟩ := placed_of_shape hw hshape
  refine ⟨⟨d, shape.fields, hlook, ?_, hplaced.map_fields⟩, ?_, ?_⟩
  · exact (offsets_eq_ok_iff hw hc).mpr ⟨shape, hshape, rfl⟩
  · intro leaf hleaf
    exact hleaf.inBounds hw hc hshape
  · intro a b ha hb hne
    exact ha.apart hw hc hb hshape hne

/-- A tagged struct with two structs inside, each with a gap before its vector. -/
def nestedSchema : Schema where
  decls :=
    [.struct { name := "Inner", fields :=
        [{ name := "kind", ty := .scalar .u8 }, { name := "color", ty := .vector .f32 3 }] },
      .struct { name := "Outer", fields :=
        [{ name := "first", ty := .named "Inner" }, { name := "second", ty := .named "Inner" }] },
      .enum { name := "Choice", variants := [{ name := "Pair", payload := [.named "Outer"] }] }]

def nestedTable : TypeTable where
  schemaName := none
  decls := nestedSchema.decls
  tagged := ["Outer"]

theorem leaves_apart_nested :
    let color : Leaf := ⟨["first", "color"], 24, 12⟩
    let kind : Leaf := ⟨["second", "kind"], 36, 4⟩
    (ask (structSize nestedTable "Outer") {}).1 = .ok 60 ∧
      Leaf.tag.Below 60 ∧ color.Below 60 ∧ kind.Below 60 ∧
      Leaf.tag.Apart color ∧ color.Apart kind := by
  intro color kind
  have htable : TypeTable.ofSchema nestedSchema = .ok nestedTable := rfl
  have hcounted : Counted nestedSchema.decls := by
    simp [Counted, nestedSchema, Decl.contents, FieldType.Counted]
  have hsize : (ask (structSize nestedTable "Outer") {}).1 = .ok 60 := rfl
  obtain ⟨-, hbelow, hapart⟩ := leaves_apart htable hcounted hsize
  have houter : offsets nestedTable "Outer" = .ok
      [⟨"first", .named "Inner", 12, 24, 12⟩, ⟨"second", .named "Inner", 36, 24, 12⟩] := rfl
  have hinner : offsets nestedTable "Inner" = .ok
      [⟨"kind", .scalar .u8, 0, 4, 4⟩, ⟨"color", .vector .f32 3, 12, 12, 12⟩] := rfl
  have htag : LeafOf nestedTable "Outer" .tag := .tag houter rfl
  have hcolor : LeafOf nestedTable "Outer" color := by
    have hleaf := LeafOf.field hinner (List.mem_cons_of_mem _ List.mem_cons_self) rfl
    exact LeafOf.nested houter List.mem_cons_self rfl hleaf
  have hkind : LeafOf nestedTable "Outer" kind := by
    have hleaf := LeafOf.field hinner List.mem_cons_self rfl
    exact LeafOf.nested houter (List.mem_cons_of_mem _ List.mem_cons_self) rfl hleaf
  exact ⟨hsize, hbelow _ htag, hbelow _ hcolor, hbelow _ hkind,
    hapart _ _ htag hcolor (by simp [Leaf.tag, color]), hapart _ _ hcolor hkind (by simp [color, kind])⟩

end PackedSchema.Layout
