import PackedSchema.Proofs.Layout.Granularity

/-!
# Alignment through nested structs

A struct is aligned to the greatest alignment of its fields, which need not be a multiple of the others. So
the fields of nested structs end up aligned exactly in those schemas where the alignment of every struct is a
multiple of the alignments of its fields.
-/

namespace PackedSchema

namespace Layout

variable {t : TypeTable} {name : String} {fields : List Field} {shape : StructShape}
  {chain : List FieldLayout} {offset base : Int}

/-! ## Chains of fields -/

/-- Fields, each of them in the struct that is the type of the field before, and the offset of the last one
from the start of the outermost struct. -/
inductive Chain (t : TypeTable) : String → List FieldLayout → Int → Prop
  | last {name : String} {fields : List FieldLayout} {l : FieldLayout} (hfields : offsets t name = .ok fields)
      (hl : l ∈ fields) : Chain t name [l] l.offset
  | cons {name inner : String} {fields chain : List FieldLayout} {l : FieldLayout} {offset : Int}
      (hfields : offsets t name = .ok fields) (hl : l ∈ fields) (hty : l.ty = .named inner)
      (hchain : Chain t inner chain offset) : Chain t name (l :: chain) (l.offset + offset)

/-- Alignments, each a multiple of the next. -/
def Descending (alignments : List Int) : Prop := alignments.IsChain fun a b => b ∣ a

/-- The last field of every chain is aligned wherever the outermost struct is. -/
def Composes (t : TypeTable) : Prop :=
  ∀ name a chain offset, (ask (structAlignment t name) {}).1 = .ok a → Chain t name chain offset →
    ∀ base, a ∣ base → ∀ l ∈ chain.getLast?, l.alignment ∣ base + offset

/-- The alignment of every struct is a multiple of the alignments of its fields. -/
def Harmonic (t : TypeTable) : Prop :=
  ∀ name a fields, (ask (structAlignment t name) {}).1 = .ok a → offsets t name = .ok fields →
    ∀ l ∈ fields, l.alignment ∣ a

/-! ## Offsets along a chain -/

theorem Placed.dvd_offset (h : Placed t name fields shape) {l : FieldLayout} (hl : l ∈ shape.fields) :
    l.alignment ∣ l.offset := by
  induction h with
  | start => cases hl
  | @field done shape f alignment size hdone halignment hsize ih =>
    rcases List.mem_append.mp hl with hl | hl
    · exact ih hl
    · cases List.mem_singleton.mp hl
      exact dvd_raise shape.size alignment

section Chains

variable (hw : t.WellFormed) (hc : Counted t.decls)

include hw hc

/-- The offsets of a struct come from placing its fields. -/
theorem placed_of_offsets {layouts : List FieldLayout} (h : offsets t name = .ok layouts) :
    ∃ d size, t.lookup name = some (.struct d) ∧ Placed t name d.fields { fields := layouts, size } := by
  obtain ⟨shape, hshape, rfl⟩ := (offsets_eq_ok_iff hw hc).mp h
  obtain ⟨d, hlook, hplaced⟩ := placed_of_shape hw hshape
  exact ⟨d, shape.size, hlook, hplaced⟩

theorem dvd_offset {layouts : List FieldLayout} (h : offsets t name = .ok layouts) {l : FieldLayout}
    (hl : l ∈ layouts) : l.alignment ∣ l.offset := by
  obtain ⟨d, size, -, hplaced⟩ := placed_of_offsets hw hc h
  exact hplaced.dvd_offset hl

/-- The alignment of a field is that of its type. -/
theorem alignment_of_offsets {layouts : List FieldLayout} (h : offsets t name = .ok layouts) {l : FieldLayout}
    (hl : l ∈ layouts) : (direct t).alignmentOf t .query l.ty = .ok l.alignment := by
  obtain ⟨d, size, -, hplaced⟩ := placed_of_offsets hw hc h
  obtain ⟨f, -, hty, halignment, -⟩ := hplaced.exists_field hl
  rw [hty]
  exact alignmentOf_site halignment

theorem structAlignment_of_offsets {layouts : List FieldLayout} {inner : String}
    (h : offsets t name = .ok layouts) {l : FieldLayout} (hl : l ∈ layouts) (hty : l.ty = .named inner) :
    (ask (structAlignment t inner) {}).1 = .ok l.alignment := by
  have halignment := alignment_of_offsets hw hc h hl
  rw [hty] at halignment
  obtain ⟨⟨d, hd⟩, -⟩ := (succeeds_alignmentOf_iff.mp ⟨_, halignment⟩).2 inner rfl
  rw [alignmentOf_named_struct hd] at halignment
  exact (structAlignment_eq_direct hw hc).trans halignment

theorem Chain.alignment (h : Chain t name chain offset) :
    ∀ l ∈ chain, (ask (Layout.alignment t l.ty) {}).1 = .ok l.alignment := by
  induction h with
  | last hfields hl =>
    intro l hmem
    cases List.mem_singleton.mp hmem
    exact (alignment_eq_direct hw hc _).trans (alignment_of_offsets hw hc hfields hl)
  | cons hfields hl hty hchain ih =>
    refine List.forall_mem_cons.mpr ⟨?_, ih⟩
    exact (alignment_eq_direct hw hc _).trans (alignment_of_offsets hw hc hfields hl)

/-- Where the alignments along a chain descend, its last field is aligned. -/
theorem Chain.dvd (h : Chain t name chain offset) {a : Int}
    (hdescending : Descending (a :: chain.map FieldLayout.alignment)) (hbase : a ∣ base) :
    ∀ l ∈ chain.getLast?, l.alignment ∣ base + offset := by
  -- By induction on the chain, for all places of the outermost struct.
  induction h generalizing a base with
  | @last name fields l hfields hl =>
    intro l' hlast
    cases hlast
    have ha : l.alignment ∣ a := (List.isChain_cons_cons.mp hdescending).1
    exact Int.dvd_add (Int.dvd_trans ha hbase) (dvd_offset hw hc hfields hl)
  | @cons name inner fields chain l offset hfields hl hty hchain ih =>
    obtain ⟨ha, htail⟩ := List.isChain_cons_cons.mp hdescending
    have hplace : l.alignment ∣ base + l.offset :=
      Int.dvd_add (Int.dvd_trans ha hbase) (dvd_offset hw hc hfields hl)
    have hne : chain ≠ [] := by
      rintro rfl
      cases hchain
    rw [List.getLast?_cons_of_ne_nil hne, ← Int.add_assoc]
    exact ih htail hplace

/-- In a harmonic table the alignments along all chains descend. -/
theorem Chain.descending (h : Chain t name chain offset) (hharmonic : Harmonic t) {a : Int}
    (ha : (ask (structAlignment t name) {}).1 = .ok a) :
    Descending (a :: chain.map FieldLayout.alignment) := by
  induction h generalizing a with
  | last hfields hl =>
    exact List.isChain_cons_cons.mpr ⟨hharmonic _ _ _ ha hfields _ hl, List.isChain_singleton _⟩
  | cons hfields hl hty hchain ih =>
    have hinner := structAlignment_of_offsets hw hc hfields hl hty
    exact List.isChain_cons_cons.mpr ⟨hharmonic _ _ _ ha hfields _ hl, ih hinner⟩

theorem composes_iff_harmonic : Composes t ↔ Harmonic t := by
  constructor
  · intro hcomposes name a fields ha hfields l hl
    -- The field is aligned with the struct at zero and at its alignment, so in their difference.
    have hzero := hcomposes name a [l] l.offset ha (.last hfields hl) 0 (Int.dvd_zero a) l rfl
    have hnext := hcomposes name a [l] l.offset ha (.last hfields hl) a (Int.dvd_refl a) l rfl
    have hdiff := Int.dvd_sub hnext hzero
    rw [Int.zero_add, Int.add_sub_cancel] at hdiff
    exact hdiff
  · intro hharmonic name a chain offset ha hchain base hbase
    exact hchain.dvd hw hc (hchain.descending hw hc hharmonic ha) hbase

theorem alignment_le_of_offsets {layouts : List FieldLayout} {a : Int} (h : offsets t name = .ok layouts)
    (ha : (ask (structAlignment t name) {}).1 = .ok a) {l : FieldLayout} (hl : l ∈ layouts) :
    l.alignment ≤ a := by
  obtain ⟨d, size, hlook, hplaced⟩ := placed_of_offsets hw hc h
  obtain ⟨-, rfl⟩ := TypeTable.mem_of_lookup hlook
  obtain ⟨alignment, halignment, hgreatest⟩ := hplaced.isGreatest_alignment
  cases (structAlignment_fresh hw hc hlook halignment).symm.trans ha
  exact hgreatest.2 (Set.mem_insert_of_mem _ ⟨l, hl, rfl⟩)

theorem alignmentFrom_of_offsets {layouts : List FieldLayout} (h : offsets t name = .ok layouts)
    {l : FieldLayout} (hl : l ∈ layouts) : AlignmentFrom t.decls l.alignment := by
  obtain ⟨d, size, hlook, hplaced⟩ := placed_of_offsets hw hc h
  obtain ⟨f, hf, -, halignment, -⟩ := hplaced.exists_field hl
  exact alignmentOf_from_of_struct (TypeTable.mem_of_lookup hlook).1 (List.mem_map_of_mem hf)
    (fun _ _ _ => direct_alignment_from hw) halignment

end Chains

/-! ## Counts that divide one another -/

/-- Of any two vectors the count of one is a multiple of that of the other. -/
def Comparable (decls : List Decl) : Prop :=
  ∀ d ∈ decls, ∀ d' ∈ decls, ∀ k n k' n', .vector k n ∈ d.contents → .vector k' n' ∈ d'.contents →
    n ∣ n' ∨ n' ∣ n

theorem AlignmentFrom.pos {decls : List Decl} (hc : Counted decls) {a : Int} (h : AlignmentFrom decls a) :
    0 < a := by
  cases h with
  | one => decide
  | word => decide
  | @vector d k count hd hty =>
    have hcount : 1 ≤ count := hc d hd _ hty
    simp only [Layout.word]
    omega

theorem AlignmentFrom.dvd_or_dvd {decls : List Decl} (hcomparable : Comparable decls) {a b : Int}
    (ha : AlignmentFrom decls a) (hb : AlignmentFrom decls b) : a ∣ b ∨ b ∣ a := by
  cases ha with
  | one => exact Or.inl (Int.one_dvd b)
  | word =>
    cases hb with
    | one => exact Or.inr (Int.one_dvd _)
    | word => exact Or.inl (Int.dvd_refl _)
    | vector => exact Or.inl (Int.dvd_mul_right _ _)
  | vector hd hty =>
    cases hb with
    | one => exact Or.inr (Int.one_dvd _)
    | word => exact Or.inr (Int.dvd_mul_right _ _)
    | vector hd' hty' =>
      rcases hcomparable _ hd _ hd' _ _ _ _ hty hty' with h | h
      · exact Or.inl (Int.mul_dvd_mul_left _ h)
      · exact Or.inr (Int.mul_dvd_mul_left _ h)

/-- If all counts divide one another, a greater alignment is a multiple of a smaller one. -/
theorem harmonic_of_comparable (hw : t.WellFormed) (hc : Counted t.decls) (hcomparable : Comparable t.decls) :
    Harmonic t := by
  intro name a layouts ha hlayouts l hl
  have hle := alignment_le_of_offsets hw hc hlayouts ha hl
  have hfrom := alignmentFrom_of_offsets hw hc hlayouts hl
  rw [structAlignment_eq_direct hw hc] at ha
  rcases hfrom.dvd_or_dvd hcomparable (direct_alignment_from hw ha) with h | h
  · exact h
  · have hge := Int.le_of_dvd (hfrom.pos hc) h
    have heq : l.alignment = a := Int.le_antisymm hle hge
    exact ⟨1, by rw [heq, Int.mul_one]⟩

end Layout

/-! ## Schemas that compile -/

namespace Schema

open Layout

variable {s : Schema} {c : Compiled}

/-- In a schema that compiles every struct has offsets and an alignment, and a field along a chain has the
alignment of its type. The last field of a chain is aligned wherever the outermost struct is, if every
alignment along the chain is a multiple of the next. This is so for all chains exactly if the alignment of
every struct is a multiple of those of its fields, as it is if all vector counts divide one another. -/
theorem compile_chains_aligned (h : s.compile = .ok c) (hcounted : Counted s.decls) :
    (∀ d, .struct d ∈ s.decls → ∃ fields a, offsets c.table d.name = .ok fields ∧
        fields.map (fun l => (l.name, l.ty)) = d.fields.map (fun f => (f.name, f.ty)) ∧
        (ask (structAlignment c.table d.name) {}).1 = .ok a) ∧
      (∀ name chain offset, Chain c.table name chain offset →
        ∀ l ∈ chain, (ask (Layout.alignment c.table l.ty) {}).1 = .ok l.alignment) ∧
      (∀ name a chain offset, (ask (structAlignment c.table name) {}).1 = .ok a →
        Chain c.table name chain offset → Descending (a :: chain.map FieldLayout.alignment) →
        ∀ base, a ∣ base → ∀ l ∈ chain.getLast?, l.alignment ∣ base + offset) ∧
      (Composes c.table ↔ Harmonic c.table) ∧ (Comparable s.decls → Composes c.table) := by
  have hcomplete := complete_of_compile h
  have hw := hcomplete.wellFormed
  have hdecls := decls_of_compile h
  have hc : Counted c.table.decls := hdecls ▸ hcounted
  rw [← hdecls]
  refine ⟨?_, ?_, ?_, composes_iff_harmonic hw hc, ?_⟩
  · intro d hd
    obtain ⟨shape, hshape⟩ := hcomplete.shapes d hd
    obtain ⟨a, ha⟩ := hcomplete.alignments d hd
    obtain ⟨d', hlook, hplaced⟩ := placed_of_shape hw hshape
    cases (hw.lookup_name hd).symm.trans hlook
    exact ⟨shape.fields, a, (offsets_eq_ok_iff hw hc).mpr ⟨shape, hshape, rfl⟩, hplaced.map_fields,
      (structAlignment_eq_direct hw hc).trans ha⟩
  · intro name chain offset hchain
    exact hchain.alignment hw hc
  · intro name a chain offset _ hchain hdescending base hbase
    exact hchain.dvd hw hc hdescending hbase
  · intro hcomparable
    exact (composes_iff_harmonic hw hc).mpr (harmonic_of_comparable hw hc hcomparable)

/-- Three structs inside of one another, with alignments that double. -/
def stackSchema : Schema where
  decls :=
    [.struct { name := "Low", fields :=
        [{ name := "id", ty := .scalar .u32 }, { name := "at", ty := .vector .f32 2 }] },
      .struct { name := "Mid", fields :=
        [{ name := "id", ty := .scalar .u8 }, { name := "low", ty := .named "Low" },
          { name := "box", ty := .vector .f32 4 }] },
      .struct { name := "Top", fields :=
        [{ name := "id", ty := .scalar .u16 }, { name := "mid", ty := .named "Mid" }] }]

def stackTable : TypeTable where
  schemaName := none
  decls := stackSchema.decls
  tagged := []

theorem exists_compile_stack : ∃ c, stackSchema.compile = .ok c ∧ c.table = stackTable ∧ c.layouts =
    [.struct "Low" 16 8 false [⟨"id", .scalar .u32, 0, 4, 4⟩, ⟨"at", .vector .f32 2, 8, 8, 8⟩],
      .struct "Mid" 48 16 false
        [⟨"id", .scalar .u8, 0, 4, 4⟩, ⟨"low", .named "Low", 8, 16, 8⟩, ⟨"box", .vector .f32 4, 32, 16, 16⟩],
      .struct "Top" 64 16 false [⟨"id", .scalar .u16, 0, 4, 4⟩, ⟨"mid", .named "Mid", 16, 48, 16⟩]] :=
  exists_compile rfl rfl (by unfold Writable Overlong; decide)

theorem compile_chains_aligned_stack :
    ∃ c, stackSchema.compile = .ok c ∧ Counted stackSchema.decls ∧ Comparable stackSchema.decls ∧
      Composes c.table ∧ Chain c.table "Top" [⟨"mid", .named "Mid", 16, 48, 16⟩,
        ⟨"low", .named "Low", 8, 16, 8⟩, ⟨"at", .vector .f32 2, 8, 8, 8⟩] 32 := by
  have hcounted : Counted stackSchema.decls := by
    simp [Counted, stackSchema, Decl.contents, FieldType.Counted]
  have hcomparable : Comparable stackSchema.decls := by
    simp +contextual [Comparable, stackSchema, Decl.contents]
  obtain ⟨c, hcompile, htable, -⟩ := exists_compile_stack
  obtain ⟨-, -, -, -, hcomposes⟩ := compile_chains_aligned hcompile hcounted
  have hlow : Chain stackTable "Low" [⟨"at", .vector .f32 2, 8, 8, 8⟩] 8 :=
    .last rfl (List.mem_cons_of_mem _ List.mem_cons_self)
  have hmid : Chain stackTable "Mid" [⟨"low", .named "Low", 8, 16, 8⟩, ⟨"at", .vector .f32 2, 8, 8, 8⟩] 16 :=
    .cons rfl (List.mem_cons_of_mem _ List.mem_cons_self) rfl hlow
  refine ⟨c, hcompile, hcounted, hcomparable, hcomposes hcomparable, ?_⟩
  rw [htable]
  exact .cons rfl (List.mem_cons_of_mem _ List.mem_cons_self) rfl hmid

/-- A struct with alignments of which neither is a multiple of the other, inside of another struct. -/
def skewSchema : Schema where
  decls :=
    [.struct { name := "S", fields :=
        [{ name := "a", ty := .vector .f32 2 }, { name := "b", ty := .vector .f32 3 }] },
      .struct { name := "T", fields :=
        [{ name := "x", ty := .scalar .u32 }, { name := "s", ty := .named "S" }] }]

def skewTable : TypeTable where
  schemaName := none
  decls := skewSchema.decls
  tagged := []

theorem exists_compile_skew : ∃ c, skewSchema.compile = .ok c ∧ c.table = skewTable ∧ c.layouts =
    [.struct "S" 24 12 false [⟨"a", .vector .f32 2, 0, 8, 8⟩, ⟨"b", .vector .f32 3, 12, 12, 12⟩],
      .struct "T" 36 12 false [⟨"x", .scalar .u32, 0, 4, 4⟩, ⟨"s", .named "S", 12, 24, 12⟩]] :=
  exists_compile rfl rfl (by unfold Writable Overlong; decide)

/-- A vector of two ends up at twelve bytes, with an alignment of eight. -/
theorem compile_chain_not_aligned :
    ∃ c, skewSchema.compile = .ok c ∧ Counted skewSchema.decls ∧
      (ask (structAlignment c.table "T") {}).1 = .ok 12 ∧
      Chain c.table "T" [⟨"s", .named "S", 12, 24, 12⟩, ⟨"a", .vector .f32 2, 0, 8, 8⟩] 12 ∧
      (ask (Layout.alignment c.table (.vector .f32 2)) {}).1 = .ok 8 ∧ ¬ 8 ∣ 0 + (12 : Int) ∧
      ¬ Composes c.table := by
  have hcounted : Counted skewSchema.decls := by
    simp [Counted, skewSchema, Decl.contents, FieldType.Counted]
  obtain ⟨c, hcompile, htable, -⟩ := exists_compile_skew
  have hs : Chain skewTable "S" [⟨"a", .vector .f32 2, 0, 8, 8⟩] 0 := .last rfl List.mem_cons_self
  have ht : Chain skewTable "T" [⟨"s", .named "S", 12, 24, 12⟩, ⟨"a", .vector .f32 2, 0, 8, 8⟩] 12 :=
    .cons rfl (List.mem_cons_of_mem _ List.mem_cons_self) rfl hs
  refine ⟨c, hcompile, hcounted, ?_⟩
  rw [htable]
  refine ⟨rfl, ht, rfl, by decide, fun hcomposes => ?_⟩
  have hdvd := hcomposes "T" 12 _ 12 rfl ht 0 (Int.dvd_zero 12) _ rfl
  exact absurd hdvd (by decide)

end Schema

end PackedSchema
