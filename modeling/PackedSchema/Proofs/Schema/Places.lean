import PackedSchema.Proofs.TypeTable.Rules

/-!
# Schemas without places

A schema knows where its parts stand in the text that it was read from. Without these places it keeps the
same rules, so it has a type table exactly if it had one before, and that is the table without the places.
-/

namespace PackedSchema

def Field.plain (f : Field) : Field := { f with loc := none }

def Variant.plain (v : Variant) : Variant := { v with nameSpan := none, loc := none }

def StructDecl.plain (d : StructDecl) : StructDecl := { name := d.name, fields := d.fields.map Field.plain }

def EnumDecl.plain (d : EnumDecl) : EnumDecl := { name := d.name, variants := d.variants.map Variant.plain }

def Decl.plain : Decl → Decl
  | struct d => .struct d.plain
  | enum d => .enum d.plain

/-- The schema without the places in the text where its parts stand. -/
def Schema.plain (s : Schema) : Schema := { name := s.name, decls := s.decls.map Decl.plain }

def TypeTable.plain (t : TypeTable) : TypeTable := { t with decls := t.decls.map Decl.plain }

/-! ## Declarations -/

@[simp] theorem Decl.name_plain (d : Decl) : d.plain.name = d.name := by cases d <;> rfl

@[simp] theorem Decl.contents_plain (d : Decl) : d.plain.contents = d.contents := by
  cases d with
  | struct d => simp [plain, StructDecl.plain, contents, Field.plain, Function.comp_def]
  | enum d => simp [plain, EnumDecl.plain, contents, Variant.plain, List.flatMap_map]

namespace Schema

variable (s : Schema)

@[simp] theorem structs_plain : s.plain.structs = s.structs.map StructDecl.plain := by
  rw [structs, structs, plain, List.filterMap_map, List.map_filterMap]
  congr 1
  funext d
  cases d <;> rfl

@[simp] theorem enums_plain : s.plain.enums = s.enums.map EnumDecl.plain := by
  rw [enums, enums, plain, List.filterMap_map, List.map_filterMap]
  congr 1
  funext d
  cases d <;> rfl

/-! ## Rules -/

theorem leads_plain (n : String) : s.plain.Leads n ↔ s.Leads n := by
  simp [Leads, EnumDecl.plain, Variant.plain]

theorem contains_plain (a b : String) : s.plain.Contains a b ↔ s.Contains a b := by
  simp [Contains, plain]

theorem lawful_plain : s.plain.Lawful ↔ s.Lawful := by
  have hnames : s.plain.decls.map Decl.name = s.decls.map Decl.name := by simp [plain, Function.comp_def]
  have hfields (d : StructDecl) : FieldRules (s.plain.Leads d.plain.name) d.plain.fields ↔
      FieldRules (s.Leads d.name) d.fields := by
    simp [FieldRules, leads_plain, StructDecl.plain, Field.plain, Function.comp_def]
  have hvariants (d : EnumDecl) : VariantRules d.plain.variants ↔ VariantRules d.variants := by
    simp [VariantRules, EnumDecl.plain, Variant.plain, Function.comp_def]
  have hcontains : s.plain.Contains = s.Contains := funext₂ fun a b => propext (s.contains_plain a b)
  constructor
  · rintro ⟨hnodup, hstructs, henums, hacyclic⟩
    rw [structs_plain, List.forall_mem_map] at hstructs
    rw [enums_plain, List.forall_mem_map] at henums
    exact ⟨hnames ▸ hnodup, fun d hd => (hfields d).mp (hstructs d hd),
      fun d hd => (hvariants d).mp (henums d hd), hcontains ▸ hacyclic⟩
  · rintro ⟨hnodup, hstructs, henums, hacyclic⟩
    refine ⟨hnames ▸ hnodup, ?_, ?_, hcontains ▸ hacyclic⟩
    · rw [structs_plain, List.forall_mem_map]
      exact fun d hd => (hfields d).mpr (hstructs d hd)
    · rw [enums_plain, List.forall_mem_map]
      exact fun d hd => (hvariants d).mpr (henums d hd)

end Schema

/-! ## Tables -/

namespace TypeTable

variable {s : Schema} {t : TypeTable}

theorem taggedNames_plain (enums : List EnumDecl) :
    taggedNames (enums.map EnumDecl.plain) = taggedNames enums := by
  have hleading (v : Variant) : leadingName? v.plain = leadingName? v := rfl
  simp [taggedNames, EnumDecl.plain, List.flatMap_map, List.filterMap_map, hleading]

theorem succeeds_ofSchema_plain_iff (s : Schema) : Succeeds (ofSchema s.plain) ↔ Succeeds (ofSchema s) := by
  rw [succeeds_ofSchema_iff, succeeds_ofSchema_iff, s.lawful_plain]

theorem ofSchema_plain (h : ofSchema s = .ok t) : ofSchema s.plain = .ok t.plain := by
  obtain ⟨t', ht'⟩ := (succeeds_ofSchema_plain_iff s).mpr ⟨t, h⟩
  obtain ⟨rfl, -⟩ := ofSchema_eq_ok h
  obtain ⟨rfl, -⟩ := ofSchema_eq_ok ht'
  rw [ht', Schema.enums_plain, taggedNames_plain]
  rfl

theorem lookup_plain (t : TypeTable) (name : String) : t.plain.lookup name = (t.lookup name).map Decl.plain := by
  unfold lookup plain
  rw [List.find?_map]
  simp only [Function.comp_def, Decl.name_plain]

end TypeTable

end PackedSchema
