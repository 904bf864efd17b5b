import PackedSchema.TypeTable
import PackedSchema.Proofs.Containment.Search

/-!
# Well-formed type tables

What a type table is known to satisfy because the checks of its schema have passed: declarations have
different names, the fields of a struct have different names, and no declaration contains itself inline.
-/

namespace PackedSchema

namespace TypeTable

structure WellFormed (t : TypeTable) : Prop where
  names_nodup : t.order.Nodup
  fields_nodup : ∀ d, .struct d ∈ t.decls → (d.fields.map Field.name).Nodup
  acyclic : Containment.Acyclic (Containment.ofDecls t.decls).Edge

/-! ## Checks that pass -/

theorem checkNames_eq_ok_iff (seen : List String) (decls : List Decl) :
    checkNames seen decls = .ok () ↔
      (decls.map Decl.name).Nodup ∧ ∀ d ∈ decls, d.name ∉ seen := by
  induction decls generalizing seen with
  | nil => simp [checkNames]
  | cons d rest ih =>
    rw [checkNames, List.map_cons, List.nodup_cons, List.forall_mem_cons]
    by_cases hseen : d.name ∈ seen
    · simp [hseen]
    · simp only [hseen, List.contains_iff_mem, if_false, ih, List.mem_cons, not_or,
        not_false_eq_true, true_and, List.mem_map, not_exists, not_and]
      constructor
      · rintro ⟨hnodup, hrest⟩
        exact ⟨⟨fun d' hd' => (hrest d' hd').1, hnodup⟩, fun d' hd' => (hrest d' hd').2⟩
      · rintro ⟨⟨hne, hnodup⟩, hrest⟩
        exact ⟨hnodup, fun d' hd' => ⟨hne d' hd', hrest d' hd'⟩⟩

theorem checkFields_eq_ok_iff (struct : String) (tagged : Bool) (seen : List String)
    (fields : List Field) :
    checkFields struct tagged seen fields = .ok () ↔
      (fields.map Field.name).Nodup ∧
        ∀ f ∈ fields, f.name ∉ seen ∧ (tagged = true → f.name ≠ tagName) := by
  induction fields generalizing seen with
  | nil => simp [checkFields]
  | cons f rest ih =>
    rw [checkFields, List.map_cons, List.nodup_cons, List.forall_mem_cons]
    by_cases htag : tagged = true ∧ f.name = tagName
    · simp [htag]
    · have htag' : tagged = true → f.name ≠ tagName := fun ht hname => htag ⟨ht, hname⟩
      have hcond : (tagged && f.name == tagName) = false := by
        simpa using htag'
      by_cases hseen : f.name ∈ seen
      · simp [hcond, hseen]
      · simp only [hcond, hseen, List.contains_iff_mem, Bool.false_eq_true, if_false, ih,
          List.mem_cons, not_or, not_false_eq_true, true_and, List.mem_map, not_exists, not_and]
        constructor
        · rintro ⟨hnodup, hrest⟩
          exact ⟨⟨fun f' hf' => (hrest f' hf').1.1, hnodup⟩, htag',
            fun f' hf' => ⟨(hrest f' hf').1.2, (hrest f' hf').2⟩⟩
        · rintro ⟨⟨hne, hnodup⟩, -, hrest⟩
          exact ⟨hnodup, fun f' hf' => ⟨⟨hne f' hf', (hrest f' hf').1⟩, (hrest f' hf').2⟩⟩

theorem checkContainment_eq_ok_iff (decls : List Decl) :
    checkContainment decls = .ok () ↔ Containment.Acyclic (Containment.ofDecls decls).Edge := by
  rw [← Containment.findCycle_eq_nil_iff, checkContainment]
  cases (Containment.ofDecls decls).findCycle with
  | nil => simp
  | cons head rest => simp

/-! ## The table of a schema -/

/-- The table of a schema has its declarations, and passes the checks. -/
theorem ofSchema_eq_ok {s : Schema} {t : TypeTable} (h : ofSchema s = .ok t) :
    t = { schemaName := s.name, decls := s.decls, tagged := taggedNames s.enums } ∧ t.WellFormed := by
  obtain ⟨_, hnames, h⟩ := bind_eq_ok_iff.mp h
  obtain ⟨_, hfields, h⟩ := bind_eq_ok_iff.mp h
  obtain ⟨_, hvariants, h⟩ := bind_eq_ok_iff.mp h
  obtain ⟨_, hcontainment, h⟩ := bind_eq_ok_iff.mp h
  cases h
  refine ⟨rfl, ?_, ?_, ?_⟩
  · exact ((checkNames_eq_ok_iff [] s.decls).mp hnames).1
  · intro d hd
    have hstruct : d ∈ s.structs := List.mem_filterMap.mpr ⟨_, hd, rfl⟩
    exact ((checkFields_eq_ok_iff _ _ _ _).mp (forM_eq_ok_iff.mp hfields d hstruct)).1
  · exact (checkContainment_eq_ok_iff s.decls).mp hcontainment

end TypeTable

end PackedSchema
