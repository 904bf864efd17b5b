import PackedSchema.Proofs.Layout.Direct

/-!
# Where layouts are defined

The shape and the alignment of a struct are defined for the same structs. The rules ask for both, but in
different places, so it takes an argument: a field that has an alignment has a size, and its alignment is
not zero.
-/

namespace PackedSchema

/-- A vector type has at least one element. -/
def FieldType.Counted : FieldType → Prop
  | .vector _ count => 1 ≤ count
  | _ => True

/-- All vectors that declarations lay out have elements. -/
def Counted (decls : List Decl) : Prop := ∀ d ∈ decls, ∀ ty ∈ d.contents, ty.Counted

namespace Layout

variable {t : TypeTable} {p : Parts (Except Failure)} {site : Site} {name : String}

/-! ## Alignments are not zero -/

theorem padding_eq_ok {offset alignment : Int} (h : alignment ≠ 0) :
    padding offset alignment = .ok ((-offset).fmod alignment) := by
  simp [padding, h]

theorem structAlignmentOf_pos (t : TypeTable) (p : Parts (Except Failure)) (d : StructDecl) :
    Ends (1 ≤ ·) (fun _ => True) (p.structAlignmentOf t d) := by
  apply Ends.foldlM (fun _ alignment => 1 ≤ alignment)
  · split <;> decide
  · intro done f rest alignment _ hpos
    apply Ends.bind (P := fun _ => True)
    · cases p.alignmentOf t _ f.ty <;> trivial
    · intro a _
      exact le_max_of_le_left hpos

theorem direct_alignment_pos (hw : t.WellFormed) {a : Int} (h : (direct t).alignment name = .ok a) :
    1 ≤ a := by
  rw [direct_alignment hw] at h
  obtain ⟨d, -, hd⟩ := bind_eq_ok_iff.mp h
  have hends := structAlignmentOf_pos t (direct t) d
  rw [hd] at hends
  exact hends

theorem alignmentOf_pos {ty : FieldType} {a : Int} (hw : t.WellFormed) (hc : ty.Counted)
    (h : (direct t).alignmentOf t site ty = .ok a) : 1 ≤ a := by
  cases ty with
  | scalar k =>
    cases h
    decide
  | ref inner =>
    cases h
    decide
  | missing => cases h
  | vector k count =>
    cases h
    simp only [FieldType.Counted] at hc
    simp only [word]
    omega
  | named n =>
    obtain ⟨d, -, hd⟩ := bind_eq_ok_iff.mp h
    cases d with
    | struct d => exact direct_alignment_pos hw hd
    | enum d => cases hd

/-! ## Types and fields -/

theorem succeeds_alignmentOf_iff {ty : FieldType} :
    Succeeds (p.alignmentOf t site ty) ↔ ty ≠ .missing ∧
      ∀ n, ty = .named n → (∃ d, t.lookup n = some (.struct d)) ∧ Succeeds (p.alignment n) := by
  cases ty with
  | scalar k => exact ⟨fun _ => by simp, fun _ => succeeds_ok word⟩
  | vector k count => exact ⟨fun _ => by simp, fun _ => succeeds_ok (word * count)⟩
  | ref inner => exact ⟨fun _ => by simp, fun _ => succeeds_ok word⟩
  | missing => exact ⟨fun h => absurd h (not_succeeds_error _), fun h => absurd rfl h.1⟩
  | named n =>
    cases hlook : t.lookup n with
    | none => simp [alignmentOf_named_none hlook, not_succeeds_error, hlook]
    | some decl =>
      cases decl with
      | struct d => simp [alignmentOf_named_struct hlook, hlook]
      | enum e => simp [alignmentOf_named_enum hlook, not_succeeds_error, hlook]

theorem succeeds_sizeOf_iff {ty : FieldType} :
    Succeeds (p.sizeOf t site ty) ↔ ty ≠ .missing ∧
      ∀ n, ty = .named n → Succeeds (p.declSize t n) := by
  cases ty with
  | scalar k => exact ⟨fun _ => by simp, fun _ => succeeds_ok word⟩
  | vector k count => exact ⟨fun _ => by simp, fun _ => succeeds_ok (word * count)⟩
  | ref inner => exact ⟨fun _ => by simp, fun _ => succeeds_ok word⟩
  | missing => exact ⟨fun h => absurd h (not_succeeds_error _), fun h => absurd rfl h.1⟩
  | named n =>
    cases hlook : t.lookup n with
    | none => simp [sizeOf_named_none hlook, declSize_none hlook, not_succeeds_error]
    | some decl => simp [sizeOf_named_some hlook]

theorem succeeds_declSize_struct_iff {d : StructDecl} (h : t.lookup name = some (.struct d)) :
    Succeeds (p.declSize t name) ↔ Succeeds (p.shape name) := by
  rw [declSize_struct h]
  exact succeeds_bind_pure_iff

theorem succeeds_declSize_enum_iff {e : EnumDecl} (h : t.lookup name = some (.enum e)) :
    Succeeds (p.declSize t name) ↔ Succeeds (p.extent name) := by
  rw [declSize_enum h]
  exact succeeds_bind_pure_iff.trans succeeds_bind_pure_iff

theorem succeeds_placeField_iff {f : Field} {struct : String} {shape : StructShape}
    (hw : t.WellFormed) (hc : f.ty.Counted) :
    Succeeds ((direct t).placeField t struct shape f) ↔
      Succeeds ((direct t).alignmentOf t (.field struct f) f.ty) ∧
        Succeeds ((direct t).sizeOf t (.field struct f) f.ty) := by
  change Succeeds (Parts.alignmentOf t _ _ _ >>= fun alignment => Parts.sizeOf t _ _ _ >>= fun size =>
    padding shape.size alignment >>= fun pad => .ok _) ↔ _
  rw [succeeds_bind_iff]
  constructor
  · rintro ⟨alignment, halignment, hrest⟩
    obtain ⟨size, hsize, -⟩ := succeeds_bind_iff.mp hrest
    exact ⟨⟨alignment, halignment⟩, size, hsize⟩
  · rintro ⟨⟨alignment, halignment⟩, size, hsize⟩
    -- The padding fails for the alignment zero only.
    have hpos : 1 ≤ alignment := alignmentOf_pos hw hc halignment
    refine ⟨alignment, halignment, succeeds_bind_iff.mpr ⟨size, hsize, ?_⟩⟩
    rw [padding_eq_ok (by omega)]
    exact succeeds_ok _

/-! ## Structs -/

theorem succeeds_structAlignmentOf_iff {d : StructDecl} :
    Succeeds (p.structAlignmentOf t d) ↔
      ∀ f ∈ d.fields, Succeeds (p.alignmentOf t (.field d.name f) f.ty) := by
  apply succeeds_foldlM_iff
  intro f hf alignment
  exact succeeds_bind_pure_iff

/-- The shape of a struct is defined where its alignment is. -/
theorem succeeds_shape_iff (hw : t.WellFormed) (hc : Counted t.decls) (name : String) :
    Succeeds ((direct t).shape name) ↔ Succeeds ((direct t).alignment name) := by
  -- By induction on the rank: a field is a struct of lower rank, or it has a size anyway.
  induction hr : t.rank name using Nat.strong_induction_on generalizing name with
  | _ r ih =>
    rw [direct_shape hw, direct_alignment hw]
    cases hd : resolveStruct t name with
    | error e => exact iff_of_false (not_succeeds_error e) (not_succeeds_error e)
    | ok d =>
      have hlook : t.lookup name = some (.struct d) := resolveStruct_eq_ok_iff.mp hd
      change Succeeds ((direct t).shapeOf t d) ↔ Succeeds ((direct t).structAlignmentOf t d)
      rw [succeeds_structAlignmentOf_iff]
      apply succeeds_foldlM_iff
      intro f hf shape
      have hcounted : f.ty.Counted :=
        hc _ (TypeTable.mem_of_lookup hlook).1 f.ty (List.mem_map_of_mem hf)
      rw [succeeds_placeField_iff hw hcounted, and_iff_left_iff_imp, succeeds_alignmentOf_iff,
        succeeds_sizeOf_iff]
      rintro ⟨htype, hname⟩
      refine ⟨htype, ?_⟩
      intro n hn
      obtain ⟨⟨d', hd'⟩, halignment⟩ := hname n hn
      have hrank : t.rank n < t.rank name :=
        hw.rank_lt_of_lookup hlook (mem_inlineNames_of_field hf hn) (by rw [hd']; rfl)
      rw [succeeds_declSize_struct_iff hd']
      exact (ih (t.rank n) (by omega) n rfl).mpr halignment

/-! ## Enums -/

theorem succeeds_extentOf_iff {d : EnumDecl} :
    Succeeds (p.extentOf t d) ↔ ∀ v ∈ d.variants, ∀ ty ∈ v.payload,
      Succeeds (p.sizeOf t (.variant d.name v) ty) := by
  apply succeeds_foldlM_iff
  intro v hv extent
  refine succeeds_bind_pure_iff.trans ?_
  apply succeeds_foldlM_iff
  intro ty hty offset
  exact succeeds_bind_pure_iff

/-! ## Layouts -/

theorem succeeds_layoutOf_struct_iff {d : StructDecl} (h : t.lookup name = some (.struct d)) :
    Succeeds (p.layoutOf t name) ↔ Succeeds (p.shape name) ∧ Succeeds (p.alignment name) := by
  rw [layoutOf_struct h, succeeds_bind_iff]
  constructor
  · rintro ⟨shape, hshape, hrest⟩
    exact ⟨⟨shape, hshape⟩, succeeds_bind_pure_iff.mp hrest⟩
  · rintro ⟨⟨shape, hshape⟩, halignment⟩
    exact ⟨shape, hshape, succeeds_bind_pure_iff.mpr halignment⟩

theorem succeeds_layoutOf_enum_iff {d : EnumDecl} (h : t.lookup name = some (.enum d)) :
    Succeeds (p.layoutOf t name) ↔ Succeeds (p.extent name) := by
  rw [layoutOf_enum h]
  exact succeeds_bind_pure_iff

/-! ## Names without a layout -/

/-- The declaration of a name has no size. -/
def Undefined (t : TypeTable) (name : String) : Prop := ¬ Succeeds ((direct t).declSize t name)

theorem not_undefined_iff_shape {d : StructDecl} (h : t.lookup name = some (.struct d)) :
    ¬ Undefined t name ↔ Succeeds ((direct t).shape name) := by
  rw [Undefined, not_not, succeeds_declSize_struct_iff h]

theorem not_undefined_iff_alignment {d : StructDecl} (hw : t.WellFormed) (hc : Counted t.decls)
    (h : t.lookup name = some (.struct d)) :
    ¬ Undefined t name ↔ Succeeds ((direct t).alignment name) := by
  rw [not_undefined_iff_shape h, succeeds_shape_iff hw hc]

theorem not_undefined_iff_extent {e : EnumDecl} (h : t.lookup name = some (.enum e)) :
    ¬ Undefined t name ↔ Succeeds ((direct t).extent name) := by
  rw [Undefined, not_not, succeeds_declSize_enum_iff h]

end Layout

end PackedSchema
