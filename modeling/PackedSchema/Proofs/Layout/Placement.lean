import PackedSchema.Proofs.Layout.Defined

/-!
# Placement of fields

The fields of a struct are placed one after the other, each raised to its alignment. So they stand in the
order of their declaration, behind the tag word if there is one, and none reaches into the next.
-/

namespace PackedSchema.Layout

variable {t : TypeTable} {struct name : String} {site : Site} {fields : List Field}
  {shape : StructShape}

/-! ## Raising offsets -/

/-- An offset raised to a multiple of an alignment. -/
def raise (offset alignment : Int) : Int := offset + (-offset).fmod alignment

theorem le_raise {offset alignment : Int} (h : 1 ≤ alignment) : offset ≤ raise offset alignment := by
  have hpad : 0 ≤ (-offset).fmod alignment := Int.fmod_nonneg_of_pos _ (by omega)
  unfold raise
  omega

/-! ## The places of fields -/

/-- The layout of a field behind a shape. -/
def fieldBehind (shape : StructShape) (f : Field) (size alignment : Int) : FieldLayout where
  name := f.name
  ty := f.ty
  offset := raise shape.size alignment
  size := size
  alignment := alignment

/-- Fields are placed one after the other. -/
inductive Placed (t : TypeTable) (struct : String) : List Field → StructShape → Prop
  | start : Placed t struct [] (startShape t struct)
  | field {done : List Field} {shape : StructShape} {f : Field} {alignment size : Int}
      (hdone : Placed t struct done shape)
      (halignment : (direct t).alignmentOf t (.field struct f) f.ty = .ok alignment)
      (hsize : (direct t).sizeOf t (.field struct f) f.ty = .ok size) :
      Placed t struct (done ++ [f])
        { fields := shape.fields ++ [fieldBehind shape f size alignment]
          size := raise shape.size alignment + size }

theorem placeField_eq_ok {f : Field} {shape' : StructShape}
    (h : (direct t).placeField t struct shape f = .ok shape') :
    ∃ alignment size, (direct t).alignmentOf t (.field struct f) f.ty = .ok alignment ∧
      (direct t).sizeOf t (.field struct f) f.ty = .ok size ∧
      shape' = { fields := shape.fields ++ [fieldBehind shape f size alignment]
                 size := raise shape.size alignment + size } := by
  obtain ⟨alignment, halignment, h⟩ := bind_eq_ok_iff.mp h
  obtain ⟨size, hsize, h⟩ := bind_eq_ok_iff.mp h
  obtain ⟨pad, hpad, h⟩ := bind_eq_ok_iff.mp h
  refine ⟨alignment, size, halignment, hsize, ?_⟩
  unfold padding at hpad
  split at hpad
  · -- There is no padding for the alignment zero.
    cases hpad
  · cases hpad
    cases h
    rfl

/-- The shape of a struct comes from placing its fields. -/
theorem placed_of_shape (hw : t.WellFormed) (h : (direct t).shape name = .ok shape) :
    ∃ d, t.lookup name = some (.struct d) ∧ Placed t name d.fields shape := by
  rw [direct_shape hw] at h
  obtain ⟨d, hd, h⟩ := bind_eq_ok_iff.mp h
  have hlook := resolveStruct_eq_ok_iff.mp hd
  refine ⟨d, hlook, ?_⟩
  obtain ⟨-, hname⟩ := TypeTable.mem_of_lookup hlook
  have hplaced : Ends (Placed t d.name d.fields) (fun _ => True) ((direct t).shapeOf t d) := by
    apply Ends.foldlM (Placed t d.name) .start
    intro done f rest shape' _ hdone
    cases hnext : (direct t).placeField t d.name shape' f with
    | error e => trivial
    | ok next =>
      obtain ⟨alignment, size, halignment, hsize, rfl⟩ := placeField_eq_ok hnext
      exact .field hdone halignment hsize
  rw [h] at hplaced
  rw [← hname]
  exact hplaced

theorem Placed.map_fields (h : Placed t struct fields shape) :
    shape.fields.map (fun l => (l.name, l.ty)) = fields.map fun f => (f.name, f.ty) := by
  induction h with
  | start => rfl
  | field hdone halignment hsize ih =>
    rw [List.map_append, List.map_append, ih]
    rfl

/-- Every place is that of a declared field, with its alignment and size. -/
theorem Placed.exists_field (h : Placed t struct fields shape) {l : FieldLayout}
    (hl : l ∈ shape.fields) :
    ∃ f ∈ fields, l.ty = f.ty ∧
      (direct t).alignmentOf t (.field struct f) f.ty = .ok l.alignment ∧
      (direct t).sizeOf t (.field struct f) f.ty = .ok l.size := by
  induction h with
  | start => cases hl
  | @field done shape f alignment size hdone halignment hsize ih =>
    rcases List.mem_append.mp hl with hl | hl
    · obtain ⟨f', hf', hplace⟩ := ih hl
      exact ⟨f', List.mem_append_left [f] hf', hplace⟩
    · cases List.mem_singleton.mp hl
      exact ⟨f, List.mem_append_right done (List.mem_singleton_self f), rfl, halignment, hsize⟩

/-! ## Order -/

/-- The places of a shape stand in order behind a start. -/
structure Arranged (start : Int) (shape : StructShape) : Prop where
  start_le : start ≤ shape.size
  start_le_offset : ∀ l ∈ shape.fields, start ≤ l.offset
  end_le_size : ∀ l ∈ shape.fields, l.offset + l.size ≤ shape.size
  ordered : shape.fields.Pairwise fun a b => a.offset + a.size ≤ b.offset

theorem arranged_start (start : Int) : Arranged start { fields := [], size := start } :=
  ⟨Int.le_refl start, by simp, by simp, .nil⟩

/-- A field behind an arranged shape keeps it arranged. -/
theorem Arranged.behind {start size alignment : Int} (h : Arranged start shape) (f : Field)
    (halignment : 1 ≤ alignment) (hsize : 0 ≤ size) :
    Arranged start { fields := shape.fields ++ [fieldBehind shape f size alignment]
                     size := raise shape.size alignment + size } := by
  -- The field starts behind the end of the shape, and so behind all of its fields.
  have hraise : shape.size ≤ raise shape.size alignment := le_raise halignment
  have hstart := h.start_le
  refine ⟨by simp only; omega, ?_, ?_, ?_⟩
  · intro l hl
    rcases List.mem_append.mp hl with hl | hl
    · exact h.start_le_offset l hl
    · cases List.mem_singleton.mp hl
      simp only [fieldBehind]
      omega
  · intro l hl
    rcases List.mem_append.mp hl with hl | hl
    · have hend := h.end_le_size l hl
      simp only
      omega
    · cases List.mem_singleton.mp hl
      exact Int.le_refl _
  · refine List.pairwise_append.mpr ⟨h.ordered, List.pairwise_singleton _ _, ?_⟩
    intro l hl l' hl'
    cases List.mem_singleton.mp hl'
    have hend := h.end_le_size l hl
    simp only [fieldBehind]
    omega

theorem Placed.arranged (hw : t.WellFormed) (h : Placed t struct fields shape)
    (hcounted : ∀ f ∈ fields, f.ty.Counted)
    (hsizes : ∀ f ∈ fields, ∀ size,
      (direct t).sizeOf t (.field struct f) f.ty = .ok size → 0 ≤ size) :
    Arranged (startShape t struct).size shape := by
  induction h with
  | start => exact arranged_start _
  | @field done shape f alignment size hdone halignment hsize ih =>
    have hf : f ∈ done ++ [f] := List.mem_append_right done (List.mem_singleton_self f)
    have hbefore := ih (fun f' hf' => hcounted f' (List.mem_append_left [f] hf'))
      (fun f' hf' => hsizes f' (List.mem_append_left [f] hf'))
    exact hbefore.behind f (alignmentOf_pos hw (hcounted f hf) halignment) (hsizes f hf size hsize)

/-! ## Sizes are not negative -/

theorem startShape_nonneg (t : TypeTable) (name : String) : 0 ≤ (startShape t name).size := by
  unfold startShape
  split <;> decide

theorem sizeOf_struct_eq_ok_iff {d : StructDecl} {size : Int} (h : t.lookup name = some (.struct d)) :
    (direct t).sizeOf t site (.named name) = .ok size ↔
      ∃ shape, (direct t).shape name = .ok shape ∧ shape.size = size := by
  rw [sizeOf_named_some h, declSize_struct h, Parts.structSize, bind_eq_ok_iff]
  simp [pure, Except.pure]

theorem word_le_extent (hw : t.WellFormed) {extent : Int} (h : (direct t).extent name = .ok extent) :
    word ≤ extent := by
  rw [direct_extent hw] at h
  obtain ⟨d, -, h⟩ := bind_eq_ok_iff.mp h
  have hends : Ends (word ≤ ·) (fun _ => True) ((direct t).extentOf t d) := by
    apply Ends.foldlM (fun _ extent => word ≤ extent) (Int.le_refl word)
    intro done v rest extent _ hle
    apply Ends.bind (P := fun _ => True)
    · cases (direct t).variantEnd t d.name v <;> trivial
    · intro a _
      exact le_max_of_le_left hle
  rw [h] at hends
  exact hends

theorem bodyWords_nonneg {extent : Int} (h : word ≤ extent) : 0 ≤ bodyWords extent := by
  have hdiv : (-extent).fdiv word ≤ -1 := by
    rw [Int.fdiv_eq_ediv_of_nonneg _ (by decide)]
    simp only [word] at h ⊢
    omega
  unfold bodyWords
  omega

/-- The size of a type is not negative if the size of every struct is not. -/
theorem sizeOf_nonneg_of_shape (hw : t.WellFormed) {ty : FieldType} {size : Int} (hc : ty.Counted)
    (hshape : ∀ n shape, ty = .named n → (direct t).shape n = .ok shape → 0 ≤ shape.size)
    (h : (direct t).sizeOf t site ty = .ok size) : 0 ≤ size := by
  cases ty with
  | scalar k =>
    cases h
    decide
  | ref inner =>
    cases h
    decide
  | missing => cases h
  | vector k count =>
    cases h
    simp only [FieldType.Counted] at hc
    simp only [word]
    omega
  | named n =>
    cases hlook : t.lookup n with
    | none =>
      rw [sizeOf_named_none hlook] at h
      cases h
    | some d =>
      cases d with
      | struct d =>
        obtain ⟨shape, hn, rfl⟩ := (sizeOf_struct_eq_ok_iff hlook).mp h
        exact hshape n shape rfl hn
      | enum d =>
        -- An enum has a tag word at least.
        rw [sizeOf_named_some hlook, declSize_enum hlook] at h
        obtain ⟨words, hwords, hsize⟩ := bind_eq_ok_iff.mp h
        obtain ⟨extent, hextent, hbody⟩ := bind_eq_ok_iff.mp hwords
        cases hbody
        cases hsize
        have hbody := bodyWords_nonneg (word_le_extent hw hextent)
        simp only [word] at hbody ⊢
        omega

/-- The fields of every struct are arranged. -/
theorem shape_arranged (hw : t.WellFormed) (hc : Counted t.decls)
    (h : (direct t).shape name = .ok shape) : Arranged (startShape t name).size shape := by
  -- By induction on the rank, since the fields are in order only if no size is negative.
  induction hr : t.rank name using Nat.strong_induction_on generalizing name shape with
  | _ r ih =>
    obtain ⟨d, hlook, hplaced⟩ := placed_of_shape hw h
    have hcounted (f : Field) (hf : f ∈ d.fields) : f.ty.Counted :=
      hc _ (TypeTable.mem_of_lookup hlook).1 f.ty (List.mem_map_of_mem hf)
    apply hplaced.arranged hw hcounted
    intro f hf size hsize
    apply sizeOf_nonneg_of_shape hw (hcounted f hf) _ hsize
    intro n shape' hn hshape'
    obtain ⟨d', hlook', -⟩ := placed_of_shape hw hshape'
    have hrank : t.rank n < t.rank name :=
      hw.rank_lt_of_lookup hlook (mem_inlineNames_of_field hf hn) (by rw [hlook']; rfl)
    have hle := (ih (t.rank n) (by omega) hshape' rfl).start_le
    have hstart := startShape_nonneg t n
    omega

end PackedSchema.Layout
