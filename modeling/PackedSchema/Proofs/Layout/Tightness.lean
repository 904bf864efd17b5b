import Mathlib.Data.List.Chain
import Mathlib.Order.Bounds.Basic
import PackedSchema.Proofs.Layout.Leaves

/-!
# Fields are placed tightly

Among all placements that keep the fields of a struct in order, aligned, behind the tag word and apart, the
one that is computed starts every field as early as it can be. The size of the struct is the end of its last
field, and its alignment the greatest of those of its fields.
-/

namespace PackedSchema.Layout

variable {t : TypeTable} {struct name : String} {site site' : Site} {ty : FieldType} {fields : List Field}
  {shape : StructShape} {start : Int}

/-! ## First multiples -/

/-- The field starts at the first multiple of its alignment that is not below a bound. -/
def StartsFrom (bound : Int) (l : FieldLayout) : Prop :=
  IsLeast {offset | l.alignment ∣ offset ∧ bound ≤ offset} l.offset

theorem dvd_raise (offset alignment : Int) : alignment ∣ raise offset alignment := by
  have hsum := Int.fmod_add_mul_fdiv (-offset) alignment
  refine ⟨-(-offset).fdiv alignment, ?_⟩
  rw [raise, Int.mul_neg]
  omega

/-- Raising an offset goes no further than to the next multiple, whatever the alignment is. -/
theorem raise_le {offset alignment m : Int} (h : 1 ≤ alignment) (hm : alignment ∣ m) (hle : offset ≤ m) :
    raise offset alignment ≤ m := by
  have hpad : (-offset).fmod alignment < alignment := Int.fmod_lt_of_pos _ (by omega)
  -- The distance is a multiple of the alignment, and above its negative.
  obtain ⟨k, hk⟩ := Int.dvd_sub hm (dvd_raise offset alignment)
  have hlow : alignment * (-1) < alignment * k := by
    rw [← hk, raise]
    omega
  have hk0 : 0 ≤ k := by
    have := Int.lt_of_mul_lt_mul_left hlow (by omega)
    omega
  have hprod := Int.mul_nonneg (show 0 ≤ alignment by omega) hk0
  omega

theorem startsFrom_fieldBehind (f : Field) {size alignment : Int} (h : 1 ≤ alignment) :
    StartsFrom shape.size (fieldBehind shape f size alignment) :=
  ⟨⟨dvd_raise _ _, le_raise h⟩, fun _ hm => raise_le h hm.1 hm.2⟩

/-! ## Tight shapes -/

/-- The end of the last field, or a start if there is no field. -/
def endOf (start : Int) (fields : List FieldLayout) : Int :=
  (fields.getLast?.map fun l => l.offset + l.size).getD start

/-- Fields stand one behind the other from a start on, each as early as it can. -/
structure Tight (start : Int) (shape : StructShape) : Prop where
  first : ∀ l ∈ shape.fields.head?, StartsFrom start l
  later : shape.fields.IsChain fun l l' => StartsFrom (l.offset + l.size) l'
  size : shape.size = endOf start shape.fields

theorem tight_start (start : Int) : Tight start { fields := [], size := start } :=
  ⟨by simp, .nil, rfl⟩

/-- A field that starts from the end of a tight shape keeps it tight. -/
theorem Tight.behind {l : FieldLayout} (h : Tight start shape) (hl : StartsFrom shape.size l) :
    Tight start { fields := shape.fields ++ [l], size := l.offset + l.size } := by
  have hsize := h.size
  refine ⟨?_, ?_, by simp [endOf]⟩
  · cases hfields : shape.fields with
    | nil =>
      rw [hsize, hfields, endOf] at hl
      simpa using hl
    | cons l' rest =>
      have hfirst := h.first
      rw [hfields] at hfirst
      simpa using hfirst
  · -- The end of the shape is that of the field before.
    refine List.isChain_append.mpr ⟨h.later, List.isChain_singleton l, ?_⟩
    intro l' hl' l'' hl''
    cases hl''
    rw [hsize, endOf, Option.mem_def.mp hl'] at hl
    exact hl

theorem Placed.tight (hw : t.WellFormed) (h : Placed t struct fields shape)
    (hcounted : ∀ f ∈ fields, f.ty.Counted) : Tight (startShape t struct).size shape := by
  induction h with
  | start => exact tight_start _
  | @field done shape f alignment size hdone halignment hsize ih =>
    have hbefore := ih fun f' hf' => hcounted f' (List.mem_append_left [f] hf')
    have hf : f.ty.Counted := hcounted f (List.mem_append_right done (List.mem_singleton_self f))
    exact hbefore.behind (startsFrom_fieldBehind f (alignmentOf_pos hw hf halignment))

/-! ## Alignments -/

/-- The alignment of a struct without fields. -/
def leastAlignment (t : TypeTable) (struct : String) : Int := if t.isTagged struct then word else 1

/-- A struct whose fields are placed has an alignment, the greatest of those of its fields. -/
theorem Placed.isGreatest_alignment (h : Placed t struct fields shape) :
    ∃ alignment, fields.foldlM ((direct t).alignField t struct) (leastAlignment t struct) = .ok alignment ∧
      IsGreatest (insert (leastAlignment t struct) {a | ∃ l ∈ shape.fields, l.alignment = a}) alignment := by
  induction h with
  | start => exact ⟨leastAlignment t struct, rfl, by simp [startShape]⟩
  | @field done shape f alignment size hdone halignment hsize ih =>
    obtain ⟨before, hbefore, hgreatest⟩ := ih
    refine ⟨max alignment before, ?_, ?_⟩
    · rw [List.foldlM_append, hbefore, max_comm]
      change (direct t).alignField t struct before f >>= pure = _
      rw [Parts.alignField, halignment]
      rfl
    · have hset : insert (leastAlignment t struct) {a | ∃ l ∈ shape.fields ++
          [fieldBehind shape f size alignment], l.alignment = a} =
            insert alignment (insert (leastAlignment t struct) {a | ∃ l ∈ shape.fields, l.alignment = a}) := by
        ext a
        simp only [Set.mem_insert_iff, Set.mem_ofPred_eq, List.mem_append, List.mem_singleton]
        constructor
        · rintro (h | ⟨l, hl | rfl, ha⟩)
          · exact Or.inr (Or.inl h)
          · exact Or.inr (Or.inr ⟨l, hl, ha⟩)
          · exact Or.inl ha.symm
        · rintro (rfl | h | ⟨l, hl, ha⟩)
          · exact Or.inr ⟨_, Or.inr rfl, rfl⟩
          · exact Or.inl h
          · exact Or.inr ⟨l, Or.inl hl, ha⟩
      rw [hset]
      exact hgreatest.insert alignment

/-! ## Answers about the type of a field -/

/-- Where a type is used matters to failures only. -/
theorem alignmentOf_site {a : Int} (h : (direct t).alignmentOf t site ty = .ok a) :
    (direct t).alignmentOf t site' ty = .ok a := by
  cases ty with
  | named n =>
    obtain ⟨⟨d, hd⟩, -⟩ := (succeeds_alignmentOf_iff.mp ⟨a, h⟩).2 n rfl
    rw [alignmentOf_named_struct hd] at h ⊢
    exact h
  | _ => exact h

theorem sizeOf_site {size : Int} (h : (direct t).sizeOf t site ty = .ok size) :
    (direct t).sizeOf t site' ty = .ok size := by
  cases ty with
  | named n =>
    cases hlook : t.lookup n with
    | none =>
      rw [sizeOf_named_none hlook] at h
      cases h
    | some d =>
      rw [sizeOf_named_some hlook] at h ⊢
      exact h
  | _ => exact h

section Answers

variable (hw : t.WellFormed) (hc : Counted t.decls)

include hw hc

theorem alignment_fresh {a : Int} (h : (direct t).alignmentOf t site ty = .ok a) :
    (ask (alignment t ty) {}).1 = .ok a := by
  have hfollows : Follows t _ (alignment t ty) _ :=
    (following t _).rel_alignmentOf (fun n _ => agree_of_follow fun _ => deep_follow hw hc n) .query
  rw [hfollows.fresh]
  exact alignmentOf_site h

theorem size_fresh {size : Int} (h : (direct t).sizeOf t site ty = .ok size) :
    (ask (Layout.size t ty) {}).1 = .ok size := by
  have hfollows : Follows t _ (Layout.size t ty) _ :=
    (following t _).rel_sizeOf (fun n _ => agree_of_follow fun _ => deep_follow hw hc n) .query
  rw [hfollows.fresh]
  exact sizeOf_site h

theorem structAlignment_fresh {d : StructDecl} {a : Int} (hlook : t.lookup name = some (.struct d))
    (h : (direct t).structAlignmentOf t d = .ok a) : (ask (structAlignment t name) {}).1 = .ok a := by
  have hfollows : Follows t _ (structAlignment t name) _ := (deep_follow hw hc name).alignment
  rw [hfollows.fresh, direct_alignment hw, resolveStruct_eq_ok_iff.mpr hlook]
  exact h

end Answers

/-! ## Structs -/

/-- The offsets of a struct list its fields as they are declared, each with the alignment and size of its
type. The first field starts at the first multiple of its alignment behind the tag word, or from zero on if
there is none, and every other field at the first multiple behind the field before it. The struct ends with
its last field, and its alignment is the greatest of those of its fields and of a struct without fields. -/
theorem structOffsets_tightest {schema : Schema} (htable : TypeTable.ofSchema schema = .ok t)
    (hcounted : Counted schema.decls) {layouts : List FieldLayout} (hlayouts : offsets t name = .ok layouts) :
    ∃ d size alignment, t.lookup name = some (.struct d) ∧
      (ask (structSize t name) {}).1 = .ok size ∧ (ask (structAlignment t name) {}).1 = .ok alignment ∧
      layouts.map (fun l => (l.name, l.ty)) = d.fields.map (fun f => (f.name, f.ty)) ∧
      (∀ l ∈ layouts, (ask (Layout.alignment t l.ty) {}).1 = .ok l.alignment ∧
        (ask (Layout.size t l.ty) {}).1 = .ok l.size) ∧
      Tight (if t.isTagged name then 4 else 0) { fields := layouts, size } ∧
      IsGreatest (insert (if t.isTagged name then 4 else 1) {a | ∃ l ∈ layouts, l.alignment = a})
        alignment := by
  obtain ⟨ht, hw⟩ := TypeTable.ofSchema_eq_ok htable
  have hc : Counted t.decls := by
    rw [ht]
    exact hcounted
  obtain ⟨shape, hshape, rfl⟩ := (offsets_eq_ok_iff hw hc).mp hlayouts
  obtain ⟨d, hlook, hplaced⟩ := placed_of_shape hw hshape
  obtain ⟨hd, hname⟩ := TypeTable.mem_of_lookup hlook
  obtain ⟨alignment, halignment, hgreatest⟩ := hplaced.isGreatest_alignment
  refine ⟨d, shape.size, alignment, hlook, ?_, ?_, hplaced.map_fields, ?_, ?_, hgreatest⟩
  · exact (structSize_eq_ok_iff hw hc).mpr ⟨shape, hshape, rfl⟩
  · apply structAlignment_fresh hw hc hlook
    rw [← hname] at halignment
    exact halignment
  · intro l hl
    obtain ⟨f, -, hty, hfalignment, hfsize⟩ := hplaced.exists_field hl
    rw [hty]
    exact ⟨alignment_fresh hw hc hfalignment, size_fresh hw hc hfsize⟩
  · exact hplaced.tight hw fun f hf => hc _ hd f.ty (List.mem_map_of_mem hf)

/-- The alignment of a nested struct is twelve, so its first place behind the tag word leaves a gap. -/
theorem structOffsets_tightest_nested :
    ∃ first second, offsets nestedTable "Outer" = .ok [first, second] ∧ first.offset = 12 ∧
      StartsFrom 4 first ∧ StartsFrom 36 second ∧ (ask (structSize nestedTable "Outer") {}).1 = .ok 60 ∧
      (ask (structAlignment nestedTable "Outer") {}).1 = .ok 12 := by
  have htable : TypeTable.ofSchema nestedSchema = .ok nestedTable := rfl
  have hcounted : Counted nestedSchema.decls := by
    simp [Counted, nestedSchema, Decl.contents, FieldType.Counted]
  have houter : offsets nestedTable "Outer" = .ok
      [⟨"first", .named "Inner", 12, 24, 12⟩, ⟨"second", .named "Inner", 36, 24, 12⟩] := rfl
  obtain ⟨d, size, alignment, -, -, -, -, -, htight, -⟩ :=
    structOffsets_tightest htable hcounted houter
  have hsecond := (List.isChain_cons_cons.mp htight.later).1
  exact ⟨_, _, houter, rfl, htight.first _ rfl, hsecond, rfl, rfl⟩

end PackedSchema.Layout
