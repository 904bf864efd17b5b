import PackedSchema.Proofs.Layout.Complete

/-!
# Layouts in whole words

All sizes and offsets are multiples of a word, and so is every alignment but that of a struct with nothing to
align. The size of an enum is its extent, and the extent is no larger than the variants need.
-/

namespace PackedSchema

/-! ## Whole words -/

/-- An alignment of one, or of whole words. -/
def Coarse (alignment : Int) : Prop := alignment = 1 ∨ 4 ∣ alignment

/-- A field that starts and ends with a word. -/
structure FieldLayout.Granular (l : FieldLayout) : Prop where
  offset : 4 ∣ l.offset
  size : 4 ∣ l.size
  alignment : Coarse l.alignment

/-- A struct that ends with a word, all of its fields with it. -/
structure StructShape.Granular (shape : StructShape) : Prop where
  size : 4 ∣ shape.size
  fields : ∀ l ∈ shape.fields, l.Granular

/-- A type that takes whole words, all of its fields with it. -/
def TypeLayout.Granular : TypeLayout → Prop
  | .struct _ size alignment _ fields => 4 ∣ size ∧ Coarse alignment ∧ ∀ l ∈ fields, l.Granular
  | .enum _ size _ _ => 4 ∣ size

namespace Layout

variable {t : TypeTable} {name : String} {site : Site} {ty : FieldType} {fields : List Field}
  {shape : StructShape} {v : Variant} {variants : List Variant} {bound extent finish : Int}

theorem dvd_raise_of_coarse {offset alignment : Int} (h : Coarse alignment) (hoffset : 4 ∣ offset) :
    4 ∣ raise offset alignment := by
  rcases h with rfl | h
  · rw [raise, Int.fmod_one, Int.add_zero]
    exact hoffset
  · exact Int.dvd_trans h (dvd_raise offset alignment)

theorem dvd_startShape (t : TypeTable) (name : String) : 4 ∣ (startShape t name).size := by
  unfold startShape
  split <;> decide

/-- Body words make up for what the rounding takes away. -/
theorem word_mul_bodyWords (h : 4 ∣ extent) : word + word * bodyWords extent = extent := by
  obtain ⟨k, rfl⟩ := h
  rw [bodyWords, ← Int.mul_neg, word, Int.mul_fdiv_cancel_left _ (by decide)]
  omega

/-! ## Where alignments come from -/

/-- The alignments that declarations can have: one, a word, or that of a vector that they lay out. -/
inductive AlignmentFrom (decls : List Decl) : Int → Prop
  | one : AlignmentFrom decls 1
  | word : AlignmentFrom decls word
  | vector {d : Decl} {k : ScalarKind} {count : Int} (hd : d ∈ decls) (hty : .vector k count ∈ d.contents) :
      AlignmentFrom decls (word * count)

theorem alignmentFrom_least (t : TypeTable) (name : String) :
    AlignmentFrom t.decls (leastAlignment t name) := by
  unfold leastAlignment
  split
  · exact .word
  · exact .one

/-- The alignment of a type is from the declarations if that of every struct is. -/
theorem alignmentOf_from_of_struct {d : Decl} (hd : d ∈ t.decls) (hty : ty ∈ d.contents) {a : Int}
    (hstruct : ∀ n a, ty = .named n → (direct t).alignment n = .ok a → AlignmentFrom t.decls a)
    (h : (direct t).alignmentOf t site ty = .ok a) : AlignmentFrom t.decls a := by
  cases ty with
  | scalar k =>
    cases h
    exact .word
  | ref inner =>
    cases h
    exact .word
  | vector k count =>
    cases h
    exact .vector hd hty
  | missing => cases h
  | named n =>
    obtain ⟨⟨d', hd'⟩, -⟩ := (succeeds_alignmentOf_iff.mp ⟨a, h⟩).2 n rfl
    rw [alignmentOf_named_struct hd'] at h
    exact hstruct n a rfl h

theorem direct_alignment_from (hw : t.WellFormed) {a : Int} (h : (direct t).alignment name = .ok a) :
    AlignmentFrom t.decls a := by
  induction hr : t.rank name using Nat.strong_induction_on generalizing name a with
  | _ r ih =>
    rw [direct_alignment hw] at h
    obtain ⟨d, hd, h⟩ := bind_eq_ok_iff.mp h
    have hlook := resolveStruct_eq_ok_iff.mp hd
    have hends : Ends (AlignmentFrom t.decls) (fun _ => True) ((direct t).structAlignmentOf t d) := by
      apply Ends.foldlM (fun _ => AlignmentFrom t.decls) (alignmentFrom_least t d.name)
      intro done f rest alignment hdone hfrom
      have hf : f ∈ d.fields := hdone ▸ List.mem_append_right done List.mem_cons_self
      cases halignment : (direct t).alignmentOf t (.field d.name f) f.ty with
      | error e =>
        rw [Parts.alignField, halignment]
        trivial
      | ok a =>
        rw [Parts.alignField, halignment]
        refine max_rec' (AlignmentFrom t.decls) hfrom ?_
        have hd := (TypeTable.mem_of_lookup hlook).1
        refine alignmentOf_from_of_struct hd (List.mem_map_of_mem hf) ?_ halignment
        intro n a hn ha
        -- A name with an alignment is declared, and of a lower rank.
        have hdeclared : (t.lookup n).isSome = true := by
          rw [direct_alignment hw] at ha
          obtain ⟨d', hd', -⟩ := bind_eq_ok_iff.mp ha
          rw [resolveStruct_eq_ok_iff.mp hd']
          rfl
        have hrank := hw.rank_lt_of_lookup hlook (mem_inlineNames_of_field hf hn) hdeclared
        exact ih (t.rank n) (by omega) ha rfl
    rw [h] at hends
    exact hends

/-! ## Types -/

theorem AlignmentFrom.coarse {decls : List Decl} {a : Int} (h : AlignmentFrom decls a) : Coarse a := by
  cases h with
  | one => exact Or.inl rfl
  | word => exact Or.inr (Int.dvd_refl 4)
  | vector hd hty => exact Or.inr (Int.dvd_mul_right 4 _)

theorem alignmentOf_coarse (hw : t.WellFormed) {a : Int} (h : (direct t).alignmentOf t site ty = .ok a) :
    Coarse a := by
  cases ty with
  | named n =>
    obtain ⟨⟨d, hd⟩, -⟩ := (succeeds_alignmentOf_iff.mp ⟨a, h⟩).2 n rfl
    rw [alignmentOf_named_struct hd] at h
    exact (direct_alignment_from hw h).coarse
  | missing => cases h
  | scalar k =>
    cases h
    exact Or.inr (Int.dvd_refl 4)
  | ref inner =>
    cases h
    exact Or.inr (Int.dvd_refl 4)
  | vector k count =>
    cases h
    exact Or.inr (Int.dvd_mul_right 4 count)

theorem dvd_enumSize {size : Int} (h : (direct t).enumSize name = .ok size) : 4 ∣ size := by
  obtain ⟨words, -, rfl⟩ := bind_pure_eq_ok_iff.mp h
  exact Int.dvd_add (Int.dvd_refl 4) (Int.dvd_mul_right 4 words)

/-- The size of a type is in words if that of every struct is. -/
theorem dvd_sizeOf_of_shape {size : Int}
    (hshape : ∀ n shape, ty = .named n → (direct t).shape n = .ok shape → 4 ∣ shape.size)
    (h : (direct t).sizeOf t site ty = .ok size) : 4 ∣ size := by
  cases ty with
  | scalar k =>
    cases h
    exact Int.dvd_refl 4
  | ref inner =>
    cases h
    exact Int.dvd_refl 4
  | vector k count =>
    cases h
    exact Int.dvd_mul_right 4 count
  | missing => cases h
  | named n =>
    cases hlook : t.lookup n with
    | none =>
      rw [sizeOf_named_none hlook] at h
      cases h
    | some d =>
      cases d with
      | struct d =>
        obtain ⟨shape, hn, rfl⟩ := (sizeOf_struct_eq_ok_iff hlook).mp h
        exact hshape n shape rfl hn
      | enum e =>
        rw [sizeOf_named_some hlook, declSize_enum hlook] at h
        exact dvd_enumSize h

/-! ## Structs -/

/-- Placing a field keeps to whole words. -/
theorem granular_behind (h : shape.Granular) (f : Field) {size alignment : Int}
    (halignment : Coarse alignment) (hsize : 4 ∣ size) :
    StructShape.Granular { fields := shape.fields ++ [fieldBehind shape f size alignment]
                           size := raise shape.size alignment + size } := by
  have hoffset : 4 ∣ raise shape.size alignment := dvd_raise_of_coarse halignment h.size
  refine ⟨Int.dvd_add hoffset hsize, ?_⟩
  intro l hl
  rcases List.mem_append.mp hl with hl | hl
  · exact h.fields l hl
  · cases List.mem_singleton.mp hl
    exact ⟨hoffset, hsize, halignment⟩

theorem Placed.granular (hw : t.WellFormed) (h : Placed t name fields shape)
    (hsizes : ∀ f ∈ fields, ∀ size, (direct t).sizeOf t (.field name f) f.ty = .ok size → 4 ∣ size) :
    shape.Granular := by
  induction h with
  | start => exact ⟨dvd_startShape t name, by simp [startShape]⟩
  | @field done shape f alignment size hdone halignment hsize ih =>
    have hbefore := ih fun f' hf' => hsizes f' (List.mem_append_left [f] hf')
    have hf : f ∈ done ++ [f] := List.mem_append_right done (List.mem_singleton_self f)
    exact granular_behind hbefore f (alignmentOf_coarse hw halignment) (hsizes f hf size hsize)

theorem shape_granular (hw : t.WellFormed) (h : (direct t).shape name = .ok shape) : shape.Granular := by
  induction hr : t.rank name using Nat.strong_induction_on generalizing name shape with
  | _ r ih =>
    obtain ⟨d, hlook, hplaced⟩ := placed_of_shape hw h
    apply hplaced.granular hw
    intro f hf size hsize
    refine dvd_sizeOf_of_shape ?_ hsize
    intro n shape' hn hshape'
    obtain ⟨d', hlook', -⟩ := placed_of_shape hw hshape'
    have hrank : t.rank n < t.rank name :=
      hw.rank_lt_of_lookup hlook (mem_inlineNames_of_field hf hn) (by rw [hlook']; rfl)
    exact (ih (t.rank n) (by omega) hshape' rfl).size

theorem dvd_sizeOf (hw : t.WellFormed) {size : Int} (h : (direct t).sizeOf t site ty = .ok size) : 4 ∣ size :=
  dvd_sizeOf_of_shape (fun _ _ _ hshape => (shape_granular hw hshape).size) h

theorem layoutOf_granular (hw : t.WellFormed) {d : Decl} (hd : d ∈ t.decls) {l : TypeLayout}
    (h : (direct t).layoutOf t d.name = .ok l) : l.Granular := by
  have hlook : t.lookup d.name = some d := hw.lookup_name hd
  cases d with
  | struct d =>
    rw [layoutOf_struct hlook] at h
    obtain ⟨shape, hshape, h⟩ := bind_eq_ok_iff.mp h
    obtain ⟨alignment, halignment, h⟩ := bind_eq_ok_iff.mp h
    cases h
    have hgranular := shape_granular hw hshape
    exact ⟨hgranular.size, (direct_alignment_from hw halignment).coarse, hgranular.fields⟩
  | enum e =>
    rw [layoutOf_enum hlook] at h
    obtain ⟨extent, -, h⟩ := bind_eq_ok_iff.mp h
    cases h
    exact Int.dvd_add (Int.dvd_refl 4) (Int.dvd_mul_right 4 _)

/-! ## Variants below a bound -/

/-- What a variant holds lies behind the tag word and below a bound. Of an enum that it holds nothing is
asked. -/
structure Held (t : TypeTable) (v : Variant) (bound : Int) : Prop where
  small : ∀ ty, v.payload = [ty] → ty.isSmall = true →
    ∃ size, (ask (Layout.size t ty) {}).1 = .ok size ∧ 4 + size ≤ bound
  struct : ∀ d, .struct d ∈ t.decls → v.payload = [.named d.name] →
    ∃ fields, offsets t d.name = .ok fields ∧ ∀ l ∈ fields, 4 ≤ l.offset ∧ l.offset + l.size ≤ bound

/-- The bounds, a word at least, that variants lie below. -/
def bounds (t : TypeTable) (variants : List Variant) : Set Int :=
  {bound | 4 ≤ bound ∧ ∀ v ∈ variants, Held t v bound}

/-- The sizes of the enums that variants hold. -/
def innerSizes (t : TypeTable) (variants : List Variant) : Set Int :=
  {size | ∃ v ∈ variants, ∃ e, .enum e ∈ t.decls ∧ v.payload = [.named e.name] ∧
    (ask (enumSize t e.name) {}).1 = .ok size}

theorem Held.mono {bound' : Int} (h : Held t v bound) (hle : bound ≤ bound') : Held t v bound' := by
  constructor
  · intro ty hpayload hsmall
    obtain ⟨size, hsize, hbound⟩ := h.small ty hpayload hsmall
    exact ⟨size, hsize, by omega⟩
  · intro d hd hpayload
    obtain ⟨fields, hfields, hbound⟩ := h.struct d hd hpayload
    exact ⟨fields, hfields, fun l hl => ⟨(hbound l hl).1, by have := (hbound l hl).2; omega⟩⟩

theorem mem_bounds_append :
    bound ∈ bounds t (variants ++ [v]) ↔ bound ∈ bounds t variants ∧ Held t v bound := by
  simp only [bounds, Set.mem_ofPred_eq, List.forall_mem_append, List.forall_mem_singleton, and_assoc]

theorem innerSizes_append : innerSizes t (variants ++ [v]) = innerSizes t variants ∪ innerSizes t [v] := by
  ext size
  simp only [innerSizes, Set.mem_union, Set.mem_ofPred_eq, List.mem_append, or_and_right, exists_or]

/-- A struct ends below a bound if its fields do. -/
theorem Tight.size_le_iff {start : Int} (htight : Tight start shape) (harranged : Arranged start shape)
    (hstart : start ≤ bound) : shape.size ≤ bound ↔ ∀ l ∈ shape.fields, l.offset + l.size ≤ bound := by
  constructor
  · intro h l hl
    exact Int.le_trans (harranged.end_le_size l hl) h
  · intro h
    rw [htight.size, endOf]
    cases hlast : shape.fields.getLast? with
    | none => exact hstart
    | some l => exact h l (List.mem_of_getLast? hlast)

section Held

variable (hw : t.WellFormed) (hc : Counted t.decls)

include hw hc

theorem held_struct_iff {d : StructDecl} (hd : .struct d ∈ t.decls) (hpayload : v.payload = [.named d.name])
    (htagged : t.isTagged d.name = true) (hshape : (direct t).shape d.name = .ok shape) (hbound : 4 ≤ bound) :
    Held t v bound ↔ shape.size ≤ bound := by
  obtain ⟨d', hlook, hplaced⟩ := placed_of_shape hw hshape
  have htight := hplaced.tight hw fun f hf =>
    hc _ (TypeTable.mem_of_lookup hlook).1 f.ty (List.mem_map_of_mem hf)
  have harranged := shape_arranged hw hc hshape
  rw [startShape_tagged htagged] at htight harranged
  have hfields : offsets t d.name = .ok shape.fields := (offsets_eq_ok_iff hw hc).mpr ⟨shape, hshape, rfl⟩
  rw [htight.size_le_iff harranged hbound]
  constructor
  · intro h
    obtain ⟨fields, hfields', hends⟩ := h.struct d hd hpayload
    cases hfields.symm.trans hfields'
    exact fun l hl => (hends l hl).2
  · intro h
    constructor
    · intro ty hty hsmall
      cases hpayload.symm.trans hty
      cases hsmall
    · intro d' hd' hpayload'
      have hname : d.name = d'.name := by simpa using hpayload.symm.trans hpayload'
      exact ⟨shape.fields, hname ▸ hfields, fun l hl => ⟨harranged.start_le_offset l hl, h l hl⟩⟩

theorem held_small_iff {size : Int} (hpayload : v.payload = [ty]) (hsmall : ty.isSmall = true)
    (hsize : (direct t).sizeOf t site ty = .ok size) : Held t v bound ↔ 4 + size ≤ bound := by
  have hanswer := size_fresh hw hc hsize
  constructor
  · intro h
    obtain ⟨size', hsize', hbound⟩ := h.small ty hpayload hsmall
    cases hanswer.symm.trans hsize'
    exact hbound
  · intro h
    constructor
    · intro ty' hty' _
      cases hpayload.symm.trans hty'
      exact ⟨size, hanswer, h⟩
    · intro d _ hpayload'
      cases hpayload.symm.trans hpayload'
      cases hsmall

end Held

theorem held_unit (hpayload : v.payload = []) : Held t v bound := by
  constructor
  · intro ty hty
    cases hpayload.symm.trans hty
  · intro d _ hd
    cases hpayload.symm.trans hd

theorem held_enum (hw : t.WellFormed) {e : EnumDecl} (he : .enum e ∈ t.decls)
    (hpayload : v.payload = [.named e.name]) : Held t v bound := by
  constructor
  · intro ty hty hsmall
    cases hpayload.symm.trans hty
    cases hsmall
  · intro d hd hpayload'
    -- No struct has the name of an enum.
    have hname : e.name = d.name := by simpa using hpayload.symm.trans hpayload'
    have hlook : t.lookup d.name = some (.enum e) := hname ▸ hw.lookup_name he
    cases (hw.lookup_name hd).symm.trans hlook

/-! ## Extents -/

/-- An extent of whole words, the greater of the least bound of the variants and of the enums that they
hold. -/
structure Covered (t : TypeTable) (variants : List Variant) (extent : Int) : Prop where
  granular : 4 ∣ extent
  least : ∃ bound, IsLeast (bounds t variants) bound ∧
    IsGreatest (insert bound (innerSizes t variants)) extent

theorem covered_nil (t : TypeTable) : Covered t [] word := by
  refine ⟨Int.dvd_refl 4, 4, ⟨⟨Int.le_refl 4, by simp⟩, fun _ h => h.1⟩, ?_⟩
  simp [innerSizes, word]

/-- Raising one element of a set raises its greatest element. -/
theorem isGreatest_insert_max {s : Set Int} {a greatest : Int} (h : IsGreatest (insert a s) greatest)
    (b : Int) : IsGreatest (insert (max a b) s) (max greatest b) := by
  have ha : a ≤ greatest := h.2 (Set.mem_insert a s)
  constructor
  · rcases h.1 with rfl | hs
    · exact Set.mem_insert _ _
    · rcases le_total b greatest with hle | hle
      · rw [max_eq_left hle]
        exact Set.mem_insert_of_mem _ hs
      · rw [max_eq_right hle, max_eq_right (ha.trans hle)]
        exact Set.mem_insert _ _
  · rintro x (rfl | hx)
    · exact max_le_max_right b ha
    · exact le_max_of_le_left (h.2 (Set.mem_insert_of_mem _ hx))

/-- A variant that holds no enum raises the least bound. -/
theorem Covered.cover (h : Covered t variants extent) (hfinish : 4 ∣ finish)
    (hheld : ∀ bound, 4 ≤ bound → (Held t v bound ↔ finish ≤ bound)) (hinner : innerSizes t [v] = ∅) :
    Covered t (variants ++ [v]) (max extent finish) := by
  obtain ⟨bound, hleast, hgreatest⟩ := h.least
  have hword : 4 ≤ max bound finish := le_max_of_le_left hleast.1.1
  refine ⟨max_rec' _ h.granular hfinish, max bound finish, ⟨mem_bounds_append.mpr ⟨⟨hword, ?_⟩, ?_⟩, ?_⟩, ?_⟩
  · intro v' hv'
    exact (hleast.1.2 v' hv').mono (le_max_left bound finish)
  · exact (hheld _ hword).mpr (le_max_right bound finish)
  · intro b hb
    obtain ⟨hb, hv⟩ := mem_bounds_append.mp hb
    exact max_le (hleast.2 hb) ((hheld b hb.1).mp hv)
  · rw [innerSizes_append, hinner, Set.union_empty]
    exact isGreatest_insert_max hgreatest finish

/-- A variant that holds an enum leaves the least bound as it is. -/
theorem Covered.cover_enum (h : Covered t variants extent) {size : Int} (hsize : 4 ∣ size)
    (hheld : ∀ bound, Held t v bound) (hinner : innerSizes t [v] = {size}) :
    Covered t (variants ++ [v]) (max extent size) := by
  obtain ⟨bound, hleast, hgreatest⟩ := h.least
  have hbounds : bounds t (variants ++ [v]) = bounds t variants := by
    ext b
    rw [mem_bounds_append, and_iff_left (hheld b)]
  refine ⟨max_rec' _ h.granular hsize, bound, hbounds ▸ hleast, ?_⟩
  rw [innerSizes_append, hinner, Set.union_singleton, Set.insert_comm, max_comm]
  exact hgreatest.insert size

/-! ## What variants hold -/

theorem innerSizes_of_ne (h : ∀ e, .enum e ∈ t.decls → v.payload ≠ [.named e.name]) :
    innerSizes t [v] = ∅ := by
  refine Set.eq_empty_of_forall_notMem ?_
  rintro size ⟨v', hv', e, he, hpayload, -⟩
  cases List.mem_singleton.mp hv'
  exact h e he hpayload

section Extent

variable (hcomplete : Complete t) (hc : Counted t.decls)

include hcomplete hc

/-- Covering one more variant by where it ends. -/
theorem EndsAt.cover (h : EndsAt t v finish) (htagged : ∀ n, v.payload = [.named n] → t.isTagged n = true)
    (hcovered : Covered t variants extent) : Covered t (variants ++ [v]) (max extent finish) := by
  have hw := hcomplete.wellFormed
  cases h with
  | unit hpayload =>
    refine hcovered.cover (Int.dvd_refl 4) (fun _ hbound => iff_of_true (held_unit hpayload) hbound) ?_
    exact innerSizes_of_ne fun e _ => by simp [hpayload]
  | @small ty size hpayload hsmall hsize =>
    have hdvd : 4 ∣ word + size := Int.dvd_add (Int.dvd_refl 4) (dvd_sizeOf hw hsize)
    refine hcovered.cover hdvd (fun _ _ => held_small_iff hw hc hpayload hsmall hsize) ?_
    refine innerSizes_of_ne fun e _ hname => ?_
    cases hpayload.symm.trans hname
    cases hsmall
  | @struct d shape hpayload hd hshape =>
    refine hcovered.cover (shape_granular hw hshape).size
      (fun _ => held_struct_iff hw hc hd hpayload (htagged _ hpayload) hshape) ?_
    refine innerSizes_of_ne fun e he hname => ?_
    have hname : d.name = e.name := by simpa using hpayload.symm.trans hname
    have hlook : t.lookup e.name = some (.struct d) := hname ▸ hw.lookup_name hd
    cases (hw.lookup_name he).symm.trans hlook
  | @enum e size hpayload he hsize =>
    refine hcovered.cover_enum (dvd_enumSize hsize) (fun _ => held_enum hw he hpayload) ?_
    ext size'
    constructor
    · rintro ⟨v', hv', e', he', hpayload', hsize'⟩
      cases List.mem_singleton.mp hv'
      have hname : e.name = e'.name := by simpa using hpayload.symm.trans hpayload'
      rw [enumSize_fresh hw hc, ← hname, hsize] at hsize'
      cases hsize'
      rfl
    · rintro rfl
      exact ⟨v, List.mem_singleton_self v, e, he, hpayload, (enumSize_fresh hw hc).trans hsize⟩

/-- The extent of an enum covers its variants. -/
theorem extent_covered {e : EnumDecl} (he : .enum e ∈ t.decls) (h : (direct t).extent e.name = .ok extent) :
    Covered t e.variants extent := by
  rw [direct_extent hcomplete.wellFormed] at h
  obtain ⟨e', he', h⟩ := bind_eq_ok_iff.mp h
  cases (hcomplete.wellFormed.lookup_name he).symm.trans (resolveEnum_eq_ok_iff.mp he')
  have hends : Ends (Covered t e.variants) (fun _ => True) ((direct t).extentOf t e) := by
    apply Ends.foldlM (Covered t) (covered_nil t)
    intro done v rest extent hdone hcovered
    have hv : v ∈ e.variants := hdone ▸ List.mem_append_right done List.mem_cons_self
    cases hend : (direct t).variantEnd t e.name v with
    | error e =>
      rw [Parts.coverVariant, hend]
      trivial
    | ok finish =>
      rw [Parts.coverVariant, hend]
      exact (endsAt_of_variantEnd (hcomplete.payloads e he v hv) hend).cover hcomplete hc
        (hcomplete.tagged e he v hv) hcovered
  rw [h] at hends
  exact hends

end Extent

end Layout

/-! ## Schemas that compile -/

namespace Schema

open Layout

variable {s : Schema} {c : Compiled}

/-- In a schema that compiles all types are laid out in whole words. The extent of an enum is its size. It
bounds what the variants hold, and it is the least such bound unless an enum is held that is larger. -/
theorem compile_granular (h : s.compile = .ok c) (hcounted : Counted s.decls) :
    List.Forall₂ (fun d l => LaysOut d l ∧ l.Granular) s.decls c.layouts ∧
      (∀ ty size, (ask (Layout.size c.table ty) {}).1 = .ok size → 4 ∣ size) ∧
      (∀ ty a, (ask (Layout.alignment c.table ty) {}).1 = .ok a → Coarse a) ∧
      ∀ e, .enum e ∈ s.decls → ∃ size bound, (ask (enumExtent c.table e.name) {}).1 = .ok size ∧
        (ask (enumSize c.table e.name) {}).1 = .ok size ∧ 4 ∣ size ∧
        (∀ v ∈ e.variants, Held c.table v size) ∧ IsLeast (bounds c.table e.variants) bound ∧
        IsGreatest (insert bound (innerSizes c.table e.variants)) size ∧
        ((∀ v ∈ e.variants, ∀ e', .enum e' ∈ s.decls → v.payload ≠ [.named e'.name]) → size = bound) := by
  have hcomplete := complete_of_compile h
  have hw := hcomplete.wellFormed
  have hdecls := decls_of_compile h
  have hc : Counted c.table.decls := hdecls ▸ hcounted
  rw [← hdecls]
  refine ⟨?_, ?_, ?_, ?_⟩
  · have hdirect := layouts_direct hw (compile_eq_ok h).2.1
    rw [TypeTable.order, mapM_eq_ok_iff, List.forall₂_map_left_iff] at hdirect
    refine ((List.forall₂_and_left _ _).mpr ⟨fun _ hd => hd, hdirect⟩).imp fun d l hl => ?_
    exact ⟨laysOut_layoutOf hw hl.1 hl.2, layoutOf_granular hw hl.1 hl.2⟩
  · intro ty size hsize
    rw [size_eq_direct hw hc] at hsize
    exact dvd_sizeOf hw hsize
  · intro ty a ha
    rw [alignment_eq_direct hw hc] at ha
    exact alignmentOf_coarse hw ha
  · intro e he
    obtain ⟨extent, hextent⟩ := hcomplete.extents e he
    have hcovered := extent_covered hcomplete hc he hextent
    obtain ⟨bound, hleast, hgreatest⟩ := hcovered.least
    refine ⟨extent, bound, (enumExtent_fresh hw hc).trans hextent, ?_, hcovered.granular, ?_, hleast,
      hgreatest, ?_⟩
    · rw [enumSize_fresh hw hc, Parts.enumSize, Parts.bodyWords, hextent]
      exact congrArg _ (word_mul_bodyWords hcovered.granular)
    · intro v hv
      exact (hleast.1.2 v hv).mono (hgreatest.2 (Set.mem_insert bound _))
    · intro hno
      rcases hgreatest.1 with hextent | ⟨v, hv, e', he', hpayload, -⟩
      · exact hextent
      · exact absurd hpayload (hno v hv e' he')

theorem compile_granular_bare :
    ∃ c, bareSchema.compile = .ok c ∧ Counted bareSchema.decls ∧
      (ask (Layout.alignment c.table (.named "Bare")) {}).1 = .ok 1 ∧
      (ask (enumSize c.table "Shape") {}).1 = .ok 24 ∧ IsLeast (bounds c.table bareEnum.variants) 24 := by
  have hcounted : Counted bareSchema.decls := by
    simp [Counted, bareSchema, bareEnum, Decl.contents, FieldType.Counted]
  obtain ⟨c, hcompile, htable, -⟩ := exists_compile_bare
  obtain ⟨-, -, -, henums⟩ := compile_granular hcompile hcounted
  obtain ⟨size, bound, -, hsize, -, -, hleast, -, heq⟩ := henums bareEnum (by simp [bareSchema])
  obtain rfl : size = bound := heq (by simp [bareSchema, bareEnum])
  have hanswer : (ask (enumSize c.table "Shape") {}).1 = .ok 24 := by
    rw [htable]
    rfl
  obtain rfl : size = 24 := by
    cases hsize.symm.trans hanswer
    rfl
  have halignment : (ask (Layout.alignment c.table (.named "Bare")) {}).1 = .ok 1 := by
    rw [htable]
    rfl
  exact ⟨c, hcompile, hcounted, halignment, hanswer, hleast⟩

/-- The size of an enum that holds another is not the least bound of its variants. -/
theorem compile_size_not_least :
    ∃ c, wrapSchema.compile = .ok c ∧ Counted wrapSchema.decls ∧ .enum wrapEnum ∈ wrapSchema.decls ∧
      (ask (enumSize c.table wrapEnum.name) {}).1 = .ok 8 ∧
      ¬ IsLeast (bounds c.table wrapEnum.variants) 8 := by
  have hcounted : Counted wrapSchema.decls := by
    simp [Counted, wrapSchema, wrapEnum, innerEnum, Decl.contents, FieldType.Counted]
  obtain ⟨c, hcompile, htable, -⟩ := exists_compile_wrap
  have hanswer : (ask (enumSize c.table wrapEnum.name) {}).1 = .ok 8 := by
    rw [htable]
    rfl
  refine ⟨c, hcompile, hcounted, List.mem_cons_self, hanswer, fun hleast => ?_⟩
  have hinner : .enum innerEnum ∈ c.table.decls := by
    rw [htable]
    exact List.mem_cons_of_mem _ List.mem_cons_self
  have hbound : 4 ∈ bounds c.table wrapEnum.variants := by
    refine ⟨Int.le_refl 4, fun v hv => ?_⟩
    cases List.mem_singleton.mp hv
    exact held_enum (complete_of_compile hcompile).wellFormed hinner rfl
  exact absurd (hleast.2 hbound) (by decide)

end Schema

end PackedSchema
