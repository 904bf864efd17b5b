import PackedSchema.Proofs.Layout.Defined

/-!
# Schemas whose inline names resolve

A declaration has a layout unless it uses a name inline that cannot be laid out there: one that is not
declared, or an enum in a struct. A layout that fails tells of such a use, and fails for no other reason.
-/

namespace PackedSchema

open Layout (Site)

variable {decls : List Decl} {n : String} {site : Site}

/-! ## Uses of names -/

/-- A field of a struct has that name as its type. -/
inductive InField (decls : List Decl) : String → Site → Prop
  | intro {d : StructDecl} {f : Field} {n : String} (hd : .struct d ∈ decls) (hf : f ∈ d.fields)
      (hn : f.ty = .named n) : InField decls n (.field d.name f)

/-- A variant of an enum has that name in its payload. -/
inductive InPayload (decls : List Decl) : String → Site → Prop
  | intro {d : EnumDecl} {v : Variant} {n : String} (hd : .enum d ∈ decls) (hv : v ∈ d.variants)
      (hn : .named n ∈ v.payload) : InPayload decls n (.variant d.name v)

/-- Every name that is the type of a field is that of a struct, and every name in a payload is declared. -/
structure Resolved (decls : List Decl) : Prop where
  fields : ∀ n site, InField decls n site → ∃ d, .struct d ∈ decls ∧ d.name = n
  payloads : ∀ n site, InPayload decls n site → ∃ d ∈ decls, d.name = n

/-- The error tells of a use of a name that cannot be laid out. -/
inductive Blames (decls : List Decl) (e : SchemaError) : Prop
  | undeclared (n : String) (site : Site) (hused : InField decls n site ∨ InPayload decls n site)
      (hnone : ∀ d ∈ decls, d.name ≠ n) (herror : e = ⟨.unresolvedType n site.owner, site.span⟩)
      (htext : e.text = "CE0101: unresolved type '" ++ n ++ "' referenced by " ++ site.owner.text)
  | inlineEnum (d : EnumDecl) (site : Site) (hused : InField decls d.name site) (hd : .enum d ∈ decls)
      (herror : e = ⟨.inlineEnum d.name site.owner, site.span⟩)
      (htext : e.text =
        "CE0203: enum '" ++ d.name ++ "' cannot be laid out inline in " ++ site.owner.text)

/-- Names resolve or a use is to blame, not both. -/
theorem Blames.not_resolved {e : SchemaError} (h : Blames decls e)
    (hnodup : (decls.map Decl.name).Nodup) : ¬ Resolved decls := by
  intro hr
  cases h with
  | undeclared n site hused hnone herror htext =>
    rcases hused with hused | hused
    · obtain ⟨d, hd, hname⟩ := hr.fields n site hused
      exact hnone _ hd hname
    · obtain ⟨d, hd, hname⟩ := hr.payloads n site hused
      exact hnone d hd hname
  | inlineEnum e site hused he herror htext =>
    obtain ⟨d, hd, hname⟩ := hr.fields e.name site hused
    have hsame := List.inj_on_of_nodup_map hnodup hd he hname
    cases hsame

theorem unresolvedType_text (n : String) (owner : Owner) (span : Option Span) :
    (SchemaError.mk (.unresolvedType n owner) span).text =
      "CE0101: unresolved type '" ++ n ++ "' referenced by " ++ owner.text := by
  change "CE0101" ++ ": " ++
    ("unresolved type '" ++ (n ++ ("' referenced by " ++ (owner.text ++ "")))) = _
  simp [← String.append_assoc]

theorem inlineEnum_text (n : String) (owner : Owner) (span : Option Span) :
    (SchemaError.mk (.inlineEnum n owner) span).text =
      "CE0203: enum '" ++ n ++ "' cannot be laid out inline in " ++ owner.text := by
  change "CE0203" ++ ": " ++
    ("enum '" ++ (n ++ ("' cannot be laid out inline in " ++ (owner.text ++ "")))) = _
  simp [← String.append_assoc]

/-- A type that a schema can write. -/
def FieldType.Proper (ty : FieldType) : Prop := ty.Counted ∧ ty ≠ .missing

/-- All types that declarations lay out are proper. -/
def Proper (decls : List Decl) : Prop := ∀ d ∈ decls, ∀ ty ∈ d.contents, ty.Proper

theorem Proper.counted (h : Proper decls) : Counted decls := fun d hd ty hty => (h d hd ty hty).1

/-! ## Honest failures -/

namespace Layout

variable {α β : Type} {t : TypeTable} {name : String}

/-- A computation fails only by telling of a use that is to blame. -/
abbrev Honest (decls : List Decl) (x : Except Failure α) : Prop :=
  FailsWith (fun f => ∃ e, f = .schema e ∧ Blames decls e) x

theorem Honest.succeeds {x : Except Failure α} (h : Honest decls x)
    (hnodup : (decls.map Decl.name).Nodup) (hr : Resolved decls) : Succeeds x := by
  cases x with
  | ok a => exact succeeds_ok a
  | error f =>
    obtain ⟨e, -, he⟩ := h f rfl
    exact absurd hr (he.not_resolved hnodup)

/-! ## Rules -/

theorem honest_unresolved (hused : InField t.decls n site ∨ InPayload t.decls n site)
    (hnone : t.lookup n = none) :
    Honest t.decls (.error (.of (.unresolvedType n site.owner) site.span) : Except Failure α) := by
  intro f hf
  cases hf
  refine ⟨_, rfl, .undeclared n site hused ?_ rfl (unresolvedType_text n site.owner site.span)⟩
  intro d hd hname
  have hsome : (t.lookup n).isSome := TypeTable.isSome_lookup_iff.mpr ⟨d, hd, hname⟩
  rw [hnone] at hsome
  cases hsome

theorem honest_inlineEnum {d : EnumDecl} (hused : InField t.decls n site)
    (hlook : t.lookup n = some (.enum d)) :
    Honest t.decls (.error (.of (.inlineEnum n site.owner) site.span) : Except Failure α) := by
  intro f hf
  cases hf
  obtain ⟨hd, hname⟩ := TypeTable.mem_of_lookup hlook
  subst hname
  exact ⟨_, rfl, .inlineEnum d site hused hd rfl (inlineEnum_text d.name site.owner site.span)⟩

/-- The parts of a declaration fail honestly. -/
structure HonestParts (t : TypeTable) (name : String) : Prop where
  shape : ∀ d, t.lookup name = some (.struct d) → Honest t.decls ((direct t).shape name)
  alignment : ∀ d, t.lookup name = some (.struct d) → Honest t.decls ((direct t).alignment name)
  extent : ∀ d, t.lookup name = some (.enum d) → Honest t.decls ((direct t).extent name)

theorem honest_alignmentOf {ty : FieldType} (hproper : ty ≠ .missing)
    (hused : ∀ n, ty = .named n → InField t.decls n site)
    (hparts : ∀ n, ty = .named n → HonestParts t n) :
    Honest t.decls ((direct t).alignmentOf t site ty) := by
  cases ty with
  | scalar k => exact FailsWith.ok _
  | vector k count => exact FailsWith.ok _
  | ref inner => exact FailsWith.ok _
  | missing => exact absurd rfl hproper
  | named n =>
    cases hlook : t.lookup n with
    | none =>
      rw [alignmentOf_named_none hlook]
      exact honest_unresolved (Or.inl (hused n rfl)) hlook
    | some d =>
      cases d with
      | enum d =>
        rw [alignmentOf_named_enum hlook]
        exact honest_inlineEnum (hused n rfl) hlook
      | struct d =>
        rw [alignmentOf_named_struct hlook]
        exact (hparts n rfl).alignment d hlook

theorem honest_sizeOf {ty : FieldType} (hproper : ty ≠ .missing)
    (hused : ∀ n, ty = .named n → InField t.decls n site ∨ InPayload t.decls n site)
    (hparts : ∀ n, ty = .named n → HonestParts t n) :
    Honest t.decls ((direct t).sizeOf t site ty) := by
  cases ty with
  | scalar k => exact FailsWith.ok _
  | vector k count => exact FailsWith.ok _
  | ref inner => exact FailsWith.ok _
  | missing => exact absurd rfl hproper
  | named n =>
    cases hlook : t.lookup n with
    | none =>
      rw [sizeOf_named_none hlook]
      exact honest_unresolved (hused n rfl) hlook
    | some d =>
      rw [sizeOf_named_some hlook]
      cases d with
      | struct d =>
        rw [declSize_struct hlook]
        exact ((hparts n rfl).shape d hlook).bind fun _ _ => FailsWith.ok _
      | enum d =>
        rw [declSize_enum hlook]
        exact (((hparts n rfl).extent d hlook).bind fun _ _ => FailsWith.ok _).bind fun _ _ => FailsWith.ok _

section Declarations

variable (hw : t.WellFormed) (hp : Proper t.decls)

include hw hp

theorem honest_shapeOf {d : StructDecl} (hd : .struct d ∈ t.decls)
    (hparts : ∀ n ∈ (Decl.struct d).inlineNames, HonestParts t n) :
    Honest t.decls ((direct t).shapeOf t d) := by
  apply FailsWith.foldlM
  intro f hf shape
  have hproper : f.ty.Proper := hp _ hd f.ty (List.mem_map_of_mem hf)
  have hused (n : String) (hn : f.ty = .named n) := InField.intro hd hf hn
  have hbelow (n : String) (hn : f.ty = .named n) := hparts n (mem_inlineNames_of_field hf hn)
  apply (honest_alignmentOf hproper.2 hused hbelow).bind
  intro alignment halignment
  apply (honest_sizeOf hproper.2 (fun n hn => Or.inl (hused n hn)) hbelow).bind
  intro size _
  -- The alignment is not zero, so the padding does not fail.
  have hpos : 1 ≤ alignment := alignmentOf_pos hw hproper.1 halignment
  rw [padding_eq_ok (by omega)]
  exact FailsWith.ok _

omit hw in
theorem honest_structAlignmentOf {d : StructDecl} (hd : .struct d ∈ t.decls)
    (hparts : ∀ n ∈ (Decl.struct d).inlineNames, HonestParts t n) :
    Honest t.decls ((direct t).structAlignmentOf t d) := by
  apply FailsWith.foldlM
  intro f hf alignment
  have hproper : f.ty.Proper := hp _ hd f.ty (List.mem_map_of_mem hf)
  have hbelow (n : String) (hn : f.ty = .named n) := hparts n (mem_inlineNames_of_field hf hn)
  apply (honest_alignmentOf hproper.2 (fun n hn => InField.intro hd hf hn) hbelow).bind
  intro a _
  exact FailsWith.ok _

omit hw in
theorem honest_extentOf {d : EnumDecl} (hd : .enum d ∈ t.decls)
    (hparts : ∀ n ∈ (Decl.enum d).inlineNames, HonestParts t n) :
    Honest t.decls ((direct t).extentOf t d) := by
  apply FailsWith.foldlM
  intro v hv extent
  refine FailsWith.bind ?_ fun _ _ => FailsWith.ok _
  apply FailsWith.foldlM
  intro ty hty offset
  refine FailsWith.bind ?_ fun _ _ => FailsWith.ok _
  have hproper : ty.Proper := hp _ hd ty (List.mem_flatMap.mpr ⟨v, hv, hty⟩)
  apply honest_sizeOf hproper.2
  · rintro n rfl
    exact Or.inr (InPayload.intro hd hv hty)
  · intro n hn
    exact hparts n (mem_inlineNames_of_payload hv hty hn)

/-- Every part of a declaration fails honestly, at any depth. -/
theorem honestParts (name : String) : HonestParts t name := by
  -- By induction on the rank. A name that is not declared has no parts to speak of.
  induction hr : t.rank name using Nat.strong_induction_on generalizing name with
  | _ r ih =>
    have hbelow (d : Decl) (hlook : t.lookup name = some d) :
        ∀ n ∈ d.inlineNames, HonestParts t n := by
      intro n hn
      cases hsome : t.lookup n with
      | none => refine ⟨?_, ?_, ?_⟩ <;> simp [hsome]
      | some d' =>
        have hrank : t.rank n < t.rank name := hw.rank_lt_of_lookup hlook hn (by rw [hsome]; rfl)
        exact ih (t.rank n) (by omega) n rfl
    refine ⟨?_, ?_, ?_⟩
    · intro d hlook
      rw [direct_shape hw, resolveStruct_eq_ok_iff.mpr hlook]
      exact honest_shapeOf hw hp (TypeTable.mem_of_lookup hlook).1 (hbelow _ hlook)
    · intro d hlook
      rw [direct_alignment hw, resolveStruct_eq_ok_iff.mpr hlook]
      exact honest_structAlignmentOf hp (TypeTable.mem_of_lookup hlook).1 (hbelow _ hlook)
    · intro d hlook
      rw [direct_extent hw, resolveEnum_eq_ok_iff.mpr hlook]
      exact honest_extentOf hp (TypeTable.mem_of_lookup hlook).1 (hbelow _ hlook)

theorem honest_layoutOf {d : Decl} (hd : d ∈ t.decls) :
    Honest t.decls ((direct t).layoutOf t d.name) := by
  have hparts := honestParts hw hp d.name
  have hlook := hw.lookup_name hd
  cases d with
  | struct d =>
    rw [layoutOf_struct hlook]
    apply (hparts.shape d hlook).bind
    intro shape _
    apply (hparts.alignment d hlook).bind
    intro alignment _
    exact FailsWith.ok _
  | enum d =>
    rw [layoutOf_enum hlook]
    apply (hparts.extent d hlook).bind
    intro extent _
    exact FailsWith.ok _

theorem honest_layouts : Honest t.decls (t.order.mapM ((direct t).layoutOf t)) := by
  apply FailsWith.mapM
  intro name hname
  obtain ⟨d, hd, rfl⟩ := List.mem_map.mp hname
  exact honest_layoutOf hw hp hd

end Declarations

/-- Declarations that have layouts use only names that resolve. -/
theorem resolved_of_layouts (hw : t.WellFormed)
    (h : Succeeds (t.order.mapM ((direct t).layoutOf t))) : Resolved t.decls := by
  have hlayout (d : Decl) (hd : d ∈ t.decls) : Succeeds ((direct t).layoutOf t d.name) :=
    succeeds_mapM_iff.mp h d.name (List.mem_map_of_mem hd)
  refine ⟨?_, ?_⟩
  · rintro n _ ⟨hd, hf, hn⟩
    have hlook := hw.lookup_name hd
    -- The alignment of a struct asks for that of every field, and only structs have one.
    have halignment := ((succeeds_layoutOf_struct_iff hlook).mp (hlayout _ hd)).2
    rw [direct_alignment hw, resolveStruct_eq_ok_iff.mpr hlook] at halignment
    have hfield := succeeds_structAlignmentOf_iff.mp halignment _ hf
    obtain ⟨⟨d', hd'⟩, -⟩ := (succeeds_alignmentOf_iff.mp hfield).2 n hn
    obtain ⟨hmem, hname⟩ := TypeTable.mem_of_lookup hd'
    exact ⟨d', hmem, hname⟩
  · rintro n _ ⟨hd, hv, hn⟩
    have hlook := hw.lookup_name hd
    have hextent := (succeeds_layoutOf_enum_iff hlook).mp (hlayout _ hd)
    rw [direct_extent hw, resolveEnum_eq_ok_iff.mpr hlook] at hextent
    have hsize := succeeds_extentOf_iff.mp hextent _ hv _ hn
    cases hlook' : t.lookup n with
    | none =>
      rw [sizeOf_named_none hlook'] at hsize
      exact absurd hsize (not_succeeds_error _)
    | some d' =>
      obtain ⟨hmem, hname⟩ := TypeTable.mem_of_lookup hlook'
      exact ⟨d', hmem, hname⟩

end Layout

end PackedSchema
