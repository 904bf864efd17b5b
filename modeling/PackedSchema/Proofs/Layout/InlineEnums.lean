import Mathlib.Logic.Relation
import PackedSchema.Proofs.Layout.Complete
import PackedSchema.Proofs.Layout.Resolved

/-!
# Enums inside of declarations

No struct has an enum inside, at any depth. An enum has another inside exactly when its variants lead to it,
and then both start at the same byte: they have one tag word.
-/

namespace PackedSchema

open Layout

variable {s : Schema} {c : Compiled} {decls : List Decl} {outer inner : String} {offset : Int}

/-! ## What is inside of a declaration -/

/-- A declaration is laid out in another one at an offset, directly or through others. -/
inductive Inside (c : Compiled) : String → String → Int → Prop
  | field {outer inner : String} {size alignment : Int} {tagged : Bool} {fields : List FieldLayout}
      {f : FieldLayout} (hlayout : .struct outer size alignment tagged fields ∈ c.layouts) (hf : f ∈ fields)
      (hty : f.ty = .named inner) : Inside c outer inner f.offset
  | payload {e : EnumDecl} {v : Variant} {inner : String} (he : .enum e ∈ c.table.decls)
      (hv : v ∈ e.variants) (hpayload : v.payload = [.named inner]) :
      Inside c e.name inner (payloadStart v.payload)
  | trans {outer mid inner : String} {o o' : Int} (houter : Inside c outer mid o)
      (hinner : Inside c mid inner o') : Inside c outer inner (o + o')

/-- The first words of two declarations overlap, one of them being inside of the other. -/
def SharesTag (c : Compiled) (outer inner : String) : Prop :=
  ∃ offset, Inside c outer inner offset ∧ 0 < offset + word ∧ offset < word

/-- The name is that of an enum. -/
def IsEnum (decls : List Decl) (name : String) : Prop := ∃ e, .enum e ∈ decls ∧ e.name = name

/-- A variant of an enum holds an enum. -/
def Wraps (decls : List Decl) (outer inner : String) : Prop :=
  IsEnum decls inner ∧ ∃ e, .enum e ∈ decls ∧ e.name = outer ∧ ∃ v ∈ e.variants, v.payload = [.named inner]

/-! ## Enums -/

theorem not_isEnum_of_struct (hnodup : (decls.map Decl.name).Nodup) {d : StructDecl}
    (hd : .struct d ∈ decls) : ¬ IsEnum decls d.name := by
  rintro ⟨e, he, hname⟩
  cases List.inj_on_of_nodup_map hnodup he hd hname

/-- The type of a field that is laid out is no enum. -/
theorem not_isEnum_of_field (hresolved : Resolved decls) (hnodup : (decls.map Decl.name).Nodup)
    {layouts : List TypeLayout} (hlayouts : List.Forall₂ LaysOut decls layouts) {size alignment : Int}
    {tagged : Bool} {fields : List FieldLayout} {f : FieldLayout}
    (hlayout : .struct outer size alignment tagged fields ∈ layouts) (hf : f ∈ fields)
    (hty : f.ty = .named inner) : ¬ IsEnum decls inner := by
  obtain ⟨decl, hdecl, hlaysOut⟩ :=
    exists_partner (List.Forall₂.flip hlayouts : List.Forall₂ (flip LaysOut) layouts decls) hlayout
  cases hlaysOut with
  | @struct d _ _ _ _ hfields =>
    have hmem : (f.name, f.ty) ∈ d.fields.map fun f => (f.name, f.ty) :=
      hfields ▸ List.mem_map_of_mem hf
    obtain ⟨g, hg, heq⟩ := List.mem_map.mp hmem
    have hgty : g.ty = .named inner := (congrArg Prod.snd heq).trans hty
    obtain ⟨d', hd', rfl⟩ := hresolved.fields inner _ (.intro hdecl hg hgty)
    exact not_isEnum_of_struct hnodup hd'

theorem Wraps.inside (hdecls : c.table.decls = decls) (h : Wraps decls outer inner) :
    Inside c outer inner 0 := by
  obtain ⟨-, e, he, rfl, v, hv, hpayload⟩ := h
  have hinside : Inside c e.name inner (payloadStart v.payload) := .payload (hdecls ▸ he) hv hpayload
  rw [hpayload] at hinside
  exact hinside

/-- What leads to an enum through variants is an enum itself. -/
theorem isEnum_of_transGen (h : Relation.TransGen (Wraps decls) outer inner) : IsEnum decls outer := by
  obtain ⟨mid, ⟨-, e, he, hname, -⟩, -⟩ := Relation.TransGen.head'_iff.mp h
  exact ⟨e, he, hname⟩

/-- An enum is inside of what leads to it through variants only, and starts where that does. -/
theorem inside_isEnum_iff (hdecls : c.table.decls = decls) (hresolved : Resolved decls)
    (hnodup : (decls.map Decl.name).Nodup) (hlayouts : List.Forall₂ LaysOut decls c.layouts)
    (hinner : IsEnum decls inner) :
    Inside c outer inner offset ↔ offset = 0 ∧ Relation.TransGen (Wraps decls) outer inner := by
  constructor
  · intro h
    induction h with
    | field hlayout hf hty =>
      exact absurd hinner (not_isEnum_of_field hresolved hnodup hlayouts hlayout hf hty)
    | @payload e v inner he hv hpayload =>
      exact ⟨by rw [hpayload, payloadStart], .single ⟨hinner, e, hdecls ▸ he, rfl, v, hv, hpayload⟩⟩
    | trans houter hmid ihouter ihmid =>
      obtain ⟨rfl, hlast⟩ := ihmid hinner
      obtain ⟨rfl, hfirst⟩ := ihouter (isEnum_of_transGen hlast)
      exact ⟨rfl, hfirst.trans hlast⟩
  · rintro ⟨rfl, h⟩
    clear hinner
    induction h with
    | single hwraps => exact hwraps.inside hdecls
    | tail _ hwraps ih => exact ih.trans (hwraps.inside hdecls)

namespace Schema

/-- In a schema that compiles, a declaration has an enum inside exactly if it is an enum whose variants lead
to that enum, and both then have the same tag word. No enum is inside of a struct. There is no enum inside of
any declaration, and no shared tag word, exactly if no variant holds an enum. -/
theorem compile_enums_inside (h : s.compile = .ok c) :
    (∀ outer inner offset, IsEnum s.decls inner →
        (Inside c outer inner offset ↔ offset = 0 ∧ Relation.TransGen (Wraps s.decls) outer inner)) ∧
      (∀ outer inner, IsEnum s.decls inner →
        (SharesTag c outer inner ↔ Relation.TransGen (Wraps s.decls) outer inner)) ∧
      (∀ d, .struct d ∈ s.decls → ∀ inner offset, IsEnum s.decls inner → ¬ Inside c d.name inner offset) ∧
      ((∀ outer inner offset, IsEnum s.decls inner → ¬ Inside c outer inner offset) ↔
        ∀ outer inner, ¬ Wraps s.decls outer inner) := by
  have hcomplete := complete_of_compile h
  have hdecls := decls_of_compile h
  have hnodup : (s.decls.map Decl.name).Nodup := hdecls ▸ hcomplete.wellFormed.names_nodup
  have hanswer := (compile_eq_ok h).2.1
  have hlayouts := laysOut_layouts hcomplete.wellFormed hanswer
  have hresolved := resolved_of_layouts hcomplete.wellFormed ⟨_, layouts_direct hcomplete.wellFormed hanswer⟩
  rw [hdecls] at hlayouts hresolved
  have hinside (outer inner : String) (offset : Int) (hinner : IsEnum s.decls inner) :
      Inside c outer inner offset ↔ offset = 0 ∧ Relation.TransGen (Wraps s.decls) outer inner :=
    inside_isEnum_iff hdecls hresolved hnodup hlayouts hinner
  refine ⟨hinside, ?_, ?_, ?_⟩
  · intro outer inner hinner
    constructor
    · rintro ⟨offset, hin, -⟩
      exact ((hinside outer inner offset hinner).mp hin).2
    · intro hleads
      exact ⟨0, (hinside outer inner 0 hinner).mpr ⟨rfl, hleads⟩, by decide, by decide⟩
  · intro d hd inner offset hinner hin
    obtain ⟨-, hleads⟩ := (hinside d.name inner offset hinner).mp hin
    exact not_isEnum_of_struct hnodup hd (isEnum_of_transGen hleads)
  · constructor
    · intro hnone outer inner hwraps
      exact hnone outer inner 0 hwraps.1 (hwraps.inside hdecls)
    · intro hnone outer inner offset hinner hin
      obtain ⟨-, hleads⟩ := (hinside outer inner offset hinner).mp hin
      obtain ⟨m, hwraps, -⟩ := Relation.TransGen.head'_iff.mp hleads
      exact hnone outer m hwraps

theorem compile_enums_inside_bare :
    ∃ c, bareSchema.compile = .ok c ∧ Inside c "Shape" "Bare" 4 ∧
      ∀ outer inner offset, IsEnum bareSchema.decls inner → ¬ Inside c outer inner offset := by
  obtain ⟨c, hcompile, htable, hlayouts⟩ := exists_compile_bare
  obtain ⟨-, -, -, hnone⟩ := compile_enums_inside hcompile
  have hshape : Inside c "Shape" "Wide" 0 := by
    have he : .enum bareEnum ∈ c.table.decls := by simp [htable, bareTable, bareSchema]
    exact .payload he (List.mem_cons_of_mem _ (List.mem_cons_of_mem _ List.mem_cons_self)) rfl
  have hwide : Inside c "Wide" "Bare" 4 := by
    exact .field (hlayouts ▸ List.mem_cons_of_mem _ List.mem_cons_self) List.mem_cons_self rfl
  refine ⟨c, hcompile, hshape.trans hwide, hnone.mpr ?_⟩
  rintro outer inner ⟨⟨e, he, rfl⟩, e', he', -, v, hv, hpayload⟩
  have honly {e : EnumDecl} (he : .enum e ∈ bareSchema.decls) : e = bareEnum := by simpa [bareSchema] using he
  cases honly he
  cases honly he'
  have hno : ∀ v ∈ bareEnum.variants, v.payload ≠ [.named "Shape"] := by decide
  exact hno v hv hpayload

/-- An enum that a variant holds has its tag word where that of the outer enum is. -/
theorem compile_tags_shared :
    ∃ c, wrapSchema.compile = .ok c ∧ IsEnum wrapSchema.decls "A" ∧ IsEnum wrapSchema.decls "B" ∧
      Inside c "A" "B" 0 ∧ SharesTag c "A" "B" := by
  obtain ⟨c, hcompile, htable, -⟩ := exists_compile_wrap
  have hinner : IsEnum wrapSchema.decls "B" := ⟨innerEnum, List.mem_cons_of_mem _ List.mem_cons_self, rfl⟩
  have hdecls : c.table.decls = wrapSchema.decls := decls_of_compile hcompile
  have hwraps : Wraps wrapSchema.decls "A" "B" :=
    ⟨hinner, wrapEnum, List.mem_cons_self, rfl, _, List.mem_cons_self, rfl⟩
  have hinside : Inside c "A" "B" 0 := hwraps.inside hdecls
  exact ⟨c, hcompile, ⟨wrapEnum, List.mem_cons_self, rfl⟩, hinner, hinside, 0, hinside, by decide, by decide⟩

end Schema

end PackedSchema
