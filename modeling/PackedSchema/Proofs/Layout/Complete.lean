import PackedSchema.Proofs.Compile
import PackedSchema.Proofs.Layout.Answers
import PackedSchema.Proofs.Layout.Tightness
import PackedSchema.Proofs.TypeTable.Rules

/-!
# Tables of schemas that compile

A schema compiles only if all of its declarations have layouts. In its table every part of a declaration is
defined, and a variant holds nothing, a type that is no declaration, a struct or an enum.
-/

namespace PackedSchema

namespace Layout

variable {t : TypeTable} {v : Variant} {e : EnumDecl} {name : String}

/-- Every declaration has all of its parts, payloads have at most one type, and a name that is a payload is
tagged. -/
structure Complete (t : TypeTable) : Prop where
  wellFormed : t.WellFormed
  shapes : ∀ d, .struct d ∈ t.decls → Succeeds ((direct t).shape d.name)
  alignments : ∀ d, .struct d ∈ t.decls → Succeeds ((direct t).alignment d.name)
  extents : ∀ e, .enum e ∈ t.decls → Succeeds ((direct t).extent e.name)
  payloads : ∀ e, .enum e ∈ t.decls → ∀ v ∈ e.variants, v.payload.length ≤ 1
  tagged : ∀ e, .enum e ∈ t.decls → ∀ v ∈ e.variants, ∀ n, v.payload = [.named n] → t.isTagged n = true

/-! ## What a variant holds -/

/-- The payload of a variant, and where the variant ends. -/
inductive EndsAt (t : TypeTable) (v : Variant) : Int → Prop
  | unit (hpayload : v.payload = []) : EndsAt t v word
  | small {ty : FieldType} {size : Int} (hpayload : v.payload = [ty]) (hsmall : ty.isSmall = true)
      (hsize : (direct t).sizeOf t .query ty = .ok size) : EndsAt t v (word + size)
  | struct {d : StructDecl} {shape : StructShape} (hpayload : v.payload = [.named d.name])
      (hd : .struct d ∈ t.decls) (hshape : (direct t).shape d.name = .ok shape) : EndsAt t v shape.size
  | enum {e : EnumDecl} {size : Int} (hpayload : v.payload = [.named e.name]) (he : .enum e ∈ t.decls)
      (hsize : (direct t).enumSize e.name = .ok size) : EndsAt t v size

/-- A payload of one type ends where its start and the size of the type say. -/
theorem variantEnd_singleton {enum : String} {ty : FieldType} {finish : Int} (hpayload : v.payload = [ty])
    (h : (direct t).variantEnd t enum v = .ok finish) :
    ∃ size, (direct t).sizeOf t .query ty = .ok size ∧ finish = payloadStart [ty] + size := by
  rw [Parts.variantEnd, hpayload, List.foldlM_cons] at h
  obtain ⟨offset, hoffset, h⟩ := bind_eq_ok_iff.mp h
  cases h
  obtain ⟨size, hsize, rfl⟩ := bind_pure_eq_ok_iff.mp hoffset
  exact ⟨size, sizeOf_site hsize, rfl⟩

theorem endsAt_of_variantEnd {enum : String} {finish : Int} (hshort : v.payload.length ≤ 1)
    (h : (direct t).variantEnd t enum v = .ok finish) : EndsAt t v finish := by
  rcases hpayload : v.payload with _ | ⟨ty, rest⟩
  · rw [Parts.variantEnd, hpayload] at h
    cases h
    exact .unit hpayload
  · obtain rfl : rest = [] := by
      rw [hpayload, List.length_cons] at hshort
      exact List.length_eq_zero_iff.mp (by omega)
    obtain ⟨size, hsize, rfl⟩ := variantEnd_singleton hpayload h
    cases ty with
    | named n =>
      -- The tag word is inside of what is named, so the payload starts at zero.
      rw [payloadStart, Int.zero_add]
      cases hlook : t.lookup n with
      | none =>
        rw [sizeOf_named_none hlook] at hsize
        cases hsize
      | some d =>
        obtain ⟨hd, rfl⟩ := TypeTable.mem_of_lookup hlook
        cases d with
        | struct d =>
          obtain ⟨shape, hshape, rfl⟩ := (sizeOf_struct_eq_ok_iff hlook).mp hsize
          exact .struct hpayload hd hshape
        | enum e =>
          rw [sizeOf_named_some hlook, declSize_enum hlook] at hsize
          exact .enum hpayload hd hsize
    | _ => exact .small hpayload rfl hsize

/-! ## Answers -/

section Answers

variable (hw : t.WellFormed) (hc : Counted t.decls)

include hw hc

theorem size_eq_direct (ty : FieldType) :
    (ask (Layout.size t ty) {}).1 = (direct t).sizeOf t .query ty :=
  ((following t _).rel_sizeOf (fun n _ => agree_of_follow fun _ => deep_follow hw hc n) .query :
    Follows t _ (Layout.size t ty) _).fresh

theorem alignment_eq_direct (ty : FieldType) :
    (ask (Layout.alignment t ty) {}).1 = (direct t).alignmentOf t .query ty :=
  ((following t _).rel_alignmentOf (fun n _ => agree_of_follow fun _ => deep_follow hw hc n) .query :
    Follows t _ (Layout.alignment t ty) _).fresh

theorem structAlignment_eq_direct :
    (ask (structAlignment t name) {}).1 = (direct t).alignment name :=
  (deep_follow hw hc name).alignment.fresh

theorem enumExtent_fresh : (ask (enumExtent t name) {}).1 = (direct t).extent name :=
  (deep_follow hw hc name).extent.fresh

theorem enumSize_fresh : (ask (enumSize t name) {}).1 = (direct t).enumSize name :=
  ((following t _).rel_enumSize (deep_follow hw hc name).extent : Follows t _ (enumSize t name) _).fresh

end Answers

end Layout

/-! ## Schemas that compile -/

namespace Schema

open Layout (Complete direct)

variable {s : Schema} {c : Compiled} {t : TypeTable}

theorem decls_of_compile (h : s.compile = .ok c) : c.table.decls = s.decls := by
  obtain ⟨htable, -, -⟩ := compile_eq_ok h
  rw [(TypeTable.ofSchema_eq_ok htable).1]

theorem complete_of_compile (h : s.compile = .ok c) : Complete c.table := by
  obtain ⟨htable, hlayouts, -⟩ := compile_eq_ok h
  obtain ⟨ht, hw⟩ := TypeTable.ofSchema_eq_ok htable
  have hlawful : s.Lawful := (TypeTable.succeeds_ofSchema_iff s).mp ⟨c.table, htable⟩
  have hlayout (d : Decl) (hd : d ∈ c.table.decls) : Succeeds ((direct c.table).layoutOf c.table d.name) :=
    succeeds_mapM_iff.mp ⟨_, Layout.layouts_direct hw hlayouts⟩ d.name (List.mem_map_of_mem hd)
  have hstruct (d : StructDecl) (hd : .struct d ∈ c.table.decls) :=
    (Layout.succeeds_layoutOf_struct_iff (hw.lookup_name hd)).mp (hlayout _ hd)
  have hdecls := decls_of_compile h
  have henum {e : EnumDecl} (he : .enum e ∈ c.table.decls) : e ∈ s.enums := by
    rw [hdecls] at he
    exact List.mem_filterMap.mpr ⟨_, he, rfl⟩
  refine ⟨hw, fun d hd => (hstruct d hd).1, fun d hd => (hstruct d hd).2, ?_, ?_, ?_⟩
  · intro e he
    exact (Layout.succeeds_layoutOf_enum_iff (hw.lookup_name he)).mp (hlayout _ he)
  · intro e he v hv
    exact (hlawful.variants e (henum he)).2 v hv
  · intro e he v hv n hn
    rw [ht, TypeTable.isTagged, List.contains_iff_mem, TypeTable.mem_taggedNames]
    exact ⟨e, henum he, v, hv, by rw [hn]; rfl⟩

def bareEnum : EnumDecl where
  name := "Shape"
  variants :=
    [{ name := "None", payload := [] }, { name := "Mark", payload := [.scalar .u8] },
      { name := "Wide", payload := [.named "Wide"] }]

/-- A struct of alignment one, inside of a struct that a variant holds. -/
def bareSchema : Schema where
  decls :=
    [.struct { name := "Bare", fields := [] },
      .struct { name := "Wide", fields :=
        [{ name := "bare", ty := .named "Bare" }, { name := "at", ty := .vector .f32 3 }] },
      .enum bareEnum]

def bareTable : TypeTable where
  schemaName := none
  decls := bareSchema.decls
  tagged := ["Wide"]

theorem exists_compile_bare : ∃ c, bareSchema.compile = .ok c ∧ c.table = bareTable ∧
    c.layouts =
      [.struct "Bare" 0 1 false [],
        .struct "Wide" 24 12 true [⟨"bare", .named "Bare", 4, 0, 1⟩, ⟨"at", .vector .f32 3, 12, 12, 12⟩],
        .enum "Shape" 24 5 [("None", 1), ("Mark", 2), ("Wide", 3)]] :=
  exists_compile rfl rfl (by unfold Writable Overlong; decide)

def innerEnum : EnumDecl where
  name := "B"
  variants := [{ name := "W", payload := [.scalar .u32] }]

/-- An enum that holds an enum. -/
def wrapEnum : EnumDecl where
  name := "A"
  variants := [{ name := "V", payload := [.named innerEnum.name] }]

def wrapSchema : Schema where
  decls := [.enum wrapEnum, .enum innerEnum]

def wrapTable : TypeTable where
  schemaName := none
  decls := wrapSchema.decls
  tagged := ["B"]

theorem exists_compile_wrap : ∃ c, wrapSchema.compile = .ok c ∧ c.table = wrapTable ∧
    c.layouts = [.enum "A" 8 1 [("V", 1)], .enum "B" 8 1 [("W", 1)]] :=
  exists_compile rfl rfl (by unfold Writable Overlong; decide)

end Schema

end PackedSchema
