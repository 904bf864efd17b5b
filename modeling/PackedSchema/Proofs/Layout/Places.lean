import PackedSchema.Proofs.Layout.Session
import PackedSchema.Proofs.Schema.Places

/-!
# Layouts without places

The places of declarations in a text matter to layouts only where a failure tells one. A session therefore
gives the same answers for a table without places, and the same failures without theirs.
-/

namespace PackedSchema

/-- The failure without the place that it arises at. -/
def Failure.plain : Failure → Failure
  | .schema e => .schema { e with span := none }
  | f => f

namespace Layout

variable {α β δ : Type}

/-! ## Questions -/

/-- The question, whose failures are told without their places. -/
def plainly (q : Query α) : Query α := ExceptT.adapt Failure.plain q

theorem ask_plainly (q : Query α) (s : Session) :
    ask (plainly q) s = ((ask q s).1.mapError Failure.plain, (ask q s).2) := rfl

@[simp] theorem plainly_pure (a : α) : plainly (pure a) = pure a := rfl

@[simp] theorem plainly_lift (x : Except Failure α) :
    plainly (liftM x) = liftM (x.mapError Failure.plain) := by
  cases x <;> rfl

@[simp] theorem plainly_bind (q : Query α) (f : α → Query β) :
    plainly (q >>= f) = plainly q >>= fun a => plainly (f a) := by
  funext s
  change ask (plainly (q >>= f)) s = ask (plainly q >>= fun a => plainly (f a)) s
  obtain ⟨x, s', hask⟩ : ∃ x s', ask q s = (x, s') := ⟨_, _, rfl⟩
  have hplain : ask (plainly q) s = (x.mapError Failure.plain, s') := by rw [ask_plainly, hask]
  rw [ask_plainly]
  cases x with
  | ok a => rw [ask_bind_ok hask, ask_bind_ok hplain, ask_plainly]
  | error e => rw [ask_bind_error hask, ask_bind_error hplain]; rfl

@[simp] theorem plainly_map (g : α → β) (q : Query α) : plainly (g <$> q) = g <$> plainly q := by
  rw [← bind_pure_comp, ← bind_pure_comp, plainly_bind]
  rfl

@[simp] theorem plainly_foldlM (f : β → α → Query β) (items : List α) (b : β) :
    plainly (items.foldlM f b) = items.foldlM (fun b a => plainly (f b a)) b := by
  induction items generalizing b with
  | nil => rfl
  | cons a rest ih => simp [ih]

/-- A loop over items without places is the plain loop, if every round is. -/
theorem foldlM_plain {plain : α → α} {f g : β → α → Query β} (h : ∀ b a, f b (plain a) = plainly (g b a))
    (items : List α) (b : β) : (items.map plain).foldlM f b = plainly (items.foldlM g b) := by
  rw [plainly_foldlM, List.foldlM_map]
  simp only [h]

@[simp] theorem plainly_mapM (f : α → Query β) (items : List α) :
    plainly (items.mapM f) = items.mapM fun a => plainly (f a) := by
  induction items with
  | nil => rfl
  | cons a rest ih => simp [List.mapM_cons, ih]

/-! ## Rules -/

def Site.plain (site : Site) : Site := { site with span := none }

section Rules

variable (t : TypeTable) (name : String) (site : Site)

theorem resolve_plain :
    resolve t.plain name site.plain = ((resolve t name site).map Decl.plain).mapError Failure.plain := by
  unfold resolve
  rw [t.lookup_plain]
  cases t.lookup name <;> rfl

/-- What is asked of a declaration can be asked plainly of the declaration without places. -/
theorem resolve_plain_bind {f g : Decl → Query α} (h : ∀ d, f d.plain = plainly (g d)) :
    (liftM (resolve t.plain name site.plain) >>= f) = plainly (liftM (resolve t name site) >>= g) := by
  rw [plainly_bind, plainly_lift, resolve_plain]
  cases resolve t name site with
  | error e => rfl
  | ok d => exact h d

theorem resolveStruct_plain :
    resolveStruct t.plain name = ((resolveStruct t name).map StructDecl.plain).mapError Failure.plain := by
  have hresolve : resolve t.plain name .query = _ := resolve_plain t name .query
  unfold resolveStruct
  rw [hresolve]
  rcases resolve t name .query with e | d | d <;> rfl

theorem resolveEnum_plain :
    resolveEnum t.plain name = ((resolveEnum t name).map EnumDecl.plain).mapError Failure.plain := by
  have hresolve : resolve t.plain name .query = _ := resolve_plain t name .query
  unfold resolveEnum
  rw [hresolve]
  rcases resolve t name .query with e | d | d <;> rfl

/-- The parts, asked for plainly. -/
def Parts.plainly (p : Parts Query) : Parts Query where
  shape name := Layout.plainly (p.shape name)
  alignment name := Layout.plainly (p.alignment name)
  extent name := Layout.plainly (p.extent name)

namespace Parts

variable (p : Parts Query)

theorem structSize_plainly : p.plainly.structSize name = Layout.plainly (p.structSize name) := by
  simp [structSize, plainly]

theorem structOffsets_plainly : p.plainly.structOffsets name = Layout.plainly (p.structOffsets name) := by
  simp [structOffsets, plainly]

theorem bodyWords_plainly : p.plainly.bodyWords name = Layout.plainly (p.bodyWords name) := by
  simp [bodyWords, plainly]

theorem enumSize_plainly : p.plainly.enumSize name = Layout.plainly (p.enumSize name) := by
  simp [enumSize, bodyWords_plainly]

theorem declSize_plainly : p.plainly.declSize t.plain name = Layout.plainly (p.declSize t name) := by
  apply resolve_plain_bind t name .query
  intro d
  cases d with
  | struct d => exact p.structSize_plainly name
  | enum d => exact p.enumSize_plainly name

theorem sizeOf_plainly (ty : FieldType) :
    p.plainly.sizeOf t.plain site.plain ty = Layout.plainly (p.sizeOf t site ty) := by
  cases ty with
  | named n =>
    apply resolve_plain_bind t n site
    intro _
    exact p.declSize_plainly t n
  | _ => rfl

theorem alignmentOf_plainly (ty : FieldType) :
    p.plainly.alignmentOf t.plain site.plain ty = Layout.plainly (p.alignmentOf t site ty) := by
  cases ty with
  | named n =>
    apply resolve_plain_bind t n site
    intro d
    cases d <;> rfl
  | _ => rfl

theorem placeField_plainly (struct : String) (shape : StructShape) (f : Field) :
    p.plainly.placeField t.plain struct shape f.plain = Layout.plainly (p.placeField t struct shape f) := by
  have halignment := p.alignmentOf_plainly t (.field struct f) f.ty
  have hsize := p.sizeOf_plainly t (.field struct f) f.ty
  have hpadding (alignment : Int) : (padding shape.size alignment).mapError Failure.plain =
      padding shape.size alignment := by
    unfold padding
    split <;> rfl
  simp only [placeField, plainly_bind, plainly_pure, plainly_lift, ← halignment, ← hsize, hpadding]
  rfl

theorem shapeOf_plainly (d : StructDecl) :
    p.plainly.shapeOf t.plain d.plain = Layout.plainly (p.shapeOf t d) :=
  foldlM_plain (p.placeField_plainly t d.name) d.fields _

theorem alignField_plainly (struct : String) (alignment : Int) (f : Field) :
    p.plainly.alignField t.plain struct alignment f.plain =
      Layout.plainly (p.alignField t struct alignment f) := by
  have halignment := p.alignmentOf_plainly t (.field struct f) f.ty
  simp only [alignField, plainly_bind, plainly_pure, ← halignment]
  rfl

theorem structAlignmentOf_plainly (d : StructDecl) :
    p.plainly.structAlignmentOf t.plain d.plain = Layout.plainly (p.structAlignmentOf t d) :=
  foldlM_plain (p.alignField_plainly t d.name) d.fields _

theorem coverVariant_plainly (enum : String) (extent : Int) (v : Variant) :
    p.plainly.coverVariant t.plain enum extent v.plain =
      Layout.plainly (p.coverVariant t enum extent v) := by
  have hsize := p.sizeOf_plainly t (.variant enum v)
  simp only [coverVariant, variantEnd, appendPayload, plainly_bind, plainly_pure, plainly_foldlM, ← hsize]
  rfl

theorem extentOf_plainly (d : EnumDecl) :
    p.plainly.extentOf t.plain d.plain = Layout.plainly (p.extentOf t d) :=
  foldlM_plain (p.coverVariant_plainly t d.name) d.variants _

theorem layoutOf_plainly : p.plainly.layoutOf t.plain name = Layout.plainly (p.layoutOf t name) := by
  apply resolve_plain_bind t name .query
  intro d
  cases d with
  | struct d =>
    change p.plainly.structLayout t.plain name = Layout.plainly (p.structLayout t name)
    simp only [structLayout, plainly_bind, plainly_pure, structSize_plainly, structOffsets_plainly]
    rfl
  | enum d =>
    change p.plainly.enumLayout d.plain name = Layout.plainly (p.enumLayout d name)
    have hvariants : d.plain.variants.map Variant.name = d.variants.map Variant.name := by
      simp [EnumDecl.plain, Variant.plain, Function.comp_def]
    simp only [enumLayout, plainly_bind, plainly_pure, enumSize_plainly, bodyWords_plainly, hvariants]

end Parts

end Rules

/-! ## Sessions -/

theorem plainly_enter (d : Decl) : plainly (enter d) = enter d.plain := by
  funext s
  change ask (plainly (enter d)) s = ask (enter d.plain) s
  rw [ask_plainly]
  by_cases hmarked : d.name ∈ s.inProgress
  · rw [ask_enter_marked hmarked, ask_enter_marked (by rwa [d.name_plain])]
    cases d <;> rfl
  · rw [ask_enter_unmarked hmarked, ask_enter_unmarked (by rwa [d.name_plain]), d.name_plain]
    rfl

/-- A part that is computed once is plainly computed once. -/
theorem plainly_once {memory : Memory α} {name : String} {found : Except Failure δ} {decl : δ → Decl}
    {compute compute' : δ → Query α} {plain : δ → δ} (hdecl : ∀ d, decl (plain d) = (decl d).plain)
    (hcompute : ∀ d, compute' (plain d) = plainly (compute d)) :
    memory.once name ((found.map plain).mapError Failure.plain) decl compute' =
      plainly (memory.once name found decl compute) := by
  funext s
  change ask (memory.once _ _ _ _) s = ask (plainly (memory.once _ _ _ _)) s
  rw [ask_plainly]
  cases hknown : memory.known s name with
  | some a => rw [ask_once_some hknown, ask_once_some hknown]; rfl
  | none =>
    rw [ask_once_none hknown, ask_once_none hknown, ← ask_plainly]
    cases found with
    | error e => rfl
    | ok d =>
      have hleave : plainly (leave name) = leave name := rfl
      have hrecord (a : α) : plainly (modify (memory.record · name a)) = modify (memory.record · name a) := rfl
      simp only [plainly_bind, plainly_lift, plainly_enter, plainly_pure, hleave, hrecord, ← hcompute, ← hdecl]
      rfl

theorem parts_plain (t : TypeTable) (depth : Nat) : parts t.plain depth = (parts t depth).plainly := by
  induction depth with
  | zero => rfl
  | succ depth ih =>
    simp only [parts, Parts.plainly, ih, resolveStruct_plain, resolveEnum_plain]
    congr 1
    · funext name
      exact plainly_once (fun _ => rfl) ((parts t depth).shapeOf_plainly t)
    · funext name
      exact plainly_once (fun _ => rfl) ((parts t depth).structAlignmentOf_plainly t)
    · funext name
      exact plainly_once (fun _ => rfl) ((parts t depth).extentOf_plainly t)

/-- Without places, the layout of a name is the same but for the places of failures. -/
theorem layoutOf_plain (t : TypeTable) (name : String) : layoutOf t.plain name = plainly (layoutOf t name) := by
  have hlength : t.plain.decls.length = t.decls.length := List.length_map _
  unfold layoutOf deep
  rw [hlength, parts_plain, Parts.layoutOf_plainly]

theorem layouts_plain (t : TypeTable) : layouts t.plain = plainly (layouts t) := by
  have horder : t.plain.order = t.order := by simp [TypeTable.order, TypeTable.plain, Function.comp_def]
  unfold layouts
  rw [horder, plainly_mapM, funext (layoutOf_plain t)]

/-- Schemas that differ in places only have the same layouts. -/
theorem layouts_of_plain {s s' : Schema} {t' : TypeTable} {answer : List TypeLayout}
    (hplain : s.plain = s'.plain) (htable : TypeTable.ofSchema s' = .ok t')
    (hlayouts : (ask (layouts t') {}).1 = .ok answer) :
    ∃ t, TypeTable.ofSchema s = .ok t ∧ (ask (layouts t) {}).1 = .ok answer := by
  have hplain' : TypeTable.ofSchema s.plain = .ok t'.plain := hplain ▸ TypeTable.ofSchema_plain htable
  obtain ⟨t, ht⟩ := (TypeTable.succeeds_ofSchema_plain_iff s).mp ⟨_, hplain'⟩
  have htables : t.plain = t'.plain := Except.ok.inj ((TypeTable.ofSchema_plain ht).symm.trans hplain')
  have hsame : plainly (layouts t) = plainly (layouts t') := by
    rw [← layouts_plain, ← layouts_plain, htables]
  refine ⟨t, ht, (mapError_eq_ok_iff (g := Failure.plain)).mp ?_⟩
  calc (ask (layouts t) {}).1.mapError Failure.plain = (ask (plainly (layouts t)) {}).1 := rfl
    _ = (ask (plainly (layouts t')) {}).1 := by rw [hsame]
    _ = .ok answer := mapError_eq_ok_iff.mpr hlayouts

end Layout

end PackedSchema
