import PackedSchema.Layout.Rules

/-!
# Simulations of layout rules

The layout rules are written for every kind of computation. Two computations of different kinds, over two
tables, therefore go through the same steps, as far as the tables agree on the names that the rules ask
for. A simulation is a relation between two kinds of computations that single steps respect; the rules
respect it too.
-/

namespace PackedSchema.Layout

/-- A relation between computations that can fail, respected by single steps. -/
structure Simulation (M N : Type → Type) [Monad M] [Monad N] [MonadLiftT (Except Failure) M]
    [MonadLiftT (Except Failure) N] where
  Rel : ∀ {α : Type}, M α → N α → Prop
  rel_pure : ∀ {α : Type} (a : α), Rel (pure a) (pure a)
  rel_error : ∀ {α : Type} (e : Failure),
    Rel (liftM (Except.error e : Except Failure α)) (liftM (Except.error e : Except Failure α))
  rel_bind : ∀ {α β : Type} {x : M α} {y : N α} {f : α → M β} {g : α → N β},
    Rel x y → (∀ a, Rel (f a) (g a)) → Rel (x >>= f) (y >>= g)
  rel_lift_bind : ∀ {α β : Type} {x : Except Failure α} {f : α → M β} {g : α → N β},
    (∀ a, x = .ok a → Rel (f a) (g a)) → Rel (liftM x >>= f) (liftM x >>= g)

variable {M N : Type → Type} [Monad M] [Monad N] [MonadLiftT (Except Failure) M]
  [MonadLiftT (Except Failure) N]

/-- The tables and the parts agree on a name. -/
structure Agree (S : Simulation M N) (t u : TypeTable) (p : Parts M) (q : Parts N) (name : String) :
    Prop where
  lookup : t.lookup name = u.lookup name
  shape : (t.lookup name).isSome → S.Rel (p.shape name) (q.shape name)
  alignment : (t.lookup name).isSome → S.Rel (p.alignment name) (q.alignment name)
  extent : (t.lookup name).isSome → S.Rel (p.extent name) (q.extent name)

theorem isSome_of_resolve {t : TypeTable} {name : String} {site : Site} {d : Decl}
    (h : resolve t name site = .ok d) : (t.lookup name).isSome := by
  unfold resolve at h
  cases hlook : t.lookup name with
  | none => simp [hlook] at h
  | some d => rfl

theorem resolve_congr {t u : TypeTable} {name : String} (h : t.lookup name = u.lookup name)
    (site : Site) : resolve t name site = resolve u name site := by
  simp only [resolve, h]

theorem mem_inlineNames_of_field {d : StructDecl} {f : Field} {n : String} (hf : f ∈ d.fields)
    (hn : f.ty = .named n) : n ∈ (Decl.struct d).inlineNames := by
  refine List.mem_filterMap.mpr ⟨f.ty, List.mem_map_of_mem hf, ?_⟩
  rw [hn, FieldType.inlineName?]

theorem mem_inlineNames_of_payload {d : EnumDecl} {v : Variant} {ty : FieldType} {n : String}
    (hv : v ∈ d.variants) (hty : ty ∈ v.payload) (hn : ty = .named n) :
    n ∈ (Decl.enum d).inlineNames := by
  refine List.mem_filterMap.mpr ⟨ty, List.mem_flatMap.mpr ⟨v, hv, hty⟩, ?_⟩
  rw [hn, FieldType.inlineName?]

namespace Simulation

variable (S : Simulation M N) {t u : TypeTable} {p : Parts M} {q : Parts N}

theorem rel_foldlM {α β : Type} {f : β → α → M β} {g : β → α → N β} {items : List α}
    (h : ∀ a ∈ items, ∀ b, S.Rel (f b a) (g b a)) (b : β) :
    S.Rel (items.foldlM f b) (items.foldlM g b) := by
  induction items generalizing b with
  | nil => exact S.rel_pure b
  | cons a rest ih =>
    rw [List.foldlM_cons, List.foldlM_cons]
    apply S.rel_bind (h a List.mem_cons_self b)
    intro b'
    exact ih (fun a' ha' => h a' (List.mem_cons_of_mem a ha')) b'

theorem rel_mapM [LawfulMonad M] [LawfulMonad N] {α β : Type} {f : α → M β} {g : α → N β}
    (h : ∀ a, S.Rel (f a) (g a)) (items : List α) : S.Rel (items.mapM f) (items.mapM g) := by
  induction items with
  | nil => exact S.rel_pure []
  | cons a rest ih =>
    rw [List.mapM_cons, List.mapM_cons]
    apply S.rel_bind (h a)
    intro b
    apply S.rel_bind ih
    intro bs
    exact S.rel_pure (b :: bs)

/-! ## Types -/

theorem rel_structOffsets {name : String} (h : S.Rel (p.shape name) (q.shape name)) :
    S.Rel (p.structOffsets name) (q.structOffsets name) :=
  S.rel_bind h fun _ => S.rel_pure _

theorem rel_structSize {name : String} (h : S.Rel (p.shape name) (q.shape name)) :
    S.Rel (p.structSize name) (q.structSize name) :=
  S.rel_bind h fun _ => S.rel_pure _

theorem rel_bodyWords {name : String} (h : S.Rel (p.extent name) (q.extent name)) :
    S.Rel (p.bodyWords name) (q.bodyWords name) :=
  S.rel_bind h fun _ => S.rel_pure _

theorem rel_enumSize {name : String} (h : S.Rel (p.extent name) (q.extent name)) :
    S.Rel (p.enumSize name) (q.enumSize name) :=
  S.rel_bind (S.rel_bodyWords h) fun _ => S.rel_pure _

theorem rel_declSize {name : String} (h : Agree S t u p q name) :
    S.Rel (p.declSize t name) (q.declSize u name) := by
  unfold Parts.declSize
  rw [resolve_congr h.lookup]
  apply S.rel_lift_bind
  intro d hd
  have hsome : (t.lookup name).isSome := h.lookup ▸ isSome_of_resolve hd
  cases d with
  | struct d => exact S.rel_structSize (h.shape hsome)
  | enum d => exact S.rel_enumSize (h.extent hsome)

theorem rel_sizeOf {ty : FieldType} (h : ∀ n, ty = .named n → Agree S t u p q n) (site : Site) :
    S.Rel (p.sizeOf t site ty) (q.sizeOf u site ty) := by
  cases ty with
  | scalar k => exact S.rel_pure _
  | vector k n => exact S.rel_pure _
  | ref inner => exact S.rel_pure _
  | missing => exact S.rel_error _
  | named n =>
    simp only [Parts.sizeOf]
    rw [resolve_congr (h n rfl).lookup]
    apply S.rel_lift_bind
    intro _ _
    exact S.rel_declSize (h n rfl)

theorem rel_alignmentOf {ty : FieldType} (h : ∀ n, ty = .named n → Agree S t u p q n)
    (site : Site) : S.Rel (p.alignmentOf t site ty) (q.alignmentOf u site ty) := by
  cases ty with
  | scalar k => exact S.rel_pure _
  | vector k n => exact S.rel_pure _
  | ref inner => exact S.rel_pure _
  | missing => exact S.rel_error _
  | named n =>
    simp only [Parts.alignmentOf]
    rw [resolve_congr (h n rfl).lookup]
    apply S.rel_lift_bind
    intro d hd
    have hsome : (t.lookup n).isSome := (h n rfl).lookup ▸ isSome_of_resolve hd
    cases d with
    | struct d => exact (h n rfl).alignment hsome
    | enum d => exact S.rel_error _

/-! ## Declarations -/

theorem rel_placeField {f : Field} (h : ∀ n, f.ty = .named n → Agree S t u p q n) (struct : String)
    (shape : StructShape) : S.Rel (p.placeField t struct shape f) (q.placeField u struct shape f) := by
  unfold Parts.placeField
  apply S.rel_bind (S.rel_alignmentOf h _)
  intro alignment
  apply S.rel_bind (S.rel_sizeOf h _)
  intro size
  apply S.rel_lift_bind
  intro _ _
  exact S.rel_pure _

theorem rel_shapeOf {d : StructDecl} (htag : t.isTagged d.name = u.isTagged d.name)
    (h : ∀ n ∈ (Decl.struct d).inlineNames, Agree S t u p q n) :
    S.Rel (p.shapeOf t d) (q.shapeOf u d) := by
  unfold Parts.shapeOf startShape
  rw [htag]
  apply S.rel_foldlM
  intro f hf shape
  exact S.rel_placeField (fun n hn => h n (mem_inlineNames_of_field hf hn)) d.name shape

theorem rel_structAlignmentOf {d : StructDecl} (htag : t.isTagged d.name = u.isTagged d.name)
    (h : ∀ n ∈ (Decl.struct d).inlineNames, Agree S t u p q n) :
    S.Rel (p.structAlignmentOf t d) (q.structAlignmentOf u d) := by
  unfold Parts.structAlignmentOf
  rw [htag]
  apply S.rel_foldlM
  intro f hf alignment
  apply S.rel_bind (S.rel_alignmentOf (fun n hn => h n (mem_inlineNames_of_field hf hn)) _)
  intro _
  exact S.rel_pure _

theorem rel_extentOf {d : EnumDecl} (h : ∀ n ∈ (Decl.enum d).inlineNames, Agree S t u p q n) :
    S.Rel (p.extentOf t d) (q.extentOf u d) := by
  apply S.rel_foldlM
  intro v hv extent
  refine S.rel_bind ?_ fun _ => S.rel_pure _
  apply S.rel_foldlM
  intro ty hty offset
  refine S.rel_bind ?_ fun _ => S.rel_pure _
  exact S.rel_sizeOf (fun n hn => h n (mem_inlineNames_of_payload hv hty hn)) _

/-- The layouts of a name agree. -/
theorem rel_layoutOf {name : String} (htag : t.isTagged name = u.isTagged name)
    (h : Agree S t u p q name) : S.Rel (p.layoutOf t name) (q.layoutOf u name) := by
  unfold Parts.layoutOf
  rw [resolve_congr h.lookup]
  apply S.rel_lift_bind
  intro d hd
  have hsome : (t.lookup name).isSome := h.lookup ▸ isSome_of_resolve hd
  cases d with
  | struct d =>
    simp only [Parts.structLayout, htag]
    apply S.rel_bind (S.rel_structSize (h.shape hsome))
    intro _
    apply S.rel_bind (h.alignment hsome)
    intro _
    apply S.rel_bind (S.rel_structOffsets (h.shape hsome))
    intro _
    exact S.rel_pure _
  | enum d =>
    apply S.rel_bind (S.rel_enumSize (h.extent hsome))
    intro _
    apply S.rel_bind (S.rel_bodyWords (h.extent hsome))
    intro _
    exact S.rel_pure _

end Simulation

end PackedSchema.Layout
