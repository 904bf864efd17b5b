import PackedSchema.Proofs.Layout.Placement
import PackedSchema.Proofs.Layout.Session

/-!
# Answers are direct answers

What a session answers is what is computed without one, in every table that is well-formed. Failures are
another matter: they agree only where vectors have elements. Layouts that are given are those of the
declarations of the table, so they have the names and types that were declared.
-/

namespace PackedSchema.Layout

variable {α β : Type} {t : TypeTable} {name : String}

/-! ## Sound answers -/

/-- Any answer in a sound session is the given one, and the session stays sound. -/
def Answers (t : TypeTable) (q : Query α) (o : Except Failure α) : Prop :=
  ∀ s s' a, s.Sound t → ask q s = (.ok a, s') → o = .ok a ∧ s'.Sound t

theorem Answers.bind {q : Query α} {o : Except Failure α} {f : α → Query β} {g : α → Except Failure β}
    (hq : Answers t q o) (hf : ∀ a, o = .ok a → Answers t (f a) (g a)) : Answers t (q >>= f) (o >>= g) := by
  intro s s'' b hs hask
  obtain ⟨x, s', hfirst⟩ : ∃ x s', ask q s = (x, s') := ⟨_, _, rfl⟩
  cases x with
  | error e =>
    rw [ask_bind_error hfirst] at hask
    cases hask
  | ok a =>
    rw [ask_bind_ok hfirst] at hask
    obtain ⟨rfl, hs'⟩ := hq s s' a hs hfirst
    exact hf a rfl s' s'' b hs' hask

/-- Questions whose answers are direct, as a simulation. -/
def answering (t : TypeTable) : Simulation Query (Except Failure) where
  Rel q o := Answers t q o
  rel_pure := by
    rintro α a s s' b hs hask
    cases hask
    exact ⟨rfl, hs⟩
  rel_error := by
    rintro α e s s' b hs hask
    cases hask
  rel_bind hq hf := Answers.bind hq fun a _ => hf a
  rel_lift_bind := by
    intro α β x f g hfg
    cases x with
    | ok a => exact hfg a rfl
    | error e =>
      rintro s s' b hs hask
      cases hask

/-! ## Parts -/

/-- The marks of a session do not matter to its answers. -/
theorem answers_enter (t : TypeTable) (d : Decl) : Answers t (enter d) (.ok ()) := by
  intro s s' a hs hask
  by_cases hmarked : d.name ∈ s.inProgress
  · rw [ask_enter_marked hmarked] at hask
    cases hask
  · rw [ask_enter_unmarked hmarked] at hask
    cases hask
    exact ⟨rfl, hs.mark _⟩

theorem answers_leave (t : TypeTable) (name : String) : Answers t (leave name) (.ok ()) := by
  intro s s' a hs hask
  cases hask
  exact ⟨rfl, hs.mark _⟩

theorem once_answers {δ : Type} {memory : Memory α} {part : String → Except Failure α}
    {found : Except Failure δ} {decl : δ → Decl} {compute : δ → Query α} {exact : δ → Except Failure α}
    (hmemory : memory.Holds t part) (hpart : part name = found >>= exact)
    (hcompute : ∀ d, found = .ok d → Answers t (compute d) (exact d)) :
    Answers t (memory.once name found decl compute) (part name) := by
  intro s s' a hs hask
  cases hknown : memory.known s name with
  | some b =>
    rw [ask_once_some hknown] at hask
    cases hask
    exact ⟨hmemory.known s name _ hs hknown, hs⟩
  | none =>
    rw [ask_once_none hknown] at hask
    cases hfound : found with
    | error e =>
      rw [hfound] at hask
      cases hask
    | ok d =>
      rw [hfound] at hask
      have hexact : part name = exact d := by
        rw [hpart, hfound]
        rfl
      -- What is recorded at the end is the answer of the computation, which is the direct part.
      have hrecord (b : α) (hb : part name = .ok b) :
          Answers t (modify (memory.record · name b) >>= fun _ => (pure b : Query α)) (.ok b) := by
        intro s s' c hs hask
        cases hask
        exact ⟨rfl, hmemory.record s name b hs hb⟩
      have hmarked : Answers t (compute d >>= fun b => leave name >>= fun _ =>
          modify (memory.record · name b) >>= fun _ => pure b) (exact d >>= .ok) :=
        (hcompute d hfound).bind fun b hb =>
          (answers_leave t name).bind fun _ _ => hrecord b (hexact.trans hb)
      have hself : (exact d >>= .ok) = exact d := by cases exact d <;> rfl
      rw [hexact, ← hself]
      exact (answers_enter t (decl d)).bind (fun _ _ => hmarked) s s' a hs hask

/-- The parts that a session computes answer with the direct parts, to whatever depth they go. -/
theorem parts_answer (hw : t.WellFormed) (depth : Nat) (name : String) :
    Agree (answering t) t t (parts t depth) (direct t) name := by
  induction depth generalizing name with
  | zero =>
    -- At the bottom there are no answers.
    refine ⟨rfl, fun _ => ?_, fun _ => ?_, fun _ => ?_⟩ <;>
    · intro s s' a hs hask
      cases hask
  | succ depth ih =>
    refine ⟨rfl, fun _ => ?_, fun _ => ?_, fun _ => ?_⟩
    · apply once_answers (holds_shapes t) (direct_shape hw name)
      intro d _
      exact (answering t).rel_shapeOf rfl fun n _ => ih n
    · apply once_answers (holds_alignments t) (direct_alignment hw name)
      intro d _
      exact (answering t).rel_structAlignmentOf rfl fun n _ => ih n
    · apply once_answers (holds_extents t) (direct_extent hw name)
      intro d _
      exact (answering t).rel_extentOf fun n _ => ih n

/-- Layouts that an empty session gives are the direct ones. -/
theorem layouts_direct (hw : t.WellFormed) {answer : List TypeLayout}
    (h : (ask (layouts t) {}).1 = .ok answer) : t.order.mapM ((direct t).layoutOf t) = .ok answer := by
  have hanswers : Answers t (layouts t) (t.order.mapM ((direct t).layoutOf t)) :=
    (answering t).rel_mapM (fun name => (answering t).rel_layoutOf rfl (parts_answer hw _ name)) t.order
  exact (hanswers {} _ answer (ready_empty t 0).1 (Prod.ext h rfl)).1

/-! ## Layouts of declarations -/

/-- The layout has the name that is declared, with the fields or the variants of the declaration. -/
inductive LaysOut : Decl → TypeLayout → Prop
  | struct {d : StructDecl} {size alignment : Int} {tagged : Bool} {fields : List FieldLayout}
      (hfields : fields.map (fun f => (f.name, f.ty)) = d.fields.map fun f => (f.name, f.ty)) :
      LaysOut (.struct d) (.struct d.name size alignment tagged fields)
  | enum {d : EnumDecl} {size words : Int} {variants : List (String × Nat)}
      (hvariants : variants.map Prod.fst = d.variants.map Variant.name) :
      LaysOut (.enum d) (.enum d.name size words variants)

theorem laysOut_layoutOf (hw : t.WellFormed) {d : Decl} (hd : d ∈ t.decls) {l : TypeLayout}
    (h : (direct t).layoutOf t d.name = .ok l) : LaysOut d l := by
  have hlook : t.lookup d.name = some d := hw.lookup_name hd
  cases d with
  | struct d =>
    rw [layoutOf_struct hlook] at h
    obtain ⟨shape, hshape, h⟩ := bind_eq_ok_iff.mp h
    obtain ⟨alignment, -, h⟩ := bind_eq_ok_iff.mp h
    cases h
    obtain ⟨d', hlook', hplaced⟩ := placed_of_shape hw hshape
    rw [hlook] at hlook'
    cases hlook'
    exact .struct hplaced.map_fields
  | enum d =>
    rw [layoutOf_enum hlook] at h
    obtain ⟨extent, -, h⟩ := bind_eq_ok_iff.mp h
    cases h
    exact .enum (List.zipIdx_map_fst _ _)

/-- The layouts that an empty session gives are those of the declarations, in order. -/
theorem laysOut_layouts (hw : t.WellFormed) {answer : List TypeLayout}
    (h : (ask (layouts t) {}).1 = .ok answer) : List.Forall₂ LaysOut t.decls answer := by
  have hdirect := layouts_direct hw h
  rw [TypeTable.order, mapM_eq_ok_iff, List.forall₂_map_left_iff] at hdirect
  exact ((List.forall₂_and_left _ _).mpr ⟨fun _ hd => hd, hdirect⟩).imp fun d l ⟨hd, hl⟩ =>
    laysOut_layoutOf hw hd hl

end PackedSchema.Layout
