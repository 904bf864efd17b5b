import PackedSchema.Proofs.Layout.Places
import Mathlib.Logic.Relation

/-!
# Layouts are local

The layout of a name depends on the declarations that the name contains at any depth, and on which of these
are tagged. Two tables that agree on them go through the same steps, whatever else they declare, in
whatever order, and whatever their references point at. If declarations agree but for the places where they
stand, as in a text that is edited elsewhere, so do the layouts but for the places of failures.
-/

namespace PackedSchema

/-! ## What a name contains -/

/-- The declaration of the first name lays out the second inside itself. The second need not be declared. -/
def Schema.Mentions (s : Schema) (a b : String) : Prop := ∃ d ∈ s.decls, d.name = a ∧ .named b ∈ d.contents

/-- The schemas have the same declaration of a name, or both have none, and both tag the name or neither. -/
structure Schema.SameAt (s₁ s₂ : Schema) (n : String) : Prop where
  decls : ∀ d : Decl, d.name = n → (d ∈ s₁.decls ↔ d ∈ s₂.decls)
  tagged : s₁.Leads n ↔ s₂.Leads n

namespace Layout

variable {t u : TypeTable} {name : String} {α δ : Type}

/-- Tables that agree on all names in a set which contains what its declarations lay out inline. -/
structure Alike (t u : TypeTable) (names : String → Prop) : Prop where
  lookup : ∀ n, names n → t.lookup n = u.lookup n
  tagged : ∀ n, names n → t.isTagged n = u.isTagged n
  closed : ∀ n d, names n → t.lookup n = some d → ∀ m ∈ d.inlineNames, names m

/-! ## Equal questions -/

/-- Questions simulate each other if they are equal. -/
def sameQuestion : Simulation Query Query where
  Rel x y := x = y
  rel_pure _ := rfl
  rel_error _ := rfl
  rel_bind := by
    rintro α β x _ f g rfl hfg
    rw [funext hfg]
  rel_lift_bind := by
    intro α β x f g hfg
    cases x with
    | ok a => exact hfg a rfl
    | error e => rfl

theorem once_congr {memory : Memory α} {found : Except Failure δ} {decl : δ → Decl}
    {compute compute' : δ → Query α} (h : ∀ d, found = .ok d → compute d = compute' d) :
    memory.once name found decl compute = memory.once name found decl compute' := by
  unfold Memory.once
  congr 1
  funext session
  cases memory.known session name with
  | some a => rfl
  | none =>
    apply sameQuestion.rel_lift_bind (x := found)
    intro d hd
    rw [h d hd]
    rfl

theorem resolveStruct_congr (h : t.lookup name = u.lookup name) :
    resolveStruct t name = resolveStruct u name := by
  rw [resolveStruct, resolveStruct, resolve_congr h]

theorem resolveEnum_congr (h : t.lookup name = u.lookup name) :
    resolveEnum t name = resolveEnum u name := by
  rw [resolveEnum, resolveEnum, resolve_congr h]

/-! ## Equal parts -/

/-- The parts of a name ask the same in both tables, if what the name contains does. -/
theorem parts_succ_agree {names : String → Prop} (h : Alike t u names) (hname : names name)
    {depth depth' : Nat}
    (hbelow : ∀ d, t.lookup name = some d → ∀ n ∈ d.inlineNames,
      Agree sameQuestion t u (parts t depth) (parts u depth') n) :
    Agree sameQuestion t u (parts t (depth + 1)) (parts u (depth' + 1)) name := by
  have hlookup := h.lookup name hname
  -- The declaration has the name that it was found by, so the tables agree on its tag.
  have htag (d : StructDecl) (hd : t.lookup name = some (.struct d)) :
      t.isTagged d.name = u.isTagged d.name := by
    have hself : d.name = name := (TypeTable.mem_of_lookup hd).2
    rw [hself]
    exact h.tagged name hname
  refine ⟨hlookup, fun _ => ?_, fun _ => ?_, fun _ => ?_⟩
  · simp only [parts, ← resolveStruct_congr hlookup]
    apply once_congr
    intro d hd
    have hd := resolveStruct_eq_ok_iff.mp hd
    exact sameQuestion.rel_shapeOf (htag d hd) (hbelow _ hd)
  · simp only [parts, ← resolveStruct_congr hlookup]
    apply once_congr
    intro d hd
    have hd := resolveStruct_eq_ok_iff.mp hd
    exact sameQuestion.rel_structAlignmentOf (htag d hd) (hbelow _ hd)
  · simp only [parts, ← resolveEnum_congr hlookup]
    apply once_congr
    intro d hd
    exact sameQuestion.rel_extentOf (hbelow _ (resolveEnum_eq_ok_iff.mp hd))

/-- Beyond the ranks of a name, the parts do not depend on the depth that either table is followed to. -/
theorem parts_agree {names : String → Prop} (h : Alike t u names) (ht : t.WellFormed) (hu : u.WellFormed)
    (hname : names name) (depth depth' : Nat) (hdepth : t.rank name < depth)
    (hdepth' : u.rank name < depth') :
    Agree sameQuestion t u (parts t depth) (parts u depth') name := by
  induction depth generalizing name depth' with
  | zero => omega
  | succ depth ih =>
    cases depth' with
    | zero => omega
    | succ depth' =>
      apply parts_succ_agree h hname
      intro d hd n hn
      have hn' := h.closed name d hname hd n hn
      have hd' : u.lookup name = some d := h.lookup name hname ▸ hd
      cases hsome : t.lookup n with
      | none =>
        -- A name without a declaration has no parts, only a failure to look it up.
        exact ⟨h.lookup n hn', by simp [hsome], by simp [hsome], by simp [hsome]⟩
      | some d' =>
        have hsome' : u.lookup n = some d' := h.lookup n hn' ▸ hsome
        have hrank : t.rank n < t.rank name := ht.rank_lt_of_lookup hd hn (by rw [hsome]; rfl)
        have hrank' : u.rank n < u.rank name := hu.rank_lt_of_lookup hd' hn (by rw [hsome']; rfl)
        exact ih hn' depth' (by omega) (by omega)

/-- The layout of a name is the same question to both tables. -/
theorem layoutOf_congr {names : String → Prop} (h : Alike t u names) (ht : t.WellFormed)
    (hu : u.WellFormed) (hname : names name) : layoutOf t name = layoutOf u name := by
  have hrank := t.rank_le_length name
  have hrank' := u.rank_le_length name
  exact sameQuestion.rel_layoutOf (h.tagged name hname)
    (parts_agree h ht hu hname _ _ (by omega) (by omega))

/-! ## Schemas -/

variable {s₁ s₂ : Schema} {t₁ t₂ : TypeTable}

theorem lookup_eq_of_sameAt (h₁ : TypeTable.ofSchema s₁ = .ok t₁) (h₂ : TypeTable.ofSchema s₂ = .ok t₂)
    {n : String} (h : s₁.SameAt s₂ n) : t₁.lookup n = t₂.lookup n := by
  obtain ⟨rfl, hw₁⟩ := TypeTable.ofSchema_eq_ok h₁
  obtain ⟨rfl, hw₂⟩ := TypeTable.ofSchema_eq_ok h₂
  apply Option.ext
  intro d
  constructor
  · intro hd
    obtain ⟨hmem, hname⟩ := TypeTable.mem_of_lookup hd
    rw [← hname]
    exact hw₂.lookup_name ((h.decls d hname).mp hmem)
  · intro hd
    obtain ⟨hmem, hname⟩ := TypeTable.mem_of_lookup hd
    rw [← hname]
    exact hw₁.lookup_name ((h.decls d hname).mpr hmem)

theorem isTagged_eq_of_sameAt (h₁ : TypeTable.ofSchema s₁ = .ok t₁)
    (h₂ : TypeTable.ofSchema s₂ = .ok t₂) {n : String} (h : s₁.SameAt s₂ n) :
    t₁.isTagged n = t₂.isTagged n := by
  obtain ⟨rfl, -⟩ := TypeTable.ofSchema_eq_ok h₁
  obtain ⟨rfl, -⟩ := TypeTable.ofSchema_eq_ok h₂
  rw [Bool.eq_iff_iff]
  simp only [TypeTable.isTagged, List.contains_iff_mem, TypeTable.mem_taggedNames]
  exact h.tagged

/-- Tables of schemas that agree on all that a name contains are alike there. -/
theorem alike_of_sameAt (h₁ : TypeTable.ofSchema s₁ = .ok t₁) (h₂ : TypeTable.ofSchema s₂ = .ok t₂)
    {n : String} (hsame : ∀ m, Relation.ReflTransGen s₁.Mentions n m → s₁.SameAt s₂ m) :
    Alike t₁ t₂ (Relation.ReflTransGen s₁.Mentions n) where
  lookup m hm := lookup_eq_of_sameAt h₁ h₂ (hsame m hm)
  tagged m hm := isTagged_eq_of_sameAt h₁ h₂ (hsame m hm)
  closed m d hm hd k hk := by
    obtain ⟨rfl, -⟩ := TypeTable.ofSchema_eq_ok h₁
    obtain ⟨hmem, hname⟩ := TypeTable.mem_of_lookup hd
    exact hm.tail ⟨d, hmem, hname, TypeTable.mem_inlineNames.mp hk⟩

theorem sameAt_of_perm (h : s₁.decls.Perm s₂.decls) (n : String) : s₁.SameAt s₂ n := by
  have henums (d : EnumDecl) : d ∈ s₁.enums ↔ d ∈ s₂.enums := by
    simp only [Schema.enums, List.mem_filterMap, h.mem_iff]
  refine ⟨fun d _ => h.mem_iff, ?_⟩
  simp only [Schema.Leads, henums]

theorem layoutOf_eq_of_sameAt (h₁ : TypeTable.ofSchema s₁ = .ok t₁) (h₂ : TypeTable.ofSchema s₂ = .ok t₂)
    {n : String} (hsame : ∀ m, Relation.ReflTransGen s₁.Mentions n m → s₁.SameAt s₂ m) :
    layoutOf t₁ n = layoutOf t₂ n := by
  obtain ⟨-, hw₁⟩ := TypeTable.ofSchema_eq_ok h₁
  obtain ⟨-, hw₂⟩ := TypeTable.ofSchema_eq_ok h₂
  exact layoutOf_congr (alike_of_sameAt h₁ h₂ hsame) hw₁ hw₂ .refl

theorem mentions_plain (s : Schema) : s.plain.Mentions = s.Mentions := by
  funext a b
  simp [Schema.Mentions, Schema.plain]

/-- Two schemas with tables, which agree on a name and on all that it contains at any depth, lay the name
out in the same way: every session gives the same answer or the same failure in both tables. References do
not count as contents, and nothing else in the schemas matters; in particular the order of declarations
does not. Where the declarations agree but for their places, failures agree but for theirs. -/
theorem layoutOf_local (h₁ : TypeTable.ofSchema s₁ = .ok t₁) (h₂ : TypeTable.ofSchema s₂ = .ok t₂) :
    (∀ n, (∀ m, Relation.ReflTransGen s₁.Mentions n m → s₁.SameAt s₂ m) →
      ∀ session, ask (layoutOf t₁ n) session = ask (layoutOf t₂ n) session) ∧
    (s₁.decls.Perm s₂.decls →
      ∀ n session, ask (layoutOf t₁ n) session = ask (layoutOf t₂ n) session) ∧
    (∀ n, (∀ m, Relation.ReflTransGen s₁.Mentions n m → s₁.plain.SameAt s₂.plain m) →
      ∀ session, ask (plainly (layoutOf t₁ n)) session = ask (plainly (layoutOf t₂ n)) session) := by
  refine ⟨fun n hsame session => ?_, fun hperm n session => ?_, fun n hsame session => ?_⟩
  · rw [layoutOf_eq_of_sameAt h₁ h₂ hsame]
  · rw [layoutOf_eq_of_sameAt h₁ h₂ fun m _ => sameAt_of_perm hperm m]
  · rw [← mentions_plain] at hsame
    have hplain := layoutOf_eq_of_sameAt (TypeTable.ofSchema_plain h₁) (TypeTable.ofSchema_plain h₂) hsame
    rw [← layoutOf_plain, ← layoutOf_plain, hplain]

/-- A line of two tagged points, with a colour behind a reference. -/
def lineSchema : Schema where
  decls :=
    [.struct { name := "Point", fields :=
        [{ name := "at", ty := .vector .f32 2 }, { name := "next", ty := .ref (.named "Colour") }] },
      .struct { name := "Line", fields :=
        [{ name := "start", ty := .named "Point" }, { name := "stop", ty := .named "Point" }] },
      .struct { name := "Colour", fields := [{ name := "rgb", ty := .vector .f32 3 }] },
      .enum { name := "Shape", variants := [{ name := "Dot", payload := [.named "Point"] }] }]

/-- The same line, declared last. The colour is gone and the shape has one more variant. -/
def redrawnSchema : Schema where
  decls :=
    [.enum { name := "Shape", variants :=
        [{ name := "None", payload := [] }, { name := "Dot", payload := [.named "Point"] }] },
      .struct { name := "Point", fields :=
        [{ name := "at", ty := .vector .f32 2 }, { name := "next", ty := .ref (.named "Colour") }] },
      .struct { name := "Line", fields :=
        [{ name := "start", ty := .named "Point" }, { name := "stop", ty := .named "Point" }] }]

/-- The redrawn line with the places of its fields in a text. -/
def placedSchema : Schema where
  decls :=
    [.enum { name := "Shape", variants :=
        [{ name := "None", payload := [] }, { name := "Dot", payload := [.named "Point"] }] },
      .struct { name := "Point", fields :=
        [{ name := "at", ty := .vector .f32 2, loc := some ⟨3, 3, 3, 15⟩ },
          { name := "next", ty := .ref (.named "Colour"), loc := some ⟨4, 3, 4, 20⟩ }] },
      .struct { name := "Line", fields :=
        [{ name := "start", ty := .named "Point", loc := some ⟨7, 3, 7, 15⟩ },
          { name := "stop", ty := .named "Point", loc := some ⟨8, 3, 8, 14⟩ }] }]

theorem contents_lineSchema {m : String} (h : Relation.ReflTransGen lineSchema.Mentions "Line" m) :
    m = "Line" ∨ m = "Point" := by
  induction h with
  | refl => exact .inl rfl
  | tail _ hstep ih =>
    obtain ⟨d, hd, hname, hcontents⟩ := hstep
    simp only [lineSchema, List.mem_cons, List.not_mem_nil, or_false] at hd
    rcases hd with rfl | rfl | rfl | rfl
    · simp [Decl.contents] at hcontents
    · simp only [Decl.contents, List.map_cons, List.map_nil, List.mem_cons, FieldType.named.injEq,
        List.not_mem_nil, or_false, or_self] at hcontents
      exact .inr hcontents
    · simp [Decl.contents] at hcontents
    · rcases ih with rfl | rfl <;> exact absurd hname (by decide)

theorem sameAt_redrawnSchema {m : String} (h : m = "Line" ∨ m = "Point") :
    lineSchema.SameAt redrawnSchema m := by
  constructor
  · rintro d rfl
    constructor
    all_goals
      intro hd
      simp only [lineSchema, redrawnSchema, List.mem_cons, List.not_mem_nil, or_false] at hd ⊢
      rcases hd with rfl | rfl | rfl | rfl <;> simp_all [Decl.name]
  · unfold Schema.Leads
    rcases h with rfl | rfl <;> decide

theorem layoutOf_local_redrawn :
    ∃ t₁ t₂ t₃, TypeTable.ofSchema lineSchema = .ok t₁ ∧ TypeTable.ofSchema redrawnSchema = .ok t₂ ∧
      TypeTable.ofSchema placedSchema = .ok t₃ ∧ t₁.order ≠ t₂.order ∧
      (∀ session, ask (layoutOf t₁ "Line") session = ask (layoutOf t₂ "Line") session) ∧
      (∀ session, ask (plainly (layoutOf t₁ "Line")) session = ask (plainly (layoutOf t₃ "Line")) session) ∧
      (ask (layoutOf t₁ "Line") {}).1.map TypeLayout.size = .ok 44 := by
  have hsame (m : String) (hm : Relation.ReflTransGen lineSchema.Mentions "Line" m) :
      lineSchema.SameAt redrawnSchema m := sameAt_redrawnSchema (contents_lineSchema hm)
  have h₁ : TypeTable.ofSchema lineSchema = .ok _ := rfl
  have h₂ : TypeTable.ofSchema redrawnSchema = .ok _ := rfl
  have h₃ : TypeTable.ofSchema placedSchema = .ok _ := rfl
  exact ⟨_, _, _, h₁, h₂, h₃, by decide, (layoutOf_local h₁ h₂).1 "Line" hsame,
    (layoutOf_local h₁ h₃).2.2 "Line" hsame, rfl⟩

end Layout

end PackedSchema
