import Mathlib.Data.List.Forall2

/-!
# Outcomes

Laws of computations that answer or fail. How such a computation ends is described by a property of its
answers and a property of its failures.
-/

namespace PackedSchema

variable {ε α β : Type} {P Q : α → Prop} {E F : ε → Prop}

/-- The answer has the one property, or the failure the other. -/
def Ends (answer : α → Prop) (failure : ε → Prop) : Except ε α → Prop
  | .ok a => answer a
  | .error e => failure e

namespace Ends

theorem mono {x : Except ε α} (h : Ends P E x) (hok : ∀ a, P a → Q a) (herror : ∀ e, E e → F e) :
    Ends Q F x := by
  cases x with
  | ok a => exact hok a h
  | error e => exact herror e h

theorem bind {R : β → Prop} {x : Except ε α} {f : α → Except ε β} (h : Ends P E x)
    (hf : ∀ a, P a → Ends R E (f a)) : Ends R E (x >>= f) := by
  cases x with
  | ok a => exact hf a h
  | error e => exact h

/-- A property of a state and of the items that led to it holds after a loop over all items, if every
round passes it on. -/
theorem foldlM {f : β → α → Except ε β} (P : List α → β → Prop) {items : List α} {b : β}
    (hstart : P [] b)
    (hround : ∀ done a rest b, items = done ++ a :: rest → P done b →
      Ends (P (done ++ [a])) E (f b a)) :
    Ends (P items) E (items.foldlM f b) := by
  -- The items are split into those done and those to come, and the loop goes on with the latter.
  have hloop : ∀ rest done b, items = done ++ rest → P done b →
      Ends (P items) E (rest.foldlM f b) := by
    intro rest
    induction rest with
    | nil =>
      intro done b hitems hP
      rw [List.append_nil] at hitems
      rw [hitems]
      exact hP
    | cons a rest ih =>
      intro done b hitems hP
      rw [List.foldlM_cons]
      apply (hround done a rest b hitems hP).bind
      intro b' hP'
      apply ih (done ++ [a]) b' _ hP'
      rw [hitems, List.append_assoc, List.singleton_append]
  exact hloop items [] b rfl hstart

end Ends

/-! ## Failures -/

/-- The computation fails only with failures of a property. -/
def FailsWith (failure : ε → Prop) (x : Except ε α) : Prop := ∀ e, x = .error e → failure e

namespace FailsWith

theorem ok (a : α) : FailsWith E (.ok a) := by
  intro e he
  cases he

theorem mono {x : Except ε α} (h : FailsWith E x) (herror : ∀ e, E e → F e) : FailsWith F x :=
  fun e he => herror e (h e he)

theorem bind {x : Except ε α} {f : α → Except ε β} (hx : FailsWith E x)
    (hf : ∀ a, x = .ok a → FailsWith E (f a)) : FailsWith E (x >>= f) := by
  cases x with
  | ok a => exact hf a rfl
  | error e =>
    intro e' he'
    cases he'
    exact hx e rfl

theorem map {x : Except ε α} {g : α → β} (h : FailsWith E x) : FailsWith E (x.map g) := by
  cases x with
  | ok a => exact ok (g a)
  | error e =>
    intro e' he'
    cases he'
    exact h e rfl

theorem foldlM {f : β → α → Except ε β} {items : List α} (h : ∀ a ∈ items, ∀ b, FailsWith E (f b a))
    (b : β) : FailsWith E (items.foldlM f b) := by
  induction items generalizing b with
  | nil => exact ok b
  | cons a rest ih =>
    rw [List.foldlM_cons]
    apply (h a List.mem_cons_self b).bind
    intro b' _
    exact ih (fun a' ha' => h a' (List.mem_cons_of_mem a ha')) b'

theorem mapM {f : α → Except ε β} {items : List α} (h : ∀ a ∈ items, FailsWith E (f a)) :
    FailsWith E (items.mapM f) := by
  induction items with
  | nil => exact ok []
  | cons a rest ih =>
    rw [List.mapM_cons]
    apply (h a List.mem_cons_self).bind
    intro b _
    apply (ih fun a' ha' => h a' (List.mem_cons_of_mem a ha')).bind
    intro bs _
    exact ok (b :: bs)

theorem mapError {δ : Type} {x : Except ε α} {g : ε → δ} {G : δ → Prop} (h : FailsWith E x)
    (hg : ∀ e, E e → G (g e)) : FailsWith G (x.mapError g) := by
  cases x with
  | ok a => exact ok a
  | error e =>
    intro e' he'
    cases he'
    exact hg e (h e rfl)

end FailsWith

/-! ## Answers -/

theorem bind_eq_ok_iff {x : Except ε α} {f : α → Except ε β} {b : β} :
    x >>= f = .ok b ↔ ∃ a, x = .ok a ∧ f a = .ok b := by
  cases x with
  | ok a =>
    constructor
    · intro h
      exact ⟨a, rfl, h⟩
    · rintro ⟨a', ha, h⟩
      cases ha
      exact h
  | error e =>
    constructor
    · intro h
      cases h
    · rintro ⟨a, ha, -⟩
      cases ha

/-- There is an answer. -/
def Succeeds (x : Except ε α) : Prop := ∃ a, x = .ok a

theorem succeeds_ok (a : α) : Succeeds (.ok a : Except ε α) := ⟨a, rfl⟩

theorem not_succeeds_error (e : ε) : ¬ Succeeds (.error e : Except ε α) := by
  rintro ⟨a, ha⟩
  cases ha

theorem succeeds_bind_iff {x : Except ε α} {f : α → Except ε β} :
    Succeeds (x >>= f) ↔ ∃ a, x = .ok a ∧ Succeeds (f a) := by
  constructor
  · rintro ⟨b, hb⟩
    obtain ⟨a, ha, hfa⟩ := bind_eq_ok_iff.mp hb
    exact ⟨a, ha, b, hfa⟩
  · rintro ⟨a, ha, b, hfa⟩
    exact ⟨b, bind_eq_ok_iff.mpr ⟨a, ha, hfa⟩⟩

theorem succeeds_bind_pure_iff {x : Except ε α} {g : α → β} :
    Succeeds (x >>= fun a => pure (g a)) ↔ Succeeds x := by
  rw [succeeds_bind_iff]
  constructor
  · rintro ⟨a, ha, -⟩
    exact ⟨a, ha⟩
  · rintro ⟨a, ha⟩
    exact ⟨a, ha, succeeds_ok (g a)⟩

theorem bind_pure_eq_ok_iff {x : Except ε α} {g : α → β} {b : β} :
    x >>= (fun a => pure (g a)) = .ok b ↔ ∃ a, x = .ok a ∧ b = g a := by
  rw [bind_eq_ok_iff]
  refine exists_congr fun a => and_congr_right fun _ => ?_
  exact ⟨fun h => (Except.ok.inj h).symm, fun h => congrArg Except.ok h.symm⟩

theorem map_eq_ok_iff {x : Except ε α} {g : α → β} {b : β} :
    x.map g = .ok b ↔ ∃ a, x = .ok a ∧ g a = b := by
  cases x with
  | ok a => simp [Except.map]
  | error e => simp [Except.map]

theorem mapError_eq_ok_iff {δ : Type} {x : Except ε α} {g : ε → δ} {a : α} :
    x.mapError g = .ok a ↔ x = .ok a := by
  cases x with
  | ok b => exact Iff.intro (fun h => by cases h; rfl) fun h => by cases h; rfl
  | error e => exact iff_of_false (fun h => by cases h) fun h => by cases h

theorem succeeds_mapError_iff {δ : Type} {x : Except ε α} {g : ε → δ} :
    Succeeds (x.mapError g) ↔ Succeeds x := by
  cases x with
  | ok a => exact iff_of_true (succeeds_ok a) (succeeds_ok a)
  | error e => exact iff_of_false (not_succeeds_error (g e)) (not_succeeds_error e)

/-- A loop succeeds if every round does, when it depends on the item alone whether a round does. -/
theorem succeeds_foldlM_iff {f : β → α → Except ε β} {items : List α} {P : α → Prop}
    (h : ∀ a ∈ items, ∀ b, Succeeds (f b a) ↔ P a) (b : β) :
    Succeeds (items.foldlM f b) ↔ ∀ a ∈ items, P a := by
  induction items generalizing b with
  | nil => exact ⟨fun _ => by simp, fun _ => succeeds_ok b⟩
  | cons a rest ih =>
    have hrest := ih fun a' ha' => h a' (List.mem_cons_of_mem a ha')
    rw [List.foldlM_cons, succeeds_bind_iff, List.forall_mem_cons]
    constructor
    · rintro ⟨b', hb', hloop⟩
      exact ⟨(h a List.mem_cons_self b).mp ⟨b', hb'⟩, (hrest b').mp hloop⟩
    · rintro ⟨ha, hall⟩
      obtain ⟨b', hb'⟩ := (h a List.mem_cons_self b).mpr ha
      exact ⟨b', hb', (hrest b').mpr hall⟩

theorem succeeds_mapM_iff {f : α → Except ε β} {items : List α} :
    Succeeds (items.mapM f) ↔ ∀ a ∈ items, Succeeds (f a) := by
  induction items with
  | nil => exact ⟨fun _ => by simp, fun _ => succeeds_ok []⟩
  | cons a rest ih =>
    rw [List.mapM_cons, succeeds_bind_iff, List.forall_mem_cons, ← ih]
    constructor
    · rintro ⟨b, hb, hrest⟩
      exact ⟨⟨b, hb⟩, succeeds_bind_pure_iff.mp hrest⟩
    · rintro ⟨⟨b, hb⟩, hrest⟩
      exact ⟨b, hb, succeeds_bind_pure_iff.mpr hrest⟩

/-- Every item of a list has a partner. -/
theorem exists_partner {R : α → β → Prop} {as : List α} {bs : List β} (h : List.Forall₂ R as bs) {a : α}
    (ha : a ∈ as) : ∃ b ∈ bs, R a b := by
  induction h with
  | nil => cases ha
  | @cons a' b as bs hb _ ih =>
    rcases List.mem_cons.mp ha with rfl | ha
    · exact ⟨b, List.mem_cons_self, hb⟩
    · obtain ⟨b', hb', hr⟩ := ih ha
      exact ⟨b', List.mem_cons_of_mem b hb', hr⟩

/-- A loop gives the results that its rounds give. -/
theorem mapM_eq_ok_iff {f : α → Except ε β} {items : List α} {results : List β} :
    items.mapM f = .ok results ↔ List.Forall₂ (fun a b => f a = .ok b) items results := by
  induction items generalizing results with
  | nil => simp [pure, Except.pure, eq_comm]
  | cons a items ih =>
    rw [List.mapM_cons]
    simp only [bind_eq_ok_iff, ih, pure, Except.pure, Except.ok.injEq, List.forall₂_cons_left_iff]
    grind

theorem exists_of_mapM {f : α → Except ε β} {items : List α} {results : List β} (h : items.mapM f = .ok results)
    {b : β} (hb : b ∈ results) : ∃ a ∈ items, f a = .ok b := by
  have hflip : List.Forall₂ (fun b a => f a = .ok b) results items := (mapM_eq_ok_iff.mp h).flip
  exact exists_partner hflip hb

/-- Results are known up to a view of them exactly if each of them is. -/
theorem exists_mapM_eq_ok_iff {γ : Type} {f : α → Except ε β} {view : β → γ} {items : List α}
    {known : List β} :
    (∃ results, items.mapM f = .ok results ∧ results.map view = known.map view) ↔
      List.Forall₂ (fun a b => ∃ b', f a = .ok b' ∧ view b' = view b) items known := by
  simp only [mapM_eq_ok_iff]
  constructor
  · rintro ⟨results, hresults, hview⟩
    induction hresults generalizing known with
    | nil =>
      rw [List.map_nil, eq_comm, List.map_eq_nil_iff] at hview
      rw [hview]
      exact .nil
    | cons ha _ ih =>
      rw [List.map_cons, eq_comm, List.map_eq_cons_iff] at hview
      obtain ⟨b, bs, rfl, hb, hbs⟩ := hview
      exact .cons ⟨_, ha, hb.symm⟩ (ih hbs.symm)
  · intro h
    induction h with
    | nil => exact ⟨[], .nil, rfl⟩
    | cons ha _ ih =>
      obtain ⟨b', hb', hview⟩ := ha
      obtain ⟨results, hresults, hviews⟩ := ih
      exact ⟨b' :: results, .cons hb' hresults, by rw [List.map_cons, List.map_cons, hview, hviews]⟩

/-- The same for what is built from the results. -/
theorem exists_built_iff {γ δ η : Type} {f : α → Except ε β} {view : β → γ} {items : List α}
    {known : List β} {x : Except ε δ} {build : List β → δ} {viewAll : δ → η} {d : δ}
    (hx : ∀ d', x = .ok d' ↔ ∃ results, items.mapM f = .ok results ∧ d' = build results)
    (hview : ∀ results, viewAll (build results) = viewAll d ↔ results.map view = known.map view) :
    (∃ d', x = .ok d' ∧ viewAll d' = viewAll d) ↔
      List.Forall₂ (fun a b => ∃ b', f a = .ok b' ∧ view b' = view b) items known := by
  rw [← exists_mapM_eq_ok_iff]
  constructor
  · rintro ⟨d', hd', hall⟩
    obtain ⟨results, hresults, rfl⟩ := (hx d').mp hd'
    exact ⟨results, hresults, (hview results).mp hall⟩
  · rintro ⟨results, hresults, hall⟩
    exact ⟨build results, (hx _).mpr ⟨results, hresults, rfl⟩, (hview results).mpr hall⟩

/-- A loop of checks passes if every check passes. -/
theorem forM_eq_ok_iff {f : α → Except ε Unit} {items : List α} :
    items.forM f = .ok () ↔ ∀ a ∈ items, f a = .ok () := by
  induction items with
  | nil => simp [List.forM, pure, Except.pure]
  | cons a rest ih =>
    rw [List.forall_mem_cons, ← ih]
    change (f a >>= fun _ => rest.forM f) = .ok () ↔ _
    rw [bind_eq_ok_iff]
    constructor
    · rintro ⟨u, ha, hrest⟩
      exact ⟨ha, hrest⟩
    · rintro ⟨ha, hrest⟩
      exact ⟨(), ha, hrest⟩

/-- A loop of checks fails with the first check that fails. -/
theorem forM_eq_error {f : α → Except ε Unit} {items : List α} {e : ε}
    (h : items.forM f = .error e) :
    ∃ before a after, items = before ++ a :: after ∧ (∀ b ∈ before, f b = .ok ()) ∧
      f a = .error e := by
  induction items with
  | nil => cases h
  | cons a rest ih =>
    change (f a >>= fun _ => rest.forM f) = .error e at h
    cases hfa : f a with
    | error e' =>
      rw [hfa] at h
      cases h
      exact ⟨[], a, rest, rfl, by simp, hfa⟩
    | ok u =>
      rw [hfa] at h
      obtain ⟨before, a', after, rfl, hbefore, hfault⟩ := ih h
      exact ⟨a :: before, a', after, rfl, by simpa [hfa] using hbefore, hfault⟩

/-! ## Computations with a state -/

section States

variable {σ : Type} {m : ExceptT ε (StateM σ) α} {k : α → ExceptT ε (StateM σ) β} {s s' : σ}

/-- What stands behind an answer goes on from the state that the answer leaves. -/
theorem run_bind_ok {a : α} (h : m.run.run s = (.ok a, s')) : (m >>= k).run.run s = (k a).run.run s' := by
  change (match m.run.run s with | (x, s') => (ExceptT.bindCont k x).run s') = _
  rw [h]
  rfl

theorem run_bind_error {e : ε} (h : m.run.run s = (.error e, s')) : (m >>= k).run.run s = (.error e, s') := by
  change (match m.run.run s with | (x, s') => (ExceptT.bindCont k x).run s') = _
  rw [h]
  rfl

end States

end PackedSchema
