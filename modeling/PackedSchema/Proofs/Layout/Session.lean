import PackedSchema.Proofs.Layout.Defined

/-!
# Sessions give direct answers

A session remembers answers and, after a failure, marks of declarations that it was computing. Neither
changes what it answers: a question has the answer that it has without a session. Only a failure may be
another one, namely the refusal of a declaration that was left marked.

The names that are left marked have no layout at all. That is so because the shape, the alignment and the
extent of a declaration, each of which marks its name, are defined for the same names.
-/

namespace PackedSchema.Layout

variable {α β : Type} {t : TypeTable} {r : Nat} {name : String}

/-! ## Asking -/

/-- The outcome of a question and the session after it. -/
def ask (q : Query α) (s : Session) : Except Failure α × Session := q.run.run s

theorem ask_bind_ok {q : Query α} {f : α → Query β} {s s' : Session} {a : α}
    (h : ask q s = (.ok a, s')) : ask (q >>= f) s = ask (f a) s' := run_bind_ok h

theorem ask_bind_error {q : Query α} {f : α → Query β} {s s' : Session} {e : Failure}
    (h : ask q s = (.error e, s')) : ask (q >>= f) s = (.error e, s') := run_bind_error h

theorem ask_get_bind (f : Session → Query α) (s : Session) : ask (get >>= f) s = ask (f s) s := rfl

/-- The error of a declaration that is reached while it is marked. -/
def refusal (d : Decl) : SchemaError := ⟨.recursiveLayout [d.name], d.site⟩

theorem refusal_text (d : Decl) :
    (refusal d).text = "CE0201: recursive type layout: " ++ d.name ++ " -> " ++ d.name := by
  change "CE0201" ++ ": " ++ ("recursive type layout: " ++ (Cause.chain [d.name] ++ "")) = _
  have hchain : Cause.chain [d.name] = d.name ++ " -> " ++ d.name := rfl
  rw [hchain]
  simp [← String.append_assoc]

theorem ask_enter_marked {d : Decl} {s : Session} (h : d.name ∈ s.inProgress) :
    ask (enter d) s = (.error (.schema (refusal d)), s) := by
  change ask (if s.inProgress.contains d.name then _ else _) s = _
  rw [if_pos (List.contains_iff_mem.mpr h)]
  rfl

theorem ask_enter_unmarked {d : Decl} {s : Session} (h : d.name ∉ s.inProgress) :
    ask (enter d) s = (.ok (), { s with inProgress := d.name :: s.inProgress }) := by
  change ask (if s.inProgress.contains d.name then _ else _) s = _
  rw [if_neg (by rwa [List.contains_iff_mem])]
  rfl

/-- Leaving takes away the mark that was made last, if it is the only one of its name. -/
theorem ask_leave {s : Session} {others : List String} (h : s.inProgress = name :: others)
    (hname : name ∉ others) : ask (leave name) s = (.ok (), { s with inProgress := others }) := by
  change (Except.ok (), { s with inProgress := s.inProgress.filter fun n => n != name }) = _
  have hothers : others.filter (fun n => n != name) = others := by
    rw [List.filter_eq_self]
    intro n hn
    simpa using ne_of_mem_of_not_mem hn hname
  rw [h, List.filter_cons_of_neg (by simp), hothers]

/-! ## Sessions that remember what is right -/

/-- Everything that the session remembers is the direct answer. -/
structure Session.Sound (t : TypeTable) (s : Session) : Prop where
  shapes : ∀ n a, s.shapes.lookup n = some a → (direct t).shape n = .ok a
  alignments : ∀ n a, s.alignments.lookup n = some a → (direct t).alignment n = .ok a
  extents : ∀ n a, s.extents.lookup n = some a → (direct t).extent n = .ok a

theorem Session.Sound.mark {s : Session} (h : s.Sound t) (names : List String) :
    Session.Sound t { s with inProgress := names } :=
  ⟨h.shapes, h.alignments, h.extents⟩

/-- The session is sound, and the names in progress either have no layout or are at least of a rank. -/
def Ready (t : TypeTable) (r : Nat) (s : Session) : Prop :=
  s.Sound t ∧ ∀ n ∈ s.inProgress, Undefined t n ∨ r ≤ t.rank n

/-- A session gives an answer, and nothing stays in progress that was not. -/
def Answered (t : TypeTable) (s : Session) (final : Except Failure α × Session) (a : α) : Prop :=
  ∃ s', final = (.ok a, s') ∧ s'.Sound t ∧ s'.inProgress = s.inProgress

/-- A session gives a failure, or refuses a name below a rank that is in progress. Names that stay in
progress have no layout. -/
def Failed (t : TypeTable) (r : Nat) (s : Session) (final : Except Failure α × Session) (e : Failure) :
    Prop :=
  ∃ e' s' left, final = (.error e', s') ∧ s'.Sound t ∧ s'.inProgress = left ++ s.inProgress ∧
    (∀ n ∈ left, Undefined t n) ∧
    (e' = e ∨ ∃ d ∈ t.decls, d.name ∈ s.inProgress ∧ t.rank d.name < r ∧ e' = .schema (refusal d))

/-- A failure that leaves the session as it was. -/
theorem failed_unchanged {s : Session} (hs : s.Sound t) (e : Failure) :
    Failed t r s ((.error e, s) : Except Failure α × Session) e := by
  refine ⟨e, s, [], rfl, hs, rfl, ?_, Or.inl rfl⟩
  simp

/-- In every session that is ready for names below a rank, the question ends as it does directly. -/
def Follows (t : TypeTable) (r : Nat) (q : Query α) (o : Except Failure α) : Prop :=
  ∀ s, Ready t r s → Ends (Answered t s (ask q s)) (Failed t r s (ask q s)) o

theorem Follows.mono {q : Query α} {o : Except Failure α} {r' : Nat} (h : Follows t r q o)
    (hr : r ≤ r') : Follows t r' q o := by
  intro s hs
  have hready : Ready t r s := ⟨hs.1, fun n hn => (hs.2 n hn).imp_right fun hrank => by omega⟩
  apply (h s hready).mono (fun _ ha => ha)
  rintro e ⟨e', s', left, hask, hsound, hleft, hundefined, he⟩
  refine ⟨e', s', left, hask, hsound, hleft, hundefined, he.imp_right ?_⟩
  rintro ⟨d, hd, hmarked, hrank, he'⟩
  exact ⟨d, hd, hmarked, by omega, he'⟩

/-! ## Sessions before and after a question -/

theorem ready_empty (t : TypeTable) (r : Nat) : Ready t r {} := by
  refine ⟨⟨?_, ?_, ?_⟩, ?_⟩
  · intro n a h
    cases h
  · intro n a h
    cases h
  · intro n a h
    cases h
  · intro n hn
    cases hn

/-- A session stays ready. -/
theorem Follows.ready {q : Query α} {o : Except Failure α} {s : Session} (h : Follows t r q o)
    (hs : Ready t r s) : Ready t r (ask q s).2 := by
  have hends := h s hs
  cases o with
  | ok a =>
    obtain ⟨s', hask, hsound, hsame⟩ := hends
    rw [hask]
    refine ⟨hsound, ?_⟩
    rw [hsame]
    exact hs.2
  | error e =>
    obtain ⟨e', s', left, hask, hsound, hleft, hundefined, -⟩ := hends
    rw [hask]
    refine ⟨hsound, ?_⟩
    intro n hn
    rw [hleft] at hn
    rcases List.mem_append.mp hn with hn | hn
    · exact Or.inl (hundefined n hn)
    · exact hs.2 n hn

theorem Follows.inProgress {q : Query α} {o : Except Failure α} {s : Session} (h : Follows t r q o)
    (hs : Ready t r s) (hok : Succeeds (ask q s).1) :
    (ask q s).2.inProgress = s.inProgress := by
  have hends := h s hs
  cases o with
  | ok a =>
    obtain ⟨s', hask, -, hsame⟩ := hends
    rw [hask]
    exact hsame
  | error e =>
    obtain ⟨e', s', left, hask, -⟩ := hends
    rw [hask] at hok
    exact absurd hok (not_succeeds_error e')

/-- An answer is the direct one. -/
theorem Follows.ok_iff {q : Query α} {o : Except Failure α} {s : Session} (h : Follows t r q o)
    (hs : Ready t r s) (a : α) : (ask q s).1 = .ok a ↔ o = .ok a := by
  have hends := h s hs
  cases o with
  | ok b =>
    obtain ⟨s', hask, -⟩ := hends
    rw [hask]
  | error e =>
    obtain ⟨e', s', left, hask, -⟩ := hends
    rw [hask]
    constructor <;> intro h <;> cases h

/-- A failure is the direct one, or a name in progress is refused. -/
theorem Follows.error {q : Query α} {s : Session} {e : Failure} (h : Follows t r q (.error e))
    (hs : Ready t r s) :
    (ask q s).1 = .error e ∨
      ∃ d ∈ t.decls, d.name ∈ s.inProgress ∧ (ask q s).1 = .error (.schema (refusal d)) := by
  obtain ⟨e', s', left, hask, -, -, -, he⟩ := h s hs
  rw [hask]
  rcases he with rfl | ⟨d, hd, hmem, -, rfl⟩
  · exact Or.inl rfl
  · exact Or.inr ⟨d, hd, hmem, rfl⟩

/-- An empty session gives the direct outcome. -/
theorem Follows.fresh {q : Query α} {o : Except Failure α} (h : Follows t r q o) :
    (ask q {}).1 = o := by
  cases o with
  | ok a => exact (h.ok_iff (ready_empty t r) a).mpr rfl
  | error e =>
    rcases h.error (ready_empty t r) with he | ⟨d, -, hmem, -⟩
    · exact he
    · cases hmem

/-! ## Steps -/

theorem follows_pure (a : α) : Follows t r (pure a) (.ok a) :=
  fun s hs => ⟨s, rfl, hs.1, rfl⟩

theorem follows_error (e : Failure) :
    Follows t r (liftM (Except.error e : Except Failure α)) (.error e) :=
  fun _ hs => failed_unchanged hs.1 e

theorem Follows.bind {q : Query α} {o : Except Failure α} {f : α → Query β}
    {g : α → Except Failure β} (hq : Follows t r q o) (hf : ∀ a, Follows t r (f a) (g a)) :
    Follows t r (q >>= f) (o >>= g) := by
  intro s hs
  have hfirst := hq s hs
  cases o with
  | error e =>
    obtain ⟨e', s', left, hask, hrest⟩ := hfirst
    exact ⟨e', s', left, ask_bind_error hask, hrest⟩
  | ok a =>
    -- Nothing is left in progress after an answer, so the session is as ready as before.
    obtain ⟨s', hask, hsound, hsame⟩ := hfirst
    have hready : Ready t r s' := ⟨hsound, by rw [hsame]; exact hs.2⟩
    apply (hf a s' hready).mono
    · rintro b ⟨s'', hask', hsound', hsame'⟩
      exact ⟨s'', (ask_bind_ok hask).trans hask', hsound', hsame'.trans hsame⟩
    · rintro e ⟨e', s'', left, hask', hrest⟩
      rw [hsame] at hrest
      exact ⟨e', s'', left, (ask_bind_ok hask).trans hask', hrest⟩

/-- Questions that follow direct computations, as a simulation. -/
def following (t : TypeTable) (r : Nat) : Simulation Query (Except Failure) where
  Rel q o := Follows t r q o
  rel_pure := follows_pure
  rel_error := follows_error
  rel_bind := Follows.bind
  rel_lift_bind := by
    intro α β x f g hfg
    cases x with
    | ok a => exact hfg a rfl
    | error e =>
      intro s hs
      exact failed_unchanged hs.1 e

/-! ## Remembering -/

/-- The memory is one of a part that a direct computation gives. -/
structure Memory.Holds (t : TypeTable) (memory : Memory α) (part : String → Except Failure α) :
    Prop where
  known : ∀ s n a, s.Sound t → memory.known s n = some a → part n = .ok a
  record : ∀ s n a, s.Sound t → part n = .ok a → (memory.record s n a).Sound t
  inProgress : ∀ s n a, (memory.record s n a).inProgress = s.inProgress

/-- Among right answers, one more right answer is right. -/
theorem right_cons {part : String → Except Failure α} {answers : List (String × α)} {n : String} {a : α}
    (hanswers : ∀ m b, answers.lookup m = some b → part m = .ok b) (ha : part n = .ok a) (m : String)
    (b : α) (h : ((n, a) :: answers).lookup m = some b) : part m = .ok b := by
  rw [List.lookup_cons] at h
  cases hm : m == n with
  | true =>
    rw [hm] at h
    cases h
    rw [eq_of_beq hm, ha]
  | false =>
    rw [hm] at h
    exact hanswers m b h

theorem holds_shapes (t : TypeTable) : Memory.shapes.Holds t (direct t).shape where
  known _ n a hs h := hs.shapes n a h
  record _ _ _ hs h := ⟨right_cons hs.shapes h, hs.alignments, hs.extents⟩
  inProgress _ _ _ := rfl

theorem holds_alignments (t : TypeTable) : Memory.alignments.Holds t (direct t).alignment where
  known _ n a hs h := hs.alignments n a h
  record _ _ _ hs h := ⟨hs.shapes, right_cons hs.alignments h, hs.extents⟩
  inProgress _ _ _ := rfl

theorem holds_extents (t : TypeTable) : Memory.extents.Holds t (direct t).extent where
  known _ n a hs h := hs.extents n a h
  record _ _ _ hs h := ⟨hs.shapes, hs.alignments, right_cons hs.extents h⟩
  inProgress _ _ _ := rfl

section Once

variable {δ : Type} {memory : Memory α} {part : String → Except Failure α}
  {found : Except Failure δ} {decl : δ → Decl} {compute : δ → Query α}

theorem ask_once_some {s : Session} {a : α} (h : memory.known s name = some a) :
    ask (memory.once name found decl compute) s = (.ok a, s) := by
  unfold Memory.once
  rw [ask_get_bind, h]
  rfl

theorem ask_once_none {s : Session} (h : memory.known s name = none) :
    ask (memory.once name found decl compute) s =
      ask (liftM found >>= fun d => enter (decl d) >>= fun _ => compute d >>= fun a =>
        leave name >>= fun _ => modify (memory.record · name a) >>= fun _ => pure a) s := by
  unfold Memory.once
  rw [ask_get_bind, h]

/-- Computing a part while its declaration is marked. -/
theorem marked_follows {d : Decl} {q : Query α} (hmemory : memory.Holds t part)
    (hlook : t.lookup name = some d) (hundefined : ¬ Undefined t name ↔ Succeeds (part name))
    (hq : Follows t (t.rank name) q (part name)) :
    Follows t (t.rank name + 1) (enter d >>= fun _ => q >>= fun a => leave name >>= fun _ =>
      modify (memory.record · name a) >>= fun _ => pure a) (part name) := by
  intro s hs
  obtain ⟨hd, hname⟩ := TypeTable.mem_of_lookup hlook
  by_cases hmarked : name ∈ s.inProgress
  · -- The mark was left by a failure, so the part fails directly too.
    have hnone : Undefined t name := (hs.2 name hmarked).resolve_right (by omega)
    cases hout : part name with
    | ok a => exact absurd hnone (hundefined.mpr ⟨a, hout⟩)
    | error e =>
      have hask := ask_enter_marked (d := d) (s := s) (by rwa [hname])
      refine ⟨.schema (refusal d), s, [], ask_bind_error hask, hs.1, rfl, by simp, Or.inr ?_⟩
      exact ⟨d, hd, by rwa [hname], by rw [hname]; omega, rfl⟩
  · -- While the name is marked, the session is ready for all names of lower rank.
    have henter := ask_enter_unmarked (d := d) (s := s) (by rwa [hname])
    rw [hname] at henter
    have hready : Ready t (t.rank name) { s with inProgress := name :: s.inProgress } := by
      refine ⟨hs.1.mark _, ?_⟩
      intro n hn
      rcases List.mem_cons.mp hn with rfl | hn
      · exact Or.inr (Nat.le_refl _)
      · exact (hs.2 n hn).imp_right (by omega)
    have hcomputed := hq _ hready
    cases hout : part name with
    | ok a =>
      rw [hout] at hcomputed
      obtain ⟨s', hask, hsound, hsame⟩ := hcomputed
      have hleave := ask_leave hsame hmarked
      refine ⟨memory.record { s' with inProgress := s.inProgress } name a, ?_, ?_, ?_⟩
      · rw [ask_bind_ok henter, ask_bind_ok hask, ask_bind_ok hleave]
        rfl
      · exact hmemory.record _ name a (hsound.mark _) hout
      · exact hmemory.inProgress _ name a
    | error e =>
      rw [hout] at hcomputed
      obtain ⟨e', s', left, hask, hsound, hleft, hnone, he⟩ := hcomputed
      -- The mark stays, on a name whose part has just failed.
      have hundef : Undefined t name := by
        by_contra h
        rw [hundefined, hout] at h
        exact not_succeeds_error e h
      refine ⟨e', s', left ++ [name], ?_, hsound, by simp [hleft], ?_, he.imp_right ?_⟩
      · rw [ask_bind_ok henter, ask_bind_error hask]
      · intro n hn
        rcases List.mem_append.mp hn with hn | hn
        · exact hnone n hn
        · rwa [List.mem_singleton.mp hn]
      · -- The declaration itself is not below its own rank, so it is not the one refused.
        rintro ⟨d', hd', hmem, hrank, he'⟩
        refine ⟨d', hd', ?_, by omega, he'⟩
        rcases List.mem_cons.mp hmem with heq | hmem
        · rw [heq] at hrank
          omega
        · exact hmem

/-- A part that is computed once follows the direct part, if its computation does. -/
theorem once_follows {exact : δ → Except Failure α} (hmemory : memory.Holds t part)
    (hpart : part name = found >>= exact)
    (hlook : ∀ d, found = .ok d → t.lookup name = some (decl d))
    (hundefined : ∀ d, found = .ok d → (¬ Undefined t name ↔ Succeeds (part name)))
    (hcompute : ∀ d, found = .ok d → Follows t (t.rank name) (compute d) (exact d)) :
    Follows t (t.rank name + 1) (memory.once name found decl compute) (part name) := by
  intro s hs
  cases hknown : memory.known s name with
  | some a =>
    rw [hmemory.known s name a hs.1 hknown]
    exact ⟨s, ask_once_some hknown, hs.1, rfl⟩
  | none =>
    rw [ask_once_none hknown]
    cases hfound : found with
    | error e =>
      rw [hpart, hfound]
      exact failed_unchanged hs.1 e
    | ok d =>
      have hq : Follows t (t.rank name) (compute d) (part name) := by
        rw [hpart, hfound]
        exact hcompute d hfound
      exact marked_follows hmemory (hlook d hfound) (hundefined d hfound) hq s hs

end Once

/-! ## Parts -/

/-- The parts of a name follow its direct parts. -/
structure PartsFollow (t : TypeTable) (r : Nat) (p : Parts Query) (name : String) : Prop where
  shape : Follows t r (p.shape name) ((direct t).shape name)
  alignment : Follows t r (p.alignment name) ((direct t).alignment name)
  extent : Follows t r (p.extent name) ((direct t).extent name)

theorem PartsFollow.mono {p : Parts Query} {r' : Nat} (h : PartsFollow t r p name) (hr : r ≤ r') :
    PartsFollow t r' p name :=
  ⟨h.shape.mono hr, h.alignment.mono hr, h.extent.mono hr⟩

theorem agree_of_follow {p : Parts Query} (h : (t.lookup name).isSome → PartsFollow t r p name) :
    Agree (following t r) t t p (direct t) name :=
  ⟨rfl, fun hsome => (h hsome).shape, fun hsome => (h hsome).alignment, fun hsome => (h hsome).extent⟩

/-- The parts that a session computes follow the direct parts, below the depth that they go to. -/
theorem parts_follow (hw : t.WellFormed) (hc : Counted t.decls) (depth : Nat) (name : String)
    (hdepth : t.rank name < depth) : PartsFollow t (t.rank name + 1) (parts t depth) name := by
  induction depth generalizing name with
  | zero => omega
  | succ depth ih =>
    -- What the declaration lays out inline is of lower rank.
    have hbelow (d : Decl) (hd : t.lookup name = some d) : ∀ n ∈ d.inlineNames,
        Agree (following t (t.rank name)) t t (parts t depth) (direct t) n := by
      intro n hn
      apply agree_of_follow
      intro hsome
      have hrank : t.rank n < t.rank name := hw.rank_lt_of_lookup hd hn hsome
      exact (ih n (by omega)).mono hrank
    refine ⟨?_, ?_, ?_⟩
    · apply once_follows (holds_shapes t) (direct_shape hw name)
      · intro d hd
        exact resolveStruct_eq_ok_iff.mp hd
      · intro d hd
        exact not_undefined_iff_shape (resolveStruct_eq_ok_iff.mp hd)
      · intro d hd
        exact (following t _).rel_shapeOf rfl (hbelow _ (resolveStruct_eq_ok_iff.mp hd))
    · apply once_follows (holds_alignments t) (direct_alignment hw name)
      · intro d hd
        exact resolveStruct_eq_ok_iff.mp hd
      · intro d hd
        exact not_undefined_iff_alignment hw hc (resolveStruct_eq_ok_iff.mp hd)
      · intro d hd
        exact (following t _).rel_structAlignmentOf rfl (hbelow _ (resolveStruct_eq_ok_iff.mp hd))
    · apply once_follows (holds_extents t) (direct_extent hw name)
      · intro d hd
        exact resolveEnum_eq_ok_iff.mp hd
      · intro d hd
        exact not_undefined_iff_extent (resolveEnum_eq_ok_iff.mp hd)
      · intro d hd
        exact (following t _).rel_extentOf (hbelow _ (resolveEnum_eq_ok_iff.mp hd))

/-- The parts that questions are answered with go deep enough. -/
theorem deep_follow (hw : t.WellFormed) (hc : Counted t.decls) (name : String) :
    PartsFollow t (t.decls.length + 1) (deep t) name := by
  have hrank := t.rank_le_length name
  exact (parts_follow hw hc (t.decls.length + 1) name (by omega)).mono (by omega)

theorem layouts_follow (hw : t.WellFormed) (hc : Counted t.decls) :
    Follows t (t.decls.length + 1) (layouts t) (t.order.mapM ((direct t).layoutOf t)) := by
  have hagree (name : String) := agree_of_follow fun _ => deep_follow hw hc name
  exact (following t _).rel_mapM (fun name => (following t _).rel_layoutOf rfl (hagree name)) t.order

/-- All layouts, asked for in an empty session, are the direct ones. -/
theorem layouts_fresh (hw : t.WellFormed) (hc : Counted t.decls) :
    (ask (layouts t) {}).1 = t.order.mapM ((direct t).layoutOf t) :=
  (layouts_follow hw hc).fresh

end PackedSchema.Layout
