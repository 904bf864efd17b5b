import PackedSchema.Proofs.Containment.Graph
import PackedSchema.Proofs.Outcome
import Mathlib.Data.Finset.Card
import Mathlib.Data.Finset.SDiff

/-!
# The search for a cycle

The search for a cycle ends with an answer, the answer is a cycle if it is not empty, and it is empty
only if there is none.

A name that the search has left behind leads only to names that it has left behind before: that is why
no cycle goes through them, and why the search may pass over names it has seen.
-/

namespace PackedSchema.Containment

variable {g : Containment} {path : List String} {m m' : Marks} {name next : String}

theorem exists_entry_of_edge {a b : String} (h : g.Edge a b) : ∃ ts, (a, ts) ∈ g.edges ∧ b ∈ ts := by
  unfold Edge targets at h
  cases hlook : g.edges.lookup a with
  | none => simp [hlook] at h
  | some ts =>
    rw [hlook, Option.getD_some] at h
    obtain ⟨before, after, hedges, -⟩ := List.lookup_eq_some_iff.mp hlook
    exact ⟨ts, by simp [hedges], h⟩

theorem mem_names_of_edge {a b : String} (h : g.Edge a b) : b ∈ g.names := by
  obtain ⟨ts, hmem, hb⟩ := exists_entry_of_edge h
  simp only [names, List.mem_flatMap]
  exact ⟨_, hmem, List.mem_cons_of_mem _ hb⟩

/-! ## What the marks mean -/

namespace Marks

/-- The search has reached the name and is done with it. -/
def Finished (m : Marks) (n : String) : Prop := n ∈ m.visited ∧ n ∉ m.stack

/-- The marks of a search that has come along a path. -/
structure Sound (g : Containment) (path : List String) (m : Marks) : Prop where
  /-- The stack and the path hold the same names. -/
  stack_eq : m.stack = path.reverse
  nodup : path.Nodup
  chain : path.IsChain g.Edge
  visited : ∀ n ∈ path, n ∈ m.visited
  /-- Finished names lead to finished names only. -/
  closed : ∀ a b, m.Finished a → g.Edge a b → m.Finished b
  acyclic : ∀ a, m.Finished a → ¬ Relation.TransGen g.Edge a a

/-- The names of the graph that have not been reached. -/
def left (g : Containment) (m : Marks) : Finset String := g.names.toFinset \ m.visited.toFinset

theorem mem_left {n : String} : n ∈ m.left g ↔ n ∈ g.names ∧ n ∉ m.visited := by
  simp [left]

theorem left_subset (hsub : m.visited ⊆ m'.visited) : m'.left g ⊆ m.left g := by
  intro n hn
  rw [mem_left] at hn ⊢
  exact ⟨hn.1, fun hvisited => hn.2 (hsub hvisited)⟩

/-- A new name of the graph is one name less to reach. -/
theorem card_left_enter (hname : name ∈ g.names) (hnew : name ∉ m.visited) :
    ((m.enter name).left g).card < (m.left g).card := by
  apply Finset.card_lt_card
  refine ⟨left_subset (List.subset_insert name m.visited), ?_⟩
  intro hall
  have hentered : name ∈ (m.enter name).left g := hall (mem_left.mpr ⟨hname, hnew⟩)
  exact (mem_left.mp hentered).2 List.mem_insert_self

/-- Whatever is reached from a finished name is finished. -/
theorem Sound.finished_of_reaches {a b : String} (hm : m.Sound g path) (ha : m.Finished a)
    (hab : Relation.ReflTransGen g.Edge a b) : m.Finished b := by
  induction hab with
  | refl => exact ha
  | tail _ hbc ih => exact hm.closed _ _ ih hbc

theorem Sound.empty (g : Containment) : Sound g [] {} where
  stack_eq := rfl
  nodup := List.nodup_nil
  chain := List.isChain_nil
  visited := by simp
  closed := by
    intro a b ha
    exact absurd ha.1 List.not_mem_nil
  acyclic := by
    intro a ha
    exact absurd ha.1 List.not_mem_nil

/-! ## Going down and coming back -/

theorem Sound.not_mem_path (hm : m.Sound g path) (hnew : name ∉ m.visited) : name ∉ path :=
  fun hpath => hnew (hm.visited name hpath)

theorem Sound.enter (hm : m.Sound g path) (hnew : name ∉ m.visited)
    (hchain : (path ++ [name]).IsChain g.Edge) : (m.enter name).Sound g (path ++ [name]) := by
  have hpath : name ∉ path := hm.not_mem_path hnew
  have hstack : name ∉ m.stack := by
    rw [hm.stack_eq, List.mem_reverse]
    exact hpath
  -- The name is reached but stays on the stack, so the same names are finished as before.
  have hfinished : ∀ n, (m.enter name).Finished n ↔ m.Finished n := by
    intro n
    simp only [Finished, Marks.enter, List.mem_insert_iff, not_or]
    constructor
    · rintro ⟨rfl | hvisited, hne, hn⟩
      · exact absurd rfl hne
      · exact ⟨hvisited, hn⟩
    · rintro ⟨hvisited, hn⟩
      refine ⟨Or.inr hvisited, ?_, hn⟩
      rintro rfl
      exact hnew hvisited
  constructor
  · rw [Marks.enter, List.insert_of_not_mem hstack, hm.stack_eq, List.reverse_append]
    rfl
  · rw [List.nodup_append]
    refine ⟨hm.nodup, List.nodup_singleton name, ?_⟩
    intro a ha b hb hab
    rw [List.mem_singleton] at hb
    exact hpath (hb ▸ hab ▸ ha)
  · exact hchain
  · intro n hn
    rw [Marks.enter, List.mem_insert_iff]
    rcases List.mem_append.mp hn with hn | hn
    · exact Or.inr (hm.visited n hn)
    · exact Or.inl (List.mem_singleton.mp hn)
  · intro a b ha hab
    exact (hfinished b).mpr (hm.closed a b ((hfinished a).mp ha) hab)
  · intro a ha
    exact hm.acyclic a ((hfinished a).mp ha)

/-- A name can be left once all its targets are finished. -/
theorem Sound.leave (hm : m.Sound g (path ++ [name]))
    (htargets : ∀ b, g.Edge name b → m.Finished b) :
    ∃ m', m.leave name = .ok m' ∧ m'.Sound g path ∧ m'.visited = m.visited := by
  have hstack : m.stack = name :: path.reverse := by
    rw [hm.stack_eq, List.reverse_append]
    rfl
  have hpath : name ∉ path := by
    have hnodup := hm.nodup
    rw [List.nodup_append] at hnodup
    exact fun hname => hnodup.2.2 name hname name (List.mem_singleton_self name) rfl
  -- The name comes off the stack and is finished; all other names stay what they are.
  have hfinished : ∀ n, Finished ⟨m.visited, path.reverse⟩ n ↔ n = name ∨ m.Finished n := by
    intro n
    simp only [Finished, hstack, List.mem_cons, List.mem_reverse, not_or]
    constructor
    · rintro ⟨hvisited, hn⟩
      by_cases hname : n = name
      · exact Or.inl hname
      · exact Or.inr ⟨hvisited, hname, hn⟩
    · rintro (rfl | ⟨hvisited, -, hn⟩)
      · exact ⟨hm.visited n (by simp), hpath⟩
      · exact ⟨hvisited, hn⟩
  refine ⟨⟨m.visited, path.reverse⟩, ?_, ?_, rfl⟩
  · simp [Marks.leave, hstack]
  constructor
  · rfl
  · exact (List.nodup_append.mp hm.nodup).1
  · exact hm.chain.left_of_append
  · intro n hn
    exact hm.visited n (List.mem_append_left _ hn)
  · intro a b ha hab
    rw [hfinished] at ha ⊢
    rcases ha with rfl | ha
    · exact Or.inr (htargets b hab)
    · exact Or.inr (hm.closed a b ha hab)
  · intro a ha hcycle
    rw [hfinished] at ha
    rcases ha with rfl | ha
    · -- A way back to the name would start at a finished target, so the name would be finished.
      obtain ⟨b, hab, hba⟩ := Relation.TransGen.head'_iff.mp hcycle
      have hback : m.Finished a := hm.finished_of_reaches (htargets b hab) hba
      exact hback.2 (by rw [hstack]; exact List.mem_cons_self)
    · exact hm.acyclic a ha hcycle

end Marks

/-! ## The search -/

/-- A search that meets a name of its own path again has found a cycle. -/
theorem meet_isCycle (hnodup : (path ++ [name]).Nodup) (hchain : (path ++ [name]).IsChain g.Edge)
    (hedge : g.Edge name next) (hnext : next ∈ path ++ [name]) :
    ∃ names, meet (path ++ [name]) next = .cycle names ∧ IsCycle g.Edge names := by
  obtain ⟨i, hi⟩ := Option.isSome_iff_exists.mp (List.isSome_idxOf?.mpr hnext)
  obtain ⟨hlt, hget, -⟩ := List.idxOf?_eq_some_iff.mp hi
  have hdrop : (path ++ [name]).drop i = next :: (path ++ [name]).drop (i + 1) := by
    rw [List.drop_eq_getElem_cons hlt, hget]
  refine ⟨(path ++ [name]).drop i, by rw [meet, hi], ?_, ?_, ?_⟩
  · rw [hdrop]
    exact List.cons_ne_nil _ _
  · exact hnodup.sublist (List.drop_sublist i _)
  · -- The path from there on ends with the name whose edge closes it.
    have hlast : ((path ++ [name]).drop i).getLast? = some name := by
      rw [List.getLast?_drop, if_neg (Nat.not_le.mpr hlt), List.getLast?_concat]
    have htake : ((path ++ [name]).drop i).take 1 = [next] := by rw [hdrop]; rfl
    rw [htake]
    apply (hchain.drop i).append (List.isChain_singleton next)
    intro a ha b hb
    rw [hlast, Option.mem_some_iff] at ha
    rw [List.head?_cons, Option.mem_some_iff] at hb
    exact ha ▸ hb ▸ hedge

/-- The search below the end of a path has followed some edges there. -/
def Followed (g : Containment) (path : List String) (start : Marks) (done : List String) (m : Marks) :
    Prop :=
  m.Sound g path ∧ start.visited ⊆ m.visited ∧ ∀ b ∈ done, m.Finished b

/-- A search from a name has come back to the path, with the name reached. -/
def Returned (g : Containment) (path : List String) (start : Marks) (name : String) (m : Marks) :
    Prop :=
  m.Sound g path ∧ start.visited ⊆ m.visited ∧ name ∈ m.visited

/-- A search has halted with a cycle. -/
def Found (g : Containment) (halt : Halt) : Prop := ∃ names, halt = .cycle names ∧ IsCycle g.Edge names

/-- Following one more edge passes on what is known of the edges before. -/
theorem follow_ends {below : Marks → String → Except Halt Marks} {start : Marks} {done : List String}
    (hm : Followed g (path ++ [name]) start done m) (hedge : g.Edge name next)
    (hbelow : next ∉ m.visited → Ends (Returned g (path ++ [name]) m next) (Found g) (below m next)) :
    Ends (Followed g (path ++ [name]) start (done ++ [next])) (Found g)
      (follow below (path ++ [name]) m next) := by
  obtain ⟨hsound, hsub, hdone⟩ := hm
  unfold follow
  by_cases hvisited : next ∈ m.visited
  · by_cases hstack : next ∈ m.stack
    · -- The name is on the path, so the edge closes a cycle.
      have hpath : next ∈ path ++ [name] := by
        rw [hsound.stack_eq, List.mem_reverse] at hstack
        exact hstack
      simp only [hvisited, hstack, List.contains_iff_mem.mpr, Bool.not_true, Bool.false_eq_true,
        if_false, if_true]
      exact meet_isCycle hsound.nodup hsound.chain hedge hpath
    · -- The name was left before, so nothing is to be done.
      have hcontains : m.stack.contains next = false := by simpa using hstack
      simp only [hvisited, hcontains, List.contains_iff_mem.mpr, Bool.not_true, Bool.false_eq_true,
        if_false]
      have hnext : m.Finished next := ⟨hvisited, hstack⟩
      exact ⟨hsound, hsub, List.forall_mem_append.mpr ⟨hdone, by simpa using hnext⟩⟩
  · -- The name is new. The search below it comes back to the same path, which it is not on.
    have hcontains : m.visited.contains next = false := by simpa using hvisited
    simp only [hcontains, Bool.not_false, if_true]
    apply (hbelow hvisited).mono _ (fun _ hfound => hfound)
    rintro m' ⟨hsound', hsub', hnext⟩
    have hstack : m'.stack = m.stack := hsound'.stack_eq.trans hsound.stack_eq.symm
    have hfinished : m'.Finished next := by
      refine ⟨hnext, ?_⟩
      rw [hsound'.stack_eq, List.mem_reverse]
      exact hsound.not_mem_path hvisited
    refine ⟨hsound', List.Subset.trans hsub hsub', ?_⟩
    refine List.forall_mem_append.mpr ⟨?_, by simpa using hfinished⟩
    intro b hb
    exact ⟨hsub' (hdone b hb).1, hstack ▸ (hdone b hb).2⟩

/-- A search from a new name comes back to its path, or has found a cycle. -/
theorem search_ends (depth : Nat) (hm : m.Sound g path) (hnew : name ∉ m.visited)
    (hname : name ∈ g.names) (hchain : (path ++ [name]).IsChain g.Edge)
    (hdepth : (m.left g).card ≤ depth) :
    Ends (Returned g path m name) (Found g) (g.search depth path m name) := by
  -- By induction on the depth, which is at least the number of names that are not reached yet.
  induction depth generalizing path m name with
  | zero =>
    have hpos : 0 < (m.left g).card := Finset.card_pos.mpr ⟨name, Marks.mem_left.mpr ⟨hname, hnew⟩⟩
    omega
  | succ depth ih =>
    have hsub : m.visited ⊆ (m.enter name).visited := List.subset_insert name m.visited
    have hless : ((m.enter name).left g).card < (m.left g).card := Marks.card_left_enter hname hnew
    rw [search]
    refine Ends.bind (P := Followed g (path ++ [name]) (m.enter name) (g.targets name)) ?_ ?_
    · apply Ends.foldlM (Followed g (path ++ [name]) (m.enter name))
      · exact ⟨hm.enter hnew hchain, List.Subset.refl _, by simp⟩
      · intro done next rest m₁ htargets hm₁
        have hedge : g.Edge name next := by simp [Edge, htargets]
        apply follow_ends hm₁ hedge
        intro hnext
        have hchain' : ((path ++ [name]) ++ [next]).IsChain g.Edge := by
          apply hm₁.1.chain.append (List.isChain_singleton next)
          simpa using hedge
        have hdepth' : (m₁.left g).card ≤ depth := by
          have hle := Finset.card_le_card (Marks.left_subset (g := g) hm₁.2.1)
          omega
        exact ih hm₁.1 hnext (mem_names_of_edge hedge) hchain' hdepth'
    · rintro m₁ ⟨hm₁, hsub₁, hfinished⟩
      obtain ⟨m₂, hleave, hm₂, hvisited⟩ := hm₁.leave hfinished
      rw [hleave]
      refine ⟨hm₂, ?_, ?_⟩
      · rw [hvisited]
        exact List.Subset.trans hsub hsub₁
      · rw [hvisited]
        exact hsub₁ List.mem_insert_self

/-- The search has reached some nodes of the graph and is done with them. -/
def Covered (g : Containment) (done : List (String × List String)) (m : Marks) : Prop :=
  m.Sound g [] ∧ ∀ e ∈ done, e.1 ∈ m.visited

/-- The search of the whole graph covers every node, or has found a cycle. -/
theorem searchAll_ends (g : Containment) : Ends (Covered g g.edges) (Found g) g.searchAll := by
  -- Between the searches from single nodes the path is empty, so all that is reached is finished.
  apply Ends.foldlM (Covered g)
  · exact ⟨Marks.Sound.empty g, by simp⟩
  · rintro done e rest m hedges ⟨hm, hdone⟩
    by_cases hvisited : e.1 ∈ m.visited
    · simp only [hvisited, List.contains_iff_mem.mpr, if_true]
      exact ⟨hm, List.forall_mem_append.mpr ⟨hdone, by simpa using hvisited⟩⟩
    · have hcontains : m.visited.contains e.1 = false := by simpa using hvisited
      simp only [hcontains, Bool.false_eq_true, if_false]
      have hname : e.1 ∈ g.names := by
        simp only [names, List.mem_flatMap]
        exact ⟨e, by simp [hedges], List.mem_cons_self⟩
      have hdepth : (m.left g).card ≤ g.names.length :=
        (Finset.card_le_card Finset.sdiff_subset).trans (List.toFinset_card_le g.names)
      apply (search_ends g.names.length hm hvisited hname (List.isChain_singleton e.1) hdepth).mono _
        (fun _ hfound => hfound)
      rintro m' ⟨hm', hsub, hnext⟩
      refine ⟨hm', List.forall_mem_append.mpr ⟨?_, by simpa using hnext⟩⟩
      intro e' he'
      exact hsub (hdone e' he')

/-- When every node is finished, no cycle is left to be found. -/
theorem Covered.acyclic (h : Covered g g.edges m) : Acyclic g.Edge := by
  intro a hcycle
  obtain ⟨b, hab, -⟩ := Relation.TransGen.head'_iff.mp hcycle
  obtain ⟨ts, hmem, -⟩ := exists_entry_of_edge hab
  have hfinished : m.Finished a := ⟨h.2 _ hmem, by simp [h.1.stack_eq]⟩
  exact h.1.acyclic a hfinished hcycle

/-- The search either ends with nothing to report in a graph without a cycle, or it halts with the
cycle that it reports. -/
theorem findCycle_cases (g : Containment) :
    ((∃ m, g.searchAll = .ok m) ∧ g.findCycle = [] ∧ Acyclic g.Edge) ∨
      (g.searchAll = .error (.cycle g.findCycle) ∧ IsCycle g.Edge g.findCycle) := by
  have hends := searchAll_ends g
  unfold findCycle
  cases hsearch : g.searchAll with
  | ok m =>
    rw [hsearch] at hends
    exact Or.inl ⟨⟨m, rfl⟩, rfl, hends.acyclic⟩
  | error halt =>
    rw [hsearch] at hends
    obtain ⟨names, rfl, hcycle⟩ := hends
    exact Or.inr ⟨rfl, hcycle⟩

theorem findCycle_eq_nil_iff (g : Containment) : g.findCycle = [] ↔ Acyclic g.Edge := by
  rcases findCycle_cases g with ⟨-, hnil, hacyclic⟩ | ⟨-, hcycle⟩
  · exact ⟨fun _ => hacyclic, fun _ => hnil⟩
  · exact ⟨fun hnil => absurd hnil hcycle.1, fun hacyclic => absurd hacyclic hcycle.not_acyclic⟩

/-- In a graph that was built by adding nodes and edges, the search ends regularly or with a cycle; it
reports nothing exactly if the edges have no cycle, and otherwise it reports one. -/
theorem findCycle_build (steps : List Extension) :
    (∀ halt, (build steps).searchAll = .error halt → halt = .cycle (build steps).findCycle) ∧
      ((build steps).findCycle = [] ↔ Acyclic fun a b => .edge a b ∈ steps) ∧
      ((build steps).findCycle ≠ [] →
        IsCycle (fun a b => .edge a b ∈ steps) (build steps).findCycle) := by
  have hedges : (build steps).Edge = fun a b => .edge a b ∈ steps := by
    funext a b
    exact propext (edge_build steps a b)
  rw [← hedges]
  refine ⟨?_, findCycle_eq_nil_iff _, ?_⟩
  · intro halt hhalt
    rcases findCycle_cases (build steps) with ⟨⟨m, hok⟩, -⟩ | ⟨herror, -⟩
    · rw [hok] at hhalt
      cases hhalt
    · rw [herror] at hhalt
      cases hhalt
      rfl
  · intro hne
    rcases findCycle_cases (build steps) with ⟨-, hnil, -⟩ | ⟨-, hcycle⟩
    · exact absurd hnil hne
    · exact hcycle

end PackedSchema.Containment
