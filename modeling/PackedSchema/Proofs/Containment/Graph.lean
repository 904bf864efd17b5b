import PackedSchema.Containment
import Mathlib.Data.List.Chain

/-!
# Edges of a containment graph

A containment graph is read through its edges: a name has an edge to each of its targets. This file
says which edges the operations that build a graph add, and which edges the graph of a list of
declarations has.
-/

namespace PackedSchema.Containment

/-- The first name has an edge to the second. -/
def Edge (g : Containment) (a b : String) : Prop := b ∈ g.targets a

/-- The names lead each to the next and the last back to the first, and none comes twice. -/
def IsCycle (r : String → String → Prop) (names : List String) : Prop :=
  names ≠ [] ∧ names.Nodup ∧ (names ++ names.take 1).IsChain r

/-- No name leads back to itself. -/
def Acyclic (r : String → String → Prop) : Prop := ∀ a, ¬ Relation.TransGen r a a

theorem IsCycle.not_acyclic {r : String → String → Prop} {names : List String}
    (h : IsCycle r names) : ¬ Acyclic r := by
  obtain ⟨hne, -, hchain⟩ := h
  intro hacyclic
  cases names with
  | nil => exact hne rfl
  | cons a rest =>
    simp only [List.take_succ_cons, List.take_zero, List.cons_append] at hchain
    -- The first name leads to some name, from which the rest of the chain leads back.
    have hstep : ∃ b, r a b ∧ Relation.ReflTransGen r b a := by
      cases rest with
      | nil =>
        rw [List.nil_append, List.isChain_pair] at hchain
        exact ⟨a, hchain, Relation.ReflTransGen.refl⟩
      | cons b rest =>
        rw [List.cons_append, List.isChain_cons_cons] at hchain
        refine ⟨b, hchain.1, ?_⟩
        exact List.relationReflTransGen_of_exists_isChain_cons (rest ++ [a]) hchain.2 (by simp)
    obtain ⟨b, hab, hba⟩ := hstep
    exact hacyclic a (Relation.TransGen.head' hab hba)

/-! ## Adding nodes and edges -/

/-- A change of the target lists that leaves the names alone changes what a name leads to. -/
theorem lookup_map_targets (edges : List (String × List String))
    (f : String × List String → String × List String) (hf : ∀ e, (f e).1 = e.1) (a : String) :
    (edges.map f).lookup a = (edges.lookup a).map fun ts => (f (a, ts)).2 := by
  induction edges with
  | nil => rfl
  | cons e rest ih =>
    obtain ⟨n, ts⟩ := e
    have hfst : (f (n, ts)).1 = n := hf (n, ts)
    simp only [List.map_cons]
    rw [← Prod.eta (f (n, ts)), hfst, List.lookup_cons, List.lookup_cons]
    by_cases han : a = n
    · subst han
      simp
    · have hbeq : (a == n) = false := by simpa using han
      simp only [hbeq, ih]

theorem hasNode_iff (g : Containment) (a : String) :
    g.hasNode a = true ↔ ∃ ts, g.edges.lookup a = some ts := by
  unfold hasNode
  induction g.edges with
  | nil => simp
  | cons e rest ih =>
    obtain ⟨n, ts⟩ := e
    by_cases han : n = a
    · subst han
      simp
    · have hbeq : (a == n) = false := by simpa using Ne.symm han
      simp only [List.any_cons, List.lookup_cons, hbeq, ← ih]
      simp [han]

/-- A new node leads nowhere. -/
theorem targets_addNode (g : Containment) (n a : String) :
    (g.addNode n).targets a = g.targets a := by
  unfold addNode
  split
  · rfl
  · rename_i hn
    simp only [targets, List.lookup_append]
    cases hlook : g.edges.lookup a with
    | some ts => simp
    | none => cases hbeq : a == n <;> simp [List.lookup_cons, hbeq]

theorem exists_lookup_addNode (g : Containment) (n : String) :
    ∃ ts, (g.addNode n).edges.lookup n = some ts := by
  by_cases hn : g.hasNode n = true
  · obtain ⟨ts, hts⟩ := (hasNode_iff g n).mp hn
    exact ⟨ts, by simpa [addNode, hn] using hts⟩
  · refine ⟨(g.edges.lookup n).getD [], ?_⟩
    simp only [addNode, hn, if_false, Bool.false_eq_true, List.lookup_append]
    cases g.edges.lookup n <;> simp

theorem edge_addNode (g : Containment) (n a b : String) :
    (g.addNode n).Edge a b ↔ g.Edge a b := by
  rw [Edge, targets_addNode, Edge]

/-- Adding an edge adds that edge and no other. -/
theorem edge_addEdge (g : Containment) (source target a b : String) :
    (g.addEdge source target).Edge a b ↔ g.Edge a b ∨ (a = source ∧ b = target) := by
  have hnode : g.targets a = ((g.addNode source).edges.lookup a).getD [] :=
    (targets_addNode g source a).symm
  rw [Edge, Edge, hnode]
  simp only [targets, addEdge]
  rw [lookup_map_targets _ _ (by intro e; split <;> rfl)]
  by_cases ha : a = source
  · -- The source is a node by now, and a target that it has already is not added again.
    subst ha
    obtain ⟨ts, hts⟩ := exists_lookup_addNode g a
    by_cases ht : target ∈ ts
    · have hcontains : ts.contains target = true := List.contains_iff_mem.mpr ht
      simp only [hts, hcontains, Bool.not_true, Bool.and_false, Bool.false_eq_true, if_false,
        Option.map_some, Option.getD_some, true_and, iff_self_or]
      rintro rfl
      exact ht
    · simp [hts, ht]
  · have hbeq : (a == source) = false := by simpa using ha
    cases (g.addNode source).edges.lookup a <;> simp [hbeq, ha]

/-- One way to extend a graph. -/
inductive Extension
  | node (name : String)
  | edge (source target : String)
  deriving Repr, DecidableEq

def extend (g : Containment) : Extension → Containment
  | .node n => g.addNode n
  | .edge a b => g.addEdge a b

/-- The graph that a list of extensions builds from nothing. -/
def build (steps : List Extension) : Containment := steps.foldl extend {}

theorem edge_extend (g : Containment) (step : Extension) (a b : String) :
    (g.extend step).Edge a b ↔ g.Edge a b ∨ step = .edge a b := by
  cases step with
  | node n => simp [extend, edge_addNode]
  | edge source target =>
    simp only [extend, edge_addEdge, Extension.edge.injEq]
    rw [eq_comm, eq_comm (a := b)]

theorem edge_foldl_extend (steps : List Extension) (g : Containment) (a b : String) :
    (steps.foldl extend g).Edge a b ↔ g.Edge a b ∨ .edge a b ∈ steps := by
  induction steps generalizing g with
  | nil => simp
  | cons step rest ih =>
    simp only [List.foldl_cons, ih, edge_extend, List.mem_cons, eq_comm (a := step), or_assoc]

/-- A graph has the edges that were added to it, however often and in whatever order. -/
theorem edge_build (steps : List Extension) (a b : String) :
    (build steps).Edge a b ↔ .edge a b ∈ steps := by
  rw [build, edge_foldl_extend]
  simp [Edge, targets]

/-! ## The graph of a list of declarations -/

theorem edge_foldl_addEdge (names : List String) (g : Containment) (source a b : String) :
    (names.foldl (fun g n => g.addEdge source n) g).Edge a b ↔
      g.Edge a b ∨ (a = source ∧ b ∈ names) := by
  induction names generalizing g with
  | nil => simp
  | cons n rest ih =>
    simp only [List.foldl_cons, ih, edge_addEdge, List.mem_cons]
    constructor
    · rintro ((h | ⟨ha, hb⟩) | ⟨ha, hb⟩)
      · exact Or.inl h
      · exact Or.inr ⟨ha, Or.inl hb⟩
      · exact Or.inr ⟨ha, Or.inr hb⟩
    · rintro (h | ⟨ha, hb | hb⟩)
      · exact Or.inl (Or.inl h)
      · exact Or.inl (Or.inr ⟨ha, hb⟩)
      · exact Or.inr ⟨ha, hb⟩

theorem edge_ofContents (contents : List (String × List String)) (a b : String) :
    (ofContents contents).Edge a b ↔
      (∃ e ∈ contents, e.1 = a ∧ b ∈ e.2) ∧ ∃ e ∈ contents, e.1 = b := by
  -- The fold goes through the entries, while the test for an entry always sees all of them.
  have hfold : ∀ (rest : List (String × List String)) (g : Containment),
      (rest.foldl
        (fun g entry =>
          (entry.2.filter fun n => contents.any fun e => e.1 == n).foldl
            (fun g n => g.addEdge entry.1 n) (g.addNode entry.1)) g).Edge a b ↔
        g.Edge a b ∨ (∃ e ∈ rest, e.1 = a ∧ b ∈ e.2) ∧ ∃ e ∈ contents, e.1 = b := by
    intro rest
    induction rest with
    | nil => simp
    | cons entry rest ih =>
      intro g
      simp only [List.foldl_cons, ih, edge_foldl_addEdge, edge_addNode, List.mem_filter,
        List.any_eq_true, beq_iff_eq]
      constructor
      · rintro ((h | ⟨ha, hb, hdeclared⟩) | ⟨⟨e, he, hea, heb⟩, hdeclared⟩)
        · exact Or.inl h
        · exact Or.inr ⟨⟨entry, List.mem_cons_self, ha.symm, hb⟩, hdeclared⟩
        · exact Or.inr ⟨⟨e, List.mem_cons_of_mem _ he, hea, heb⟩, hdeclared⟩
      · rintro (h | ⟨⟨e, he, hea, heb⟩, hdeclared⟩)
        · exact Or.inl (Or.inl h)
        · rcases List.mem_cons.mp he with rfl | he
          · exact Or.inl (Or.inr ⟨hea.symm, heb, hdeclared⟩)
          · exact Or.inr ⟨⟨e, he, hea, heb⟩, hdeclared⟩
  rw [ofContents, hfold]
  simp [Edge, targets]

/-- Declarations have edges to what they lay out inline, as far as it is declared. -/
theorem edge_ofDecls (decls : List Decl) (a b : String) :
    (ofDecls decls).Edge a b ↔
      (∃ d ∈ decls, d.name = a ∧ b ∈ d.inlineNames) ∧ ∃ d ∈ decls, d.name = b := by
  simp only [ofDecls, edge_ofContents, List.mem_map]
  constructor
  · rintro ⟨⟨_, ⟨d, hd, rfl⟩, ha, hb⟩, _, ⟨d', hd', rfl⟩, hb'⟩
    exact ⟨⟨d, hd, ha, hb⟩, d', hd', hb'⟩
  · rintro ⟨⟨d, hd, ha, hb⟩, d', hd', hb'⟩
    exact ⟨⟨_, ⟨d, hd, rfl⟩, ha, hb⟩, _, ⟨d', hd', rfl⟩, hb'⟩

end PackedSchema.Containment
