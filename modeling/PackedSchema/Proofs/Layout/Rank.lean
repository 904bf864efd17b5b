import PackedSchema.Proofs.TypeTable

/-!
# Ranks of names

In a well-formed table every name has a rank: the number of declarations that it contains at any depth.
What a declaration contains has a lower rank, so a computation that follows names downwards can be
described by induction on ranks.
-/

namespace PackedSchema.TypeTable

variable {t : TypeTable} {a b n : String} {d : Decl}

/-! ## Looking up names -/

theorem mem_of_lookup (h : t.lookup n = some d) : d ∈ t.decls ∧ d.name = n :=
  ⟨List.mem_of_find?_eq_some h, by simpa using List.find?_some h⟩

theorem WellFormed.lookup_name (hw : t.WellFormed) (hd : d ∈ t.decls) : t.lookup d.name = some d := by
  have hnodup : (t.decls.map Decl.name).Nodup := hw.names_nodup
  obtain ⟨d', hd'⟩ : ∃ d', t.lookup d.name = some d' := by
    rw [← Option.isSome_iff_exists, lookup, List.find?_isSome]
    exact ⟨d, hd, by simp⟩
  obtain ⟨hmem, hname⟩ := mem_of_lookup hd'
  rw [hd', List.inj_on_of_nodup_map hnodup hmem hd hname]

theorem isSome_lookup_iff : (t.lookup n).isSome ↔ ∃ d ∈ t.decls, d.name = n := by
  simp [lookup, List.find?_isSome]

/-- Every declaration contains what it lays out inline. -/
theorem edge_of_lookup (ha : t.lookup a = some d) (hb : b ∈ d.inlineNames)
    (hdeclared : (t.lookup b).isSome) : (Containment.ofDecls t.decls).Edge a b := by
  obtain ⟨hd, hname⟩ := mem_of_lookup ha
  exact (Containment.edge_ofDecls t.decls a b).mpr ⟨⟨d, hd, hname, hb⟩, isSome_lookup_iff.mp hdeclared⟩

/-! ## Ranks -/

open Classical in
/-- The number of declarations that a name contains at any depth. -/
noncomputable def rank (t : TypeTable) (n : String) : Nat :=
  (t.order.toFinset.filter (Relation.TransGen (Containment.ofDecls t.decls).Edge n)).card

theorem WellFormed.rank_lt_of_edge (hw : t.WellFormed)
    (h : (Containment.ofDecls t.decls).Edge a b) : t.rank b < t.rank a := by
  classical
  obtain ⟨-, d, hd, hname⟩ := (Containment.edge_ofDecls t.decls a b).mp h
  have hdeclared : b ∈ t.order := List.mem_map.mpr ⟨d, hd, hname⟩
  apply Finset.card_lt_card
  refine ⟨?_, ?_⟩
  · intro c hc
    rw [Finset.mem_filter] at hc ⊢
    exact ⟨hc.1, Relation.TransGen.head h hc.2⟩
  · -- The contained name itself makes the difference, because it does not contain itself.
    intro hsub
    have hb : b ∈ t.order.toFinset.filter
        (Relation.TransGen (Containment.ofDecls t.decls).Edge a) :=
      Finset.mem_filter.mpr ⟨List.mem_toFinset.mpr hdeclared, Relation.TransGen.single h⟩
    exact hw.acyclic b (Finset.mem_filter.mp (hsub hb)).2

theorem WellFormed.rank_lt_of_lookup (hw : t.WellFormed) (ha : t.lookup a = some d)
    (hb : b ∈ d.inlineNames) (hdeclared : (t.lookup b).isSome) : t.rank b < t.rank a :=
  hw.rank_lt_of_edge (edge_of_lookup ha hb hdeclared)

theorem rank_le_length (t : TypeTable) (n : String) : t.rank n ≤ t.decls.length := by
  classical
  calc t.rank n ≤ t.order.toFinset.card := Finset.card_le_card (Finset.filter_subset _ _)
    _ ≤ t.order.length := List.toFinset_card_le t.order
    _ = t.decls.length := List.length_map Decl.name

end PackedSchema.TypeTable
