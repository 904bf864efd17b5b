import PackedSchema.Command.Directory
import PackedSchema.Proofs.Outcome

/-!
# Writing into directories

A file that is written changes what stands at its own place and nowhere else. Places on the way to another
one count as directories, so this needs that the way to the file was there before.
-/

namespace PackedSchema.Command.Directory

variable {d d' : Directory} {p : Path} {place q names : List String} {bytes : List UInt8}

/-! ## What stands at a place -/

/-- A place is on the way to another one that there is. -/
def OnTheWay (d : Directory) (q : List String) : Prop := q <+: d.cwd.parts ∨ ∃ e ∈ d.nodes, q <+: e.1

instance (d : Directory) (q : List String) : Decidable (d.OnTheWay q) :=
  inferInstanceAs (Decidable (q <+: d.cwd.parts ∨ ∃ e ∈ d.nodes, q <+: e.1))

theorem node?_of_some {n : Node} (h : d.nodes.lookup q = some n) : d.node? q = some n := by
  rw [node?, h]

theorem node?_of_none (h : d.nodes.lookup q = none) :
    d.node? q = if d.OnTheWay q then some .directory else none := by
  have hway : (q.isPrefixOf d.cwd.parts || d.nodes.any fun e => q.isPrefixOf e.1) = true ↔ d.OnTheWay q := by
    simp [OnTheWay]
  rw [node?, h]
  simp only [hway]

/-! ## The way to a place -/

/-- Something stands at every place on the way to another one. -/
def Reached (d : Directory) (place : List String) : Prop :=
  ∀ q, q <+: place → q.length < place.length → (d.node? q).isSome

theorem reached_cwd (d : Directory) : d.Reached d.cwd.parts := by
  intro q hq _
  cases hlook : d.nodes.lookup q with
  | some n => simp [node?_of_some hlook]
  | none => simp [node?_of_none hlook, OnTheWay, hq]

theorem reached_root (d : Directory) : d.Reached [] := by
  intro q _ hlength
  cases hlength

theorem Reached.child (h : d.Reached place) (hplace : (d.node? place).isSome) (n : String) :
    d.Reached (place ++ [n]) := by
  intro q hq hlength
  have hstart : q <+: place := by
    rcases List.prefix_concat_iff.mp hq with rfl | hq
    · exact absurd hlength (Nat.lt_irrefl _)
    · exact hq
  by_cases hfull : q.length = place.length
  · rwa [hstart.eq_of_length hfull]
  · have hle := hstart.length_le
    exact h q hstart (by omega)

theorem Reached.parent (h : d.Reached place) : d.Reached place.dropLast := by
  intro q hq hlength
  have hle : place.dropLast.length ≤ place.length := (List.dropLast_prefix place).length_le
  exact h q (hq.trans (List.dropLast_prefix place)) (by omega)

/-- Names are followed through places where something stands. -/
theorem walk_reached {path : String} (hplace : d.Reached place) (h : d.walk path place names = .ok q) :
    d.Reached q := by
  induction names generalizing place with
  | nil =>
    cases h
    exact hplace
  | cons n ns ih =>
    unfold walk at h
    split at h
    case h_1 => cases h
    case h_2 => cases h
    case h_3 hnode =>
      have hsome : (d.node? place).isSome := by rw [hnode]; rfl
      split at h
      · cases h
      · refine ih ?_ h
        split
        · exact hplace.parent
        · exact hplace.child hsome n

theorem locate_reached (h : d.locate p = .ok place) : d.Reached place := by
  unfold locate at h
  split at h
  · cases h
  · split at h
    · cases h
    · refine walk_reached ?_ h
      split
      · exact d.reached_cwd
      · exact d.reached_root

/-! ## Putting files -/

theorem lookup_filter_ne {nodes : List (List String × Node)} (h : q ≠ place) :
    (nodes.filter fun e => e.1 != place).lookup q = nodes.lookup q := by
  induction nodes with
  | nil => rfl
  | cons e nodes ih =>
    obtain ⟨place', n⟩ := e
    by_cases hremoved : place' = place
    · have hother : (q == place') = false := by simp [hremoved, h]
      rw [List.filter_cons_of_neg (by simp [hremoved]), ih, List.lookup_cons, hother]
    · rw [List.filter_cons_of_pos (by simp [hremoved]), List.lookup_cons, List.lookup_cons, ih]

/-- No other place gets onto the way by a file that can be reached. -/
theorem onTheWay_put (h : d.Reached place) (hplace : q ≠ place) (hlook : d.nodes.lookup q = none) :
    (d.put place bytes).OnTheWay q ↔ d.OnTheWay q := by
  constructor
  · rintro (hcwd | ⟨e, he, hq⟩)
    · exact .inl hcwd
    · rcases List.mem_append.mp he with he | he
      · exact .inr ⟨e, (List.mem_filter.mp he).1, hq⟩
      · cases List.mem_singleton.mp he
        have hlength : q.length < place.length := by
          have hle : q.length ≤ place.length := hq.length_le
          have hne : q.length ≠ place.length := fun heq => hplace (hq.eq_of_length heq)
          omega
        have hsome := h q hq hlength
        rw [node?_of_none hlook] at hsome
        by_contra hnot
        rw [if_neg hnot] at hsome
        cases hsome
  · rintro (hcwd | ⟨e, he, hq⟩)
    · exact .inl hcwd
    · -- The entry is kept, or the new one takes its place.
      by_cases hremoved : e.1 = place
      · refine .inr ⟨(place, .file bytes), List.mem_append_right _ List.mem_cons_self, ?_⟩
        rw [← hremoved]
        exact hq
      · exact .inr ⟨e, List.mem_append_left _ (List.mem_filter.mpr ⟨he, by simp [hremoved]⟩), hq⟩

/-- A file that is put changes its own place only. -/
theorem node?_put (h : d.Reached place) (bytes : List UInt8) (q : List String) :
    (d.put place bytes).node? q = if q = place then some (.file bytes) else d.node? q := by
  have hput : (d.put place bytes).nodes = d.nodes.filter (fun e => e.1 != place) ++ [(place, .file bytes)] := rfl
  split
  case isTrue hplace =>
    subst hplace
    have hremoved : (d.nodes.filter fun e => e.1 != q).lookup q = none := by
      simp only [List.lookup_eq_none_iff, List.mem_filter, bne_iff_ne]
      rintro e ⟨-, hne⟩
      simpa using hne.symm
    apply node?_of_some
    rw [hput, List.lookup_append, hremoved]
    simp
  case isFalse hplace =>
    have hlookup : (d.put place bytes).nodes.lookup q = d.nodes.lookup q := by
      have hother : (q == place) = false := by simpa using hplace
      rw [hput, List.lookup_append, lookup_filter_ne hplace, List.lookup_cons, hother, List.lookup_nil]
      exact Option.or_none
    cases hlook : d.nodes.lookup q with
    | some n => rw [node?_of_some (hlookup.trans hlook), node?_of_some hlook]
    | none =>
      rw [node?_of_none (hlookup.trans hlook), node?_of_none hlook]
      simp only [onTheWay_put h hplace hlook]

theorem write_eq_ok (h : d.write p bytes = .ok d') :
    ∃ place, d.locate p = .ok place ∧ d' = d.put place bytes := by
  obtain ⟨place, hplace, h⟩ := bind_eq_ok_iff.mp h
  refine ⟨place, hplace, ?_⟩
  split at h
  · cases h
  · cases h
    rfl

/-- A file that is written changes the place that its path leads to, and nothing else. -/
theorem write_frame (h : d.write p bytes = .ok d') :
    ∃ place, d.locate p = .ok place ∧
      ∀ q, d'.node? q = if q = place then some (.file bytes) else d.node? q := by
  obtain ⟨place, hplace, rfl⟩ := write_eq_ok h
  exact ⟨place, hplace, node?_put (locate_reached hplace) bytes⟩

end PackedSchema.Command.Directory
