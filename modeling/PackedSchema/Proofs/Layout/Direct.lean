import PackedSchema.Layout.Session
import PackedSchema.Proofs.Layout.Rank
import PackedSchema.Proofs.Layout.Simulation

/-!
# Layouts without a session

The layout rules, applied from declaration to declaration without remembering anything. In a well-formed
table this comes to an end, and its results satisfy the rules exactly.
-/

namespace PackedSchema.Layout

/-! ## Equality as a simulation -/

/-- Computations without a session simulate each other if they are equal. -/
def equality : Simulation (Except Failure) (Except Failure) where
  Rel x y := x = y
  rel_pure _ := rfl
  rel_error _ := rfl
  rel_bind := by
    rintro α β x _ f g rfl hfg
    rw [funext hfg]
  rel_lift_bind := by
    intro α β x f g hfg
    cases x with
    | ok a => exact hfg a rfl
    | error e => rfl

/-! ## Following names -/

/-- The parts of a declaration, from the parts of the declarations that it contains. -/
def Parts.next (t : TypeTable) (p : Parts (Except Failure)) : Parts (Except Failure) where
  shape name := resolveStruct t name >>= p.shapeOf t
  alignment name := resolveStruct t name >>= p.structAlignmentOf t
  extent name := resolveEnum t name >>= p.extentOf t

/-- Parts that follow names to a depth. -/
def directTo (t : TypeTable) : Nat → Parts (Except Failure)
  | 0 =>
    { shape := fun name => .error (.of (.recursiveLayout [name]) none)
      alignment := fun name => .error (.of (.recursiveLayout [name]) none)
      extent := fun name => .error (.of (.recursiveLayout [name]) none) }
  | depth + 1 => (directTo t depth).next t

/-- Parts that follow names as deep as the table goes. -/
def direct (t : TypeTable) : Parts (Except Failure) := directTo t (t.decls.length + 1)

variable {t : TypeTable} {p q : Parts (Except Failure)} {name : String}

/-! ## What the rules say of a name -/

section Names

variable {site : Site} {d : StructDecl} {e : EnumDecl}

theorem sizeOf_named_none (h : t.lookup name = none) :
    p.sizeOf t site (.named name) = .error (.of (.unresolvedType name site.owner) site.span) := by
  change (resolve t name site >>= fun _ => p.declSize t name) = _
  rw [resolve, h]
  rfl

theorem sizeOf_named_some {decl : Decl} (h : t.lookup name = some decl) :
    p.sizeOf t site (.named name) = p.declSize t name := by
  change (resolve t name site >>= fun _ => p.declSize t name) = _
  rw [resolve, h]
  rfl

theorem alignmentOf_named_none (h : t.lookup name = none) :
    p.alignmentOf t site (.named name) = .error (.of (.unresolvedType name site.owner) site.span) := by
  change (resolve t name site >>= _) = _
  rw [resolve, h]
  rfl

theorem alignmentOf_named_enum (h : t.lookup name = some (.enum e)) :
    p.alignmentOf t site (.named name) = .error (.of (.inlineEnum name site.owner) site.span) := by
  change (resolve t name site >>= _) = _
  rw [resolve, h]
  rfl

theorem alignmentOf_named_struct (h : t.lookup name = some (.struct d)) :
    p.alignmentOf t site (.named name) = p.alignment name := by
  change (resolve t name site >>= _) = _
  rw [resolve, h]
  rfl

theorem declSize_none (h : t.lookup name = none) :
    p.declSize t name = .error (.of (.unresolvedType name Site.query.owner) Site.query.span) := by
  change (resolve t name .query >>= _) = _
  rw [resolve, h]
  rfl

theorem declSize_struct (h : t.lookup name = some (.struct d)) :
    p.declSize t name = p.structSize name := by
  change (resolve t name .query >>= _) = _
  rw [resolve, h]
  rfl

theorem declSize_enum (h : t.lookup name = some (.enum e)) :
    p.declSize t name = p.enumSize name := by
  change (resolve t name .query >>= _) = _
  rw [resolve, h]
  rfl

theorem layoutOf_struct (h : t.lookup name = some (.struct d)) :
    p.layoutOf t name = p.shape name >>= fun shape => p.alignment name >>= fun alignment =>
      pure (.struct name shape.size alignment (t.isTagged name) shape.fields) := by
  change (resolve t name .query >>= _) = _
  rw [resolve, h]
  change p.structLayout t name = _
  unfold Parts.structLayout Parts.structSize Parts.structOffsets
  cases p.shape name with
  | error f => rfl
  | ok shape => cases p.alignment name <;> rfl

theorem layoutOf_enum (h : t.lookup name = some (.enum e)) :
    p.layoutOf t name = p.extent name >>= fun extent =>
      pure (.enum name (word + word * bodyWords extent) (bodyWords extent)
        (e.variants.map Variant.name |>.zipIdx firstTag)) := by
  change (resolve t name .query >>= _) = _
  rw [resolve, h]
  change p.enumLayout e name = _
  unfold Parts.enumLayout Parts.enumSize Parts.bodyWords
  cases p.extent name <;> rfl

end Names

/-! ## Following names deep enough -/

theorem resolveStruct_eq_ok_iff {d : StructDecl} :
    resolveStruct t name = .ok d ↔ t.lookup name = some (.struct d) := by
  unfold resolveStruct resolve
  cases t.lookup name with
  | none => simp [bind, Except.bind]
  | some decl => cases decl <;> simp [bind, Except.bind]

theorem resolveEnum_eq_ok_iff {d : EnumDecl} :
    resolveEnum t name = .ok d ↔ t.lookup name = some (.enum d) := by
  unfold resolveEnum resolve
  cases t.lookup name with
  | none => simp [bind, Except.bind]
  | some decl => cases decl <;> simp [bind, Except.bind]

/-- The next parts of a name depend only on what its declaration lays out inline. -/
theorem next_agree
    (h : ∀ d, t.lookup name = some d → ∀ n ∈ d.inlineNames, Agree equality t t p q n) :
    (p.next t).shape name = (q.next t).shape name ∧
      (p.next t).alignment name = (q.next t).alignment name ∧
      (p.next t).extent name = (q.next t).extent name := by
  refine ⟨?_, ?_, ?_⟩
  · apply equality.rel_lift_bind (x := resolveStruct t name)
    intro d hd
    exact equality.rel_shapeOf rfl (h _ (resolveStruct_eq_ok_iff.mp hd))
  · apply equality.rel_lift_bind (x := resolveStruct t name)
    intro d hd
    exact equality.rel_structAlignmentOf rfl (h _ (resolveStruct_eq_ok_iff.mp hd))
  · apply equality.rel_lift_bind (x := resolveEnum t name)
    intro d hd
    exact equality.rel_extentOf (h _ (resolveEnum_eq_ok_iff.mp hd))

/-- Beyond the rank of a name, following names deeper makes no difference. -/
theorem directTo_agree (hw : t.WellFormed) (depth depth' : Nat) (hdepth : t.rank name < depth)
    (hdepth' : t.rank name < depth') :
    (directTo t depth).shape name = (directTo t depth').shape name ∧
      (directTo t depth).alignment name = (directTo t depth').alignment name ∧
      (directTo t depth).extent name = (directTo t depth').extent name := by
  induction depth generalizing name depth' with
  | zero => omega
  | succ depth ih =>
    cases depth' with
    | zero => omega
    | succ depth' =>
      -- What the declaration lays out inline has a lower rank, so both depths are enough for it.
      apply next_agree
      intro d hd n hn
      have hbelow (hsome : (t.lookup n).isSome) := by
        have hrank : t.rank n < t.rank name := hw.rank_lt_of_lookup hd hn hsome
        exact @ih n depth' (by omega) (by omega)
      exact ⟨rfl, fun h => (hbelow h).1, fun h => (hbelow h).2.1, fun h => (hbelow h).2.2⟩

/-- The direct parts satisfy the rules. -/
theorem direct_next (hw : t.WellFormed) (name : String) :
    (direct t).shape name = ((direct t).next t).shape name ∧
      (direct t).alignment name = ((direct t).next t).alignment name ∧
      (direct t).extent name = ((direct t).next t).extent name := by
  have hrank := t.rank_le_length name
  exact directTo_agree hw (t.decls.length + 1) (t.decls.length + 2) (by omega) (by omega)

theorem direct_shape (hw : t.WellFormed) (name : String) :
    (direct t).shape name = resolveStruct t name >>= (direct t).shapeOf t :=
  (direct_next hw name).1

theorem direct_alignment (hw : t.WellFormed) (name : String) :
    (direct t).alignment name = resolveStruct t name >>= (direct t).structAlignmentOf t :=
  (direct_next hw name).2.1

theorem direct_extent (hw : t.WellFormed) (name : String) :
    (direct t).extent name = resolveEnum t name >>= (direct t).extentOf t :=
  (direct_next hw name).2.2

end PackedSchema.Layout
