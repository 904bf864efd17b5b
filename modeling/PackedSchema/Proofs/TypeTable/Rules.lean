import PackedSchema.Proofs.Layout.Rank

/-!
# Which schemas have a type table

The rules for schemas, stated without the checks. A schema that keeps them all has a type table. For any
other schema the error tells of the first rule that is broken: names of declarations come first, then the
fields of all structs, then the variants of all enums, and containment comes last.
-/

namespace PackedSchema

variable {s : Schema} {e : SchemaError}

/-! ## The rules -/

/-- Fields have different names; in a struct that has a tag word, none has the name of that word. -/
def FieldRules (tagged : Prop) (fields : List Field) : Prop :=
  (fields.map Field.name).Nodup ∧ (tagged → ∀ f ∈ fields, f.name ≠ tagName)

/-- Variants have different names and payloads of at most one type. -/
def VariantRules (variants : List Variant) : Prop :=
  (variants.map Variant.name).Nodup ∧ ∀ v ∈ variants, v.payload.length ≤ 1

namespace Schema

/-- The name leads the payload of some variant. -/
def Leads (s : Schema) (n : String) : Prop :=
  ∃ d ∈ s.enums, ∃ v ∈ d.variants, v.payload.head? = some (.named n)

/-- The declaration of the first name lays out the second inside itself, which is declared too. -/
def Contains (s : Schema) (a b : String) : Prop :=
  (∃ d ∈ s.decls, d.name = a ∧ .named b ∈ d.contents) ∧ ∃ d ∈ s.decls, d.name = b

structure Lawful (s : Schema) : Prop where
  names : (s.decls.map Decl.name).Nodup
  fields : ∀ d ∈ s.structs, FieldRules (s.Leads d.name) d.fields
  variants : ∀ d ∈ s.enums, VariantRules d.variants
  acyclic : Containment.Acyclic s.Contains

end Schema

/-! ## The first rule that is broken -/

/-- The error tells of the first field of a struct that breaks a rule. -/
inductive FieldFault (tagged : Prop) (struct : String) (fields : List Field) (e : SchemaError) : Prop
  | reserved {before after : List Field} {f : Field} (hfields : fields = before ++ f :: after)
      (hbefore : FieldRules tagged before) (htagged : tagged) (hname : f.name = tagName)
      (herror : e = ⟨.reservedField f.name struct, f.loc⟩) (hcode : e.code.id = "CE0107")
  | repeated {before after : List Field} {f : Field} (hfields : fields = before ++ f :: after)
      (hbefore : FieldRules tagged before) (hfree : tagged → f.name ≠ tagName)
      (hname : f.name ∈ before.map Field.name)
      (herror : e = ⟨.duplicateField f.name struct, f.loc⟩) (hcode : e.code.id = "CE0105")

/-- The error tells of the first variant of an enum that breaks a rule. -/
inductive VariantFault (enum : String) (variants : List Variant) (e : SchemaError) : Prop
  | repeated {before after : List Variant} {v : Variant} (hvariants : variants = before ++ v :: after)
      (hbefore : VariantRules before) (hname : v.name ∈ before.map Variant.name)
      (herror : e = ⟨.duplicateVariant v.name enum, v.nameSpan⟩) (hcode : e.code.id = "CE0106")
  | payload {before after : List Variant} {v : Variant} {reason : PayloadFault}
      (hvariants : variants = before ++ v :: after) (hbefore : VariantRules before)
      (hname : v.name ∉ before.map Variant.name) (hlong : 1 < v.payload.length)
      (hreason : TypeTable.payloadFault? v.payload = some reason)
      (herror : e = ⟨.unsupportedPayload enum v.name reason, v.loc⟩) (hcode : e.code.id = "CE0202")

/-- The error tells of the first rule that a schema breaks. -/
inductive Schema.FirstFault (s : Schema) (e : SchemaError) : Prop
  | name {before after : List Decl} {d : Decl} (hdecls : s.decls = before ++ d :: after)
      (hbefore : (before.map Decl.name).Nodup) (hname : d.name ∈ before.map Decl.name)
      (herror : e = ⟨.duplicateType d.name, d.site⟩) (hcode : e.code.id = "CE0104")
  | struct {before after : List StructDecl} {d : StructDecl} (hnames : (s.decls.map Decl.name).Nodup)
      (hstructs : s.structs = before ++ d :: after)
      (hbefore : ∀ d ∈ before, FieldRules (s.Leads d.name) d.fields)
      (hfault : FieldFault (s.Leads d.name) d.name d.fields e)
  | enum {before after : List EnumDecl} {d : EnumDecl} (hnames : (s.decls.map Decl.name).Nodup)
      (hfields : ∀ d ∈ s.structs, FieldRules (s.Leads d.name) d.fields)
      (henums : s.enums = before ++ d :: after) (hbefore : ∀ d ∈ before, VariantRules d.variants)
      (hfault : VariantFault d.name d.variants e)
  | cycle {names : List String} {d : Decl} (hnames : (s.decls.map Decl.name).Nodup)
      (hfields : ∀ d ∈ s.structs, FieldRules (s.Leads d.name) d.fields)
      (hvariants : ∀ d ∈ s.enums, VariantRules d.variants)
      (hcycle : Containment.IsCycle s.Contains names) (hd : d ∈ s.decls)
      (hhead : names.head? = some d.name) (herror : e = ⟨.recursiveLayout names, d.site⟩)
      (htext : e.text =
        "CE0201: recursive type layout: " ++ " -> ".intercalate (names ++ names.take 1))

theorem not_nodup_of_repeated {α : Type} {name : α → String} {items before after : List α} {a : α}
    (hitems : items = before ++ a :: after) (hname : name a ∈ before.map name) :
    ¬ (items.map name).Nodup := by
  intro hnodup
  rw [hitems, List.map_append, List.map_cons, List.nodup_append] at hnodup
  exact hnodup.2.2 _ hname _ List.mem_cons_self rfl

theorem FieldFault.not_rules {tagged : Prop} {struct : String} {fields : List Field}
    (h : FieldFault tagged struct fields e) : ¬ FieldRules tagged fields := by
  rintro ⟨hnodup, hfree⟩
  cases h with
  | reserved hfields _ htagged hname => exact hfree htagged _ (by simp [hfields]) hname
  | repeated hfields _ _ hname => exact not_nodup_of_repeated hfields hname hnodup

theorem VariantFault.not_rules {enum : String} {variants : List Variant}
    (h : VariantFault enum variants e) : ¬ VariantRules variants := by
  rintro ⟨hnodup, hshort⟩
  cases h with
  | repeated hvariants _ hname => exact not_nodup_of_repeated hvariants hname hnodup
  | @payload _ _ v _ hvariants _ _ hlong =>
    have := hshort v (by simp [hvariants])
    omega

/-- A schema with a first fault is not lawful. -/
theorem Schema.FirstFault.not_lawful (h : s.FirstFault e) : ¬ s.Lawful := by
  intro hlawful
  cases h with
  | name hdecls _ hname => exact not_nodup_of_repeated hdecls hname hlawful.names
  | struct _ hstructs _ hfault => exact hfault.not_rules (hlawful.fields _ (by simp [hstructs]))
  | enum _ _ henums _ hfault => exact hfault.not_rules (hlawful.variants _ (by simp [henums]))
  | cycle _ _ _ hcycle => exact hcycle.not_acyclic hlawful.acyclic

namespace TypeTable

/-! ## Tagged names and containment -/

theorem leadingName?_eq_some {v : Variant} {n : String} :
    leadingName? v = some n ↔ v.payload.head? = some (.named n) := by
  unfold leadingName?
  rcases v.payload.head? with _ | ty
  · simp
  · cases ty <;> simp [FieldType.inlineName?]

theorem mem_taggedNames {n : String} : n ∈ taggedNames s.enums ↔ s.Leads n := by
  simp only [taggedNames, List.mem_eraseDups, List.mem_flatMap, List.mem_filterMap,
    leadingName?_eq_some, Schema.Leads]

theorem mem_inlineNames {d : Decl} {n : String} : n ∈ d.inlineNames ↔ .named n ∈ d.contents := by
  simp only [Decl.inlineNames, List.mem_filterMap]
  constructor
  · rintro ⟨ty, hty, hn⟩
    cases ty <;> cases hn
    exact hty
  · intro hn
    exact ⟨_, hn, rfl⟩

theorem edge_eq_contains (s : Schema) : (Containment.ofDecls s.decls).Edge = s.Contains := by
  funext a b
  simp only [Containment.edge_ofDecls, Schema.Contains, mem_inlineNames]

/-! ## Checks that go through a list -/

section Walk

variable {α : Type} {name : α → String} {fault? : List String → α → Option SchemaError}

/-- Goes through items with the names of those before, up to the first that is at fault. -/
def walk (name : α → String) (fault? : List String → α → Option SchemaError) (seen : List String) :
    List α → Except SchemaError Unit
  | [] => .ok ()
  | a :: rest =>
    match fault? seen a with
    | some e => .error e
    | none => walk name fault? (name a :: seen) rest

/-- A walk that fails has passed the items before the one that is at fault. -/
theorem walk_eq_error {seen : List String} {items : List α}
    (h : walk name fault? seen items = .error e) :
    ∃ before a after, items = before ++ a :: after ∧ walk name fault? seen before = .ok () ∧
      fault? ((before.map name).reverse ++ seen) a = some e := by
  induction items generalizing seen with
  | nil => cases h
  | cons a rest ih =>
    simp only [walk] at h
    cases hfault : fault? seen a with
    | some e' =>
      rw [hfault] at h
      cases h
      exact ⟨[], a, rest, rfl, rfl, hfault⟩
    | none =>
      rw [hfault] at h
      obtain ⟨before, a', after, rfl, hbefore, hfault'⟩ := ih h
      refine ⟨a :: before, a', after, rfl, by simp [walk, hfault, hbefore], ?_⟩
      simpa using hfault'

end Walk

theorem checkNames_eq_walk (seen : List String) (decls : List Decl) :
    checkNames seen decls = walk Decl.name
      (fun seen d => if seen.contains d.name then some ⟨.duplicateType d.name, d.site⟩ else none)
      seen decls := by
  induction decls generalizing seen with
  | nil => rfl
  | cons d rest ih =>
    simp only [checkNames, walk]
    split <;> simp [ih]

theorem checkFields_eq_walk (struct : String) (tagged : Bool) (seen : List String)
    (fields : List Field) :
    checkFields struct tagged seen fields = walk Field.name
      (fun seen f =>
        if tagged && f.name == tagName then some ⟨.reservedField f.name struct, f.loc⟩
        else if seen.contains f.name then some ⟨.duplicateField f.name struct, f.loc⟩ else none)
      seen fields := by
  induction fields generalizing seen with
  | nil => rfl
  | cons f rest ih =>
    simp only [checkFields, walk]
    split
    · rfl
    · split <;> simp [ih]

theorem checkVariants_eq_walk (enum : String) (seen : List String) (variants : List Variant) :
    checkVariants enum seen variants = walk Variant.name
      (fun seen v =>
        if seen.contains v.name then some ⟨.duplicateVariant v.name enum, v.nameSpan⟩
        else (payloadFault? v.payload).map fun fault => ⟨.unsupportedPayload enum v.name fault, v.loc⟩)
      seen variants := by
  induction variants generalizing seen with
  | nil => rfl
  | cons v rest ih =>
    simp only [checkVariants, walk]
    split
    · rfl
    · cases payloadFault? v.payload <;> simp [ih]

/-! ## What the checks find -/

theorem payloadFault?_eq_none_iff (payload : List FieldType) :
    payloadFault? payload = none ↔ payload.length ≤ 1 := by
  unfold payloadFault?
  rcases payload with _ | ⟨first, _ | ⟨second, rest⟩⟩
  · simp
  · simp
  · -- Whether or not the rest of the payload has a name in it, the payload is too long.
    simp only [List.drop_succ_cons, List.drop_zero, List.length_cons]
    split <;> simp

theorem checkVariants_eq_ok_iff (enum : String) (seen : List String) (variants : List Variant) :
    checkVariants enum seen variants = .ok () ↔
      VariantRules variants ∧ ∀ v ∈ variants, v.name ∉ seen := by
  induction variants generalizing seen with
  | nil => simp [checkVariants, VariantRules]
  | cons v rest ih =>
    by_cases hseen : v.name ∈ seen
    · simp [checkVariants, hseen]
    · cases hfault : payloadFault? v.payload with
      | some fault =>
        have hlong : ¬ v.payload.length ≤ 1 := by simp [← payloadFault?_eq_none_iff, hfault]
        simp [checkVariants, hseen, hfault, VariantRules, hlong]
      | none =>
        have hshort : v.payload.length ≤ 1 := (payloadFault?_eq_none_iff _).mp hfault
        simp only [checkVariants, hseen, hfault, ih, VariantRules, List.contains_iff_mem, if_false,
          List.map_cons, List.nodup_cons, List.mem_cons, List.mem_map, forall_eq_or_imp]
        grind

theorem checkNames_eq_error {decls : List Decl} (h : checkNames [] decls = .error e) :
    ∃ before d after, decls = before ++ d :: after ∧ (before.map Decl.name).Nodup ∧
      d.name ∈ before.map Decl.name ∧ e = ⟨.duplicateType d.name, d.site⟩ := by
  rw [checkNames_eq_walk] at h
  obtain ⟨before, d, after, hdecls, hbefore, hfault⟩ := walk_eq_error h
  rw [← checkNames_eq_walk, checkNames_eq_ok_iff] at hbefore
  refine ⟨before, d, after, hdecls, hbefore.1, ?_⟩
  split at hfault
  · rename_i hseen
    cases hfault
    exact ⟨by simpa using hseen, rfl⟩
  · cases hfault

theorem checkFields_rules {struct : String} {tagged : Bool} {fields : List Field} :
    checkFields struct tagged [] fields = .ok () ↔ FieldRules (tagged = true) fields := by
  simp only [checkFields_eq_ok_iff, FieldRules, List.not_mem_nil, not_false_eq_true, true_and]
  grind

theorem checkFields_eq_error {struct : String} {tagged : Bool} {fields : List Field}
    (h : checkFields struct tagged [] fields = .error e) :
    FieldFault (tagged = true) struct fields e := by
  rw [checkFields_eq_walk] at h
  obtain ⟨before, f, after, hfields, hbefore, hfault⟩ := walk_eq_error h
  rw [← checkFields_eq_walk, checkFields_rules] at hbefore
  split at hfault
  · rename_i htag
    cases hfault
    rw [Bool.and_eq_true, beq_iff_eq] at htag
    exact .reserved hfields hbefore htag.1 htag.2 rfl rfl
  · rename_i htag
    split at hfault
    · rename_i hseen
      cases hfault
      refine .repeated hfields hbefore ?_ (by simpa using hseen) rfl rfl
      intro htagged hname
      exact htag (by simp [htagged, hname])
    · cases hfault

theorem checkVariants_eq_error {enum : String} {variants : List Variant}
    (h : checkVariants enum [] variants = .error e) : VariantFault enum variants e := by
  rw [checkVariants_eq_walk] at h
  obtain ⟨before, v, after, hvariants, hbefore, hfault⟩ := walk_eq_error h
  rw [← checkVariants_eq_walk, checkVariants_eq_ok_iff] at hbefore
  split at hfault
  · rename_i hseen
    cases hfault
    exact .repeated hvariants hbefore.1 (by simpa using hseen) rfl rfl
  · rename_i hseen
    obtain ⟨reason, hreason, rfl⟩ := Option.map_eq_some_iff.mp hfault
    refine .payload hvariants hbefore.1 (by simpa using hseen) ?_ hreason rfl rfl
    by_contra hshort
    rw [(payloadFault?_eq_none_iff _).mpr (by omega)] at hreason
    cases hreason

theorem recursiveLayout_text (names : List String) (span : Option Span) :
    (SchemaError.mk (.recursiveLayout names) span).text =
      "CE0201: recursive type layout: " ++ " -> ".intercalate (names ++ names.take 1) := by
  change "CE0201" ++ ": " ++ ("recursive type layout: " ++ (Cause.chain names ++ "")) = _
  simp [Cause.chain, ← String.append_assoc]

theorem checkContainment_eq_error (h : checkContainment s.decls = .error e) :
    ∃ names d, Containment.IsCycle s.Contains names ∧ d ∈ s.decls ∧ names.head? = some d.name ∧
      e = ⟨.recursiveLayout names, d.site⟩ := by
  unfold checkContainment at h
  rw [← edge_eq_contains]
  rcases Containment.findCycle_cases (Containment.ofDecls s.decls) with ⟨-, hnil, -⟩ | ⟨-, hcycle⟩
  · rw [hnil] at h
    cases h
  · cases hnames : (Containment.ofDecls s.decls).findCycle with
    | nil => exact absurd hnames hcycle.1
    | cons head rest =>
      rw [hnames] at h hcycle
      cases h
      -- The first name of a cycle leads on, so it is declared.
      obtain ⟨n, hedge⟩ : ∃ n, (Containment.ofDecls s.decls).Edge head n := by
        have hchain := hcycle.2.2
        cases rest with
        | nil => exact ⟨head, by simpa using hchain⟩
        | cons n rest => exact ⟨n, (List.isChain_cons_cons.mp hchain).1⟩
      obtain ⟨⟨d, hd, hname, -⟩, -⟩ := (Containment.edge_ofDecls _ _ _).mp hedge
      obtain ⟨d', hd'⟩ : ∃ d', s.decls.find? (fun d => d.name == head) = some d' := by
        rw [← Option.isSome_iff_exists, List.find?_isSome]
        exact ⟨d, hd, by simpa using hname⟩
      refine ⟨head :: rest, d', hcycle, List.mem_of_find?_eq_some hd', ?_, by simp [hd']⟩
      have hfound := List.find?_some hd'
      simp only [beq_iff_eq] at hfound
      simp [hfound]

/-! ## The table of a schema -/

/-- A schema that passes all checks is lawful; the check that fails tells of the first fault. -/
theorem ofSchema_ends (s : Schema) :
    Ends (fun t => s.Lawful ∧
        t = { schemaName := s.name, decls := s.decls, tagged := taggedNames s.enums })
      s.FirstFault (ofSchema s) := by
  have htagged (d : StructDecl) :
      ((taggedNames s.enums).contains d.name = true) = s.Leads d.name := by
    simp only [List.contains_iff_mem, mem_taggedNames]
  unfold ofSchema
  -- Every check establishes its rules and leaves those of the later checks open.
  refine Ends.bind (P := fun _ => (s.decls.map Decl.name).Nodup) ?_ fun _ hnames => ?_
  · cases h : checkNames [] s.decls with
    | ok u => exact ((checkNames_eq_ok_iff [] s.decls).mp h).1
    | error e =>
      obtain ⟨before, d, after, hdecls, hbefore, hname, herror⟩ := checkNames_eq_error h
      exact .name hdecls hbefore hname herror (by rw [herror]; rfl)
  refine Ends.bind (P := fun _ => ∀ d ∈ s.structs, FieldRules (s.Leads d.name) d.fields) ?_
    fun _ hfields => ?_
  · cases h : s.structs.forM fun d =>
        checkFields d.name ((taggedNames s.enums).contains d.name) [] d.fields with
    | ok u =>
      intro d hd
      rw [← htagged]
      exact checkFields_rules.mp (forM_eq_ok_iff.mp h d hd)
    | error e =>
      obtain ⟨before, d, after, hstructs, hbefore, hfault⟩ := forM_eq_error h
      refine .struct hnames hstructs (fun d hd => ?_) ?_
      · rw [← htagged]
        exact checkFields_rules.mp (hbefore d hd)
      · rw [← htagged]
        exact checkFields_eq_error hfault
  refine Ends.bind (P := fun _ => ∀ d ∈ s.enums, VariantRules d.variants) ?_ fun _ hvariants => ?_
  · cases h : s.enums.forM fun d => checkVariants d.name [] d.variants with
    | ok u =>
      intro d hd
      exact ((checkVariants_eq_ok_iff _ _ _).mp (forM_eq_ok_iff.mp h d hd)).1
    | error e =>
      obtain ⟨before, d, after, henums, hbefore, hfault⟩ := forM_eq_error h
      refine .enum hnames hfields henums (fun d hd => ?_) (checkVariants_eq_error hfault)
      exact ((checkVariants_eq_ok_iff _ _ _).mp (hbefore d hd)).1
  refine Ends.bind (P := fun _ => Containment.Acyclic s.Contains) ?_ fun _ hacyclic => ?_
  · cases h : checkContainment s.decls with
    | ok u =>
      change Containment.Acyclic s.Contains
      rw [← edge_eq_contains]
      exact (checkContainment_eq_ok_iff s.decls).mp h
    | error e =>
      obtain ⟨names, d, hcycle, hd, hhead, herror⟩ := checkContainment_eq_error h
      refine .cycle hnames hfields hvariants hcycle hd hhead herror ?_
      rw [herror, recursiveLayout_text]
  exact ⟨⟨hnames, hfields, hvariants, hacyclic⟩, rfl⟩

theorem succeeds_ofSchema_iff (s : Schema) : Succeeds (ofSchema s) ↔ s.Lawful := by
  have hends := ofSchema_ends s
  cases h : ofSchema s with
  | ok t =>
    rw [h] at hends
    exact iff_of_true (succeeds_ok t) hends.1
  | error e =>
    rw [h] at hends
    exact iff_of_false (not_succeeds_error e) hends.not_lawful

/-- A schema has a type table exactly if it is lawful. The table has the declarations in their order,
finds each by its name, and tags the names that lead a payload. Without a table, the error tells of the
first rule that is broken. -/
theorem ofSchema_lawful (s : Schema) :
    (Succeeds (ofSchema s) ↔ s.Lawful) ∧
      Ends (fun t => t.schemaName = s.name ∧ t.order = s.decls.map Decl.name ∧
          (∀ n d, t.lookup n = some d ↔ d ∈ s.decls ∧ d.name = n) ∧
          ∀ n, t.isTagged n = true ↔ s.Leads n)
        s.FirstFault (ofSchema s) := by
  refine ⟨succeeds_ofSchema_iff s, ?_⟩
  have hends := ofSchema_ends s
  cases h : ofSchema s with
  | error e =>
    rw [h] at hends
    exact hends
  | ok t =>
    obtain ⟨rfl, hw⟩ := ofSchema_eq_ok h
    refine ⟨rfl, rfl, ?_, ?_⟩
    · intro n d
      constructor
      · exact mem_of_lookup
      · rintro ⟨hd, rfl⟩
        exact hw.lookup_name hd
    · intro n
      simp only [isTagged, List.contains_iff_mem, mem_taggedNames]

end TypeTable

end PackedSchema
