import PackedSchema.Proofs.Schema.Wording

/-!
# What is wrong with a file

A file that follows the grammar is a schema, unless a type in it is not supported, a field has no name or a
length has too many digits. Building the schema fails for one of these faults and for nothing else, as the
trees of a file have every part that is asked for.
-/

namespace PackedSchema

open Source

namespace Source

/-! ## Faults -/

mutual

/-- A type as messages show it. -/
def TypeNode.text : TypeNode → String
  | name t => t.text
  | array _ elem length _ => "[" ++ elem.text ++ "; " ++ length.text ++ "]"
  | apply n args _ => n.text ++ "<" ++ ", ".intercalate (TypeNode.texts args) ++ ">"

def TypeNode.texts : List TypeNode → List String
  | [] => []
  | ty :: types => ty.text :: TypeNode.texts types

end

/-- The failure tells of a part of a type that is not supported. -/
inductive TypeNode.Fault (owner : Owner) : TypeNode → Failure → Prop
  | element {opening length closing : Token} {elem : TypeNode}
      (h : ∀ t, elem = .name t → ScalarKind.ofKeyword? t.text = none) :
      Fault owner (.array opening elem length closing)
        (.of (.nonScalarElement elem.text owner) (some elem.span))
  | length {opening t length closing : Token} {k : ScalarKind} (ht : t.text = k.keyword)
      (h : length.Is .name) :
      Fault owner (.array opening (.name t) length closing)
        (.of (.variableLength k length.text owner) (some length.span))
  | digits {opening t length closing : Token} {k : ScalarKind} (ht : t.text = k.keyword)
      (h : length.Is .int) (hlong : Numeral.limit < length.text.toList.length) :
      Fault owner (.array opening (.name t) length closing)
        (.numeral (.tooLongToRead length.text.toList.length))
  | zero {opening t length closing : Token} {k : ScalarKind} (ht : t.text = k.keyword)
      (h : length.Is .int) (hzero : Nat.ofDigitChars 10 length.text.toList 0 = 0) :
      Fault owner (.array opening (.name t) length closing) (.of (.zeroLength k owner) (some length.span))
  | wrapper {n closing : Token} {args : List TypeNode} (h : ¬ (n.text = "Ref" ∧ args.length = 1)) :
      Fault owner (.apply n args closing) (.of (.unsupportedType (TypeNode.apply n args closing).text owner)
        (some (TypeNode.apply n args closing).span))
  | argument {n closing : Token} {arg : TypeNode} {f : Failure} (hn : n.text = "Ref")
      (h : Fault owner arg f) : Fault owner (.apply n [arg] closing) f

/-- The failure tells of a field without a name, or of its type. -/
inductive FieldNode.Fault (struct : String) : FieldNode → Failure → Prop
  | unnamed {ty : TypeNode} : Fault struct ⟨none, ty⟩ (.of (.unnamedField struct) (some ty.span))
  | type {n : Token} {ty : TypeNode} {f : Failure} (h : ty.Fault (.field n.text struct) f) :
      Fault struct ⟨some n, ty⟩ f

def File.decls : File → List DeclNode
  | bare decls => decls
  | block _ _ decls _ => decls

/-- The failure tells of a field of a struct, or of a type in the payload of a variant. -/
inductive File.Fault (file : File) (f : Failure) : Prop
  | field {keyword n closing : Token} {fields : List FieldNode} {node : FieldNode}
      (hd : .struct keyword n fields closing ∈ file.decls) (hnode : node ∈ fields)
      (h : node.Fault n.text f)
  | payload {keyword n closing : Token} {variants : List VariantNode} {node : VariantNode} {ty : TypeNode}
      (hd : .enum keyword n variants closing ∈ file.decls) (hnode : node ∈ variants)
      (hty : ty ∈ payloadTypes node.payload) (h : ty.Fault (.variant node.name.text n.text) f)

/-- The induction over types goes into all arguments of a type. -/
@[elab_as_elim]
theorem TypeNode.inside {P : TypeNode → Prop} (name : ∀ n, P (.name n))
    (array : ∀ opening elem length closing, P elem → P (.array opening elem length closing))
    (apply : ∀ n args closing, (∀ arg ∈ args, P arg) → P (.apply n args closing)) (ty : TypeNode) : P ty :=
  @TypeNode.rec P (fun args => ∀ arg ∈ args, P arg) name array apply (List.forall_mem_nil P)
    (fun _ _ hty htypes => List.forall_mem_cons.mpr ⟨hty, htypes⟩) ty

end Source

/-! ## Types -/

section Types

open Source.Tree (fieldType fieldTypes typeText typeTexts nameText)

variable {owner : Owner} {ts : List Token}

theorem span_tree (ty : TypeNode) : ty.tree.span = some ty.span := by
  cases ty <;> rfl

theorem typeTexts_trees {types : List TypeNode} (h : ∀ ty ∈ types, typeText ty.tree = .ok ty.text) :
    typeTexts (TypeNode.trees types) = (TypeNode.texts types).map .ok := by
  induction types with
  | nil => rfl
  | cons ty types ih =>
    rw [List.forall_mem_cons] at h
    simp [TypeNode.trees, typeTexts, TypeNode.texts, h.1, ih h.2]

/-- The text of a type that follows the grammar can be made. -/
theorem typeText_tree {ty : TypeNode} (h : ty.Written ts) : typeText ty.tree = .ok ty.text := by
  induction ty using TypeNode.inside generalizing ts with
  | name n =>
    cases h with
    | name hn => simp [TypeNode.tree, typeText, TypeNode.text, hn]
  | array opening elem length closing ih =>
    cases h with
    | array _ helem =>
      simp only [TypeNode.tree, typeText, typeTexts, isType_tree, ih helem, TypeNode.text]
      rfl
  | apply n args closing ih =>
    cases h with
    | apply hn _ hargs =>
      have htexts : typeTexts (TypeNode.trees args) = (TypeNode.texts args).map .ok := by
        apply typeTexts_trees
        intro arg harg
        -- Every argument follows the grammar on tokens of its own.
        obtain ⟨part, hpart, -⟩ := hargs.exists_part harg
        exact ih arg harg hpart
      have hmapM : ((TypeNode.texts args).map .ok).mapM (Except.mapError Tree.argumentFailure) =
          .ok (TypeNode.texts args) := by
        rw [List.mapM_map]
        exact List.mapM_pure.trans (congrArg Except.ok (List.map_id _))
      simp only [TypeNode.tree, typeText, typeTexts, isType_token, String.reduceBEq, Bool.false_eq_true,
        if_false, beq_self_eq_true, if_true, htexts, hmapM, nameText_name hn, TypeNode.text]
      rfl

theorem scalar?_eq_none {elem : TypeNode} (helem : elem.Written ts) (h : elem.tree.scalar? = none) :
    ∀ t, elem = .name t → ScalarKind.ofKeyword? t.text = none := by
  rintro t rfl
  cases helem with
  | name hn => simpa [TypeNode.tree, Tree.scalar?, hn] using h

/-- The digits of a length are read as a number, unless there are too many of them. -/
theorem read_length {length : Token} (hvalid : length.word.Valid) (hint : length.Is .int) :
    Numeral.read length.text =
      if length.text.toList.length ≤ Numeral.limit then .ok (Nat.ofDigitChars 10 length.text.toList 0)
      else .error (.tooLongToRead length.text.toList.length) := by
  rw [word_of_is_int hint] at hvalid
  rw [← Numeral.read_digits hvalid.1 hvalid.2, String.ofList_toList]

theorem vectorType_failsWith {opening length closing : Token} {elem : TypeNode} (helem : elem.Written ts)
    (hlength : length.Is .int ∨ length.Is .name) (hvalid : length.word.Valid) :
    FailsWith (TypeNode.Fault owner (.array opening elem length closing))
      (Tree.vectorType owner elem.tree length.tree) := by
  rw [Token.tree, Tree.vectorType]
  cases hscalar : elem.tree.scalar? with
  | none =>
    rw [typeText_tree helem, span_tree]
    rintro _ ⟨⟩
    exact .element (scalar?_eq_none helem hscalar)
  | some k =>
    obtain ⟨t, hn, rfl, -, ht⟩ := scalar?_eq_some helem hscalar
    dsimp only
    -- The grammar has digits or a name for the length, and only digits are read.
    rcases hlength with hint | hname
    · rw [hint.eq, read_length hvalid hint]
      by_cases hlimit : length.text.toList.length ≤ Numeral.limit
      · rw [if_pos hlimit]
        by_cases hzero : Nat.ofDigitChars 10 length.text.toList 0 = 0
        · rw [hzero]
          rintro _ ⟨⟩
          exact .zero ht hint hzero
        · have hcount : (Nat.ofDigitChars 10 length.text.toList 0 : Int) ≠ 0 := by omega
          change FailsWith _ (if (Nat.ofDigitChars 10 length.text.toList 0 : Int) = 0 then _ else _)
          rw [if_neg hcount]
          exact .ok _
      · rw [if_neg hlimit]
        rintro _ ⟨⟩
        exact .digits ht hint (Nat.not_le.mp hlimit)
    · rw [hname.eq]
      rintro _ ⟨⟩
      exact .length ht hname

/-- A type that follows the grammar is a type of a field, or has a fault. -/
theorem fieldType_failsWith {ty : TypeNode} (hts : ∀ t ∈ ts, t.word.Valid) (h : ty.Written ts) :
    FailsWith (ty.Fault owner) (fieldType owner ty.tree) := by
  induction ty using TypeNode.inside generalizing ts with
  | name n =>
    cases h with
    | name hn =>
      rw [fieldType_name hn]
      exact .ok _
  | array opening elem length closing ih =>
    cases h with
    | @array o s l c elem inside ho helem hs hlength hc =>
      rw [fieldType_array]
      exact vectorType_failsWith helem hlength (hts length (by simp))
  | apply n args closing ih =>
    have htext := typeText_tree h
    cases h with
    | @apply n o c args inside hn ho hargs hc =>
      simp only [TypeNode.tree] at htext ⊢
      simp only [fieldType, fieldTypes, isType_token, fieldTypes_trees, nameText_name hn]
      simp only [String.reduceBEq, Bool.false_eq_true, if_false, beq_self_eq_true, if_true]
      split
      case h_1 inner hwrapper hone =>
        obtain ⟨arg, rfl, rfl⟩ := List.map_eq_singleton_iff.mp hone
        obtain ⟨part, hpart, hinside⟩ := hargs.exists_part (List.mem_singleton_self arg)
        have hfault := ih arg (List.mem_singleton_self arg) (fun t ht => hts t (by simp [hinside t ht])) hpart
        exact (hfault.mono fun f hf => .argument (beq_iff_eq.mp hwrapper) hf).map
      case h_2 hother =>
        -- The error shows the whole type, whose text can be made.
        rw [htext]
        rintro _ ⟨⟩
        refine .wrapper ?_
        rintro ⟨hname, hone⟩
        obtain ⟨arg, rfl⟩ := List.length_eq_one_iff.mp hone
        exact hother _ (beq_iff_eq.mpr hname) rfl

end Types

/-! ## Files -/

section Files

open Source.Tree (fieldType fieldTypes)

variable {ts : List Token} {n : Token}

theorem field_failsWith {struct : String} {node : FieldNode} (hts : ∀ t ∈ ts, t.word.Valid)
    (h : node.Written ts) : FailsWith (node.Fault struct) (Tree.field struct node.tree) := by
  cases h with
  | @named n colon ty inside hn hcolon hty =>
    simp only [List.forall_mem_cons] at hts
    simp only [FieldNode.tree, Tree.field, beq_self_eq_true, firstName?_name hn, List.find?_cons,
      isType_token, isType_tree]
    exact ((fieldType_failsWith hts.2.2 hty).mono fun f hf => .type hf).bind fun _ _ => .ok _
  | unnamed hty =>
    rintro _ ⟨⟩
    exact .unnamed

theorem Source.VariantNode.Written.parts {node : VariantNode} (h : node.Written ts) :
    node.name.Is .name ∧
      ∀ ty ∈ payloadTypes node.payload, ∃ part, ty.Written part ∧ ∀ t ∈ part, t ∈ ts := by
  cases h with
  | bare hn => exact ⟨hn, List.forall_mem_nil _⟩
  | payload hn _ htypes =>
    refine ⟨hn, fun ty hty => ?_⟩
    obtain ⟨part, hpart, hinside⟩ := htypes.exists_part hty
    exact ⟨part, hpart, fun t ht => by simp [hinside t ht]⟩

theorem variant_failsWith {enum : String} {node : VariantNode} (hts : ∀ t ∈ ts, t.word.Valid)
    (h : node.Written ts) :
    FailsWith (fun f => ∃ ty ∈ payloadTypes node.payload, ty.Fault (.variant node.name.text enum) f)
      (Tree.variant enum node.tree) := by
  obtain ⟨hn, hparts⟩ := h.parts
  rw [variant_tree hn, fieldTypes_trees]
  refine (FailsWith.mapM ?_).bind fun _ _ => .ok _
  rw [List.forall_mem_map]
  intro ty hty
  obtain ⟨part, hpart, hinside⟩ := hparts ty hty
  exact (fieldType_failsWith (fun t ht => hts t (hinside t ht)) hpart).mono fun f hf => ⟨ty, hty, hf⟩

theorem decl_failsWith {file : File} {node : DeclNode} (hts : ∀ t ∈ ts, t.word.Valid)
    (hnode : node ∈ file.decls) (h : node.Written ts) : FailsWith file.Fault (Tree.decl node.tree) := by
  cases h with
  | @struct k n o c fields inside hk hn ho hfields hc =>
    rw [decl_struct_tree hn]
    refine FailsWith.map ((FailsWith.mapM ?_).bind fun _ _ => .ok _)
    rw [List.forall_mem_map]
    intro field hfield
    obtain ⟨part, hpart, hinside⟩ := hfields.exists_part hfield
    exact (field_failsWith (fun t ht => hts t (by simp [hinside t ht])) hpart).mono
      fun f hf => .field hnode hfield hf
  | @enum k n o c variants inside hk hn ho hvariants hc =>
    rw [decl_enum_tree hn]
    refine FailsWith.map ((FailsWith.mapM ?_).bind fun _ _ => .ok _)
    rw [List.forall_mem_map]
    intro variant hvariant
    obtain ⟨part, hpart, hinside⟩ := hvariants.exists_part hvariant
    exact (variant_failsWith (fun t ht => hts t (by simp [hinside t ht])) hpart).mono
      fun f ⟨ty, hty, hf⟩ => .payload hnode hvariant hty hf

theorem decls_failsWith (file : File) (hts : ∀ t ∈ ts, t.word.Valid)
    (h : Sequenced DeclNode.Written file.decls ts) :
    FailsWith file.Fault ((file.decls.map DeclNode.tree).mapM Tree.decl) := by
  apply FailsWith.mapM
  rw [List.forall_mem_map]
  intro node hnode
  obtain ⟨part, hpart, hinside⟩ := h.exists_part hnode
  exact decl_failsWith (fun t ht => hts t (hinside t ht)) hnode hpart

/-- A file that follows the grammar is a schema, or has a fault. -/
theorem ofTree_failsWith {file : File} (hts : ∀ t ∈ ts, t.word.Valid) (h : file.Written ts) :
    FailsWith file.Fault (Schema.ofTree file.tree) := by
  cases h with
  | @bare decls ts hdecls =>
    rw [ofTree_bare]
    exact (decls_failsWith (.bare decls) hts hdecls).bind fun _ _ => .ok _
  | @block k n o c decls inside hk hn ho hdecls hc =>
    have hinside : ∀ t ∈ inside, t.word.Valid := fun t ht => hts t (by simp [ht])
    rw [ofTree_block hn]
    exact (decls_failsWith (.block k n decls c) hinside hdecls).bind fun _ _ => .ok _

end Files

end PackedSchema
