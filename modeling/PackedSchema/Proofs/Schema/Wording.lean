import PackedSchema.Proofs.Decimal.Numeral
import PackedSchema.Proofs.Schema.Places
import PackedSchema.Proofs.Source.Reading
import PackedSchema.Schema.OfTree

/-!
# The words of a schema

How schemas are written: the sequences of words that mean a schema. A text that spells such a sequence is
read as the schema, and every schema that is read from a text is spelled by it.
-/

namespace PackedSchema

open Source

/-! ## Words -/

/-- The word of a name. -/
def nameWord (name : String) : Word := ⟨.name, name.toList⟩

def isComma (w : Word) : Prop := w = Terminal.comma.word

/-- The words of a type. The count of a vector is a decimal number, which may begin with zeros. -/
inductive FieldType.Worded : FieldType → List Word → Prop
  | scalar (k : ScalarKind) : Worded (.scalar k) [nameWord k.keyword]
  | vector {k : ScalarKind} {count : Nat} {digits : List Char} (hlimit : digits.length ≤ Numeral.limit)
      (hvalue : Nat.ofDigitChars 10 digits 0 = count) (hcount : 0 < count) :
      Worded (.vector k count) [Terminal.lsqb.word, nameWord k.keyword, Terminal.semicolon.word,
        ⟨.int, digits⟩, Terminal.rsqb.word]
  | named {name : String} (hname : ScalarKind.ofKeyword? name = none) :
      Worded (.named name) [nameWord name]
  | ref {inner : FieldType} {ws : List Word} (hinner : Worded inner ws) :
      Worded (.ref inner) (nameWord "Ref" :: Terminal.less.word :: (ws ++ [Terminal.more.word]))

inductive Field.Worded (f : Field) : List Word → Prop
  | intro {ws : List Word} (hty : f.ty.Worded ws) :
      Worded f (nameWord f.name :: Terminal.colon.word :: ws)

/-- The words of a variant. One without a payload may still have parentheses. -/
inductive Variant.Worded (v : Variant) : List Word → Prop
  | bare (hpayload : v.payload = []) : Worded v [nameWord v.name]
  | payload {ws : List Word} (hpayload : Listed true isComma FieldType.Worded v.payload ws) :
      Worded v (nameWord v.name :: Terminal.lpar.word :: (ws ++ [Terminal.rpar.word]))

inductive Decl.Worded : Decl → List Word → Prop
  | struct {d : StructDecl} {ws : List Word} (hfields : Listed true isComma Field.Worded d.fields ws) :
      Worded (.struct d) (Terminal.struct.word :: nameWord d.name :: Terminal.lbrace.word ::
        (ws ++ [Terminal.rbrace.word]))
  | enum {d : EnumDecl} {ws : List Word} (hvariants : Listed true isComma Variant.Worded d.variants ws) :
      Worded (.enum d) (Terminal.enum.word :: nameWord d.name :: Terminal.lbrace.word ::
        (ws ++ [Terminal.rbrace.word]))

/-- The words of a schema. If it has a name, its declarations stand in a block of that name. -/
inductive Schema.Worded (s : Schema) : List Word → Prop
  | bare {ws : List Word} (hname : s.name = none) (hdecls : Sequenced Decl.Worded s.decls ws) :
      Worded s ws
  | block {name : String} {ws : List Word} (hname : s.name = some name)
      (hdecls : Sequenced Decl.Worded s.decls ws) :
      Worded s (Terminal.mod.word :: nameWord name :: Terminal.lbrace.word ::
        (ws ++ [Terminal.rbrace.word]))

/-! ## Words of tokens -/

section Tokens

variable {t : Token} {u : Terminal}

theorem is_of_word_eq (h : t.word = u.word) : t.Is u := congrArg Word.terminal h

theorem word_eq_iff (hvalid : t.word.Valid) (hname : u ≠ .name) (hint : u ≠ .int) :
    t.word = u.word ↔ t.Is u := by
  refine ⟨is_of_word_eq, fun h => ?_⟩
  have hterminal : t.word.terminal = u := h
  have htext : t.word.text = u.spelling := by
    unfold Word.Valid at hvalid
    split at hvalid <;> simp_all
  exact Word.ext hterminal htext

theorem word_eq_nameWord_iff {name : String} : t.word = nameWord name ↔ t.Is .name ∧ t.text = name := by
  simp [Token.word, nameWord, Token.Is, String.toList_inj]

theorem word_of_is_int (h : t.Is .int) : t.word = ⟨.int, t.text.toList⟩ := Word.ext h rfl

theorem isComma_word_iff (hvalid : t.word.Valid) : isComma t.word ↔ t.Is .comma :=
  word_eq_iff hvalid (by simp) (by simp)

end Tokens

/-! ## Trees of files -/

section Trees

open Source.Tree (firstName? nameText fieldType fieldTypes)

variable {n : Token} {ts : List Tree} {owner : Owner}

@[simp] theorem firstName?_name (hn : n.Is .name) :
    firstName? (n.tree :: ts) = some ⟨"NAME", n.text, some n.span⟩ := by
  simp [firstName?, Token.tree, Tree.leaf?, hn.eq, Terminal.id]

@[simp] theorem nameText_name (hn : n.Is .name) : nameText (n.tree :: ts) = n.text := by
  simp [nameText, hn]

@[simp] theorem isType_tree (ty : TypeNode) : ty.tree.isType = true := by
  cases ty <;> simp [TypeNode.tree, Tree.isType, Tree.hasLabel]

@[simp] theorem isType_token (t : Token) : t.tree.isType = false := rfl

@[simp] theorem hasLabel_token (t : Token) (label : String) : t.tree.hasLabel label = false := rfl

@[simp] theorem hasLabel_node (name label : String) (children : List Tree) (span : Option Span) :
    (Source.Tree.node name children span).hasLabel label = (name == label) := rfl

@[simp] theorem fieldTypes_trees (types : List TypeNode) :
    fieldTypes owner (TypeNode.trees types) = types.map fun ty => fieldType owner ty.tree := by
  induction types with
  | nil => simp [TypeNode.trees, fieldTypes]
  | cons ty types ih => simp [TypeNode.trees, fieldTypes, ih]

/-! ### Types -/

theorem fieldType_name (hn : n.Is .name) :
    fieldType owner (TypeNode.name n).tree =
      .ok (((ScalarKind.ofKeyword? n.text).map FieldType.scalar).getD (.named n.text)) := by
  simp [TypeNode.tree, fieldType, hn]

theorem ofKeyword?_eq_some_iff {word : String} {k : ScalarKind} :
    ScalarKind.ofKeyword? word = some k ↔ word = k.keyword := by
  constructor
  · intro h
    have hfound := List.find?_some h
    exact (beq_iff_eq.mp hfound).symm
  · rintro rfl
    cases k <;> decide

theorem isInt_of_id {t : Token} (h : t.terminal.id = "INT") : t.Is .int := by
  have hid : ∀ u : Terminal, u.id = "INT" → u = .int := by
    intro u hu
    cases u <;> simp [Terminal.id] at hu ⊢
  exact hid t.terminal h

variable {opening length closing : Token} {elem : TypeNode} {ty : FieldType}

theorem scalar?_eq_some {ts : List Token} {k : ScalarKind} (helem : elem.Written ts)
    (h : elem.tree.scalar? = some k) : ∃ t, t.Is .name ∧ elem = .name t ∧ ts = [t] ∧ t.text = k.keyword := by
  cases helem with
  | name hn =>
    simp only [TypeNode.tree, Tree.scalar?, beq_self_eq_true, if_true, nameText_name hn,
      ofKeyword?_eq_some_iff] at h
    exact ⟨_, hn, rfl, rfl, h⟩
  | array => simp [TypeNode.tree, Tree.scalar?] at h
  | apply => simp [TypeNode.tree, Tree.scalar?] at h

theorem fieldType_array :
    fieldType owner (TypeNode.array opening elem length closing).tree =
      Tree.vectorType owner elem.tree length.tree := by
  simp [TypeNode.tree, fieldType]

theorem fieldType_array_eq_ok_iff :
    fieldType owner (TypeNode.array opening elem length closing).tree = .ok ty ↔
      ∃ k count, elem.tree.scalar? = some k ∧ length.Is .int ∧ Numeral.read length.text = .ok count ∧
        count ≠ 0 ∧ ty = .vector k count := by
  rw [fieldType_array, Token.tree, Tree.vectorType]
  cases hscalar : elem.tree.scalar? with
  | none =>
    simp only [reduceCtorEq, false_and, exists_false, iff_false]
    intro h
    obtain ⟨_, -, h⟩ := bind_eq_ok_iff.mp h
    cases h
  | some kind =>
    simp only [bne_iff_ne, ne_eq, ite_not]
    split
    case isTrue hid =>
      have hint := isInt_of_id hid
      cases hread : Numeral.read length.text with
      | error f => simp
      | ok count =>
        by_cases hzero : count = 0
        · simp [hzero]
        · simp [hzero, hint, eq_comm]
    case isFalse hid =>
      have hint : ¬ length.Is .int := fun hint => hid (by rw [hint.eq]; rfl)
      simp [hint]

theorem fieldType_apply_eq_ok_iff {args : List TypeNode} (hn : n.Is .name) :
    fieldType owner (TypeNode.apply n args closing).tree = .ok ty ↔
      ∃ arg inner, args = [arg] ∧ n.text = "Ref" ∧ fieldType owner arg.tree = .ok inner ∧
        ty = .ref inner := by
  simp only [TypeNode.tree, fieldType, fieldTypes, isType_token, fieldTypes_trees, nameText_name hn]
  simp only [String.reduceBEq, Bool.false_eq_true, if_false, beq_self_eq_true, if_true]
  split
  · rename_i inner hwrapper hargs
    obtain ⟨arg, rfl, rfl⟩ := List.map_eq_singleton_iff.mp hargs
    have hwrapper : n.text = "Ref" := beq_iff_eq.mp hwrapper
    rw [map_eq_ok_iff]
    constructor
    · rintro ⟨inner, hinner, rfl⟩
      exact ⟨arg, inner, rfl, hwrapper, hinner, rfl⟩
    · rintro ⟨_, inner, heq, -, hinner, rfl⟩
      cases heq
      exact ⟨inner, hinner, rfl⟩
  · rename_i hnot
    refine iff_of_false ?_ ?_
    · intro h
      obtain ⟨_, -, h⟩ := bind_eq_ok_iff.mp h
      cases h
    · rintro ⟨arg, inner, rfl, hwrapper, -⟩
      exact hnot _ (beq_iff_eq.mpr hwrapper) rfl

theorem written_of_worded {ts : List Token} (hts : ∀ t ∈ ts, t.word.Valid)
    (h : ty.Worded (ts.map Token.word)) :
    ∃ node : TypeNode, node.Written ts ∧ fieldType owner node.tree = .ok ty := by
  generalize hws : ts.map Token.word = ws at h
  induction h generalizing ts with
  | scalar k =>
    simp only [List.map_eq_cons_iff, List.map_eq_nil_iff] at hws
    obtain ⟨t, _, rfl, ht, rfl⟩ := hws
    obtain ⟨hn, htext⟩ := word_eq_nameWord_iff.mp ht
    refine ⟨.name t, .name hn, ?_⟩
    simp [fieldType_name hn, ofKeyword?_eq_some_iff.mpr htext]
  | @vector k count digits hlimit hvalue hcount =>
    simp only [List.map_eq_cons_iff, List.map_eq_nil_iff] at hws
    obtain ⟨o, _, rfl, ho, t, _, rfl, ht, s, _, rfl, hs, l, _, rfl, hl, c, _, rfl, hc, rfl⟩ := hws
    obtain ⟨hn, htext⟩ := word_eq_nameWord_iff.mp ht
    have hlength : l.Is .int := congrArg Word.terminal hl
    have hdigits : l.text.toList = digits := congrArg Word.text hl
    refine ⟨.array o (.name t) l c, .array (is_of_word_eq ho) (.name hn) (is_of_word_eq hs) (.inl hlength)
      (is_of_word_eq hc), fieldType_array_eq_ok_iff.mpr ⟨k, count, ?_, hlength, ?_, ?_, rfl⟩⟩
    · simp [TypeNode.tree, Tree.scalar?, hn, ofKeyword?_eq_some_iff, htext]
    · have hvalid : l.word.Valid := hts l (by simp)
      rw [hl] at hvalid
      rw [← String.ofList_toList (s := l.text), hdigits, Numeral.read_digits hvalid.1 hvalid.2,
        if_pos hlimit, hvalue]
    · omega
  | @named name hname =>
    simp only [List.map_eq_cons_iff, List.map_eq_nil_iff] at hws
    obtain ⟨t, _, rfl, ht, rfl⟩ := hws
    obtain ⟨hn, rfl⟩ := word_eq_nameWord_iff.mp ht
    refine ⟨.name t, .name hn, ?_⟩
    simp [fieldType_name hn, hname]
  | ref hinner ih =>
    simp only [List.map_eq_cons_iff, List.map_eq_append_iff, List.map_eq_nil_iff] at hws
    obtain ⟨n, _, rfl, hn, o, _, rfl, ho, inside, _, rfl, hinside, c, _, rfl, hc, rfl⟩ := hws
    obtain ⟨hn, htext⟩ := word_eq_nameWord_iff.mp hn
    obtain ⟨node, hnode, hty⟩ := ih (fun t ht => hts t (by simp [ht])) hinside
    exact ⟨.apply n [node] c, .apply hn (is_of_word_eq ho) (.last hnode) (is_of_word_eq hc),
      (fieldType_apply_eq_ok_iff hn).mpr ⟨node, _, rfl, htext, hty, rfl⟩⟩

theorem worded_of_written {ts : List Token} {node : TypeNode} (hts : ∀ t ∈ ts, t.word.Valid)
    (hnode : node.Written ts) (h : fieldType owner node.tree = .ok ty) : ty.Worded (ts.map Token.word) := by
  induction hlength : ts.length using Nat.strong_induction_on generalizing ts node ty with
  | _ bound ih =>
    cases hnode with
    | @name n hn =>
      rw [fieldType_name hn] at h
      cases h
      have hword : n.word = nameWord n.text := word_eq_nameWord_iff.mpr ⟨hn, rfl⟩
      cases hkeyword : ScalarKind.ofKeyword? n.text with
      | none =>
        rw [List.map_singleton, hword]
        exact .named hkeyword
      | some k =>
        rw [List.map_singleton, hword, ofKeyword?_eq_some_iff.mp hkeyword]
        exact .scalar k
    | @array o s l c elem inside ho helem hs hl hc =>
      obtain ⟨k, count, hscalar, hint, hread, hzero, rfl⟩ := fieldType_array_eq_ok_iff.mp h
      obtain ⟨t, hn, rfl, rfl, htext⟩ := scalar?_eq_some helem hscalar
      simp only [List.singleton_append, List.forall_mem_cons, List.not_mem_nil, false_imp_iff, implies_true,
        and_true] at hts
      obtain ⟨hvo, hvt, hvs, hvl, hvc⟩ := hts
      have hword := word_of_is_int hint
      have hvl : l.text.toList ≠ [] ∧ ∀ c ∈ l.text.toList, c.isDigit = true := by
        rw [hword] at hvl
        exact hvl
      rw [← String.ofList_toList (s := l.text), Numeral.read_digits hvl.1 hvl.2] at hread
      split at hread
      case isTrue hlimit =>
        cases hread
        simp only [List.map_cons, List.singleton_append, List.map_nil,
          (word_eq_iff hvo (by simp) (by simp)).mpr ho, word_eq_nameWord_iff.mpr ⟨hn, htext⟩,
          (word_eq_iff hvs (by simp) (by simp)).mpr hs, hword, (word_eq_iff hvc (by simp) (by simp)).mpr hc]
        exact .vector hlimit rfl (by omega)
      case isFalse => cases hread
    | @apply n o c args inside hn ho hargs hc =>
      obtain ⟨arg, inner, rfl, htext, hinner, rfl⟩ := (fieldType_apply_eq_ok_iff hn).mp h
      simp only [List.forall_mem_cons, List.forall_mem_append, List.not_mem_nil, false_imp_iff, implies_true,
        and_true] at hts
      obtain ⟨-, hvo, hvinside, hvc⟩ := hts
      -- A list of one argument is that argument.
      have harg : arg.Written inside := by
        cases hargs with
        | last h => exact h
        | cons _ _ hrest => nomatch hrest
      have hinner := ih inside.length (by rw [← hlength]; simp; omega) hvinside harg hinner rfl
      simp only [List.map_cons, List.map_append, List.map_nil, word_eq_nameWord_iff.mpr ⟨hn, htext⟩,
        (word_eq_iff hvo (by simp) (by simp)).mpr ho, (word_eq_iff hvc (by simp) (by simp)).mpr hc]
      exact .ref hinner

/-- Words mean a type exactly if the grammar and the builder make it from their tokens. -/
theorem worded_type_iff (owner : Owner) {ts : List Token} (hts : ∀ t ∈ ts, t.word.Valid) :
    ty.Worded (ts.map Token.word) ↔
      ∃ node : TypeNode, node.Written ts ∧ fieldType owner node.tree = .ok ty :=
  ⟨written_of_worded hts, fun ⟨_, hnode, h⟩ => worded_of_written hts hnode h⟩

/-! ### Fields -/

theorem field_named {struct : String} {node : TypeNode} {f : Field} (hn : n.Is .name) :
    Tree.field struct (FieldNode.tree ⟨some n, node⟩) = .ok f ↔
      ∃ ty, fieldType (.field n.text struct) node.tree = .ok ty ∧
        f = { name := n.text, ty, loc := some (FieldNode.span ⟨some n, node⟩) } := by
  simp only [FieldNode.tree, Tree.field, beq_self_eq_true, firstName?_name hn, List.find?_cons, isType_token,
    isType_tree]
  exact bind_pure_eq_ok_iff

theorem worded_field_iff (struct : String) {f : Field} {ts : List Token} (hts : ∀ t ∈ ts, t.word.Valid) :
    f.Worded (ts.map Token.word) ↔ ∃ node : FieldNode, node.Written ts ∧
      ∃ f', Tree.field struct node.tree = .ok f' ∧ f'.plain = f.plain := by
  constructor
  · intro h
    generalize hws : ts.map Token.word = ws at h
    obtain ⟨hty⟩ := h
    simp only [List.map_eq_cons_iff] at hws
    obtain ⟨n, _, rfl, hn, colon, rest, rfl, hcolon, rfl⟩ := hws
    obtain ⟨hn, hname⟩ := word_eq_nameWord_iff.mp hn
    simp only [List.forall_mem_cons] at hts
    obtain ⟨node, hnode, hty⟩ := (worded_type_iff (.field n.text struct) hts.2.2).mp hty
    refine ⟨⟨some n, node⟩, .named hn (is_of_word_eq hcolon) hnode, _, (field_named hn).mpr ⟨_, hty, rfl⟩, ?_⟩
    simp [Field.plain, hname]
  · rintro ⟨node, hnode, f', hf', hplain⟩
    cases hnode with
    | @named n colon node inside hn hcolon hnode =>
      obtain ⟨ty, hty, rfl⟩ := (field_named hn).mp hf'
      simp only [List.forall_mem_cons] at hts
      obtain ⟨-, hvcolon, hvinside⟩ := hts
      obtain ⟨name, ty', loc⟩ := f
      simp only [Field.plain, Field.mk.injEq, and_true] at hplain
      obtain ⟨rfl, rfl⟩ := hplain
      simp only [List.map_cons, word_eq_nameWord_iff.mpr ⟨hn, rfl⟩,
        (word_eq_iff hvcolon (by simp) (by simp)).mpr hcolon]
      exact .intro ((worded_type_iff _ hvinside).mpr ⟨node, hnode, hty⟩)
    | unnamed hnode => simp [FieldNode.tree, Tree.field] at hf'

/-! ### Variants -/

theorem mapM_fieldTypes_eq_ok_iff {types : List TypeNode} {payload : List FieldType} :
    (fieldTypes owner (TypeNode.trees types)).mapM id = .ok payload ↔
      List.Forall₂ (fun node ty => fieldType owner node.tree = .ok ty) types payload := by
  rw [mapM_eq_ok_iff, fieldTypes_trees, List.forall₂_map_left_iff]
  rfl

/-- The types in the payload of a variant, none if it has no parentheses. -/
def payloadTypes (payload : Option PayloadNode) : List TypeNode := (payload.map PayloadNode.types).getD []

theorem variant_tree {enum : String} {payload : Option PayloadNode} (hn : n.Is .name) :
    Tree.variant enum (VariantNode.tree ⟨n, payload⟩) = do
      let types ← (fieldTypes (.variant n.text enum) (TypeNode.trees (payloadTypes payload))).mapM id
      return { name := n.text, payload := types, nameSpan := some n.span
               loc := some (VariantNode.span ⟨n, payload⟩) } := by
  have hpayload : (((VariantNode.tree ⟨n, payload⟩).children.find?
      (Tree.hasLabel "enum_variant_fields")).map Tree.children).getD [] =
        TypeNode.trees (payloadTypes payload) := by
    cases payload with
    | none => simp [VariantNode.tree, Tree.children, payloadTypes, TypeNode.trees]
    | some payload => rfl
  rw [Tree.variant, hpayload]
  simp only [VariantNode.tree, Tree.children, nameText_name hn, Tree.nameSpan, firstName?_name hn,
    Option.bind_some, Tree.span]

theorem variant_eq_ok_iff {enum : String} {payload : Option PayloadNode} {v : Variant} (hn : n.Is .name) :
    Tree.variant enum (VariantNode.tree ⟨n, payload⟩) = .ok v ↔
      ∃ types, List.Forall₂ (fun node ty => fieldType (.variant n.text enum) node.tree = .ok ty)
          (payloadTypes payload) types ∧
        v = { name := n.text, payload := types, nameSpan := some n.span
              loc := some (VariantNode.span ⟨n, payload⟩) } := by
  simp only [variant_tree hn, bind_pure_eq_ok_iff, mapM_fieldTypes_eq_ok_iff]

theorem worded_payload_iff (owner : Owner) {payload : List FieldType} {ts : List Token}
    (hts : ∀ t ∈ ts, t.word.Valid) :
    Listed true isComma FieldType.Worded payload (ts.map Token.word) ↔
      ∃ nodes, Listed true (Token.Is .comma) TypeNode.Written nodes ts ∧
        List.Forall₂ (fun node ty => fieldType owner node.tree = .ok ty) nodes payload :=
  listed_map_iff hts (fun _ ht => isComma_word_iff ht) fun _ _ hts => worded_type_iff owner hts

theorem worded_variant_iff (enum : String) {v : Variant} {ts : List Token} (hts : ∀ t ∈ ts, t.word.Valid) :
    v.Worded (ts.map Token.word) ↔ ∃ node : VariantNode, node.Written ts ∧
      ∃ v', Tree.variant enum node.tree = .ok v' ∧ v'.plain = v.plain := by
  constructor
  · intro h
    generalize hws : ts.map Token.word = ws at h
    cases h with
    | bare hpayload =>
      simp only [List.map_eq_cons_iff, List.map_eq_nil_iff] at hws
      obtain ⟨n, _, rfl, hn, rfl⟩ := hws
      obtain ⟨hn, hname⟩ := word_eq_nameWord_iff.mp hn
      refine ⟨⟨n, none⟩, .bare hn, _, (variant_eq_ok_iff hn).mpr ⟨[], .nil, rfl⟩, ?_⟩
      simp [Variant.plain, hname, hpayload]
    | payload hpayload =>
      simp only [List.map_eq_cons_iff, List.map_eq_append_iff, List.map_eq_nil_iff] at hws
      obtain ⟨n, _, rfl, hn, opening, _, rfl, hopening, inside, _, rfl, rfl, closing, _, rfl, hclosing, rfl⟩ :=
        hws
      obtain ⟨hn, hname⟩ := word_eq_nameWord_iff.mp hn
      have hinside : ∀ t ∈ inside, t.word.Valid := fun t ht => hts t (by simp [ht])
      obtain ⟨nodes, hnodes, htypes⟩ := (worded_payload_iff (.variant n.text enum) hinside).mp hpayload
      refine ⟨⟨n, some ⟨opening, nodes, closing⟩⟩, .payload hn (is_of_word_eq hopening) hnodes
        (is_of_word_eq hclosing), _, (variant_eq_ok_iff hn).mpr ⟨_, htypes, rfl⟩, ?_⟩
      simp [Variant.plain, hname]
  · rintro ⟨node, hnode, v', hv', hplain⟩
    obtain ⟨name, payload, nameSpan, loc⟩ := v
    cases hnode with
    | bare hn =>
      obtain ⟨types, htypes, rfl⟩ := (variant_eq_ok_iff hn).mp hv'
      cases htypes
      simp only [Variant.plain, Variant.mk.injEq, and_true] at hplain
      obtain ⟨rfl, rfl⟩ := hplain
      rw [List.map_singleton, word_eq_nameWord_iff.mpr ⟨hn, rfl⟩]
      exact .bare rfl
    | payload hn hopening hnodes hclosing =>
      obtain ⟨types, htypes, rfl⟩ := (variant_eq_ok_iff hn).mp hv'
      simp only [Variant.plain, Variant.mk.injEq, and_true] at hplain
      obtain ⟨rfl, rfl⟩ := hplain
      simp only [List.forall_mem_cons, List.forall_mem_append, List.not_mem_nil, false_imp_iff, implies_true,
        and_true] at hts
      obtain ⟨-, hvopening, hvinside, hvclosing⟩ := hts
      simp only [List.map_cons, List.map_append, List.map_nil, word_eq_nameWord_iff.mpr ⟨hn, rfl⟩,
        (word_eq_iff hvopening (by simp) (by simp)).mpr hopening,
        (word_eq_iff hvclosing (by simp) (by simp)).mpr hclosing]
      exact .payload ((worded_payload_iff _ hvinside).mpr ⟨_, hnodes, htypes⟩)

/-! ### Declarations -/

theorem filter_fields (fields : List FieldNode) :
    (n.tree :: fields.map FieldNode.tree).filter
      (fun t => t.hasLabel "struct_field" || t.hasLabel "unnamed_field") = fields.map FieldNode.tree := by
  simp only [List.filter_cons, hasLabel_token, Bool.or_self, Bool.false_eq_true, if_false,
    List.filter_eq_self, List.forall_mem_map]
  rintro ⟨name, ty⟩ _
  cases name <;> rfl

theorem filter_variants (variants : List VariantNode) :
    (n.tree :: variants.map VariantNode.tree).filter (Tree.hasLabel "enum_variant") =
      variants.map VariantNode.tree := by
  simp only [List.filter_cons, hasLabel_token, Bool.false_eq_true, if_false, List.filter_eq_self,
    List.forall_mem_map]
  exact fun _ _ => rfl

theorem decl_struct_tree {fields : List FieldNode} {keyword : Token} (hn : n.Is .name) :
    Tree.decl (DeclNode.struct keyword n fields closing).tree =
      Except.map Decl.struct do
        let fs ← (fields.map FieldNode.tree).mapM (Tree.field n.text)
        return { name := n.text, fields := fs, nameSpan := some n.span
                 loc := some (DeclNode.struct keyword n fields closing).span } := by
  simp only [DeclNode.tree, Tree.decl, hasLabel_node, beq_self_eq_true, if_true, Tree.children, Tree.span,
    Tree.structDecl, nameText_name hn, filter_fields, Tree.nameSpan, firstName?_name hn, Option.bind_some]

theorem decl_enum_tree {variants : List VariantNode} {keyword : Token} (hn : n.Is .name) :
    Tree.decl (DeclNode.enum keyword n variants closing).tree =
      Except.map Decl.enum do
        let vs ← (variants.map VariantNode.tree).mapM (Tree.variant n.text)
        return { name := n.text, variants := vs, nameSpan := some n.span
                 loc := some (DeclNode.enum keyword n variants closing).span } := by
  simp only [DeclNode.tree, Tree.decl, hasLabel_node, String.reduceBEq, Bool.false_eq_true, if_false,
    Tree.children, Tree.span, Tree.enumDecl, nameText_name hn, filter_variants, Tree.nameSpan,
    firstName?_name hn, Option.bind_some]

theorem decl_struct_eq_ok_iff {fields : List FieldNode} {keyword : Token} (hn : n.Is .name) (d : Decl) :
    Tree.decl (DeclNode.struct keyword n fields closing).tree = .ok d ↔
      ∃ fs, (fields.map FieldNode.tree).mapM (Tree.field n.text) = .ok fs ∧
        d = .struct { name := n.text, fields := fs, nameSpan := some n.span
                      loc := some (DeclNode.struct keyword n fields closing).span } := by
  simp only [decl_struct_tree hn, map_eq_ok_iff, bind_pure_eq_ok_iff]
  constructor
  · rintro ⟨_, ⟨fs, hfs, rfl⟩, rfl⟩
    exact ⟨fs, hfs, rfl⟩
  · rintro ⟨fs, hfs, rfl⟩
    exact ⟨_, ⟨fs, hfs, rfl⟩, rfl⟩

theorem decl_enum_eq_ok_iff {variants : List VariantNode} {keyword : Token} (hn : n.Is .name) (d : Decl) :
    Tree.decl (DeclNode.enum keyword n variants closing).tree = .ok d ↔
      ∃ vs, (variants.map VariantNode.tree).mapM (Tree.variant n.text) = .ok vs ∧
        d = .enum { name := n.text, variants := vs, nameSpan := some n.span
                    loc := some (DeclNode.enum keyword n variants closing).span } := by
  simp only [decl_enum_tree hn, map_eq_ok_iff, bind_pure_eq_ok_iff]
  constructor
  · rintro ⟨_, ⟨vs, hvs, rfl⟩, rfl⟩
    exact ⟨vs, hvs, rfl⟩
  · rintro ⟨vs, hvs, rfl⟩
    exact ⟨_, ⟨vs, hvs, rfl⟩, rfl⟩

theorem exists_struct_iff {fields : List FieldNode} {keyword : Token} {s : StructDecl} (hn : n.Is .name)
    (hname : n.text = s.name) :
    (∃ d', Tree.decl (DeclNode.struct keyword n fields closing).tree = .ok d' ∧
        d'.plain = (Decl.struct s).plain) ↔
      List.Forall₂ (fun node f => ∃ f', Tree.field n.text (FieldNode.tree node) = .ok f' ∧
        f'.plain = f.plain) fields s.fields := by
  rw [exists_built_iff (decl_struct_eq_ok_iff hn) (fun fs => ?_), List.forall₂_map_left_iff]
  simp [Decl.plain, StructDecl.plain, hname]

theorem exists_enum_iff {variants : List VariantNode} {keyword : Token} {e : EnumDecl} (hn : n.Is .name)
    (hname : n.text = e.name) :
    (∃ d', Tree.decl (DeclNode.enum keyword n variants closing).tree = .ok d' ∧
        d'.plain = (Decl.enum e).plain) ↔
      List.Forall₂ (fun node v => ∃ v', Tree.variant n.text (VariantNode.tree node) = .ok v' ∧
        v'.plain = v.plain) variants e.variants := by
  rw [exists_built_iff (decl_enum_eq_ok_iff hn) (fun vs => ?_), List.forall₂_map_left_iff]
  simp [Decl.plain, EnumDecl.plain, hname]

theorem worded_fields_iff (struct : String) {fields : List Field} {ts : List Token}
    (hts : ∀ t ∈ ts, t.word.Valid) :
    Listed true isComma Field.Worded fields (ts.map Token.word) ↔
      ∃ nodes, Listed true (Token.Is .comma) FieldNode.Written nodes ts ∧ List.Forall₂ (fun node f =>
        ∃ f', Tree.field struct (FieldNode.tree node) = .ok f' ∧ f'.plain = f.plain) nodes fields :=
  listed_map_iff hts (fun _ ht => isComma_word_iff ht) fun _ _ hts => worded_field_iff struct hts

theorem worded_variants_iff (enum : String) {variants : List Variant} {ts : List Token}
    (hts : ∀ t ∈ ts, t.word.Valid) :
    Listed true isComma Variant.Worded variants (ts.map Token.word) ↔
      ∃ nodes, Listed true (Token.Is .comma) VariantNode.Written nodes ts ∧ List.Forall₂ (fun node v =>
        ∃ v', Tree.variant enum (VariantNode.tree node) = .ok v' ∧ v'.plain = v.plain) nodes variants :=
  listed_map_iff hts (fun _ ht => isComma_word_iff ht) fun _ _ hts => worded_variant_iff enum hts

/-- The tokens of four words around others: a keyword, a name and two marks. -/
theorem map_word_eq_iff {keyword opening closing : Terminal} {name : String} {ws : List Word}
    {ts : List Token} (hts : ∀ t ∈ ts, t.word.Valid) (hkeyword : keyword ≠ .name ∧ keyword ≠ .int)
    (hopening : opening ≠ .name ∧ opening ≠ .int) (hclosing : closing ≠ .name ∧ closing ≠ .int) :
    ts.map Token.word = keyword.word :: nameWord name :: opening.word :: (ws ++ [closing.word]) ↔
      ∃ k n o inside c, ts = k :: n :: o :: (inside ++ [c]) ∧ k.Is keyword ∧ n.Is .name ∧ n.text = name ∧
        o.Is opening ∧ c.Is closing ∧ inside.map Token.word = ws := by
  constructor
  · intro h
    simp only [List.map_eq_cons_iff, List.map_eq_append_iff, List.map_eq_nil_iff] at h
    obtain ⟨k, _, rfl, hk, n, _, rfl, hn, o, _, rfl, ho, inside, _, rfl, rfl, c, _, rfl, hc, rfl⟩ := h
    obtain ⟨hn, hname⟩ := word_eq_nameWord_iff.mp hn
    exact ⟨k, n, o, inside, c, rfl, is_of_word_eq hk, hn, hname, is_of_word_eq ho, is_of_word_eq hc, rfl⟩
  · rintro ⟨k, n, o, inside, c, rfl, hk, hn, hname, ho, hc, rfl⟩
    simp only [List.forall_mem_cons, List.forall_mem_append, List.not_mem_nil, false_imp_iff, implies_true,
      and_true] at hts
    obtain ⟨hvk, -, hvo, -, hvc⟩ := hts
    simp only [List.map_cons, List.map_append, List.map_nil, word_eq_nameWord_iff.mpr ⟨hn, hname⟩,
      (word_eq_iff hvk hkeyword.1 hkeyword.2).mpr hk, (word_eq_iff hvo hopening.1 hopening.2).mpr ho,
      (word_eq_iff hvc hclosing.1 hclosing.2).mpr hc]

theorem worded_decl_iff {d : Decl} {ts : List Token} (hts : ∀ t ∈ ts, t.word.Valid) :
    d.Worded (ts.map Token.word) ↔ ∃ node : DeclNode, node.Written ts ∧
      ∃ d', Tree.decl node.tree = .ok d' ∧ d'.plain = d.plain := by
  constructor
  · intro h
    generalize hws : ts.map Token.word = ws at h
    cases h with
    | struct hfields =>
      obtain ⟨k, n, o, inside, c, rfl, hk, hn, hname, ho, hc, rfl⟩ :=
        (map_word_eq_iff hts (by simp) (by simp) (by simp)).mp hws
      have hinside : ∀ t ∈ inside, t.word.Valid := fun t ht => hts t (by simp [ht])
      obtain ⟨nodes, hnodes, hall⟩ := (worded_fields_iff n.text hinside).mp hfields
      exact ⟨.struct k n nodes c, .struct hk hn ho hnodes hc, (exists_struct_iff hn hname).mpr hall⟩
    | enum hvariants =>
      obtain ⟨k, n, o, inside, c, rfl, hk, hn, hname, ho, hc, rfl⟩ :=
        (map_word_eq_iff hts (by simp) (by simp) (by simp)).mp hws
      have hinside : ∀ t ∈ inside, t.word.Valid := fun t ht => hts t (by simp [ht])
      obtain ⟨nodes, hnodes, hall⟩ := (worded_variants_iff n.text hinside).mp hvariants
      exact ⟨.enum k n nodes c, .enum hk hn ho hnodes hc, (exists_enum_iff hn hname).mpr hall⟩
  · rintro ⟨node, hnode, d', hd', hplain⟩
    cases hnode with
    | @struct k n o c fields inside hk hn ho hnodes hc =>
      have hinside : ∀ t ∈ inside, t.word.Valid := fun t ht => hts t (by simp [ht])
      obtain ⟨fs, -, rfl⟩ := (decl_struct_eq_ok_iff hn d').mp hd'
      cases d with
      | enum e => cases hplain
      | struct s =>
        have hname : n.text = s.name := by
          simp only [Decl.plain, StructDecl.plain, Decl.struct.injEq, StructDecl.mk.injEq] at hplain
          exact hplain.1
        rw [(map_word_eq_iff hts (by simp) (by simp) (by simp)).mpr
          ⟨k, n, o, inside, c, rfl, hk, hn, hname, ho, hc, rfl⟩]
        exact .struct ((worded_fields_iff n.text hinside).mpr
          ⟨fields, hnodes, (exists_struct_iff hn hname).mp ⟨_, hd', hplain⟩⟩)
    | @enum k n o c variants inside hk hn ho hnodes hc =>
      have hinside : ∀ t ∈ inside, t.word.Valid := fun t ht => hts t (by simp [ht])
      obtain ⟨vs, -, rfl⟩ := (decl_enum_eq_ok_iff hn d').mp hd'
      cases d with
      | struct s => cases hplain
      | enum e =>
        have hname : n.text = e.name := by
          simp only [Decl.plain, EnumDecl.plain, Decl.enum.injEq, EnumDecl.mk.injEq] at hplain
          exact hplain.1
        rw [(map_word_eq_iff hts (by simp) (by simp) (by simp)).mpr
          ⟨k, n, o, inside, c, rfl, hk, hn, hname, ho, hc, rfl⟩]
        exact .enum ((worded_variants_iff n.text hinside).mpr
          ⟨variants, hnodes, (exists_enum_iff hn hname).mp ⟨_, hd', hplain⟩⟩)

/-! ### Files -/

theorem isDecl_tree (d : DeclNode) :
    (d.tree.hasLabel "struct_def" || d.tree.hasLabel "enum_def") = true := by
  cases d <;> rfl

theorem decls_trees (decls : List DeclNode) :
    Tree.decls (decls.map DeclNode.tree) = (decls.map DeclNode.tree).mapM Tree.decl := by
  rw [Tree.decls, List.filter_eq_self.mpr]
  rw [List.forall_mem_map]
  exact fun d _ => isDecl_tree d

theorem ofTree_bare (decls : List DeclNode) :
    Schema.ofTree (File.bare decls).tree = do
      let ds ← (decls.map DeclNode.tree).mapM Tree.decl
      return { loc := (File.bare decls).span, decls := ds } := by
  have hnone : (decls.map DeclNode.tree).find? (Tree.hasLabel "module_def") = none := by
    rw [List.find?_eq_none, List.forall_mem_map]
    intro d _
    cases d <;> simp [DeclNode.tree]
  simp only [Schema.ofTree, File.tree, hasLabel_node, beq_self_eq_true, if_true, Tree.children, hnone,
    Tree.span, decls_trees]

theorem ofTree_bare_eq_ok_iff {decls : List DeclNode} (s : Schema) :
    Schema.ofTree (File.bare decls).tree = .ok s ↔
      ∃ ds, (decls.map DeclNode.tree).mapM Tree.decl = .ok ds ∧
        s = { loc := (File.bare decls).span, decls := ds } := by
  rw [ofTree_bare, bind_pure_eq_ok_iff]

theorem ofTree_block {decls : List DeclNode} {keyword : Token} (hn : n.Is .name) :
    Schema.ofTree (File.block keyword n decls closing).tree = do
      let ds ← (decls.map DeclNode.tree).mapM Tree.decl
      return { loc := (File.block keyword n decls closing).span, name := some n.text, decls := ds } := by
  have hdecls : Tree.decls (n.tree :: decls.map DeclNode.tree) =
      (decls.map DeclNode.tree).mapM Tree.decl := by
    rw [← decls_trees]
    simp [Tree.decls]
  simp only [Schema.ofTree, File.tree, hasLabel_node, beq_self_eq_true, if_true, Tree.children,
    List.find?_cons, Tree.span, firstName?_name hn, Option.map_some, hdecls]

theorem ofTree_block_eq_ok_iff {decls : List DeclNode} {keyword : Token} (hn : n.Is .name) (s : Schema) :
    Schema.ofTree (File.block keyword n decls closing).tree = .ok s ↔
      ∃ ds, (decls.map DeclNode.tree).mapM Tree.decl = .ok ds ∧
        s = { loc := (File.block keyword n decls closing).span, name := some n.text, decls := ds } := by
  rw [ofTree_block hn, bind_pure_eq_ok_iff]

theorem worded_decls_iff {decls : List Decl} {ts : List Token} (hts : ∀ t ∈ ts, t.word.Valid) :
    Sequenced Decl.Worded decls (ts.map Token.word) ↔
      ∃ nodes, Sequenced DeclNode.Written nodes ts ∧ List.Forall₂ (fun node d =>
        ∃ d', Tree.decl (DeclNode.tree node) = .ok d' ∧ d'.plain = d.plain) nodes decls :=
  sequenced_map_iff hts fun _ _ hts => worded_decl_iff hts

theorem exists_bare_iff {decls : List DeclNode} {s : Schema} (hname : s.name = none) :
    (∃ s', Schema.ofTree (File.bare decls).tree = .ok s' ∧ s'.plain = s.plain) ↔
      List.Forall₂ (fun node d => ∃ d', Tree.decl (DeclNode.tree node) = .ok d' ∧ d'.plain = d.plain) decls
        s.decls := by
  rw [exists_built_iff ofTree_bare_eq_ok_iff (fun ds => ?_), List.forall₂_map_left_iff]
  simp [Schema.plain, hname]

theorem exists_block_iff {decls : List DeclNode} {keyword : Token} {s : Schema} (hn : n.Is .name)
    (hname : s.name = some n.text) :
    (∃ s', Schema.ofTree (File.block keyword n decls closing).tree = .ok s' ∧ s'.plain = s.plain) ↔
      List.Forall₂ (fun node d => ∃ d', Tree.decl (DeclNode.tree node) = .ok d' ∧ d'.plain = d.plain) decls
        s.decls := by
  rw [exists_built_iff (ofTree_block_eq_ok_iff hn) (fun ds => ?_), List.forall₂_map_left_iff]
  simp [Schema.plain, hname]

theorem worded_schema_iff {s : Schema} {ts : List Token} (hts : ∀ t ∈ ts, t.word.Valid) :
    s.Worded (ts.map Token.word) ↔ ∃ f : File, f.Written ts ∧
      ∃ s', Schema.ofTree f.tree = .ok s' ∧ s'.plain = s.plain := by
  constructor
  · intro h
    generalize hws : ts.map Token.word = ws at h
    cases h with
    | bare hname hdecls =>
      rw [← hws] at hdecls
      obtain ⟨nodes, hnodes, hall⟩ := (worded_decls_iff hts).mp hdecls
      exact ⟨.bare nodes, .bare hnodes, (exists_bare_iff hname).mpr hall⟩
    | block hname hdecls =>
      obtain ⟨k, n, o, inside, c, rfl, hk, hn, rfl, ho, hc, rfl⟩ :=
        (map_word_eq_iff hts (by simp) (by simp) (by simp)).mp hws
      have hinside : ∀ t ∈ inside, t.word.Valid := fun t ht => hts t (by simp [ht])
      obtain ⟨nodes, hnodes, hall⟩ := (worded_decls_iff hinside).mp hdecls
      exact ⟨.block k n nodes c, .block hk hn ho hnodes hc, (exists_block_iff hn hname).mpr hall⟩
  · rintro ⟨f, hf, s', hs', hplain⟩
    cases hf with
    | bare hnodes =>
      obtain ⟨ds, -, rfl⟩ := (ofTree_bare_eq_ok_iff s').mp hs'
      have hname : s.name = none := (congrArg Schema.name hplain).symm
      exact .bare hname ((worded_decls_iff hts).mpr
        ⟨_, hnodes, (exists_bare_iff hname).mp ⟨_, hs', hplain⟩⟩)
    | @block k n o c decls inside hk hn ho hnodes hc =>
      have hinside : ∀ t ∈ inside, t.word.Valid := fun t ht => hts t (by simp [ht])
      obtain ⟨ds, -, rfl⟩ := (ofTree_block_eq_ok_iff hn s').mp hs'
      have hname : s.name = some n.text := (congrArg Schema.name hplain).symm
      rw [(map_word_eq_iff hts (by simp) (by simp) (by simp)).mpr
        ⟨k, n, o, inside, c, rfl, hk, hn, rfl, ho, hc, rfl⟩]
      exact .block hname ((worded_decls_iff hinside).mpr
        ⟨_, hnodes, (exists_block_iff hn hname).mp ⟨_, hs', hplain⟩⟩)

end Trees

/-! ## Texts -/

theorem ofText_eq_ok_iff {text : String} {s : Schema} :
    Schema.ofText text = .ok s ↔ ∃ f, File.read text = .ok f ∧ Schema.ofTree f.tree = .ok s := by
  rw [Schema.ofText, bind_eq_ok_iff]
  simp only [Tree.ofText, mapError_eq_ok_iff, map_eq_ok_iff]
  constructor
  · rintro ⟨_, ⟨f, hf, rfl⟩, hs⟩
    exact ⟨f, hf, hs⟩
  · rintro ⟨f, hf, hs⟩
    exact ⟨_, ⟨f, hf, rfl⟩, hs⟩

/-- The text spells the schema: it consists of words of the schema and ignorable text. -/
def Schema.Spelled (s : Schema) (text : String) : Prop := ∃ ws, s.Worded ws ∧ Spells ws text.toList

theorem exists_ofText_iff {text : String} {s : Schema} :
    (∃ s', Schema.ofText text = .ok s' ∧ s'.plain = s.plain) ↔ s.Spelled text := by
  constructor
  · rintro ⟨s', hs', hplain⟩
    obtain ⟨f, hread, hs'⟩ := ofText_eq_ok_iff.mp hs'
    obtain ⟨ts, hf, hspells⟩ := written_of_read hread
    have hts := List.forall_mem_map.mp hspells.valid
    exact ⟨_, (worded_schema_iff hts).mpr ⟨f, hf, s', hs', hplain⟩, hspells⟩
  · rintro ⟨ws, hworded, hspells⟩
    obtain ⟨ts, rfl, hread⟩ := read_of_written hspells
    have hts := List.forall_mem_map.mp hspells.valid
    obtain ⟨f, hf, s', hs', hplain⟩ := (worded_schema_iff hts).mp hworded
    exact ⟨s', ofText_eq_ok_iff.mpr ⟨f, hread f hf, hs'⟩, hplain⟩

/-- Valid words mean a declaration that is read from a text. -/
theorem exists_worded_of_ofText {text : String} {s : Schema} (h : Schema.ofText text = .ok s) {d : Decl}
    (hd : d ∈ s.decls) : ∃ ws, d.Worded ws ∧ ∀ w ∈ ws, w.Valid := by
  obtain ⟨ws, hworded, hspells⟩ := exists_ofText_iff.mp ⟨s, h, rfl⟩
  cases hworded with
  | bare _ hdecls =>
    obtain ⟨part, hpart, hmem⟩ := hdecls.exists_part hd
    exact ⟨part, hpart, fun w hw => hspells.valid w (hmem w hw)⟩
  | block _ hdecls =>
    obtain ⟨part, hpart, hmem⟩ := hdecls.exists_part hd
    exact ⟨part, hpart, fun w hw => hspells.valid w (by simp [hmem w hw])⟩

/-- Words of a schema, with blanks between them, are read as the schema. -/
theorem exists_ofText_spaced {s : Schema} {ws : List Word} {text : String} (hworded : s.Worded ws)
    (hvalid : ∀ w ∈ ws, w.Valid) (htext : text.toList = [' '].intercalate (ws.map Word.text)) :
    ∃ s', Schema.ofText text = .ok s' ∧ s'.plain = s.plain := by
  apply exists_ofText_iff.mpr
  refine ⟨ws, hworded, ?_⟩
  rw [htext]
  exact spells_spaced hvalid

/-- A text is read as a schema, up to the places of its parts, exactly if it spells the schema; and no text
spells two schemas. -/
theorem ofText_spelled (text : String) :
    (∀ s : Schema, (∃ s', Schema.ofText text = .ok s' ∧ s'.plain = s.plain) ↔ s.Spelled text) ∧
      ∀ s₁ s₂ : Schema, s₁.Spelled text → s₂.Spelled text → s₁.plain = s₂.plain := by
  refine ⟨fun s => exists_ofText_iff, fun s₁ s₂ h₁ h₂ => ?_⟩
  obtain ⟨s, hs, hplain⟩ := exists_ofText_iff.mpr h₁
  obtain ⟨s', hs', hplain'⟩ := exists_ofText_iff.mpr h₂
  rw [hs] at hs'
  cases hs'
  exact hplain.symm.trans hplain'

end PackedSchema
