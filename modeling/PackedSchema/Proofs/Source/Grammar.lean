import PackedSchema.Proofs.Outcome
import PackedSchema.Source.Place
import Mathlib.Data.List.Forall2

/-!
# The grammar as a relation

Which token sequences a part of a file may be read from, and that the places of the parser follow it: the
tokens that lead from a place to a file are those that the grammar allows for what is left of the file.
-/

namespace PackedSchema.Source

/-! ## Sequences -/

section Sequences

variable {α τ : Type}

/-- Items one after the other. -/
inductive Sequenced (P : α → List τ → Prop) : List α → List τ → Prop
  | nil : Sequenced P [] []
  | cons {a : α} {as : List α} {ts rest : List τ} (h : P a ts) (hrest : Sequenced P as rest) :
      Sequenced P (a :: as) (ts ++ rest)

/-- Items with a comma between any two. A loose list may be empty, and otherwise have another comma behind
its last item. -/
inductive Listed (loose : Bool) (comma : τ → Prop) (P : α → List τ → Prop) : List α → List τ → Prop
  | nil (hloose : loose = true) : Listed loose comma P [] []
  | last {a : α} {ts : List τ} (h : P a ts) : Listed loose comma P [a] ts
  | cons {a : α} {as : List α} {c : τ} {ts rest : List τ} (h : P a ts) (hcomma : comma c)
      (hrest : Listed loose comma P as rest) : Listed loose comma P (a :: as) (ts ++ c :: rest)

section Parts

variable {P : α → List τ → Prop} {items : List α} {ts : List τ} {a : α}

/-- The tokens of an item stand together. -/
theorem Sequenced.exists_segment (h : Sequenced P items ts) (ha : a ∈ items) :
    ∃ part, P a part ∧ part <:+: ts := by
  induction h with
  | nil => cases ha
  | @cons b items part rest hb _ ih =>
    rcases List.mem_cons.mp ha with rfl | ha
    · exact ⟨part, hb, (List.prefix_append part rest).isInfix⟩
    · obtain ⟨part', ha', hpart'⟩ := ih ha
      exact ⟨part', ha', hpart'.trans (List.suffix_append part rest).isInfix⟩

theorem Listed.exists_segment {loose : Bool} {comma : τ → Prop} (h : Listed loose comma P items ts)
    (ha : a ∈ items) : ∃ part, P a part ∧ part <:+: ts := by
  induction h with
  | nil => cases ha
  | @last b part hb =>
    cases List.mem_singleton.mp ha
    exact ⟨part, hb, List.infix_refl part⟩
  | @cons b items c part rest hb _ _ ih =>
    rcases List.mem_cons.mp ha with rfl | ha
    · exact ⟨part, hb, (List.prefix_append part (c :: rest)).isInfix⟩
    · obtain ⟨part', ha', hpart'⟩ := ih ha
      exact ⟨part', ha', (hpart'.trans (List.suffix_cons c rest).isInfix).trans
        (List.suffix_append part (c :: rest)).isInfix⟩

theorem Sequenced.exists_part (h : Sequenced P items ts) (ha : a ∈ items) :
    ∃ part, P a part ∧ ∀ t ∈ part, t ∈ ts := by
  obtain ⟨part, hpart, hsegment⟩ := h.exists_segment ha
  exact ⟨part, hpart, fun _ ht => hsegment.mem ht⟩

theorem Listed.exists_part {loose : Bool} {comma : τ → Prop} (h : Listed loose comma P items ts)
    (ha : a ∈ items) : ∃ part, P a part ∧ ∀ t ∈ part, t ∈ ts := by
  obtain ⟨part, hpart, hsegment⟩ := h.exists_segment ha
  exact ⟨part, hpart, fun _ ht => hsegment.mem ht⟩

end Parts

section Images

variable {β σ : Type} {g : τ → σ} {V : τ → Prop} {P : α → List τ → Prop} {Q : β → List σ → Prop}
  {R : α → β → Prop} {items : List β} {ts : List τ}

/-- Items are related one by one to items over the images of the tokens. -/
theorem sequenced_map_iff (hts : ∀ t ∈ ts, V t)
    (hitem : ∀ b ts, (∀ t ∈ ts, V t) → (Q b (ts.map g) ↔ ∃ a, P a ts ∧ R a b)) :
    Sequenced Q items (ts.map g) ↔ ∃ as, Sequenced P as ts ∧ List.Forall₂ R as items := by
  constructor
  · intro h
    generalize hws : ts.map g = ws at h
    induction h generalizing ts with
    | nil =>
      rw [List.map_eq_nil_iff.mp hws]
      exact ⟨[], .nil, .nil⟩
    | cons hb _ ih =>
      obtain ⟨first, rest, rfl, rfl, hrest⟩ := List.map_eq_append_iff.mp hws
      rw [List.forall_mem_append] at hts
      obtain ⟨a, ha, hab⟩ := (hitem _ _ hts.1).mp hb
      obtain ⟨as, has, habs⟩ := ih hts.2 hrest
      exact ⟨a :: as, .cons ha has, .cons hab habs⟩
  · rintro ⟨as, has, hrel⟩
    induction has generalizing items with
    | nil =>
      cases hrel
      exact .nil
    | cons ha _ ih =>
      obtain _ | ⟨hab, hrel⟩ := hrel
      rw [List.forall_mem_append] at hts
      rw [List.map_append]
      exact .cons ((hitem _ _ hts.1).mpr ⟨_, ha, hab⟩) (ih hts.2 hrel)

theorem listed_map_iff {loose : Bool} {comma : τ → Prop} {comma' : σ → Prop} (hts : ∀ t ∈ ts, V t)
    (hcomma : ∀ t, V t → (comma' (g t) ↔ comma t))
    (hitem : ∀ b ts, (∀ t ∈ ts, V t) → (Q b (ts.map g) ↔ ∃ a, P a ts ∧ R a b)) :
    Listed loose comma' Q items (ts.map g) ↔ ∃ as, Listed loose comma P as ts ∧ List.Forall₂ R as items := by
  constructor
  · intro h
    generalize hws : ts.map g = ws at h
    induction h generalizing ts with
    | nil hloose =>
      rw [List.map_eq_nil_iff.mp hws]
      exact ⟨[], .nil hloose, .nil⟩
    | last hb =>
      subst hws
      obtain ⟨a, ha, hab⟩ := (hitem _ _ hts).mp hb
      exact ⟨[a], .last ha, .cons hab .nil⟩
    | cons hb hc _ ih =>
      obtain ⟨first, _, rfl, rfl, hbehind⟩ := List.map_eq_append_iff.mp hws
      obtain ⟨c, rest, rfl, rfl, hrest⟩ := List.map_eq_cons_iff.mp hbehind
      rw [List.forall_mem_append, List.forall_mem_cons] at hts
      obtain ⟨a, ha, hab⟩ := (hitem _ _ hts.1).mp hb
      obtain ⟨as, has, habs⟩ := ih hts.2.2 hrest
      exact ⟨a :: as, .cons ha ((hcomma c hts.2.1).mp hc) has, .cons hab habs⟩
  · rintro ⟨as, has, hrel⟩
    induction has generalizing items with
    | nil hloose =>
      cases hrel
      exact .nil hloose
    | last ha =>
      obtain _ | ⟨hab, hrel⟩ := hrel
      cases hrel
      exact .last ((hitem _ _ hts).mpr ⟨_, ha, hab⟩)
    | cons ha hc _ ih =>
      obtain _ | ⟨hab, hrel⟩ := hrel
      rw [List.forall_mem_append, List.forall_mem_cons] at hts
      rw [List.map_append, List.map_cons]
      exact .cons ((hitem _ _ hts.1).mpr ⟨_, ha, hab⟩) ((hcomma _ hts.2.1).mpr hc) (ih hts.2.2 hrel)

end Images

end Sequences

/-! ## Tokens of files -/

def Token.Is (terminal : Terminal) (t : Token) : Prop := t.terminal = terminal

theorem Token.Is.eq {terminal : Terminal} {t : Token} (h : t.Is terminal) : t.terminal = terminal := h

inductive TypeNode.Written : TypeNode → List Token → Prop
  | name {n : Token} (hn : n.Is .name) : Written (.name n) [n]
  | array {opening semicolon length closing : Token} {elem : TypeNode} {ts : List Token}
      (hopening : opening.Is .lsqb) (helem : Written elem ts) (hsemicolon : semicolon.Is .semicolon)
      (hlength : length.Is .int ∨ length.Is .name) (hclosing : closing.Is .rsqb) :
      Written (.array opening elem length closing) (opening :: (ts ++ [semicolon, length, closing]))
  | apply {n opening closing : Token} {args : List TypeNode} {ts : List Token} (hn : n.Is .name)
      (hopening : opening.Is .less) (hargs : Listed false (Token.Is .comma) Written args ts)
      (hclosing : closing.Is .more) : Written (.apply n args closing) (n :: opening :: (ts ++ [closing]))

inductive FieldNode.Written : FieldNode → List Token → Prop
  | named {n colon : Token} {ty : TypeNode} {ts : List Token} (hn : n.Is .name) (hcolon : colon.Is .colon)
      (hty : ty.Written ts) : Written ⟨some n, ty⟩ (n :: colon :: ts)
  | unnamed {ty : TypeNode} {ts : List Token} (hty : ty.Written ts) : Written ⟨none, ty⟩ ts

inductive VariantNode.Written : VariantNode → List Token → Prop
  | bare {n : Token} (hn : n.Is .name) : Written ⟨n, none⟩ [n]
  | payload {n opening closing : Token} {types : List TypeNode} {ts : List Token} (hn : n.Is .name)
      (hopening : opening.Is .lpar) (htypes : Listed true (Token.Is .comma) TypeNode.Written types ts)
      (hclosing : closing.Is .rpar) :
      Written ⟨n, some ⟨opening, types, closing⟩⟩ (n :: opening :: (ts ++ [closing]))

inductive DeclNode.Written : DeclNode → List Token → Prop
  | struct {keyword n opening closing : Token} {fields : List FieldNode} {ts : List Token}
      (hkeyword : keyword.Is .struct) (hn : n.Is .name) (hopening : opening.Is .lbrace)
      (hfields : Listed true (Token.Is .comma) FieldNode.Written fields ts) (hclosing : closing.Is .rbrace) :
      Written (.struct keyword n fields closing) (keyword :: n :: opening :: (ts ++ [closing]))
  | enum {keyword n opening closing : Token} {variants : List VariantNode} {ts : List Token}
      (hkeyword : keyword.Is .enum) (hn : n.Is .name) (hopening : opening.Is .lbrace)
      (hvariants : Listed true (Token.Is .comma) VariantNode.Written variants ts)
      (hclosing : closing.Is .rbrace) :
      Written (.enum keyword n variants closing) (keyword :: n :: opening :: (ts ++ [closing]))

inductive File.Written : File → List Token → Prop
  | bare {decls : List DeclNode} {ts : List Token} (hdecls : Sequenced DeclNode.Written decls ts) :
      Written (.bare decls) ts
  | block {keyword n opening closing : Token} {decls : List DeclNode} {ts : List Token}
      (hkeyword : keyword.Is .mod) (hn : n.Is .name) (hopening : opening.Is .lbrace)
      (hdecls : Sequenced DeclNode.Written decls ts) (hclosing : closing.Is .rbrace) :
      Written (.block keyword n decls closing) (keyword :: n :: opening :: (ts ++ [closing]))

/-! ## What is left at a place -/

section Rest

/-- There is a next token, and it and the tokens behind it are like that. -/
def Next (P : Token → List Token → Prop) : List Token → Prop
  | [] => False
  | t :: rest => P t rest

@[simp] theorem next_nil {P : Token → List Token → Prop} : ¬ Next P [] := id

@[simp] theorem next_cons {P : Token → List Token → Prop} {t : Token} {rest : List Token} :
    Next P (t :: rest) ↔ P t rest := .rfl

theorem next_iff {P : Token → List Token → Prop} {ts : List Token} :
    Next P ts ↔ ∃ t rest, ts = t :: rest ∧ P t rest := by
  cases ts with
  | nil => simp [Next]
  | cons t rest => simp [Next]

variable {α : Type}

/-- The tokens begin with those of an item, and the others follow it. -/
def Begin (P : α → List Token → Prop) (follows : α → List Token → Prop) (ts : List Token) : Prop :=
  ∃ a inside rest, ts = inside ++ rest ∧ P a inside ∧ follows a rest

/-- The items that are left of a list, the token behind it, and what follows the list of all its items. -/
def ListRest (loose : Bool) (P : α → List Token → Prop) (close : Terminal)
    (follows : List α → Token → List Token → Prop) (done : List α) (ts : List Token) : Prop :=
  ∃ items inside c rest, ts = inside ++ c :: rest ∧ Listed loose (Token.Is .comma) P items inside ∧
    c.Is close ∧ follows (done ++ items) c rest

/-- The same behind an item. -/
def ListEnd (loose : Bool) (P : α → List Token → Prop) (close : Terminal)
    (follows : List α → Token → List Token → Prop) (done : List α) : List Token → Prop :=
  Next fun t rest =>
    t.Is close ∧ follows done t rest ∨ t.Is .comma ∧ ListRest loose P close follows done rest

theorem listRest_iff {loose : Bool} {P : α → List Token → Prop} {close : Terminal}
    {follows : List α → Token → List Token → Prop} {done : List α} {ts : List Token} :
    ListRest loose P close follows done ts ↔
      loose = true ∧ Next (fun t rest => t.Is close ∧ follows done t rest) ts ∨
      Begin P (fun a => ListEnd loose P close follows (done ++ [a])) ts := by
  constructor
  · rintro ⟨items, inside, c, rest, rfl, hitems, hc, hfollows⟩
    cases hitems with
    | nil hloose =>
      rw [List.append_nil] at hfollows
      exact .inl ⟨hloose, hc, hfollows⟩
    | last h => exact .inr ⟨_, _, _, rfl, h, .inl ⟨hc, hfollows⟩⟩
    | cons h hcomma hitems =>
      refine .inr ⟨_, _, _, List.append_assoc .., h, .inr ⟨hcomma, _, _, c, rest, rfl, hitems, hc, ?_⟩⟩
      simpa using hfollows
  · rintro (⟨hloose, h⟩ | ⟨a, inside, rest, rfl, ha, h⟩)
    · cases ts with
      | nil => cases h
      | cons t rest => exact ⟨[], [], t, rest, rfl, .nil hloose, h.1, by simpa using h.2⟩
    · cases rest with
      | nil => cases h
      | cons t rest =>
        obtain ⟨hclose, hfollows⟩ | ⟨hcomma, items, more, c, rest, rfl, hitems, hclose, hfollows⟩ := h
        · exact ⟨[a], inside, t, rest, rfl, .last ha, hclose, hfollows⟩
        · refine ⟨a :: items, _, c, rest, ?_, .cons ha hcomma hitems, hclose, by simpa using hfollows⟩
          simp

/-! ### Types -/

section Types

variable (follows : TypeNode → List Token → Prop)

/-- The tokens behind the length of an array type. -/
def LengthEnd (opening : Token) (elem : TypeNode) (length : Token) : List Token → Prop :=
  Next fun closing rest => closing.Is .rsqb ∧ follows (.array opening elem length closing) rest

/-- The tokens from the length of an array type on. -/
def LengthRest (opening : Token) (elem : TypeNode) : List Token → Prop :=
  Next fun length rest => (length.Is .int ∨ length.Is .name) ∧ LengthEnd follows opening elem length rest

/-- The tokens behind the element of an array type. -/
def ElementEnd (opening : Token) (elem : TypeNode) : List Token → Prop :=
  Next fun t rest => t.Is .semicolon ∧ LengthRest follows opening elem rest

/-- The tokens behind the name that a type begins with. -/
def NameEnd (n : Token) (ts : List Token) : Prop :=
  follows (.name n) ts ∨
    Next (fun t rest => t.Is .less ∧
      ListRest false TypeNode.Written .more (fun args c => follows (.apply n args c)) [] rest) ts

theorem begin_type_iff {ts : List Token} :
    Begin TypeNode.Written follows ts ↔
      Next (fun t rest => t.Is .lsqb ∧ Begin TypeNode.Written (ElementEnd follows t) rest ∨
        t.Is .name ∧ NameEnd follows t rest) ts := by
  constructor
  · rintro ⟨ty, inside, rest, rfl, hty, hfollows⟩
    cases hty with
    | name hn => exact .inr ⟨hn, .inl hfollows⟩
    | array hopening helem hsemicolon hlength hclosing =>
      refine .inl ⟨hopening, _, _, _, List.append_assoc .., helem, hsemicolon, hlength, hclosing, hfollows⟩
    | apply hn hopening hargs hclosing =>
      exact .inr ⟨hn, .inr ⟨hopening, _, _, _, _, List.append_assoc .., hargs, hclosing, hfollows⟩⟩
  · intro h
    obtain ⟨t, ts, rfl, ⟨hopening, elem, inside, rest, rfl, helem, h⟩ | ⟨hn, hfollows | h⟩⟩ := next_iff.mp h
    · obtain ⟨semicolon, _, rfl, hsemicolon, h⟩ := next_iff.mp h
      obtain ⟨length, _, rfl, hlength, h⟩ := next_iff.mp h
      obtain ⟨closing, rest, rfl, hclosing, hfollows⟩ := next_iff.mp h
      exact ⟨_, _, rest, by simp, .array hopening helem hsemicolon hlength hclosing, hfollows⟩
    · exact ⟨_, [t], ts, rfl, .name hn, hfollows⟩
    · obtain ⟨opening, _, rfl, hopening, args, inside, closing, rest, rfl, hargs, hclosing, hfollows⟩ :=
        next_iff.mp h
      exact ⟨_, _, rest, by simp, .apply hn hopening hargs hclosing, hfollows⟩

end Types

/-! ### Fields, variants and declarations -/

theorem begin_field_iff {follows : FieldNode → List Token → Prop} {ts : List Token} :
    Begin FieldNode.Written follows ts ↔
      Next (fun n rest => n.Is .name ∧ Next (fun t rest => t.Is .colon ∧
        Begin TypeNode.Written (fun ty => follows ⟨some n, ty⟩) rest) rest) ts ∨
      Begin TypeNode.Written (fun ty => follows ⟨none, ty⟩) ts := by
  constructor
  · rintro ⟨field, inside, rest, rfl, hfield, hfollows⟩
    cases hfield with
    | named hn hcolon hty => exact .inl ⟨hn, hcolon, _, _, _, rfl, hty, hfollows⟩
    | unnamed hty => exact .inr ⟨_, _, _, rfl, hty, hfollows⟩
  · rintro (h | ⟨ty, inside, rest, rfl, hty, hfollows⟩)
    · obtain ⟨n, _, rfl, hn, h⟩ := next_iff.mp h
      obtain ⟨colon, _, rfl, hcolon, ty, inside, rest, rfl, hty, hfollows⟩ := next_iff.mp h
      exact ⟨_, _, rest, rfl, .named hn hcolon hty, hfollows⟩
    · exact ⟨_, inside, rest, rfl, .unnamed hty, hfollows⟩

theorem begin_variant_iff {follows : VariantNode → List Token → Prop} {ts : List Token} :
    Begin VariantNode.Written follows ts ↔
      Next (fun n rest => n.Is .name ∧ (follows ⟨n, none⟩ rest ∨
        Next (fun opening rest => opening.Is .lpar ∧ ListRest true TypeNode.Written .rpar
          (fun types c => follows ⟨n, some ⟨opening, types, c⟩⟩) [] rest) rest)) ts := by
  constructor
  · rintro ⟨variant, inside, rest, rfl, hvariant, hfollows⟩
    cases hvariant with
    | bare hn => exact ⟨hn, .inl hfollows⟩
    | payload hn hopening htypes hclosing =>
      exact ⟨hn, .inr ⟨hopening, _, _, _, _, List.append_assoc .., htypes, hclosing, hfollows⟩⟩
  · intro h
    obtain ⟨n, ts, rfl, hn, hfollows | h⟩ := next_iff.mp h
    · exact ⟨_, [n], ts, rfl, .bare hn, hfollows⟩
    · obtain ⟨opening, _, rfl, hopening, types, inside, closing, rest, rfl, htypes, hclosing, hfollows⟩ :=
        next_iff.mp h
      exact ⟨_, _, rest, by simp, .payload hn hopening htypes hclosing, hfollows⟩

/-- The tokens behind the opening brace of a declaration. -/
def BodyRest (follows : DeclNode → List Token → Prop) (keyword n : Token) : List Token → Prop :=
  if keyword.terminal = .enum then
    ListRest true VariantNode.Written .rbrace (fun variants c => follows (.enum keyword n variants c)) []
  else
    ListRest true FieldNode.Written .rbrace (fun fields c => follows (.struct keyword n fields c)) []

theorem bodyRest_struct {follows : DeclNode → List Token → Prop} {keyword n : Token}
    (h : keyword.Is .struct) : BodyRest follows keyword n = ListRest true FieldNode.Written .rbrace
      (fun fields c => follows (.struct keyword n fields c)) [] :=
  if_neg (by rw [h]; simp)

theorem bodyRest_enum {follows : DeclNode → List Token → Prop} {keyword n : Token}
    (h : keyword.Is .enum) : BodyRest follows keyword n = ListRest true VariantNode.Written .rbrace
      (fun variants c => follows (.enum keyword n variants c)) [] :=
  if_pos h

theorem begin_decl_iff {follows : DeclNode → List Token → Prop} {ts : List Token} :
    Begin DeclNode.Written follows ts ↔
      Next (fun keyword rest => (keyword.Is .struct ∨ keyword.Is .enum) ∧
        Next (fun n rest => n.Is .name ∧ Next (fun opening rest => opening.Is .lbrace ∧
          BodyRest follows keyword n rest) rest) rest) ts := by
  constructor
  · rintro ⟨decl, inside, rest, rfl, hdecl, hfollows⟩
    cases hdecl with
    | struct hkeyword hn hopening hfields hclosing =>
      refine ⟨.inl hkeyword, hn, hopening, ?_⟩
      rw [bodyRest_struct hkeyword]
      exact ⟨_, _, _, _, List.append_assoc .., hfields, hclosing, hfollows⟩
    | enum hkeyword hn hopening hvariants hclosing =>
      refine ⟨.inr hkeyword, hn, hopening, ?_⟩
      rw [bodyRest_enum hkeyword]
      exact ⟨_, _, _, _, List.append_assoc .., hvariants, hclosing, hfollows⟩
  · intro h
    obtain ⟨keyword, _, rfl, hkeyword, h⟩ := next_iff.mp h
    obtain ⟨n, _, rfl, hn, h⟩ := next_iff.mp h
    obtain ⟨opening, _, rfl, hopening, h⟩ := next_iff.mp h
    obtain hkeyword | hkeyword := hkeyword
    · rw [bodyRest_struct hkeyword] at h
      obtain ⟨fields, inside, closing, rest, rfl, hfields, hclosing, hfollows⟩ := h
      exact ⟨_, _, rest, by simp, .struct hkeyword hn hopening hfields hclosing, hfollows⟩
    · rw [bodyRest_enum hkeyword] at h
      obtain ⟨variants, inside, closing, rest, rfl, hvariants, hclosing, hfollows⟩ := h
      exact ⟨_, _, rest, by simp, .enum hkeyword hn hopening hvariants hclosing, hfollows⟩

end Rest

/-! ### Places -/

/-- The scope with one more declaration. -/
def Scope.extended (scope : Scope) (d : DeclNode) : Scope := { scope with decls := scope.decls ++ [d] }

/-- The tokens from a scope to the end of the file. -/
inductive ScopeRest (f : File) : Scope → List Token → Prop
  | bare {scope : Scope} (hblock : scope.block = none) (hf : f = .bare scope.decls) : ScopeRest f scope []
  | close {scope : Scope} {keyword n closing : Token} (hblock : scope.block = some (keyword, n))
      (hclosing : closing.Is .rbrace) (hf : f = .block keyword n scope.decls closing) :
      ScopeRest f scope [closing]
  | block {keyword n opening : Token} {rest : List Token} (hkeyword : keyword.Is .mod) (hn : n.Is .name)
      (hopening : opening.Is .lbrace) (hrest : ScopeRest f { block := some (keyword, n) } rest) :
      ScopeRest f {} (keyword :: n :: opening :: rest)
  | decl {scope : Scope} {d : DeclNode} {ts rest : List Token} (hd : d.Written ts)
      (hrest : ScopeRest f (scope.extended d) rest) : ScopeRest f scope (ts ++ rest)

section Places

variable (f : File)

def StructEnd (head : Head) (fields : List FieldNode) (closing : Token) : List Token → Prop :=
  ScopeRest f (head.scope.extended (.struct head.keyword head.name fields closing))

def EnumEnd (head : Head) (variants : List VariantNode) (closing : Token) : List Token → Prop :=
  ScopeRest f (head.scope.extended (.enum head.keyword head.name variants closing))

def PayloadEnd (head : Head) (done : List VariantNode) (n opening : Token) (types : List TypeNode)
    (closing : Token) : List Token → Prop :=
  ListEnd true VariantNode.Written .rbrace (EnumEnd f head) (done ++ [⟨n, some ⟨opening, types, closing⟩⟩])

/-- The tokens behind a type. -/
def TypeEnd : Site → List Frame → TypeNode → List Token → Prop
  | .field head done n, [], ty =>
    ListEnd true FieldNode.Written .rbrace (StructEnd f head) (done ++ [⟨n, ty⟩])
  | .payload head done n opening types, [], ty =>
    ListEnd true TypeNode.Written .rpar (PayloadEnd f head done n opening) (types ++ [ty])
  | site, .element opening :: frames, ty => ElementEnd (TypeEnd site frames) opening ty
  | site, .argument n args :: frames, ty =>
    ListEnd false TypeNode.Written .more (fun args c => TypeEnd site frames (.apply n args c)) (args ++ [ty])

def OpeningRest (head : Head) : List Token → Prop :=
  Next fun t rest => t.Is .lbrace ∧
    BodyRest (fun d => ScopeRest f (head.scope.extended d)) head.keyword head.name rest

def BlockRest (keyword n : Token) : List Token → Prop :=
  Next fun t rest => t.Is .lbrace ∧ ScopeRest f { block := some (keyword, n) } rest

/-- The tokens that lead from a place to the file. -/
def Place.Rest : Place → List Token → Prop
  | items scope => ScopeRest f scope
  | blockName keyword => Next fun n rest => n.Is .name ∧ BlockRest f keyword n rest
  | blockOpening keyword n => BlockRest f keyword n
  | closed file => fun ts => ts = [] ∧ f = file
  | declName scope keyword => Next fun n rest => n.Is .name ∧ OpeningRest f ⟨scope, keyword, n⟩ rest
  | declOpening head => OpeningRest f head
  | fields head done => ListRest true FieldNode.Written .rbrace (StructEnd f head) done
  | fieldName head done n => fun ts =>
    Next (fun t rest => t.Is .colon ∧
      Begin TypeNode.Written (TypeEnd f (.field head done (some n)) []) rest) ts ∨
    NameEnd (TypeEnd f (.field head done none) []) n ts
  | variants head done => ListRest true VariantNode.Written .rbrace (EnumEnd f head) done
  | variantName head done n => fun ts =>
    ListEnd true VariantNode.Written .rbrace (EnumEnd f head) (done ++ [⟨n, none⟩]) ts ∨
    Next (fun t rest => t.Is .lpar ∧
      ListRest true TypeNode.Written .rpar (PayloadEnd f head done n t) [] rest) ts
  | variantEnd head done => ListEnd true VariantNode.Written .rbrace (EnumEnd f head) done
  | type (.payload head done n opening types) [] =>
    ListRest true TypeNode.Written .rpar (PayloadEnd f head done n opening) types
  | type site frames => Begin TypeNode.Written (TypeEnd f site frames)
  | typeName site frames n => NameEnd (TypeEnd f site frames) n
  | typeEnd site frames ty => TypeEnd f site frames ty
  | length site frames opening elem => LengthRest (TypeEnd f site frames) opening elem
  | lengthEnd site frames opening elem count => LengthEnd (TypeEnd f site frames) opening elem count

end Places

/-! ## Steps -/

section Steps

variable {f : File} {t : Token} {ts : List Token}

/-- The step leads to a place from which the tokens go on to the file. -/
def Leads (f : File) (step : Step) (ts : List Token) : Prop := ∃ p, step = .ok p ∧ p.Rest f ts

@[simp] theorem leads_ok {p : Place} : Leads f (.ok p) ts ↔ p.Rest f ts := by simp [Leads]

@[simp] theorem not_leads_error {expected : List Symbol} : ¬ Leads f (.error expected) ts := by
  simp [Leads]

@[simp] theorem not_leads_refuse {expected : List Terminal} : ¬ Leads f (refuse expected) ts :=
  not_leads_error

@[simp] theorem not_leads_refuseInList {first : Bool} {closing other : Terminal} :
    ¬ Leads f (refuseInList first closing other t) ts := by
  unfold refuseInList
  split <;> exact not_leads_refuse

theorem leads_endField {head : Head} {done : List FieldNode} :
    Leads f (endField head done t) ts ↔
      ListEnd true FieldNode.Written .rbrace (StructEnd f head) done (t :: ts) := by
  unfold endField
  split <;> simp_all [ListEnd, Token.Is, Place.Rest, Scope.add, StructEnd, Scope.extended]

theorem leads_endVariant {head : Head} {done : List VariantNode} :
    Leads f (endVariant head done t) ts ↔
      ListEnd true VariantNode.Written .rbrace (EnumEnd f head) done (t :: ts) := by
  unfold endVariant
  split <;> simp_all [ListEnd, Token.Is, Place.Rest, Scope.add, EnumEnd, Scope.extended]

section TypeSteps

variable {site : Site} {frames : List Frame} {n opening : Token} {args : List TypeNode}

@[simp] theorem typeEnd_element :
    TypeEnd f site (.element opening :: frames) = ElementEnd (TypeEnd f site frames) opening := by
  cases site <;> rfl

@[simp] theorem typeEnd_argument :
    TypeEnd f site (.argument n args :: frames) = fun ty => ListEnd false TypeNode.Written .more
      (fun args c => TypeEnd f site frames (.apply n args c)) (args ++ [ty]) := by
  cases site <;> rfl

@[simp] theorem rest_type_element :
    Place.Rest f (.type site (.element opening :: frames)) =
      Begin TypeNode.Written (ElementEnd (TypeEnd f site frames) opening) := by
  rw [← typeEnd_element]
  cases site <;> rfl

@[simp] theorem rest_type_argument :
    Place.Rest f (.type site (.argument n args :: frames)) =
      ListRest false TypeNode.Written .more (fun args c => TypeEnd f site frames (.apply n args c)) args := by
  funext ts
  rw [listRest_iff]
  simp only [Bool.false_eq_true, false_and, false_or, ← typeEnd_argument]
  cases site <;> rfl

theorem leads_endType {ty : TypeNode} :
    Leads f (endType site frames ty t) ts ↔ TypeEnd f site frames ty (t :: ts) := by
  unfold endType
  split
  · split <;> simp_all [ElementEnd, Token.Is, Place.Rest]
  · split
    · simp_all [ListEnd, Token.Is]
    · simp_all [ListEnd, Token.Is, Place.Rest]
    · simp_all [ListEnd, Token.Is]
  · split
    · exact leads_endField
    · split <;> simp_all [TypeEnd, ListEnd, Token.Is, Place.Rest, PayloadEnd]

/-- A type is followed by a token that ends it, never by one that goes on with it. -/
theorem mem_afterType {ty : TypeNode} (h : TypeEnd f site frames ty (t :: ts)) :
    t.terminal ∈ afterType := by
  cases frames with
  | nil =>
    cases site with
    | field head done n => obtain ⟨ht, -⟩ | ⟨ht, -⟩ := h <;> simp [afterType, ht.eq]
    | payload head done n opening types => obtain ⟨ht, -⟩ | ⟨ht, -⟩ := h <;> simp [afterType, ht.eq]
  | cons frame frames =>
    cases frame with
    | element opening =>
      rw [typeEnd_element] at h
      simp [afterType, h.1.eq]
    | argument n args =>
      rw [typeEnd_argument] at h
      obtain ⟨ht, -⟩ | ⟨ht, -⟩ := h <;> simp [afterType, ht.eq]

end TypeSteps

theorem scopeRest_cons_iff {scope : Scope} :
    ScopeRest f scope (t :: ts) ↔
      (∃ keyword n, scope.block = some (keyword, n) ∧ t.Is .rbrace ∧ ts = [] ∧
        f = .block keyword n scope.decls t) ∨
      (scope = {} ∧ t.Is .mod ∧ Next (fun n rest => n.Is .name ∧ BlockRest f t n rest) ts) ∨
      Begin DeclNode.Written (fun d => ScopeRest f (scope.extended d)) (t :: ts) := by
  constructor
  · intro h
    generalize htext : t :: ts = text at h
    cases h with
    | bare => cases htext
    | close hblock hclosing hf =>
      cases htext
      exact .inl ⟨_, _, hblock, hclosing, rfl, hf⟩
    | block hkeyword hn hopening hrest =>
      cases htext
      exact .inr (.inl ⟨rfl, hkeyword, hn, hopening, hrest⟩)
    | decl hd hrest => exact .inr (.inr ⟨_, _, _, rfl, hd, hrest⟩)
  · rintro (⟨keyword, n, hblock, hclosing, rfl, hf⟩ | ⟨rfl, hkeyword, h⟩ | ⟨d, inside, rest, heq, hd, hrest⟩)
    · exact .close hblock hclosing hf
    · obtain ⟨n, _, rfl, hn, h⟩ := next_iff.mp h
      obtain ⟨opening, rest, rfl, hopening, hrest⟩ := next_iff.mp h
      exact .block hkeyword hn hopening hrest
    · rw [heq]
      exact .decl hd hrest

theorem rest_type_iff {site : Site} {frames : List Frame} :
    Place.Rest f (.type site frames) ts ↔
      Next (fun t rest => t.Is .lsqb ∧ Begin TypeNode.Written (ElementEnd (TypeEnd f site frames) t) rest ∨
        t.Is .name ∧ NameEnd (TypeEnd f site frames) t rest ∨
        t.Is .rpar ∧ ∃ head done n opening types, site = .payload head done n opening types ∧
          frames = [] ∧ PayloadEnd f head done n opening types t rest) ts := by
  cases frames with
  | nil =>
    cases site with
    | field head done n =>
      change Begin TypeNode.Written (TypeEnd f (.field head done n) []) ts ↔ _
      rw [begin_type_iff]
      simp only [reduceCtorEq, false_and, exists_false, and_false, or_false]
    | payload head done n opening types =>
      change ListRest true TypeNode.Written .rpar (PayloadEnd f head done n opening) types ts ↔ _
      rw [listRest_iff]
      change true = true ∧ _ ∨
        Begin TypeNode.Written (TypeEnd f (.payload head done n opening types) []) ts ↔ _
      rw [begin_type_iff]
      cases ts with
      | nil => simp
      | cons t ts => simp; tauto
  | cons frame frames =>
    have hrest : Place.Rest f (.type site (frame :: frames)) ts ↔
        Begin TypeNode.Written (TypeEnd f site (frame :: frames)) ts := by cases site <;> exact .rfl
    rw [hrest, begin_type_iff]
    simp only [reduceCtorEq, false_and, and_false, exists_false, or_false]

/-- One step: a token leads on from a place exactly if the grammar allows it there. -/
theorem rest_cons_iff {p : Place} : p.Rest f (t :: ts) ↔ Leads f (p.step t) ts := by
  cases p with
  | items scope =>
    obtain ⟨block, decls⟩ := scope
    simp only [Place.Rest, Place.step, scopeRest_cons_iff, begin_decl_iff, next_cons]
    split <;> simp_all [Token.Is, Place.Rest, OpeningRest]
    grind
  | blockName keyword =>
    simp only [Place.Rest, Place.step, next_cons]
    split <;> simp_all [Token.Is, Place.Rest]
  | blockOpening keyword n =>
    simp only [Place.Rest, Place.step, next_cons, BlockRest]
    split <;> simp_all [Token.Is, Place.Rest]
  | closed file => simp [Place.Rest, Place.step]
  | declName scope keyword =>
    simp only [Place.Rest, Place.step, next_cons]
    split <;> simp_all [Token.Is, Place.Rest]
  | declOpening head =>
    simp only [Place.Rest, Place.step, next_cons, OpeningRest]
    split
    · simp_all [Token.Is, Place.Rest, BodyRest]
      rfl
    · simp_all [Token.Is, Place.Rest, BodyRest]
      rfl
    · simp_all [Token.Is]
  | fields head done =>
    simp only [Place.Rest, Place.step]
    rw [listRest_iff, begin_field_iff, begin_type_iff]
    simp only [next_cons]
    split
    · simp_all [Token.Is]
      rfl
    · simp_all [Token.Is, Place.Rest]
      rfl
    · simp_all [Token.Is, Place.Rest, Scope.add, StructEnd, Scope.extended]
    · simp_all [Token.Is]
  | fieldName head done n =>
    simp only [Place.Rest, Place.step, next_cons, NameEnd]
    split
    case h_1 hcolon =>
      have hnot : ¬ TypeEnd f (.field head done none) [] (.name n) (t :: ts) := fun h => by
        simpa [hcolon, afterType] using mem_afterType h
      simp [Token.Is, hcolon, hnot, Place.Rest]
    case h_2 hless =>
      have hnot : ¬ TypeEnd f (.field head done none) [] (.name n) (t :: ts) := fun h => by
        simpa [hless, afterType] using mem_afterType h
      simp [Token.Is, hless, hnot]
    case h_3 => simp_all [Token.Is, leads_endType]
  | variants head done =>
    simp only [Place.Rest, Place.step]
    rw [listRest_iff, begin_variant_iff]
    simp only [next_cons]
    split
    · simp_all [Token.Is, Place.Rest]
      rfl
    · simp_all [Token.Is, Place.Rest, Scope.add, EnumEnd, Scope.extended]
    · simp_all [Token.Is]
  | variantName head done n =>
    simp only [Place.Rest, Place.step, next_cons]
    split
    · simp_all [Token.Is, Place.Rest, ListEnd]
    · simp_all [Token.Is, leads_endVariant]
  | variantEnd head done => exact leads_endVariant.symm
  | type site frames =>
    rw [rest_type_iff]
    simp only [next_cons, Place.step]
    split
    · simp_all [Token.Is]
    · simp_all [Token.Is, Place.Rest]
    · simp_all [Token.Is, Place.Rest, PayloadEnd]
    · simp_all [Token.Is]
      grind
  | typeName site frames n =>
    simp only [Place.Rest, Place.step, next_cons, NameEnd]
    split
    case h_1 hless =>
      have hnot : ¬ TypeEnd f site frames (.name n) (t :: ts) := fun h => by
        simpa [hless, afterType] using mem_afterType h
      simp [Token.Is, hless, hnot]
    case h_2 => simp_all [Token.Is, leads_endType]
  | typeEnd site frames ty => exact leads_endType.symm
  | length site frames opening elem =>
    simp only [Place.Rest, Place.step, next_cons, LengthRest]
    split <;> simp_all [Token.Is, Place.Rest]
  | lengthEnd site frames opening elem count =>
    simp only [Place.Rest, Place.step, next_cons, LengthEnd]
    split <;> simp_all [Token.Is, Place.Rest]

@[simp] theorem not_listRest_nil {α : Type} {loose : Bool} {P : α → List Token → Prop} {close : Terminal}
    {follows : List α → Token → List Token → Prop} {done : List α} :
    ¬ ListRest loose P close follows done [] := by simp [ListRest]

@[simp] theorem not_typeEnd_nil {site : Site} {frames : List Frame} {ty : TypeNode} :
    ¬ TypeEnd f site frames ty [] := by
  cases frames with
  | nil => cases site <;> simp [TypeEnd, ListEnd]
  | cons frame frames =>
    cases frame with
    | element opening => simp [ElementEnd]
    | argument n args => simp [ListEnd]

theorem scopeRest_nil_iff {scope : Scope} :
    ScopeRest f scope [] ↔ scope.block = none ∧ f = .bare scope.decls := by
  constructor
  · intro h
    generalize htext : ([] : List Token) = text at h
    cases h with
    | bare hblock hf => exact ⟨hblock, hf⟩
    | close => cases htext
    | block => cases htext
    | decl hd hrest => cases hd <;> cases htext
  · rintro ⟨hblock, hf⟩
    exact .bare hblock hf

theorem rest_nil_iff {p : Place} : p.Rest f [] ↔ p.finish = .ok f := by
  cases p with
  | items scope =>
    obtain ⟨block, decls⟩ := scope
    cases block <;> simp [Place.Rest, Place.finish, scopeRest_nil_iff, eq_comm]
  | closed file => simp [Place.Rest, Place.finish, eq_comm]
  | type site frames => simp [rest_type_iff, Place.finish]
  | _ => simp [Place.Rest, Place.finish, BlockRest, OpeningRest, NameEnd, LengthRest, LengthEnd, ListEnd]

/-! ## Runs -/

/-- Steps along the tokens to a place where the file may end. -/
def Place.run (p : Place) : List Token → Except (List Symbol) File
  | [] => p.finish
  | t :: ts => p.step t >>= fun q => q.run ts

theorem run_eq_ok_iff {p : Place} : p.run ts = .ok f ↔ p.Rest f ts := by
  induction ts generalizing p with
  | nil => exact rest_nil_iff.symm
  | cons t ts ih =>
    rw [rest_cons_iff]
    exact bind_eq_ok_iff.trans (exists_congr fun q => and_congr_right fun _ => ih)

/-! ## Files -/

theorem scopeRest_of_sequenced {ds : List DeclNode} {inside rest : List Token} {scope : Scope}
    (hds : Sequenced DeclNode.Written ds inside)
    (hrest : ScopeRest f { scope with decls := scope.decls ++ ds } rest) :
    ScopeRest f scope (inside ++ rest) := by
  induction hds generalizing scope with
  | nil => simpa using hrest
  | cons hd _ ih =>
    rw [List.append_assoc]
    exact .decl hd (ih (by simpa [Scope.extended] using hrest))

theorem sequenced_of_scopeRest {scope : Scope} (h : ScopeRest f scope ts) :
    (∀ keyword n, scope.block = some (keyword, n) → ∃ ds inside c, ts = inside ++ [c] ∧
      Sequenced DeclNode.Written ds inside ∧ c.Is .rbrace ∧ f = .block keyword n (scope.decls ++ ds) c) ∧
    (scope.block = none → (∃ ds, Sequenced DeclNode.Written ds ts ∧ f = .bare (scope.decls ++ ds)) ∨
      scope.decls = [] ∧ f.Written ts) := by
  induction h with
  | bare hblock hf =>
    refine ⟨fun keyword n h => ?_, fun _ => .inl ⟨[], .nil, by simpa using hf⟩⟩
    rw [hblock] at h
    cases h
  | close hblock hclosing hf =>
    refine ⟨fun keyword n h => ?_, fun h => ?_⟩
    · rw [hblock] at h
      cases h
      exact ⟨[], [], _, rfl, .nil, hclosing, by simpa using hf⟩
    · rw [hblock] at h
      cases h
  | block hkeyword hn hopening _ ih =>
    obtain ⟨ds, inside, c, rfl, hds, hc, rfl⟩ := ih.1 _ _ rfl
    refine ⟨fun keyword n h => ?_, fun _ => .inr ⟨rfl, .block hkeyword hn hopening hds hc⟩⟩
    cases h
  | decl hd _ ih =>
    refine ⟨fun keyword n h => ?_, fun h => ?_⟩
    · obtain ⟨ds, inside, c, rfl, hds, hc, rfl⟩ := ih.1 keyword n h
      exact ⟨_, _, c, by simp, .cons hd hds, hc, by simp [Scope.extended]⟩
    · obtain ⟨ds, hds, rfl⟩ | ⟨hdecls, -⟩ := ih.2 h
      · exact .inl ⟨_, .cons hd hds, by simp [Scope.extended]⟩
      · simp [Scope.extended] at hdecls

/-- The parser reads a file exactly from the tokens that the grammar allows for it. -/
theorem run_start_eq_ok_iff : Place.start.run ts = .ok f ↔ f.Written ts := by
  rw [run_eq_ok_iff]
  constructor
  · intro h
    obtain ⟨ds, hds, rfl⟩ | ⟨-, hwritten⟩ := (sequenced_of_scopeRest h).2 rfl
    · exact .bare hds
    · exact hwritten
  · intro h
    cases h with
    | bare hds =>
      rw [← List.append_nil ts]
      exact scopeRest_of_sequenced hds (.bare rfl rfl)
    | block hkeyword hn hopening hds hclosing =>
      exact .block hkeyword hn hopening (scopeRest_of_sequenced hds (.close rfl hclosing rfl))

end Steps

end PackedSchema.Source
