import PackedSchema.Proofs.Schema.Wording
import PackedSchema.Proofs.Source.Positions

/-!
# Places of declarations

Every declaration of a schema that is read from a text has the places of its parts in the text: the text at
the place of a name is the name, and the text at the place of a declaration is read as that declaration.
-/

namespace PackedSchema

namespace Source

variable {ts part inside : List Token} {source : String} {cs rest : List Char}

/-! ## Spans of nodes -/

theorem covers_concat (first last : Token) (inside : List Token) :
    Covers (first.span.cover last.span) (first :: (inside ++ [last])) :=
  ⟨first, last, rfl, by simp [List.getLast?_cons], rfl⟩

theorem TypeNode.Written.covers {node : TypeNode} (h : node.Written part) : Covers node.span part := by
  cases h with
  | @name n hn => exact ⟨n, n, rfl, rfl, rfl⟩
  | @array opening semicolon length closing elem ts =>
    have hcovers := covers_concat opening closing (ts ++ [semicolon, length])
    rw [List.append_assoc] at hcovers
    exact hcovers
  | @apply n opening closing args ts => exact covers_concat n closing (opening :: ts)

theorem FieldNode.Written.covers {node : FieldNode} (h : node.Written part) : Covers node.span part := by
  cases h with
  | @named n colon ty ts hn hcolon hty =>
    obtain ⟨first, last, hfirst, hlast, hspan⟩ := hty.covers
    refine ⟨n, last, rfl, ?_, ?_⟩
    · simp [List.getLast?_cons, hlast]
    · simp only [FieldNode.span, hspan]
      rfl
  | unnamed hty => exact hty.covers

theorem VariantNode.Written.covers {node : VariantNode} (h : node.Written part) : Covers node.span part := by
  cases h with
  | @bare n hn => exact ⟨n, n, rfl, rfl, rfl⟩
  | @payload n opening closing types ts => exact covers_concat n closing (opening :: ts)

theorem VariantNode.Written.name_mem {node : VariantNode} (h : node.Written part) : node.name ∈ part := by
  cases h with
  | bare => exact List.mem_cons_self
  | payload => exact List.mem_cons_self

theorem DeclNode.Written.covers {node : DeclNode} (h : node.Written part) : Covers node.span part := by
  cases h with
  | @struct keyword n opening closing fields ts => exact covers_concat keyword closing (n :: opening :: ts)
  | @enum keyword n opening closing variants ts => exact covers_concat keyword closing (n :: opening :: ts)

/-! ## Items of a declaration -/

/-- The tokens stand one behind the other. -/
structure InOrder (ts : List Token) : Prop where
  before : ts.Pairwise fun t t' => t.span.Before t'.span
  start_le_stop : ∀ t ∈ ts, t.span.start ≤ t.span.stop

theorem Marked.inOrder {before : List Char} (h : Marked before ts cs) : InOrder ts :=
  ⟨h.pairwise_before, h.start_le_stop⟩

theorem InOrder.segment (h : InOrder ts) (hpart : part <:+: ts) : InOrder part :=
  ⟨h.before.sublist hpart.sublist, fun t ht => h.start_le_stop t (hpart.mem ht)⟩

theorem Covers.start_le_stop {span : Span} (h : Covers span part) (hpart : InOrder part) :
    span.start ≤ span.stop := by
  obtain ⟨first, last, hfirst, hlast, rfl⟩ := h
  have hmem := List.mem_of_getLast? hlast
  cases part with
  | nil => cases hfirst
  | cons t more =>
    cases hfirst
    rcases List.mem_cons.mp hmem with rfl | hmore
    · exact hpart.start_le_stop last hmem
    · have hbefore : first.span.stop ≤ last.span.start := (List.pairwise_cons.mp hpart.before).1 last hmore
      calc first.span.start ≤ first.span.stop := hpart.start_le_stop first List.mem_cons_self
        _ ≤ last.span.start := hbefore
        _ ≤ last.span.stop := hpart.start_le_stop last hmem

/-- Items of a list are in the order of their tokens. -/
theorem Listed.pairwise {α τ : Type} {loose : Bool} {comma : τ → Prop} {P : α → List τ → Prop}
    {items : List α} {ts : List τ} {R : τ → τ → Prop} {S : α → α → Prop} (h : Listed loose comma P items ts)
    (hts : ts.Pairwise R)
    (hitem : ∀ a b part part', P a part → P b part' → (∀ t ∈ part, ∀ t' ∈ part', R t t') → S a b) :
    items.Pairwise S := by
  induction h with
  | nil => exact .nil
  | last => exact List.pairwise_singleton _ _
  | @cons a as c ts rest ha hcomma hrest ih =>
    obtain ⟨-, htail, hcross⟩ := List.pairwise_append.mp hts
    refine List.pairwise_cons.mpr ⟨fun b hb => ?_, ih (List.pairwise_cons.mp htail).2⟩
    obtain ⟨part, hpart, hsub⟩ := hrest.exists_part hb
    exact hitem a b ts part ha hpart fun t ht t' ht' => hcross t ht t' (List.mem_cons_of_mem c (hsub t' ht'))

variable {α : Type} {P : α → List Token → Prop} {span : α → Span} {items : List α}
  {keyword n opening closing : Token}

/-- Items between braces are inside of the declaration, in order and apart. -/
theorem items_inside (hitems : Listed true (Token.Is .comma) P items inside)
    (hcovers : ∀ a part, P a part → Covers (span a) part)
    (horder : InOrder (keyword :: n :: opening :: (inside ++ [closing]))) :
    (∀ a ∈ items, (span a).Within (keyword.span.cover closing.span)) ∧
      items.Pairwise fun a b => (span a).Before (span b) := by
  have hinside : inside <:+: keyword :: n :: opening :: (inside ++ [closing]) :=
    ⟨[keyword, n, opening], [closing], by simp⟩
  constructor
  · intro a ha
    obtain ⟨part, hpart, hsegment⟩ := hitems.exists_segment ha
    have hsub (t : Token) (ht : t ∈ part) : t ∈ inside := hsegment.mem ht
    have hordered := (hcovers a part hpart).start_le_stop (horder.segment (hsegment.trans hinside))
    obtain ⟨first, last, hfirst, hlast, hspan⟩ := hcovers a part hpart
    rw [hspan] at hordered ⊢
    have hfirst := hsub first (List.mem_of_head? hfirst)
    have hlast := hsub last (List.mem_of_getLast? hlast)
    have hkeyword : keyword.span.stop ≤ first.span.start :=
      (List.pairwise_cons.mp horder.before).1 first (by simp [hfirst])
    have hclosing : last.span.stop ≤ closing.span.start := by
      have hlist : InOrder (inside ++ [closing]) := horder.segment ⟨[keyword, n, opening], [], by simp⟩
      exact (List.pairwise_append.mp hlist.before).2.2 last hlast closing (List.mem_singleton_self closing)
    exact ⟨(horder.start_le_stop keyword (by simp)).trans hkeyword, hordered,
      hclosing.trans (horder.start_le_stop closing (by simp))⟩
  · refine hitems.pairwise (horder.segment hinside).before fun a b part part' ha hb hbefore => ?_
    obtain ⟨first, last, -, hlast, hspan⟩ := hcovers a part ha
    obtain ⟨first', last', hfirst', -, hspan'⟩ := hcovers b part' hb
    rw [hspan, hspan']
    exact hbefore last (List.mem_of_getLast? hlast) first' (List.mem_of_head? hfirst')

end Source

open Source

/-! ## Places in a schema -/

namespace Decl

/-- The places of the fields or variants. -/
def itemLocs : Decl → List (Option Span)
  | struct d => d.fields.map Field.loc
  | enum d => d.variants.map Variant.loc

def variants : Decl → List Variant
  | struct _ => []
  | enum d => d.variants

/-- A declaration has its places in a text. The text at the place of its name, or of the name of a variant, is
that name. The text at its own place is read as the declaration alone, and the places of its fields or
variants are inside of it, in order and apart. -/
structure Located (source : String) (d : Decl) : Prop where
  name : ∃ span, d.nameSpan = some span ∧ span.cut source = d.name
  variantNames : ∀ v ∈ d.variants, ∃ span, v.nameSpan = some span ∧ span.cut source = v.name
  loc : ∃ loc, d.loc = some loc ∧
    (∃ alone, Schema.ofText (loc.cut source) = .ok alone ∧ alone.plain = Schema.plain { decls := [d] }) ∧
    ∃ items : List Span, d.itemLocs = items.map some ∧ (∀ item ∈ items, item.Within loc) ∧
      items.Pairwise Span.Before

end Decl

section Nodes

variable {ts part : List Token} {source : String} {cs rest : List Char} {d : Decl} {node : DeclNode}

/-- The text at the place of a declaration is read as that declaration. -/
theorem exists_ofText_cut (h : Marked [] ts cs) (hsource : source.toList = cs ++ rest) (hpart : part <:+: ts)
    (hnode : node.Written part) (hd : Tree.decl node.tree = .ok d) :
    ∃ alone, Schema.ofText (node.span.cut source) = .ok alone ∧
      alone.plain = Schema.plain { decls := [d] } := by
  have hspells := h.spells_cut hsource hpart hnode.covers
  have hvalid := List.forall_mem_map.mp hspells.valid
  have hworded : d.Worded (part.map Token.word) := (worded_decl_iff hvalid).mpr ⟨node, hnode, d, hd, rfl⟩
  have hdecls : Sequenced Decl.Worded [d] (part.map Token.word) := by
    simpa using Sequenced.cons hworded .nil
  exact exists_ofText_iff.mpr ⟨_, .bare rfl hdecls, hspells⟩

theorem field_loc {struct : String} {f : Field} {node : FieldNode} (hnode : node.Written part)
    (h : Tree.field struct node.tree = .ok f) : f.loc = some node.span := by
  cases hnode with
  | named hn =>
    obtain ⟨ty, -, rfl⟩ := (field_named hn).mp h
    rfl
  | unnamed => simp [FieldNode.tree, Tree.field] at h

theorem variant_places {enum : String} {v : Variant} {node : VariantNode} (hnode : node.Written part)
    (h : Tree.variant enum node.tree = .ok v) :
    v.name = node.name.text ∧ v.nameSpan = some node.name.span ∧ v.loc = some node.span := by
  cases hnode with
  | bare hn =>
    obtain ⟨types, -, rfl⟩ := (variant_eq_ok_iff hn).mp h
    exact ⟨rfl, rfl, rfl⟩
  | payload hn =>
    obtain ⟨types, -, rfl⟩ := (variant_eq_ok_iff hn).mp h
    exact ⟨rfl, rfl, rfl⟩

/-- What is built from the nodes of a list keeps the spans of the nodes. -/
theorem map_loc_of_mapM {α β : Type} {P : α → List Token → Prop} {tree : α → Tree} {span : α → Span}
    {build : Tree → Except Failure β} {loc : β → Option Span} {items : List α} {built : List β}
    (hitems : Listed true (Token.Is .comma) P items part)
    (hloc : ∀ a part b, P a part → build (tree a) = .ok b → loc b = some (span a))
    (h : (items.map tree).mapM build = .ok built) : built.map loc = (items.map span).map some := by
  rw [mapM_eq_ok_iff, List.forall₂_map_left_iff] at h
  have hall : List.Forall₂ (fun a b => loc b = some (span a)) items built := by
    refine ((List.forall₂_and_left _ _).mpr ⟨fun a ha => ha, h⟩).imp fun a b hab => ?_
    obtain ⟨part, hpart, -⟩ := hitems.exists_part hab.1
    exact hloc a part b hpart hab.2
  clear h hitems
  induction hall with
  | nil => rfl
  | cons hab _ ih => rw [List.map_cons, List.map_cons, List.map_cons, hab, ih]

/-- A declaration that is built from a node of a text has its places in the text. -/
theorem located_of_node (h : Marked [] ts cs) (hsource : source.toList = cs ++ rest) (hpart : part <:+: ts)
    (hnode : node.Written part) (hd : Tree.decl node.tree = .ok d) : d.Located source := by
  have hcut (t : Token) (ht : t ∈ part) : t.span.cut source = t.text := h.cut_token hsource (hpart.mem ht)
  have halone := exists_ofText_cut h hsource hpart hnode hd
  have horder := h.inOrder.segment hpart
  cases hnode with
  | @struct keyword n opening closing fields inside hkeyword hn hopening hfields hclosing =>
    obtain ⟨fs, hfs, rfl⟩ := (decl_struct_eq_ok_iff hn d).mp hd
    obtain ⟨hwithin, hbefore⟩ := items_inside hfields (fun _ _ => FieldNode.Written.covers) horder
    refine ⟨⟨n.span, rfl, hcut n (by simp)⟩, by simp [Decl.variants], _, rfl, halone,
      fields.map FieldNode.span, ?_, ?_, ?_⟩
    · exact map_loc_of_mapM hfields (fun _ _ _ => field_loc) hfs
    · exact List.forall_mem_map.mpr hwithin
    · exact List.pairwise_map.mpr hbefore
  | @enum keyword n opening closing variants inside hkeyword hn hopening hvariants hclosing =>
    obtain ⟨vs, hvs, rfl⟩ := (decl_enum_eq_ok_iff hn d).mp hd
    obtain ⟨hwithin, hbefore⟩ := items_inside hvariants (fun _ _ => VariantNode.Written.covers) horder
    refine ⟨⟨n.span, rfl, hcut n (by simp)⟩, ?_, _, rfl, halone, variants.map VariantNode.span, ?_, ?_, ?_⟩
    · intro v hv
      obtain ⟨tree, htree, hbuilt⟩ := exists_of_mapM hvs hv
      obtain ⟨node, hmem, rfl⟩ := List.mem_map.mp htree
      obtain ⟨part, hwritten, hsub⟩ := hvariants.exists_part hmem
      obtain ⟨hname, hspan, -⟩ := variant_places hwritten hbuilt
      refine ⟨node.name.span, hspan, ?_⟩
      rw [hname]
      exact hcut node.name (by simp [hsub _ hwritten.name_mem])
    · exact map_loc_of_mapM hvariants (fun _ _ _ hnode hv => (variant_places hnode hv).2.2) hvs
    · exact List.forall_mem_map.mpr hwithin
    · exact List.pairwise_map.mpr hbefore

end Nodes

/-! ## Schemas from text -/

section Texts

variable {ts : List Token} {s : Schema} {d : Decl}

/-- Every declaration of a schema is built from a node of the file. -/
theorem exists_node {f : File} (hf : f.Written ts) (hs : Schema.ofTree f.tree = .ok s) (hd : d ∈ s.decls) :
    ∃ (node : DeclNode) (part : List Token), node.Written part ∧ part <:+: ts ∧
      Tree.decl node.tree = .ok d := by
  have hnodes {decls : List DeclNode} {inside : List Token} {ds : List Decl}
      (hdecls : Sequenced DeclNode.Written decls inside) (hinside : inside <:+: ts)
      (hds : (decls.map DeclNode.tree).mapM Tree.decl = .ok ds) (hd : d ∈ ds) :
      ∃ (node : DeclNode) (part : List Token), node.Written part ∧ part <:+: ts ∧
        Tree.decl node.tree = .ok d := by
    obtain ⟨tree, htree, hbuilt⟩ := exists_of_mapM hds hd
    obtain ⟨node, hmem, rfl⟩ := List.mem_map.mp htree
    obtain ⟨part, hwritten, hpart⟩ := hdecls.exists_segment hmem
    exact ⟨node, part, hwritten, hpart.trans hinside, hbuilt⟩
  cases hf with
  | bare hdecls =>
    obtain ⟨ds, hds, rfl⟩ := (ofTree_bare_eq_ok_iff s).mp hs
    exact hnodes hdecls (List.infix_refl ts) hds hd
  | @block keyword n opening closing decls inside hkeyword hn hopening hdecls hclosing =>
    obtain ⟨ds, hds, rfl⟩ := (ofTree_block_eq_ok_iff hn s).mp hs
    exact hnodes hdecls ⟨[keyword, n, opening], [closing], by simp⟩ hds hd

end Texts

/-- Every declaration that is read from a text has its places in it. -/
theorem ofText_located {source : String} {s : Schema} (h : Schema.ofText source = .ok s) :
    ∀ d ∈ s.decls, d.Located source := by
  intro d hd
  obtain ⟨f, hread, hs⟩ := ofText_eq_ok_iff.mp h
  obtain ⟨ts, cs, rest, hwritten, hmarked, hsource⟩ := exists_marked hread
  obtain ⟨node, part, hnode, hpart, hbuilt⟩ := exists_node hwritten hs hd
  exact located_of_node hmarked hsource hpart hnode hbuilt

/-- An enum behind a comment, over several lines. -/
def noteText : String := "// \u00e9\nenum E \x7b\n  V, /* w\n */ W \x7d"

def noteSchema : Schema where
  decls :=
    [.enum { name := "E", variants := [{ name := "V", payload := [] }, { name := "W", payload := [] }] }]

theorem ofText_note : ∃ s, Schema.ofText noteText = .ok s ∧ s.plain = noteSchema.plain := by
  have hworded : Decl.Worded (.enum { name := "E", variants :=
      [{ name := "V", payload := [] }, { name := "W", payload := [] }] }) _ :=
    .enum (.cons (.bare rfl) rfl (.last (.bare rfl)))
  have hblank {g : List Char} (hgap : Gap g) : Gap (' ' :: g) := .cons (.blank rfl) hgap
  have hline {g : List Char} (hgap : Gap g) : Gap ('\n' :: g) := .cons (.blank rfl) hgap
  have hfirst : Gap "// \u00e9\n".toList := .cons (.line (show '\n' ∉ [' ', '\u00e9'] by decide)) .nil
  have hsecond : Gap " /* w\n */ ".toList :=
    hblank (.cons (.block (show ¬ ['*', '/'] <:+: [' ', 'w', '\n', ' '] by decide)) (hblank .nil))
  have hspells : Spells [Terminal.enum.word, nameWord "E", Terminal.lbrace.word, nameWord "V",
      Terminal.comma.word, nameWord "W", Terminal.rbrace.word] noteText.toList :=
    .word hfirst (by decide) <| .word (hblank .nil) (by decide) <| .word (hblank .nil) (by decide) <|
      .word (hline (hblank (hblank .nil))) (by decide) <| .word .nil (by decide) <|
      .word hsecond (by decide) <| .word (hblank .nil) (by decide) (.done (.gap .nil))
  exact exists_ofText_iff.mpr ⟨_, .bare rfl (.cons hworded .nil), hspells⟩

theorem ofText_located_note :
    ∃ s d, Schema.ofText noteText = .ok s ∧ s.decls = [d] ∧ d.name = "E" ∧ d.Located noteText := by
  obtain ⟨s, hs, hplain⟩ := ofText_note
  have hdecls : s.decls.map Decl.plain = noteSchema.decls.map Decl.plain := congrArg Schema.decls hplain
  obtain ⟨d, hd, hplain⟩ := List.map_eq_singleton_iff.mp hdecls
  refine ⟨s, d, hs, hd, ?_, ofText_located hs d (by simp [hd])⟩
  cases d with
  | struct d => cases hplain
  | enum d => exact congrArg Decl.name hplain

end PackedSchema
