import Mathlib
import PackedSchema.Proofs.Kernel.Scan
import PackedSchema.Proofs.Layout.Placement
import PackedSchema.Proofs.Layout.Places
import PackedSchema.Proofs.Manifest.File
import PackedSchema.Proofs.Schema.Wording
import PackedSchema.Proofs.TypeTable.Rules

/-!
# Kernel texts and manifests agree

The kernel text and the manifest of a schema that was read from a text tell the same of its bytes. Whether a
struct is tagged shows in the text only together with its accessors, since a field may look like the tag
word.
-/

namespace PackedSchema

/-! ## What a manifest records -/

namespace Manifest

namespace Value

def text? : Value → Option String
  | text s => some s
  | _ => none

def int? : Value → Option Int
  | int n => some n
  | _ => none

def bool? : Value → Option Bool
  | bool b => some b
  | _ => none

def list? : Value → Option (List Value)
  | list items => some items
  | _ => none

end Value

/-- The text of a type that is laid out inline is a name, but not that of a scalar. -/
def isInline (type : String) : Bool :=
  type.toList.all Source.isNameChar && (ScalarKind.ofKeyword? type).isNone

/-- The name, type and offset of a field. -/
def recordedField (v : Value) : Option (String × String × Int) := do
  let name ← v.get? "name" >>= Value.text?
  let type ← v.get? "type" >>= Value.text?
  return (name, type, ← v.get? "offset" >>= Value.int?)

def recordedTag (v : Value) : Option (String × Int) := do
  let name ← v.get? "name" >>= Value.text?
  return (name, ← v.get? "tag" >>= Value.int?)

def recordedType (v : Value) : Option Outline := do
  let name ← v.get? "name" >>= Value.text?
  let kind ← v.get? "kind" >>= Value.text?
  if kind = "struct" then
    let tagged ← v.get? "tagged" >>= Value.bool?
    let fields ← (← v.get? "fields" >>= Value.list?).mapM recordedField
    return .struct name tagged ((fields.filter fun f => !isInline f.2.1).map fun f => (f.1, f.2.2))
  else
    let size ← v.get? "size" >>= Value.int?
    let words ← v.get? "body_words" >>= Value.int?
    return .enum name size words (← (← v.get? "variants" >>= Value.list?).mapM recordedTag)

/-- The outlines of all types of a manifest. -/
def recorded (m : Value) : Option (List Outline) := do
  (← m.get? "types" >>= Value.list?).mapM recordedType

theorem mapM_map_eq_some {α β γ : Type} {f : β → Option γ} {g : α → β} {h : α → γ} {items : List α}
    (hitems : ∀ a ∈ items, f (g a) = some (h a)) : (items.map g).mapM f = some (items.map h) := by
  induction items with
  | nil => rfl
  | cons a items ih =>
    rw [List.forall_mem_cons] at hitems
    rw [List.map_cons, List.mapM_cons, hitems.1, ih hitems.2]
    rfl

theorem isInline_text {ty : FieldType} (h : ty.Legible) : isInline ty.text = !ty.isSmall := by
  cases ty with
  | scalar k => cases k <;> rfl
  | vector k count => simp [isInline, FieldType.text, FieldType.isSmall, Source.isNameChar]
  | named n =>
    obtain ⟨hname, hkeyword⟩ := h
    simpa [isInline, FieldType.text, FieldType.isSmall, hkeyword, IsName] using hname
  | ref inner => simp [isInline, FieldType.text, FieldType.isSmall, Source.isNameChar]
  | missing => cases h

theorem recordedType_typeValue {l : TypeLayout} (hl : l.Sound) :
    recordedType (typeValue l) = some l.outline := by
  cases l with
  | struct name size alignment tagged fields =>
    obtain ⟨-, hfields, -⟩ := hl
    have hrecorded : (fields.map fieldValue).mapM recordedField =
        some (fields.map fun f => (f.name, f.ty.text, f.offset)) :=
      mapM_map_eq_some fun _ _ => rfl
    have hsmall : fields.filter (fun f => !isInline f.ty.text) = fields.filter fun f => f.ty.isSmall := by
      apply List.filter_congr
      intro f hf
      rw [isInline_text (hfields f hf).2, Bool.not_not]
    have htype : recordedType (typeValue (.struct name size alignment tagged fields)) =
        ((fields.map fieldValue).mapM recordedField).bind fun entries =>
          some (.struct name tagged
            ((entries.filter fun f => !isInline f.2.1).map fun f => (f.1, f.2.2))) := rfl
    simp only [htype, hrecorded, Option.bind_some, List.filter_map, List.map_map, Function.comp_def,
      hsmall, TypeLayout.outline]
  | enum name size words variants =>
    have hrecorded : (variants.map fun v => Value.record [("name", .text v.1), ("tag", .int v.2)]).mapM
        recordedTag = some (variants.map fun v => (v.1, (v.2 : Int))) :=
      mapM_map_eq_some fun _ _ => rfl
    have htype : recordedType (typeValue (.enum name size words variants)) =
        ((variants.map fun v => Value.record [("name", .text v.1), ("tag", .int v.2)]).mapM
          recordedTag).bind fun tags => some (.enum name size words tags) := rfl
    simp only [htype, hrecorded, Option.bind_some, TypeLayout.outline]

theorem recorded_ofLayouts {t : TypeTable} {layouts : List TypeLayout} (h : ∀ l ∈ layouts, l.Sound) :
    recorded (ofLayouts t layouts) = some (layouts.map TypeLayout.outline) :=
  mapM_map_eq_some fun l hl => recordedType_typeValue (h l hl)

end Manifest

/-! ## Schemas that are read -/

section Reading

open Source

/-- A declaration that can stand in a schema text. -/
def Decl.Legible : Decl → Prop
  | struct d => IsName d.name ∧ ∀ f ∈ d.fields, IsName f.name ∧ f.ty.Legible
  | enum d => IsName d.name ∧ ∀ v ∈ d.variants, IsName v.name ∧ ∀ ty ∈ v.payload, ty.Legible

instance : DecidablePred Decl.Legible
  | .struct d => inferInstanceAs (Decidable (IsName d.name ∧ ∀ f ∈ d.fields, IsName f.name ∧ f.ty.Legible))
  | .enum d => inferInstanceAs
    (Decidable (IsName d.name ∧ ∀ v ∈ d.variants, IsName v.name ∧ ∀ ty ∈ v.payload, ty.Legible))

variable {ws : List Word} {d : Decl} {s : Schema}

theorem isName_of_valid {name : String} (h : (nameWord name).Valid) : IsName name := h.2

theorem FieldType.Worded.legible {ty : FieldType} (h : ty.Worded ws) (hws : ∀ w ∈ ws, w.Valid) :
    ty.Legible := by
  induction h with
  | scalar k => trivial
  | vector hlimit hvalue hcount =>
    simp only [FieldType.Legible]
    omega
  | named hname => exact ⟨isName_of_valid (hws _ List.mem_cons_self), hname⟩
  | ref hinner ih => exact ih fun w hw => hws w (by simp [hw])

theorem Decl.Worded.legible (h : d.Worded ws) (hws : ∀ w ∈ ws, w.Valid) : d.Legible := by
  cases h with
  | struct hfields =>
    refine ⟨isName_of_valid (hws _ (by simp)), fun f hf => ?_⟩
    obtain ⟨part, hpart, hmem⟩ := hfields.exists_part hf
    have hvalid : ∀ w ∈ part, w.Valid := fun w hw => hws w (by simp [hmem w hw])
    cases hpart with
    | intro hty =>
      exact ⟨isName_of_valid (hvalid _ List.mem_cons_self),
        hty.legible fun w hw => hvalid w (by simp [hw])⟩
  | enum hvariants =>
    refine ⟨isName_of_valid (hws _ (by simp)), fun v hv => ?_⟩
    obtain ⟨part, hpart, hmem⟩ := hvariants.exists_part hv
    have hvalid : ∀ w ∈ part, w.Valid := fun w hw => hws w (by simp [hmem w hw])
    cases hpart with
    | bare hpayload =>
      refine ⟨isName_of_valid (hvalid _ List.mem_cons_self), ?_⟩
      rw [hpayload]
      exact List.forall_mem_nil _
    | payload hpayload =>
      refine ⟨isName_of_valid (hvalid _ List.mem_cons_self), fun ty hty => ?_⟩
      obtain ⟨words, hwords, hin⟩ := hpayload.exists_part hty
      exact hwords.legible fun w hw => hvalid w (by simp [hin w hw])

/-- The declarations of a schema that is read from a text can stand in it. -/
theorem legible_of_ofText {source : String} (h : Schema.ofText source = .ok s) :
    ∀ d ∈ s.decls, d.Legible := by
  intro d hd
  obtain ⟨ws, hworded, hvalid⟩ := exists_worded_of_ofText h hd
  exact hworded.legible hvalid

theorem Decl.Legible.isName (h : d.Legible) : IsName d.name := by
  cases d with
  | struct => exact h.1
  | enum => exact h.1

theorem FieldType.Legible.proper {ty : FieldType} (h : ty.Legible) : ty.Proper := by
  cases ty with
  | vector => exact ⟨h, nofun⟩
  | missing => cases h
  | _ => exact ⟨trivial, nofun⟩

theorem Decl.Legible.contents (h : d.Legible) {ty : FieldType} (hty : ty ∈ d.contents) : ty.Legible := by
  cases d with
  | struct d =>
    obtain ⟨f, hf, rfl⟩ := List.mem_map.mp hty
    exact (h.2 f hf).2
  | enum d =>
    obtain ⟨v, hv, hty⟩ := List.mem_flatMap.mp hty
    exact (h.2 v hv).2 ty hty

theorem proper_of_legible {decls : List Decl} (h : ∀ d ∈ decls, d.Legible) : Proper decls :=
  fun d hd _ hty => ((h d hd).contents hty).proper

theorem counted_of_legible {decls : List Decl} (h : ∀ d ∈ decls, d.Legible) : Counted decls :=
  (proper_of_legible h).counted

end Reading

/-! ## Layouts of schemas that are read -/

namespace Layout

variable {s : Schema} {t : TypeTable} {l : TypeLayout} {d : Decl} {layouts : List TypeLayout}

theorem sound_struct {d : StructDecl} (htable : TypeTable.ofSchema s = .ok t) (hd : .struct d ∈ s.decls)
    (hlegible : (Decl.struct d).Legible) {size alignment : Int} {shape : StructShape}
    (hplaced : Placed t d.name d.fields shape) :
    (TypeLayout.struct d.name size alignment (t.isTagged d.name) shape.fields).Sound := by
  obtain ⟨hname, hfields⟩ := hlegible
  -- Every place is that of a declared field.
  have hplaces : ∀ f ∈ shape.fields, ∃ g ∈ d.fields, g.name = f.name ∧ g.ty = f.ty := by
    intro f hf
    have hmem := List.mem_map_of_mem (f := fun l : FieldLayout => (l.name, l.ty)) hf
    rw [hplaced.map_fields] at hmem
    obtain ⟨g, hg, heq⟩ := List.mem_map.mp hmem
    exact ⟨g, hg, congrArg Prod.fst heq, congrArg Prod.snd heq⟩
  refine ⟨hname, fun f hf => ?_, fun htagged f hf => ?_⟩
  · obtain ⟨g, hg, hgname, hgty⟩ := hplaces f hf
    rw [← hgname, ← hgty]
    exact hfields g hg
  · obtain ⟨g, hg, hgname, -⟩ := hplaces f hf
    have hlawful := (TypeTable.succeeds_ofSchema_iff s).mp ⟨t, htable⟩
    have hstruct : d ∈ s.structs := List.mem_filterMap.mpr ⟨_, hd, rfl⟩
    obtain ⟨ht, -⟩ := TypeTable.ofSchema_eq_ok htable
    have hleads : s.Leads d.name := by
      rw [ht] at htagged
      exact TypeTable.mem_taggedNames.mp (List.contains_iff_mem.mp htagged)
    rw [← hgname]
    exact (hlawful.fields d hstruct).2 hleads g hg

theorem sound_enum {d : EnumDecl} (hlegible : (Decl.enum d).Legible) (words : Int) :
    (TypeLayout.enum d.name (word + word * words) words
      ((d.variants.map Variant.name).zipIdx firstTag)).Sound := by
  obtain ⟨hname, hvariants⟩ := hlegible
  refine ⟨hname, fun v hv => ?_, rfl, ?_⟩
  · obtain ⟨variant, hvariant, heq⟩ := List.mem_map.mp (List.fst_mem_of_mem_zipIdx hv)
    rw [← heq]
    exact (hvariants variant hvariant).1
  · rw [List.zipIdx_map_snd, List.length_zipIdx]
    rfl

theorem sound_layoutOf (htable : TypeTable.ofSchema s = .ok t) (hd : d ∈ s.decls) (hlegible : d.Legible)
    (h : (direct t).layoutOf t d.name = .ok l) : l.Sound ∧ l.name = d.name := by
  obtain ⟨ht, hw⟩ := TypeTable.ofSchema_eq_ok htable
  have hlook : t.lookup d.name = some d := hw.lookup_name (by rw [ht]; exact hd)
  cases d with
  | struct d =>
    rw [layoutOf_struct hlook] at h
    obtain ⟨shape, hshape, h⟩ := bind_eq_ok_iff.mp h
    obtain ⟨alignment, -, h⟩ := bind_eq_ok_iff.mp h
    cases h
    obtain ⟨d', hlook', hplaced⟩ := placed_of_shape hw hshape
    rw [hlook] at hlook'
    cases hlook'
    exact ⟨sound_struct htable hd hlegible hplaced, rfl⟩
  | enum d =>
    rw [layoutOf_enum hlook] at h
    obtain ⟨extent, -, h⟩ := bind_eq_ok_iff.mp h
    cases h
    exact ⟨sound_enum hlegible _, rfl⟩

/-- The layouts of a schema are those of its declarations, in order. -/
theorem sound_layouts (htable : TypeTable.ofSchema s = .ok t) (hlegible : ∀ d ∈ s.decls, d.Legible)
    (h : t.order.mapM ((direct t).layoutOf t) = .ok layouts) :
    (∀ l ∈ layouts, l.Sound) ∧ layouts.map TypeLayout.name = s.decls.map Decl.name := by
  obtain ⟨ht, -⟩ := TypeTable.ofSchema_eq_ok htable
  have horder : t.order = s.decls.map Decl.name := by rw [ht]; rfl
  rw [horder, mapM_eq_ok_iff, List.forall₂_map_left_iff] at h
  have hmembers : ∀ d ∈ s.decls, d ∈ s.decls ∧ d.Legible := fun d hd => ⟨hd, hlegible d hd⟩
  have hsound : List.Forall₂ (fun d l => l.Sound ∧ l.name = d.name) s.decls layouts :=
    ((List.forall₂_and_left _ _).mpr ⟨hmembers, h⟩).imp fun d l ⟨⟨hd, hlegible⟩, hl⟩ =>
      sound_layoutOf htable hd hlegible hl
  generalize s.decls = decls at hsound ⊢
  clear h hlegible hmembers
  induction hsound with
  | nil => exact ⟨List.forall_mem_nil _, rfl⟩
  | cons hl _ ih =>
    rw [List.forall_mem_cons, List.map_cons, List.map_cons, hl.2, ih.2]
    exact ⟨⟨hl.1, ih.1⟩, rfl⟩

end Layout

/-! ## Agreement -/

theorem Kernel.ask_emit {t : TypeTable} {layouts : List TypeLayout} {text : String}
    {session session' : Layout.Session}
    (hlayouts : Layout.ask (Layout.layouts t) session = (.ok layouts, session'))
    (htext : Kernel.text t layouts = .ok text) :
    Layout.ask (Kernel.emit t) session = (.ok text, session') := by
  unfold Kernel.emit
  rw [Layout.ask_bind_ok hlayouts, htext]
  rfl

namespace Schema

variable {s : Schema} {t : TypeTable} {layouts : List TypeLayout}

/-- The layouts of a schema that is read are those without a session, in every session that is ready. -/
theorem read_layouts_follow {source : String} (hread : Schema.ofText source = .ok s)
    (htable : TypeTable.ofSchema s = .ok t) :
    Layout.Follows t (t.decls.length + 1) (Layout.layouts t)
      (t.order.mapM ((Layout.direct t).layoutOf t)) := by
  obtain ⟨ht, hw⟩ := TypeTable.ofSchema_eq_ok htable
  refine Layout.layouts_follow hw ?_
  rw [ht]
  exact counted_of_legible (legible_of_ofText hread)

/-- The kernel text of a schema shows what the manifest records. -/
theorem compile_shown {source : String} {c : Compiled} (hread : Schema.ofText source = .ok s)
    (hc : s.compile = .ok c) :
    Kernel.scan c.text = some (c.layouts.map (Kernel.shown c.table)) ∧
      Manifest.recorded c.manifest =
        some ((c.layouts.map (Kernel.shown c.table)).map Outline.settled) ∧
      (c.layouts.map (Kernel.shown c.table)).map Outline.name = s.decls.map Decl.name ∧
      ∀ o ∈ c.layouts.map (Kernel.shown c.table), o.Numbered := by
  obtain ⟨htable, hlayouts, htext⟩ := compile_eq_ok hc
  have hlegible := legible_of_ofText hread
  rw [(read_layouts_follow hread htable).fresh] at hlayouts
  obtain ⟨hsound, hnames⟩ := Layout.sound_layouts htable hlegible hlayouts
  have hdecls : ∀ d ∈ c.table.decls, IsName d.name := by
    rw [(TypeTable.ofSchema_eq_ok htable).1]
    exact fun d hd => (hlegible d hd).isName
  have hsettled : (c.layouts.map (Kernel.shown c.table)).map Outline.settled =
      c.layouts.map TypeLayout.outline := by
    rw [List.map_map]
    exact List.map_congr_left fun l hl => Kernel.settled_shown c.table (hsound l hl)
  refine ⟨Kernel.scan_text hdecls hsound htext, ?_, ?_, ?_⟩
  · rw [Compiled.manifest, Manifest.recorded_ofLayouts hsound, hsettled]
  · rw [← hnames, List.map_map]
    exact List.map_congr_left fun l _ => Kernel.name_shown c.table l
  · rw [List.forall_mem_map]
    intro l hl
    rw [← Outline.numbered_settled, Kernel.settled_shown c.table (hsound l hl)]
    exact (hsound l hl).numbered

/-- The manifest can be built in the session that the kernel text was made in. -/
theorem build_emitted {source : String} {c : Compiled} (hread : Schema.ofText source = .ok s)
    (hc : s.compile = .ok c) :
    ∃ session, Layout.ask (Kernel.emit c.table) {} = (.ok c.text, session) ∧
      (Layout.ask (Manifest.build c.table) session).1 = .ok c.manifest := by
  obtain ⟨htable, hlayouts, htext⟩ := compile_eq_ok hc
  -- The layouts are the direct ones in the session of the text, and so they are behind it.
  have hfollows := read_layouts_follow hread htable
  have hready := Layout.ready_empty c.table (c.table.decls.length + 1)
  have hdirect := (hfollows.ok_iff hready c.layouts).mp hlayouts
  have hagain := (hfollows.ok_iff (hfollows.ready hready) c.layouts).mpr hdirect
  refine ⟨_, Kernel.ask_emit (Prod.ext hlayouts rfl) htext, ?_⟩
  rw [Manifest.ask_build, hagain]
  exact Manifest.describe_of_describable c.table (Manifest.describable_of_compile hread hc)

/-- If a schema does not compile because of an error in it, there is no manifest for the same reason. -/
theorem build_eq_error {e : SchemaError} (htable : TypeTable.ofSchema s = .ok t)
    (h : s.compile = .error (.schema e)) :
    (Layout.ask (Manifest.build t) {}).1 = .error (.schema e) := by
  rw [compile_eq htable] at h
  rw [Manifest.ask_build]
  cases hlayouts : (Layout.ask (Layout.layouts t) {}).1 with
  | error f =>
    rw [hlayouts] at h
    cases h
    rfl
  | ok layouts =>
    rw [hlayouts] at h
    change (Kernel.text t layouts >>= _) = _ at h
    cases htext : Kernel.text t layouts with
    | ok text =>
      rw [htext] at h
      cases h
    | error f =>
      -- A text only fails because of a number that is too long, which is no error of the schema.
      have hf := Kernel.text_failsWith t layouts f htext
      rw [htext, hf] at h
      cases h

/-- The kernel text of a schema that is read from a text tells the same of its bytes as the manifest, which
can be built in the session that the text was made in. The declarations stand in order in both, each with
the offsets of its fields that are not inline, or with its body words and tags. A struct is tagged if its
first member is the tag word and no accessor for a field of that name follows. If an error in the schema
keeps it from being compiled, the same error keeps its manifest from being built. -/
theorem scan_compiled {source : String} (hread : Schema.ofText source = .ok s) (htable : s.table = .ok t) :
    (∀ c, s.compile = .ok c → ∃ session outlines,
      Layout.ask (Kernel.emit t) {} = (.ok c.text, session) ∧
      (Layout.ask (Manifest.build t) session).1 = .ok c.manifest ∧
      Kernel.scan c.text = some outlines ∧
      Manifest.recorded c.manifest = some (outlines.map Outline.settled) ∧
      outlines.map Outline.name = s.decls.map Decl.name ∧ ∀ o ∈ outlines, o.Numbered) ∧
    ∀ e, s.compile = .error (.schema e) →
      (Layout.ask (Manifest.build t) {}).1 = .error (.schema e) := by
  have htable := mapError_eq_ok_iff.mp htable
  refine ⟨fun c hc => ?_, fun e he => build_eq_error htable he⟩
  have hct : t = c.table := Except.ok.inj (htable.symm.trans (compile_eq_ok hc).1)
  obtain ⟨session, hemit, hbuild⟩ := build_emitted hread hc
  rw [hct]
  exact ⟨session, _, hemit, hbuild, compile_shown hread hc⟩

/-! ### A schema with all of it -/

/-- An enum, the tagged struct that leads a payload of it, and a struct that has this one inside and a first
field like a tag word. -/
def markSchema : Schema where
  decls :=
    [.enum { name := "E", variants :=
        [{ name := "V", payload := [.named "P"] }, { name := "W", payload := [] }] },
      .struct { name := "P", fields :=
        [{ name := "at", ty := .vector .f32 2 }, { name := "next", ty := .ref (.named "E") }] },
      .struct { name := "A", fields :=
        [{ name := "tag", ty := .scalar .u32 }, { name := "p", ty := .named "P" }] }]

def markText : String :=
  "enum E \x7b V ( P ) , W \x7d struct P \x7b at : [ f32 ; 2 ] , next : Ref < E > \x7d "
    ++ "struct A \x7b tag : u32 , p : P \x7d"

def markLayouts : List TypeLayout :=
  [.enum "E" 20 4 [("V", 1), ("W", 2)],
    .struct "P" 20 8 true
      [{ name := "at", ty := .vector .f32 2, offset := 8, size := 8, alignment := 8 },
        { name := "next", ty := .ref (.named "E"), offset := 16, size := 4, alignment := 4 }],
    .struct "A" 28 8 false
      [{ name := "tag", ty := .scalar .u32, offset := 0, size := 4, alignment := 4 },
        { name := "p", ty := .named "P", offset := 8, size := 20, alignment := 8 }]]

theorem ofText_mark : ∃ s, Schema.ofText markText = .ok s ∧ s.plain = markSchema.plain := by
  have henum : Decl.Worded (.enum { name := "E", variants :=
      [{ name := "V", payload := [.named "P"] }, { name := "W", payload := [] }] }) _ :=
    .enum (.cons (.payload (.last (.named rfl))) rfl (.last (.bare rfl)))
  have hpoint : Decl.Worded (.struct { name := "P", fields :=
      [{ name := "at", ty := .vector .f32 2 }, { name := "next", ty := .ref (.named "E") }] }) _ :=
    .struct (.cons (.intro (.vector (show ['2'].length ≤ _ by decide) rfl (by decide))) rfl
      (.last (.intro (.ref (.named rfl)))))
  have hmark : Decl.Worded (.struct { name := "A", fields :=
      [{ name := "tag", ty := .scalar .u32 }, { name := "p", ty := .named "P" }] }) _ :=
    .struct (.cons (.intro (.scalar .u32)) rfl (.last (.intro (.named rfl))))
  exact exists_ofText_spaced (.bare rfl (.cons henum (.cons hpoint (.cons hmark .nil)))) (by decide)
    (by decide)

theorem compile_mark :
    ∃ s t c, Schema.ofText markText = .ok s ∧ s.table = .ok t ∧ s.compile = .ok c ∧
      c.table.schemaName = none ∧ c.layouts = markLayouts := by
  obtain ⟨s, hread, hplain⟩ := ofText_mark
  have hmark : TypeTable.ofSchema markSchema = .ok _ := rfl
  obtain ⟨t, htable, hlayouts⟩ := Layout.layouts_of_plain hplain hmark rfl
  obtain ⟨c, hcompile, rfl, hc⟩ := exists_compile htable hlayouts (by unfold Writable Overlong; decide)
  refine ⟨s, _, c, hread, mapError_eq_ok_iff.mpr htable, hcompile, ?_, hc⟩
  rw [(TypeTable.ofSchema_eq_ok htable).1]
  exact congrArg Schema.name hplain

theorem recorded_mark (t : TypeTable) :
    Manifest.recorded (Manifest.ofLayouts t markLayouts) =
      some [.enum "E" 20 4 [("V", 1), ("W", 2)], .struct "P" true [("at", 8), ("next", 16)],
        .struct "A" false [("tag", 0)]] := by
  cbv

theorem scan_compiled_mark :
    ∃ s t c outlines, Schema.ofText markText = .ok s ∧ s.table = .ok t ∧ s.compile = .ok c ∧
      Kernel.scan c.text = some outlines ∧
      outlines.map Outline.settled = [.enum "E" 20 4 [("V", 1), ("W", 2)],
        .struct "P" true [("at", 8), ("next", 16)], .struct "A" false [("tag", 0)]] := by
  obtain ⟨s, t, c, hread, htable, hcompile, -, hlayouts⟩ := compile_mark
  obtain ⟨session, outlines, -, -, hscan, hrecorded, -⟩ := (scan_compiled hread htable).1 c hcompile
  rw [Compiled.manifest, hlayouts, recorded_mark] at hrecorded
  exact ⟨s, t, c, outlines, hread, htable, hcompile, hscan, (Option.some.inj hrecorded).symm⟩

/-- A first member like a tag word does not make a struct tagged. -/
theorem scan_ne_recorded_mark :
    ∃ s c, Schema.ofText markText = .ok s ∧ s.compile = .ok c ∧
      Kernel.scan c.text = some [.enum "E" 20 4 [("V", 1), ("W", 2)],
        .struct "P" true [("at", 8), ("next", 16)], .struct "A" true [("tag", 0)]] ∧
      Manifest.recorded c.manifest = some [.enum "E" 20 4 [("V", 1), ("W", 2)],
        .struct "P" true [("at", 8), ("next", 16)], .struct "A" false [("tag", 0)]] ∧
      Kernel.scan c.text ≠ Manifest.recorded c.manifest := by
  obtain ⟨s, t, c, hread, -, hcompile, -, hlayouts⟩ := compile_mark
  obtain ⟨hscan, -⟩ := compile_shown hread hcompile
  have hshown (t : TypeTable) : markLayouts.map (Kernel.shown t) =
      [.enum "E" 20 4 [("V", 1), ("W", 2)], .struct "P" true [("at", 8), ("next", 16)],
        .struct "A" true [("tag", 0)]] := by cbv
  rw [hlayouts, hshown] at hscan
  have hrecorded := recorded_mark c.table
  rw [← hlayouts] at hrecorded
  refine ⟨s, c, hread, hcompile, hscan, hrecorded, ?_⟩
  rw [hscan, Compiled.manifest, hrecorded]
  decide

end Schema

end PackedSchema
