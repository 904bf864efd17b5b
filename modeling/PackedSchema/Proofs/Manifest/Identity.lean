import PackedSchema.Proofs.Kernel.Agreement
import PackedSchema.Proofs.Layout.Answers
import PackedSchema.Proofs.Layout.History
import PackedSchema.Proofs.Schema.TypeTexts

/-!
# Manifests identify schemas

Schemas with the same manifest are the same, but for the payloads of their variants. A manifest has the
names of a schema as they are and its types as texts, which types that were read do not share.
-/

namespace PackedSchema

/-! ## What a manifest tells of a declaration -/

/-- A declaration by its name and the names and texts of types of its fields, or the names of its
variants. -/
inductive Entry
  | struct (name : String) (fields : List (String × String))
  | enum (name : String) (variants : List String)

def TypeLayout.entry : TypeLayout → Entry
  | struct name _ _ _ fields => .struct name (fields.map fun f => (f.name, f.ty.text))
  | enum name _ _ variants => .enum name (variants.map Prod.fst)

def Decl.entry : Decl → Entry
  | struct d => .struct d.name (d.fields.map fun f => (f.name, f.ty.text))
  | enum d => .enum d.name (d.variants.map Variant.name)

/-- The declaration without the places of its parts and without the payloads of its variants. -/
def Decl.unloaded : Decl → Decl
  | struct d => .struct { name := d.name, fields := d.fields.map Field.plain }
  | enum d => .enum { name := d.name, variants := d.variants.map fun v => { name := v.name, payload := [] } }

variable {d e : Decl} {l k : TypeLayout}

/-- Items that are equal under one map are so under another one that tells no more. -/
theorem map_eq_of_map_eq {α β γ : Type} {f : α → β} {g : α → γ} {items others : List α}
    (hg : ∀ a ∈ items, ∀ b ∈ others, f a = f b → g a = g b) (h : items.map f = others.map f) :
    items.map g = others.map g := by
  induction items generalizing others with
  | nil =>
    cases others with
    | nil => rfl
    | cons => cases h
  | cons a items ih =>
    cases others with
    | nil => cases h
    | cons b others =>
      rw [List.map_cons, List.map_cons, List.cons.injEq] at h
      have hfirst := hg a (by simp) b (by simp) h.1
      have hrest := ih (fun a ha b hb => hg a (by simp [ha]) b (by simp [hb])) h.2
      rw [List.map_cons, List.map_cons, hfirst, hrest]

theorem Layout.LaysOut.entry_eq (h : LaysOut d l) : l.entry = d.entry := by
  cases h with
  | struct hfields =>
    have htexts := congrArg (List.map (Prod.map id FieldType.text)) hfields
    simpa [TypeLayout.entry, Decl.entry, Function.comp_def] using htexts
  | enum hvariants => simp [TypeLayout.entry, Decl.entry, hvariants]

/-- Declarations of types that were read are known from their entries, up to payloads. -/
theorem Decl.unloaded_eq_of_entry (hd : ∀ ty ∈ d.contents, ty.Readable) (he : ∀ ty ∈ e.contents, ty.Readable)
    (h : d.entry = e.entry) : d.unloaded = e.unloaded := by
  cases d with
  | struct d =>
    cases e with
    | struct e =>
      simp only [Decl.entry, Entry.struct.injEq] at h
      have hfields : d.fields.map Field.plain = e.fields.map Field.plain := by
        refine map_eq_of_map_eq (fun f hf f' hf' htold => ?_) h.2
        obtain ⟨hname, htext⟩ := Prod.mk.inj htold
        have hty := (hd f.ty (List.mem_map_of_mem hf)).eq_of_text (he f'.ty (List.mem_map_of_mem hf')) htext
        simp [Field.plain, hname, hty]
      simp [Decl.unloaded, h.1, hfields]
    | enum e => cases h
  | enum d =>
    cases e with
    | struct e => cases h
    | enum e =>
      simp only [Decl.entry, Entry.enum.injEq] at h
      have hvariants := congrArg (List.map fun n => ({ name := n, payload := [] } : Variant)) h.2
      simpa [Decl.unloaded, h.1, Function.comp_def] using hvariants

/-! ## Manifests -/

namespace Manifest

theorem entry_eq_of_typeValue (h : typeValue l = typeValue k) : l.entry = k.entry := by
  cases l with
  | struct name size alignment tagged fields =>
    cases k with
    | struct name' size' alignment' tagged' fields' =>
      simp only [typeValue, Value.record, List.map_cons, List.map_nil, Value.map.injEq, List.cons.injEq,
        Prod.mk.injEq, Value.text.injEq, Value.list.injEq, true_and, and_true] at h
      obtain ⟨hname, -, -, -, hfields⟩ := h
      have htold := map_eq_of_map_eq (g := fun f => (f.name, f.ty.text))
        (fun f _ f' _ hvalue => by simp_all [fieldValue, Value.record]) hfields
      simp [TypeLayout.entry, hname, htold]
    | enum => simp [typeValue, Value.record] at h
  | enum name size words variants =>
    cases k with
    | struct => simp [typeValue, Value.record] at h
    | enum name' size' words' variants' =>
      simp only [typeValue, Value.record, List.map_cons, List.map_nil, Value.map.injEq, List.cons.injEq,
        Prod.mk.injEq, Value.text.injEq, Value.list.injEq, true_and, and_true] at h
      obtain ⟨hname, -, -, hvariants⟩ := h
      have hnames := map_eq_of_map_eq (g := Prod.fst) (fun v _ v' _ hvalue => by simp_all) hvariants
      simp [TypeLayout.entry, hname, hnames]

theorem ofLayouts_inj {t u : TypeTable} {ls ks : List TypeLayout} (h : ofLayouts t ls = ofLayouts u ks) :
    t.schemaName = u.schemaName ∧ ls.map TypeLayout.entry = ks.map TypeLayout.entry := by
  simp only [ofLayouts, Value.record, List.map_cons, List.map_nil, Value.map.injEq, List.cons.injEq,
    Prod.mk.injEq, Value.list.injEq, true_and, and_true] at h
  obtain ⟨hname, htypes⟩ := h
  refine ⟨?_, map_eq_of_map_eq (fun l _ k _ => entry_eq_of_typeValue) htypes⟩
  cases hs : t.schemaName <;> cases hs' : u.schemaName <;> simp_all

/-- The schema is read from a text and has the manifest, which is built in a session that may have been
asked anything before. -/
structure Records (s : Schema) (m : Value) : Prop where
  read : ∃ source, Schema.ofText source = .ok s
  built : ∃ (t : TypeTable) (history : List Layout.Question), TypeTable.ofSchema s = .ok t ∧
    (Layout.ask (build t) (Layout.interview t {} history).2).1 = .ok m

/-- A manifest that is recorded is that of layouts of the declarations. -/
theorem Records.exists_layouts {s : Schema} {m : Value} (h : Records s m) :
    ∃ t layouts, m = ofLayouts t layouts ∧ t.schemaName = s.name ∧
      layouts.map TypeLayout.entry = s.decls.map Decl.entry := by
  obtain ⟨⟨source, hread⟩, t, history, htable, hbuild⟩ := h
  obtain ⟨ht, hw⟩ := TypeTable.ofSchema_eq_ok htable
  have hdecls : t.decls = s.decls := by rw [ht]
  have hname : t.schemaName = s.name := by rw [ht]
  have hcounted : Counted t.decls := by
    rw [hdecls]
    exact counted_of_legible (legible_of_ofText hread)
  rw [ask_build] at hbuild
  obtain ⟨layouts, hlayouts, hdescribe⟩ := bind_eq_ok_iff.mp hbuild
  cases describe_eq_ok hdescribe
  -- Whatever was asked before, the layouts are those that an empty session gives.
  have hfollows := Schema.read_layouts_follow hread htable
  have hready := Layout.interview_ready hw hcounted history (Layout.ready_empty t _)
  rw [hfollows.ok_iff hready] at hlayouts
  have hlaysOut := Layout.laysOut_layouts hw (hfollows.fresh.trans hlayouts)
  refine ⟨t, layouts, rfl, hname, ?_⟩
  rw [← hdecls, ← List.forall₂_eq_eq_eq, List.forall₂_map_left_iff, List.forall₂_map_right_iff]
  exact hlaysOut.flip.imp fun _ _ hl => hl.entry_eq

/-- Schemas that are read from texts and have the same manifest have the same name and, in the same order,
declarations of the same names and kinds, with the same fields and types of fields and the same names of
variants. The text of every type that is read is read as the same type again, as that of a field. -/
theorem identifies_schema :
    (∀ (s s' : Schema) (m : Value), Records s m → Records s' m →
      s.name = s'.name ∧ s.decls.map Decl.unloaded = s'.decls.map Decl.unloaded) ∧
    ∀ (source : String) (s : Schema), Schema.ofText source = .ok s →
      ∀ d ∈ s.decls, ∀ ty ∈ d.contents, ∀ name field : String,
        (nameWord name).Valid → (nameWord field).Valid →
          ∃ s', Schema.ofText (loneField name field ty.text) = .ok s' ∧
            s'.plain = { decls := [.struct { name, fields := [{ name := field, ty }] }] } := by
  refine ⟨fun s s' m hs hs' => ?_, fun source s hread d hd ty hty name field hname hfield => ?_⟩
  · obtain ⟨t, layouts, rfl, hname, hentries⟩ := hs.exists_layouts
    obtain ⟨t', layouts', hm, hname', hentries'⟩ := hs'.exists_layouts
    obtain ⟨hnames, hlayouts⟩ := ofLayouts_inj hm
    obtain ⟨source, hread⟩ := hs.read
    obtain ⟨source', hread'⟩ := hs'.read
    have hdecls : s.decls.map Decl.entry = s'.decls.map Decl.entry :=
      hentries.symm.trans (hlayouts.trans hentries')
    refine ⟨hname.symm.trans (hnames.trans hname'), map_eq_of_map_eq (fun d hd e he => ?_) hdecls⟩
    exact Decl.unloaded_eq_of_entry (fun _ => readable_of_ofText hread hd)
      (fun _ => readable_of_ofText hread' he)
  · exact (readable_of_ofText hread hd hty).ofText hname hfield

/-! ### Two schemas with one manifest -/

/-- A schema text with a word in the payload of a variant, and with types that are not written like their
texts. -/
def payloadText (word : ScalarKind) : String :=
  "mod m \x7b enum E \x7b A(" ++ word.keyword ++ "), B \x7d "
    ++ "struct S \x7b at: [ f32; 02 ], next: Ref<Ref <E>> \x7d \x7d"

def payloadLayouts : List TypeLayout :=
  [.enum "E" 8 1 [("A", 1), ("B", 2)],
    .struct "S" 12 8 false
      [{ name := "at", ty := .vector .f32 2, offset := 0, size := 8, alignment := 8 },
        { name := "next", ty := .ref (.ref (.named "E")), offset := 8, size := 4, alignment := 4 }]]

/-- The schema of a text, with its table and layouts. -/
def laidOut (source : String) : Except Failure (Schema × TypeTable × List TypeLayout) := do
  let s ← Schema.ofText source
  let t ← (TypeTable.ofSchema s).mapError .schema
  return (s, t, ← (Layout.ask (Layout.layouts t) {}).1)

theorem records_of_laidOut {source : String} {s : Schema} {t : TypeTable} {layouts : List TypeLayout}
    (h : laidOut source = .ok (s, t, layouts)) :
    Schema.ofText source = .ok s ∧ Records s (ofLayouts t layouts) := by
  obtain ⟨_, hread, h⟩ := bind_eq_ok_iff.mp h
  obtain ⟨_, htable, h⟩ := bind_eq_ok_iff.mp h
  obtain ⟨_, hlayouts, h⟩ := bind_eq_ok_iff.mp h
  cases h
  have htable := mapError_eq_ok_iff.mp htable
  obtain ⟨ht, hw⟩ := TypeTable.ofSchema_eq_ok htable
  have hlaysOut := Layout.laysOut_layouts hw hlayouts
  have hdecls : t.decls = s.decls := by rw [ht]
  rw [hdecls] at hlaysOut
  refine ⟨hread, ⟨source, hread⟩, t, [], htable, ?_⟩
  rw [ask_build]
  change ((Layout.ask (Layout.layouts t) {}).1 >>= describe t) = _
  rw [hlayouts]
  exact describe_of_describable t (describable_of_ofText hread hlaysOut)

theorem laidOut_payload {word : ScalarKind} (hword : word = .u32 ∨ word = .f32) :
    ∃ s t, laidOut (payloadText word) = .ok (s, t, payloadLayouts) ∧ t.schemaName = some "m" ∧
      s.decls.map Decl.contents = [[.scalar word], [.vector .f32 2, .ref (.ref (.named "E"))]] := by
  have hseen : (laidOut (payloadText word)).toOption.map
      (fun p => (p.1.decls.map Decl.contents, p.2.1.schemaName, p.2.2)) =
      some ([[.scalar word], [.vector .f32 2, .ref (.ref (.named "E"))]], some "m", payloadLayouts) := by
    rcases hword with rfl | rfl <;> decide +kernel
  cases hlaid : laidOut (payloadText word) with
  | error f =>
    rw [hlaid] at hseen
    cases hseen
  | ok found =>
    obtain ⟨s, t, layouts⟩ := found
    rw [hlaid] at hseen
    obtain ⟨hcontents, hname, rfl⟩ : _ ∧ _ ∧ layouts = payloadLayouts := by
      simpa [Except.toOption] using hseen
    exact ⟨s, t, rfl, hname, hcontents⟩

theorem identifies_schema_payload :
    ∃ s s' m, Records s m ∧ Records s' m ∧
      s.decls.map Decl.contents ≠ s'.decls.map Decl.contents ∧
      s.name = s'.name ∧ s.decls.map Decl.unloaded = s'.decls.map Decl.unloaded ∧
      ∃ found, Schema.ofText (loneField "S" "at" "[f32; 2]") = .ok found ∧ found.plain =
        { decls := [.struct { name := "S", fields := [{ name := "at", ty := .vector .f32 2 }] }] } := by
  obtain ⟨s, t, hlaid, ht, hcontents⟩ := laidOut_payload (.inl rfl)
  obtain ⟨s', t', hlaid', ht', hcontents'⟩ := laidOut_payload (.inr rfl)
  obtain ⟨hread, hrecords⟩ := records_of_laidOut hlaid
  obtain ⟨-, hrecords'⟩ := records_of_laidOut hlaid'
  have hmanifest : ofLayouts t' payloadLayouts = ofLayouts t payloadLayouts := by simp [ofLayouts, ht, ht']
  rw [hmanifest] at hrecords'
  have hdiffer : s.decls.map Decl.contents ≠ s'.decls.map Decl.contents := by simp [hcontents, hcontents']
  obtain ⟨hname, hdecls⟩ := identifies_schema.1 s s' _ hrecords hrecords'
  obtain ⟨d, hd, hmem⟩ : ∃ d ∈ s.decls, d.contents = [.vector .f32 2, .ref (.ref (.named "E"))] := by
    rw [← List.mem_map, hcontents]
    simp
  have hfound := identifies_schema.2 _ s hread d hd (.vector .f32 2) (by simp [hmem]) "S" "at" (by decide)
    (by decide)
  exact ⟨s, s', _, hrecords, hrecords', hdiffer, hname, hdecls, hfound⟩

end Manifest

end PackedSchema
