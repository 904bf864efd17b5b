import PackedSchema.Proofs.Compile
import PackedSchema.Proofs.Kernel.Scan
import PackedSchema.Proofs.Layout.Answers

/-!
# Warnings

A field that refers to a bare name which is not declared is a word in the kernel text, and a warning tells so.
Warnings are told while types are named, and nothing is told before all layouts are known.
-/

namespace PackedSchema

open Layout (LaysOut)

variable {s : Schema} {t : TypeTable} {c : Compiled}

/-! ## References that dangle -/

namespace Schema

/-- The name that a type refers to, if it is a bare name that the schema does not declare. -/
def dangling? (s : Schema) : FieldType → Option String
  | .ref (.named n) => if n ∈ s.decls.map Decl.name then none else some n
  | _ => none

/-- The warning about a field of a struct that refers to a name. -/
def danglingWarning (struct field n : String) : Finding where
  severity := .warning
  code := "CW0101"
  message := "reference to undeclared type '" ++ n ++ "' in field '" ++ field ++ "' of struct '" ++ struct ++
    "' is emitted as plain uint"

/-- One warning for each field that refers to a bare name which is not declared, in the order of declarations
and fields. -/
def danglingWarnings (s : Schema) : List Finding :=
  s.structs.flatMap fun d => d.fields.filterMap fun f => (s.dangling? f.ty).map (danglingWarning d.name f.name)

/-- The kernel type of a reference to a type: the alias of a bare name that is declared, a word otherwise. -/
def refType (s : Schema) : FieldType → String
  | .named n => if n ∈ s.decls.map Decl.name then n ++ "Ref" else "uint"
  | _ => "uint"

end Schema

theorem isSome_lookup_eq (hdecls : t.decls = s.decls) (n : String) :
    (t.lookup n).isSome = decide (n ∈ s.decls.map Decl.name) := by
  rw [← hdecls, Bool.eq_iff_iff, TypeTable.isSome_lookup_iff, decide_eq_true_iff, List.mem_map]

namespace Kernel

theorem undeclaredTarget?_eq (hdecls : t.decls = s.decls) (ty : FieldType) :
    undeclaredTarget? t ty = s.dangling? ty := by
  have hlookup (n : String) : (t.lookup n).isNone = !decide (n ∈ s.decls.map Decl.name) := by
    rw [← isSome_lookup_eq hdecls, Option.not_isSome]
  cases ty with
  | ref target =>
    cases target with
    | named n =>
      rw [undeclaredTarget?, FieldType.target?, Option.filter_some, hlookup, Schema.dangling?]
      by_cases hn : n ∈ s.decls.map Decl.name <;> simp [hn]
    | _ => rfl
  | _ => rfl

theorem typeName_ref (hdecls : t.decls = s.decls) (target : FieldType) :
    typeName t (.ref target) = s.refType target := by
  cases target with
  | named n =>
    rw [typeName, isSome_lookup_eq hdecls, Schema.refType]
    by_cases hn : n ∈ s.decls.map Decl.name <;> simp [hn, aliasOf, wordType]
  | _ => rfl

theorem warning?_eq (hdecls : t.decls = s.decls) (struct field : String) (ty : FieldType) :
    warning? t (.field field struct) ty = (s.dangling? ty).map (Schema.danglingWarning struct field) := by
  have hmessage (n : String) :
      Diagnostic.Code.undeclaredTarget.message [("name", n), ("owner", (Owner.field field struct).text)] =
        (Schema.danglingWarning struct field n).message := by
    change "reference to undeclared type '" ++ (n ++ ("' in " ++ ((Owner.field field struct).text ++
      (" is emitted as plain uint" ++ "")))) = _
    rw [← String.toList_inj]
    simp [Owner.text, Schema.danglingWarning]
  rw [warning?, undeclaredTarget?_eq hdecls]
  congr 1
  funext n
  rw [hmessage]
  rfl

/-- The layouts of a schema are warned about as its fields are. -/
theorem warnings_eq (hdecls : t.decls = s.decls) {layouts : List TypeLayout}
    (h : List.Forall₂ LaysOut s.decls layouts) : warnings t layouts = s.danglingWarnings := by
  unfold Schema.danglingWarnings Schema.structs
  -- The names that are declared are those of the whole schema, whatever part of it is left.
  generalize hds : s.decls = ds at h
  clear hds
  induction h with
  | nil => rfl
  | cons hl _ ih =>
    cases hl with
    | @struct d size alignment tagged fields hfields =>
      have hfields : fields.filterMap (fun f => warning? t (.field f.name d.name) f.ty) =
          d.fields.filterMap fun f => (s.dangling? f.ty).map (Schema.danglingWarning d.name f.name) := by
        simp only [warning?_eq hdecls]
        have hpairs := congrArg (List.filterMap fun p : String × FieldType =>
          (s.dangling? p.2).map (Schema.danglingWarning d.name p.1)) hfields
        simpa only [List.filterMap_map, Function.comp_def] using hpairs
      rw [List.filterMap_cons_some (show Decl.struct? (.struct d) = some d from rfl), List.flatMap_cons, ← ih,
        ← hfields]
      rfl
    | enum => exact ih

/-! ## Types of references -/

/-- The lines are those of the accessor for a field of a struct, which gives a value of a type. -/
def IsAccessor (struct field type : String) (lines : List String) : Prop :=
  ∃ address, lines =
    [type ++ " " ++ struct ++ "_" ++ field ++ "(const device char *buf, " ++ struct ++ "Ref ref) \x7b",
      "    return *((const device " ++ type ++ " *)(" ++ address ++ "));", "\x7d"]

/-- The lines of a declaration, in which the types of fields are named by a function. A struct has one member
for each of its fields, and an accessor for each of them that is not nested. -/
inductive Rendered (type : FieldType → String) : Decl → List String → Prop
  | struct {d : StructDecl} {tag reader : List String} {accessors : List (List String)}
      (htag : tag = [] ∨ tag = ["    uint tag;"]) (hreader : (Item.reader d.name).lines = .ok reader)
      (haccessors : List.Forall₂ (fun f lines => IsAccessor d.name f.name (type f.ty) lines)
        (d.fields.filter fun f => f.ty.isSmall) accessors) :
      Rendered type (.struct d) (("struct " ++ d.name ++ "Packed \x7b") ::
        (tag ++ d.fields.map (fun f => "    " ++ type f.ty ++ " " ++ f.name ++ ";") ++ "\x7d;" ::
          (reader ++ accessors.flatten)))
  | enum {d : EnumDecl} {body : List String} : Rendered type (.enum d) body

theorem isAccessor_of_lines {name field type : String} {offset : Int} {lines : List String}
    (h : (Item.accessor name field type offset).lines = .ok lines) : IsAccessor name field type lines := by
  obtain ⟨address, -, h⟩ := bind_eq_ok_iff.mp h
  cases h
  have hsignature : signature type (name ++ "_" ++ field) name =
      type ++ " " ++ name ++ "_" ++ field ++ "(const device char *buf, " ++ name ++ "Ref ref) \x7b" := by
    rw [← String.toList_inj]
    simp [signature, aliasOf, opening]
  exact ⟨address, by rw [hsignature]; rfl⟩

/-- What depends on the names and types of fields alone is the same for their places. -/
theorem forall₂_small_iff {β : Type} {Q : String → FieldType → β → Prop} {d : StructDecl}
    {fields : List FieldLayout} {bs : List β}
    (h : fields.map (fun f => (f.name, f.ty)) = d.fields.map fun f => (f.name, f.ty)) :
    List.Forall₂ (fun f b => Q f.name f.ty b) (fields.filter fun f => f.ty.isSmall) bs ↔
      List.Forall₂ (fun f b => Q f.name f.ty b) (d.fields.filter fun f => f.ty.isSmall) bs := by
  have hsmall := congrArg (List.filter fun p : String × FieldType => p.2.isSmall) h
  rw [List.filter_map, List.filter_map] at hsmall
  have hboth := congrArg (fun ps => List.Forall₂ (fun p b => Q p.1 p.2 b) ps bs) hsmall
  simp only [List.forall₂_map_left_iff] at hboth
  exact iff_of_eq hboth

theorem rendered_of_lines {d : Decl} {l : TypeLayout} {body : List String} (hl : LaysOut d l)
    (h : linesOf (itemsOf t l) = .ok body) : Rendered (typeName t) d body := by
  cases hl with
  | @struct d size alignment tagged fields hfields =>
    obtain ⟨packed, rest, hpacked, hrest, rfl⟩ := linesOf_cons_eq_ok h
    obtain ⟨reader, later, hreader, hlater, rfl⟩ := linesOf_cons_eq_ok hrest
    obtain ⟨accessors, haccessors, hlater⟩ := bind_eq_ok_iff.mp hlater
    cases hlater
    cases hpacked
    rw [Kernel.accessors, mapM_eq_ok_iff, List.forall₂_map_left_iff] at haccessors
    have haccessors := (forall₂_small_iff (Q := fun name ty => IsAccessor d.name name (typeName t ty)) hfields).mp
      (haccessors.imp fun _ _ => isAccessor_of_lines)
    have htag : (if tagged then ["    uint tag;"] else []) = [] ∨
        (if tagged then ["    uint tag;"] else []) = ["    uint tag;"] := by
      cases tagged
      · exact .inl rfl
      · exact .inr rfl
    have hmembers : (members t tagged fields).map (fun m => member m.1 m.2) =
        (if tagged then ["    uint tag;"] else []) ++
          d.fields.map fun f => "    " ++ typeName t f.ty ++ " " ++ f.name ++ ";" := by
      have hpairs := congrArg (List.map fun p : String × FieldType =>
        "    " ++ typeName t p.2 ++ " " ++ p.1 ++ ";") hfields
      simp only [List.map_map, Function.comp_def] at hpairs
      rw [members, List.map_append, List.map_map, ← hpairs]
      cases tagged <;> rfl
    have hopening : "struct " ++ packedOf d.name ++ " " ++ opening = "struct " ++ d.name ++ "Packed \x7b" := by
      rw [← String.toList_inj]
      simp [packedOf, opening]
    have hrendered := Rendered.struct htag hreader haccessors
    rw [hmembers, hopening]
    simpa [closing] using hrendered
  | enum => exact .enum

/-- The bodies of declarations are those lines that their layouts give. -/
theorem rendered_of_bodies {decls : List Decl} {layouts : List TypeLayout} {bodies : List (List String)}
    (hlayouts : List.Forall₂ LaysOut decls layouts)
    (h : List.Forall₂ (fun l body => linesOf (itemsOf t l) = .ok body) layouts bodies) :
    List.Forall₂ (Rendered (typeName t)) decls bodies := by
  induction hlayouts generalizing bodies with
  | nil =>
    cases h
    exact .nil
  | cons hl _ ih =>
    cases h with
    | cons hbody hbodies => exact .cons (rendered_of_lines hl hbody) (ih hbodies)

end Kernel

/-! ## Telling as it goes -/

open Telling (exec)

/-- A compilation that tells its warnings to a report ends as one that lists them. A success has told all its
warnings, and an error has told nothing. -/
structure TellsAll (r : Report) (final : Except Failure Compiled × Report) (x : Except Failure Compiled) : Prop where
  outcome : final.1 = x
  success : ∀ c, x = .ok c → final.2.items = c.warnings
  error : ∀ e, x = .error (.schema e) → final.2 = r

theorem tellsAll_failed (r : Report) (f : Failure) : TellsAll r (.error f, r) (.error f) := by
  refine ⟨rfl, ?_, fun _ _ => rfl⟩
  intro c hc
  cases hc

theorem tellsAll_tellCompile (s : Schema) {r : Report} (hr : r.items = []) :
    TellsAll r (exec s.tellCompile r) s.compile := by
  unfold Schema.compile
  cases htable : s.table with
  | error f =>
    rw [Schema.exec_of_table_error htable, Schema.exec_of_table_error htable]
    exact tellsAll_failed r f
  | ok t =>
    cases hlayouts : (Layout.ask (Layout.layouts t) {}).1 with
    | error f =>
      rw [Schema.exec_of_layouts_error htable hlayouts, Schema.exec_of_layouts_error htable hlayouts]
      exact tellsAll_failed r f
    | ok layouts =>
      cases htext : Kernel.text t layouts with
      | error f =>
        -- Only a number can be left that is too long to be written.
        rw [Schema.exec_of_text_error htable hlayouts htext {}]
        cases Kernel.text_failsWith t layouts f htext
        refine ⟨Schema.exec_of_text_error htable hlayouts htext r, ?_, ?_⟩
        · intro c hc
          cases hc
        · intro e he
          cases he
      | ok text =>
        rw [Schema.exec_of_text htable hlayouts htext hr, Schema.exec_of_text htable hlayouts htext rfl]
        refine ⟨rfl, ?_, ?_⟩
        · intro c hc
          cases hc
          rfl
        · intro e he
          cases he

/-! ## What compilation warns of -/

/-- A field of a struct refers to a bare name that the schema does not declare. -/
def Schema.Dangles (s : Schema) : Prop :=
  ∃ d ∈ s.structs, ∃ f ∈ d.fields, ∃ n, f.ty = .ref (.named n) ∧ ∀ d ∈ s.decls, d.name ≠ n

theorem dangling?_eq_some_iff {ty : FieldType} {n : String} :
    s.dangling? ty = some n ↔ ty = .ref (.named n) ∧ ∀ d ∈ s.decls, d.name ≠ n := by
  unfold Schema.dangling?
  split
  case h_1 n' =>
    rw [Option.ite_none_left_eq_some, Option.some.injEq]
    simp only [List.mem_map, not_exists, not_and, FieldType.ref.injEq, FieldType.named.injEq]
    constructor
    · rintro ⟨hnone, rfl⟩
      exact ⟨rfl, hnone⟩
    · rintro ⟨rfl, hnone⟩
      exact ⟨hnone, rfl⟩
  case h_2 hother => exact iff_of_false nofun fun h => hother n h.1

theorem danglingWarnings_ne_nil_iff : s.danglingWarnings ≠ [] ↔ s.Dangles := by
  constructor
  · intro h
    obtain ⟨w, hw⟩ := List.exists_mem_of_ne_nil _ h
    obtain ⟨d, hd, hw⟩ := List.mem_flatMap.mp hw
    obtain ⟨f, hf, hw⟩ := List.mem_filterMap.mp hw
    obtain ⟨n, hn, -⟩ := Option.map_eq_some_iff.mp hw
    exact ⟨d, hd, f, hf, n, dangling?_eq_some_iff.mp hn⟩
  · rintro ⟨d, hd, f, hf, n, hn⟩
    have hwarning : (s.dangling? f.ty).map (Schema.danglingWarning d.name f.name) = some _ :=
      congrArg _ (dangling?_eq_some_iff.mpr hn)
    exact List.ne_nil_of_mem (List.mem_flatMap.mpr ⟨d, hd, List.mem_filterMap.mpr ⟨f, hf, hwarning⟩⟩)

/-- The warnings of a compiled schema are those about its dangling references, and these and the references to
other than bare names are the ones that are words in its text. -/
structure Compiled.Warned (c : Compiled) (s : Schema) : Prop where
  warnings : c.warnings = s.danglingWarnings
  types : ∀ target, Kernel.typeName c.table (.ref target) = s.refType target
  text : ∃ aliases bodies, Kernel.linesOf (s.decls.map fun d => .refAlias d.name) = .ok aliases ∧
    c.text = "\n".intercalate (aliases ++ (bodies.map ("" :: ·)).flatten) ++ "\n" ∧
    List.Forall₂ (Kernel.Rendered (Kernel.typeName c.table)) s.decls bodies

theorem Schema.warned_of_compile (h : s.compile = .ok c) : c.Warned s := by
  obtain ⟨htable, hlayouts, htext⟩ := compile_eq_ok h
  have hcompiled := compile_of_text htable hlayouts htext
  have hwarnings : c.warnings = Kernel.warnings c.table c.layouts :=
    congrArg Compiled.warnings (Except.ok.inj (h.symm.trans hcompiled))
  obtain ⟨ht, hw⟩ := TypeTable.ofSchema_eq_ok htable
  have hdecls : c.table.decls = s.decls := by rw [ht]
  have hlaysOut := Layout.laysOut_layouts hw hlayouts
  rw [hdecls] at hlaysOut
  obtain ⟨aliases, bodies, haliases, hbodies, hout⟩ := Kernel.text_eq_ok htext
  rw [hdecls] at haliases
  exact ⟨hwarnings.trans (Kernel.warnings_eq hdecls hlaysOut), Kernel.typeName_ref hdecls,
    aliases, bodies, haliases, hout, Kernel.rendered_of_bodies hlaysOut hbodies⟩

end PackedSchema
