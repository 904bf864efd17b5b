import PackedSchema.Proofs.Compile
import PackedSchema.Proofs.Kernel.Agreement
import PackedSchema.Proofs.Schema.Faults

/-!
# How compilation fails

A text is compiled, or an error tells what is wrong with it, or a number in it or in its kernel text has too
many digits. No step on the way is asked for something that is not there: every message has its arguments,
the search for cycles stays on its path, and every field that is emitted has a type.
-/

namespace PackedSchema

open Source (File SyntaxError Place)

/-! ## Messages -/

namespace Diagnostic

theorem Code.ofId?_id (c : Code) : ofId? c.id = some c := by
  cases c <;> rfl

/-- The message of the code can be made: its arguments fill every slot, and none of them has the name of a
parameter. -/
structure Told (maker : Maker) (id : String) (args : Arguments) (message : String) : Prop where
  apart : maker.checkArguments args = .ok ()
  filled : messageOf id args = .ok message

theorem messageOf_id {c : Code} {args : Arguments} {s : String}
    (hargs : Maker.text.checkArguments args = .ok ()) (hfill : c.template.fill args = .ok s) :
    messageOf c.id args = .ok (c.message args) := by
  rw [messageOf, hargs, Code.ofId?_id]
  change (c.template.fill args).mapError _ = .ok (c.message args)
  rw [Code.message, hfill]
  rfl

/-- The codes of the errors that a text can have. -/
def Category.textCodes : Category → List String
  | parse => ["CE0001", "CE0002", "CE0003", "CE0004", "CE0005", "CE0006"]
  | resolution => ["CE0101", "CE0104", "CE0105", "CE0106", "CE0107"]
  | shape => ["CE0201", "CE0202", "CE0203"]
  | manifest => []

theorem Code.mem_textCodes {c : Code} (hseverity : c.severity = .error) (hcategory : c.category ≠ .manifest) :
    c.id ∈ c.category.textCodes := by
  cases c <;> first | exact absurd rfl hcategory | (cases hseverity <;> decide)

end Diagnostic

open Diagnostic (Told Maker messageOf messageOf_id)

/-- Every cause has the arguments of its message. -/
theorem Cause.told (c : Cause) : Told .error c.code.id c.arguments c.message := by
  -- Which slots are filled does not depend on the texts that fill them.
  have hfill : ∃ s, c.code.template.fill c.arguments = .ok s := by
    cases c <;> exact ⟨_, rfl⟩
  obtain ⟨s, hfill⟩ := hfill
  refine ⟨?_, messageOf_id ?_ hfill⟩
  · cases c <;> rfl
  · cases c <;> rfl

theorem Kernel.told_warnings {t : TypeTable} {layouts : List TypeLayout} {w : Finding}
    (h : w ∈ warnings t layouts) : ∃ args, Told .report w.code args w.message := by
  have hwarning {owner : Owner} {ty : FieldType} (hw : warning? t owner ty = some w) :
      ∃ args, Told .report w.code args w.message := by
    obtain ⟨n, -, rfl⟩ := Option.map_eq_some_iff.mp hw
    exact ⟨[("name", n), ("owner", owner.text)], rfl, messageOf_id (c := .undeclaredTarget) rfl rfl⟩
  obtain ⟨l, -, hw⟩ := List.mem_flatMap.mp h
  cases l with
  | struct name size alignment tagged fields =>
    obtain ⟨f, -, hw⟩ := List.mem_filterMap.mp hw
    exact hwarning hw
  | enum => cases hw

/-! ## Failures -/

/-- The failures that a text can end in. -/
inductive Foreseen : Failure → Prop
  | error {e : SchemaError} (hcode : e.code.id ∈ e.code.category.textCodes)
      (htold : Told .error e.code.id e.cause.arguments e.message) : Foreseen (.schema e)
  | tooLongToRead {digits : Nat} (h : Numeral.limit < digits) :
      Foreseen (.numeral (.tooLongToRead digits))
  | tooLongToWrite : Foreseen (.numeral .tooLongToWrite)

/-- What stops the compilation of a text, from its syntax to its kernel text. -/
inductive Stops (source : String) : Failure → Prop
  | unread {e : SyntaxError} {detail : String} (hread : File.read source = .error e)
      (hdetail : e.fault.detail? = some detail) :
      Stops source (.of (.syntaxError detail) (some (.point e.line e.col)))
  | faulty {file : File} {f : Failure} (hread : File.read source = .ok file) (hfault : file.Fault f) :
      Stops source f
  | unlawful {s : Schema} {e : SchemaError} (hs : Schema.ofText source = .ok s) (hfault : s.FirstFault e) :
      Stops source (.schema e)
  | unresolved {s : Schema} {e : SchemaError} (hs : Schema.ofText source = .ok s) (hlawful : s.Lawful)
      (hblames : Blames s.decls e) : Stops source (.schema e)
  | overlong {s : Schema} {t : TypeTable} {layouts : List TypeLayout} (hs : Schema.ofText source = .ok s)
      (htable : TypeTable.ofSchema s = .ok t)
      (hlayouts : (Layout.ask (Layout.layouts t) {}).1 = .ok layouts) (hlong : ¬ Writable layouts) :
      Stops source (.numeral .tooLongToWrite)

theorem foreseen_of {cause : Cause} {span : Option Span} (h : cause.code.category ≠ .manifest) :
    Foreseen (.of cause span) := by
  have hseverity : cause.code.severity = .error := by cases cause <;> rfl
  exact .error (Diagnostic.Code.mem_textCodes hseverity h) cause.told

/-! ### Faults of files -/

section Faults

variable {f : Failure}

theorem Source.TypeNode.Fault.foreseen {owner : Owner} {ty : Source.TypeNode} (h : ty.Fault owner f) :
    Foreseen f := by
  induction h with
  | element => exact foreseen_of nofun
  | length => exact foreseen_of nofun
  | digits _ _ hlong => exact .tooLongToRead hlong
  | zero => exact foreseen_of nofun
  | wrapper => exact foreseen_of nofun
  | argument _ _ ih => exact ih

theorem Source.FieldNode.Fault.foreseen {struct : String} {node : Source.FieldNode}
    (h : node.Fault struct f) : Foreseen f := by
  cases h with
  | unnamed => exact foreseen_of nofun
  | type h => exact h.foreseen

theorem Source.File.Fault.foreseen {file : File} (h : file.Fault f) : Foreseen f := by
  cases h with
  | field _ _ h => exact h.foreseen
  | payload _ _ _ h => exact h.foreseen

end Faults

section Errors

variable {e : SchemaError}

theorem FieldFault.foreseen {tagged : Prop} {struct : String} {fields : List Field}
    (h : FieldFault tagged struct fields e) : Foreseen (.schema e) := by
  cases h with
  | reserved _ _ _ _ herror => exact herror ▸ foreseen_of nofun
  | repeated _ _ _ _ herror => exact herror ▸ foreseen_of nofun

theorem VariantFault.foreseen {enum : String} {variants : List Variant}
    (h : VariantFault enum variants e) : Foreseen (.schema e) := by
  cases h with
  | repeated _ _ _ herror => exact herror ▸ foreseen_of nofun
  | payload _ _ _ _ _ herror => exact herror ▸ foreseen_of nofun

theorem Schema.FirstFault.foreseen {s : Schema} (h : s.FirstFault e) : Foreseen (.schema e) := by
  cases h with
  | name _ _ _ herror => exact herror ▸ foreseen_of nofun
  | struct _ _ _ h => exact h.foreseen
  | enum _ _ _ _ h => exact h.foreseen
  | cycle _ _ _ _ _ _ herror => exact herror ▸ foreseen_of nofun

theorem Blames.foreseen {decls : List Decl} (h : Blames decls e) : Foreseen (.schema e) := by
  cases h with
  | undeclared _ _ _ _ herror => exact herror ▸ foreseen_of nofun
  | inlineEnum _ _ _ _ herror => exact herror ▸ foreseen_of nofun

end Errors

/-- What stops a compilation is foreseen. -/
theorem Stops.foreseen {source : String} {f : Failure} (h : Stops source f) : Foreseen f := by
  cases h with
  | unread => exact foreseen_of nofun
  | faulty _ hfault => exact hfault.foreseen
  | unlawful _ hfault => exact hfault.foreseen
  | unresolved _ _ hblames => exact hblames.foreseen
  | overlong => exact .tooLongToWrite

/-! ## Texts -/

/-- Reading a text stops at a token, at a character or at the end, and this can be told. -/
theorem Source.Place.read_failsWith (p : Place) (last : Option Source.Token) (cur : Source.Cursor) :
    FailsWith (fun e => ∃ detail, e.fault.detail? = some detail) (p.read last cur) := by
  -- Only a fault that is described from outside can be without detail, and reading makes none.
  fun_induction Place.read p last cur with
  | case1 p last cur h =>
    refine FailsWith.mapError (E := fun _ => True) (fun _ _ => trivial) fun expected _ => ?_
    exact ⟨_, rfl⟩
  | case2 p last cur t h =>
    rintro _ ⟨⟩
    exact ⟨_, rfl⟩
  | case3 p last cur c line col h =>
    rintro _ ⟨⟩
    exact ⟨_, rfl⟩
  | case4 p last cur t next h hlt expected hstep =>
    rintro _ ⟨⟩
    exact ⟨_, rfl⟩
  | case5 p last cur t next h hlt q hstep ih => exact ih

theorem Schema.ofText_failsWith (source : String) : FailsWith (Stops source) (ofText source) := by
  cases hread : File.read source with
  | error e =>
    obtain ⟨detail, hdetail⟩ := Place.read_failsWith _ _ _ e hread
    have hfail : ofText source = .error (.schema e.toSchemaError) := by
      rw [ofText, Source.Tree.ofText, hread]
      rfl
    rw [hfail, SyntaxError.toSchemaError, hdetail]
    rintro _ ⟨⟩
    exact .unread hread hdetail
  | ok file =>
    have hbuild : ofText source = ofTree file.tree := by
      rw [ofText, Source.Tree.ofText, hread]
      rfl
    obtain ⟨ts, hwritten, hspells⟩ := Source.written_of_read hread
    rw [hbuild]
    exact (ofTree_failsWith (List.forall_mem_map.mp hspells.valid) hwritten).mono
      fun f hf => .faulty hread hf

theorem TypeLayout.Sound.ne_missing {l : TypeLayout} {ty : FieldType} (h : l.Sound) (hty : ty ∈ l.types) :
    ty ≠ .missing := by
  cases l with
  | struct name size alignment tagged fields =>
    obtain ⟨f, hf, rfl⟩ := List.mem_map.mp hty
    exact (h.2.1 f hf).2.proper.2
  | enum => cases hty

/-- The warnings can be told, and every field that is emitted has a type. -/
structure Compiled.Complete (c : Compiled) : Prop where
  warnings : ∀ w ∈ c.warnings, ∃ args, Told .report w.code args w.message
  types : ∀ l ∈ c.layouts, ∀ ty ∈ l.types,
    Kernel.typeNameOf c.table ty = .ok (Kernel.typeName c.table ty)

theorem Schema.compile_ends {source : String} {s : Schema} (hs : ofText source = .ok s) :
    Ends Compiled.Complete (Stops source) s.compile := by
  have hlegible := legible_of_ofText hs
  have hends := TypeTable.ofSchema_ends s
  cases htable : TypeTable.ofSchema s with
  | error e =>
    rw [htable] at hends
    have hfail : s.compile = .error (.schema e) := by
      have htable : s.table = .error (.schema e) := by rw [Schema.table, htable]; rfl
      rw [compile, exec_of_table_error htable]
    rw [hfail]
    exact .unlawful hs hends
  | ok t =>
    rw [htable] at hends
    obtain ⟨ht, hw⟩ := TypeTable.ofSchema_eq_ok htable
    have hdecls : t.decls = s.decls := by rw [ht]
    have hproper := proper_of_legible hlegible
    rw [← hdecls] at hproper
    have hhonest := Layout.honest_layouts hw hproper
    -- Nothing was asked before, so the answers are those of the rules.
    have hfresh := Layout.layouts_fresh hw hproper.counted
    rw [compile_eq htable]
    cases hlayouts : (Layout.ask (Layout.layouts t) {}).1 with
    | error f =>
      rw [hfresh] at hlayouts
      obtain ⟨e, rfl, hblames⟩ := hhonest f hlayouts
      rw [hdecls] at hblames
      exact .unresolved hs hends.1 hblames
    | ok layouts =>
      change Ends _ _ (Kernel.text t layouts >>= _)
      cases htext : Kernel.text t layouts with
      | error f =>
        -- The text fails because of a number only, and then not all numbers can be written.
        cases Kernel.text_failsWith t layouts f htext
        refine .overlong hs htable hlayouts fun hwritable => ?_
        obtain ⟨text, hok⟩ := (Kernel.succeeds_text_iff t layouts).mpr hwritable
        rw [hok] at htext
        cases htext
      | ok text =>
        rw [hfresh] at hlayouts
        refine ⟨fun w hw => Kernel.told_warnings hw, fun l hl ty hty => ?_⟩
        have hmissing := (Layout.sound_layouts htable hlegible hlayouts).1 l hl |>.ne_missing hty
        exact Kernel.typeNameOf_eq_ok hmissing
          (Kernel.writable_of_mem ((Kernel.succeeds_text_iff t layouts).mp ⟨text, htext⟩) hl hty)

/-- Every text is compiled, or stopped by something that is wrong with it: its errors have the codes of the
first stages and can be told, and the only other failures come from numbers of too many digits. The search
for cycles does not lose its path. -/
theorem compileText_ends (source : String) :
    Ends Compiled.Complete (fun f => Stops source f ∧ Foreseen f) (compileText source) ∧
      ∀ s halt, Schema.ofText source = .ok s → (Containment.ofDecls s.decls).searchAll = .error halt →
        ∃ names, halt = .cycle names := by
  constructor
  · rw [compileText]
    cases hs : Schema.ofText source with
    | error f =>
      have hstops := Schema.ofText_failsWith source f hs
      exact ⟨hstops, hstops.foreseen⟩
    | ok s => exact (Schema.compile_ends hs).mono (fun _ h => h) fun f hf => ⟨hf, hf.foreseen⟩
  · intro s halt _ hhalt
    rcases Containment.findCycle_cases (Containment.ofDecls s.decls) with ⟨⟨m, hm⟩, -⟩ | ⟨hcycle, -⟩
    · rw [hm] at hhalt
      cases hhalt
    · rw [hcycle] at hhalt
      cases hhalt
      exact ⟨_, rfl⟩

end PackedSchema
