import PackedSchema.Compile
import PackedSchema.Proofs.Kernel.Emission
import PackedSchema.Proofs.Layout.Resolved
import PackedSchema.Proofs.Layout.Session

/-!
# What compiles

A schema whose table is well formed compiles exactly if its inline names resolve, as far as the numbers in
its kernel text are not too long to be written.
-/

namespace PackedSchema

/-! ## Compiling -/

namespace Schema

open Telling (exec)

variable {s : Schema} {t : TypeTable} {layouts : List TypeLayout}

theorem exec_of_table_error {f : Failure} (h : s.table = .error f) (r : Report) :
    exec s.tellCompile r = (.error f, r) := by
  unfold tellCompile
  rw [h]
  rfl

/-- Nothing is told of the table and the layouts. -/
theorem exec_of_table (htable : s.table = .ok t) (r : Report) :
    exec s.tellCompile r = exec (liftM (Layout.ask (Layout.layouts t) {}).1 >>= fun layouts =>
      Kernel.tellText t layouts >>= fun text => get >>= fun r => pure
        { table := t, layouts, text, warnings := r.items.filter fun f => f.severity == .warning }) r := by
  unfold tellCompile
  rw [htable]
  rfl

theorem exec_of_layouts_error {f : Failure} (htable : s.table = .ok t)
    (h : (Layout.ask (Layout.layouts t) {}).1 = .error f) (r : Report) : exec s.tellCompile r = (.error f, r) := by
  rw [exec_of_table htable, h]
  rfl

theorem exec_of_layouts (htable : s.table = .ok t) (h : (Layout.ask (Layout.layouts t) {}).1 = .ok layouts)
    (r : Report) :
    exec s.tellCompile r = exec (Kernel.tellText t layouts >>= fun text => get >>= fun r => pure
      { table := t, layouts, text, warnings := r.items.filter fun f => f.severity == .warning }) r := by
  rw [exec_of_table htable, h]
  rfl

theorem exec_of_text_error {f : Failure} (htable : s.table = .ok t)
    (hlayouts : (Layout.ask (Layout.layouts t) {}).1 = .ok layouts) (h : Kernel.text t layouts = .error f)
    (r : Report) : (exec s.tellCompile r).1 = .error f := by
  obtain ⟨told, hexec, -⟩ := Kernel.tells_text t layouts r
  rw [← Kernel.text_eq, h] at hexec
  rw [exec_of_layouts htable hlayouts, Telling.exec_bind_error hexec]

/-- A text that is made has told its warnings to the report, which are all that is found there. -/
theorem exec_of_text {r : Report} {text : String} (htable : s.table = .ok t)
    (hlayouts : (Layout.ask (Layout.layouts t) {}).1 = .ok layouts) (h : Kernel.text t layouts = .ok text)
    (hr : r.items = []) :
    exec s.tellCompile r = (.ok { table := t, layouts, text, warnings := Kernel.warnings t layouts },
      { r with items := Kernel.warnings t layouts }) := by
  obtain ⟨told, hexec, htold⟩ := Kernel.tells_text t layouts r
  rw [← Kernel.text_eq, h] at hexec
  rw [← Kernel.text_eq, h] at htold
  rw [exec_of_layouts htable hlayouts, Telling.exec_bind_ok hexec, htold (succeeds_ok text), hr, List.nil_append]
  change (Except.ok (Compiled.mk t layouts text ((Kernel.warnings t layouts).filter _)), _) = _
  rw [Kernel.filter_warnings]

theorem compile_eq (htable : TypeTable.ofSchema s = .ok t) :
    s.compile = (Layout.ask (Layout.layouts t) {}).1 >>= fun layouts =>
      Kernel.text t layouts >>= fun text =>
        pure { table := t, layouts, text, warnings := Kernel.warnings t layouts } := by
  have htable : s.table = .ok t := mapError_eq_ok_iff.mpr htable
  unfold compile
  cases hlayouts : (Layout.ask (Layout.layouts t) {}).1 with
  | error f =>
    rw [exec_of_layouts_error htable hlayouts]
    rfl
  | ok layouts =>
    change _ = (Kernel.text t layouts >>= _)
    cases htext : Kernel.text t layouts with
    | error f => exact exec_of_text_error htable hlayouts htext {}
    | ok text =>
      rw [exec_of_text htable hlayouts htext rfl]
      rfl

theorem compile_eq_ok {c : Compiled} (h : s.compile = .ok c) :
    TypeTable.ofSchema s = .ok c.table ∧ (Layout.ask (Layout.layouts c.table) {}).1 = .ok c.layouts ∧
      Kernel.text c.table c.layouts = .ok c.text := by
  obtain ⟨t, htable⟩ : ∃ t, s.table = .ok t := by
    cases htable : s.table with
    | ok t => exact ⟨t, rfl⟩
    | error f =>
      rw [compile, exec_of_table_error htable] at h
      cases h
  have htable := mapError_eq_ok_iff.mp htable
  rw [compile_eq htable] at h
  obtain ⟨layouts, hlayouts, h⟩ := bind_eq_ok_iff.mp h
  obtain ⟨text, htext, h⟩ := bind_eq_ok_iff.mp h
  cases h
  exact ⟨htable, hlayouts, htext⟩

theorem compile_of_text {text : String} (htable : TypeTable.ofSchema s = .ok t)
    (hlayouts : (Layout.ask (Layout.layouts t) {}).1 = .ok layouts)
    (htext : Kernel.text t layouts = .ok text) :
    s.compile = .ok { table := t, layouts, text, warnings := Kernel.warnings t layouts } := by
  rw [compile_eq htable, hlayouts]
  change (Kernel.text t layouts >>= _) = _
  rw [htext]
  rfl

/-- A schema whose layouts can be written compiles. -/
theorem exists_compile (htable : TypeTable.ofSchema s = .ok t)
    (hlayouts : (Layout.ask (Layout.layouts t) {}).1 = .ok layouts) (hwritable : Writable layouts) :
    ∃ c, s.compile = .ok c ∧ c.table = t ∧ c.layouts = layouts := by
  obtain ⟨text, htext⟩ := (Kernel.succeeds_text_iff t layouts).mpr hwritable
  exact ⟨_, compile_of_text htable hlayouts htext, rfl, rfl⟩

/-- A schema with a table has layouts if every name that is the type of a field is that of a struct and
every name in a payload is declared. It compiles then, unless a number is too long to be written. Otherwise
the error tells of a field or a variant that uses a name which is not declared, or of a field that uses an
enum. -/
theorem compile_resolved (htable : TypeTable.ofSchema s = .ok t) (hproper : Proper s.decls) :
    (Resolved s.decls → ∃ layouts, (Layout.ask (Layout.layouts t) {}).1 = .ok layouts ∧
      (Writable layouts → ∃ c, s.compile = .ok c ∧ c.layouts = layouts) ∧
      (¬ Writable layouts → s.compile = .error (.numeral .tooLongToWrite))) ∧
    (¬ Resolved s.decls → ∃ e, s.compile = .error (.schema e) ∧ Blames s.decls e) := by
  obtain ⟨ht, hw⟩ := TypeTable.ofSchema_eq_ok htable
  have hdecls : t.decls = s.decls := by rw [ht]
  rw [← hdecls] at hproper ⊢
  have hhonest := Layout.honest_layouts hw hproper
  have hfresh := Layout.layouts_fresh hw hproper.counted
  constructor
  · intro hresolved
    obtain ⟨layouts, hlayouts⟩ := hhonest.succeeds hw.names_nodup hresolved
    rw [hlayouts] at hfresh
    refine ⟨layouts, hfresh, ?_, ?_⟩
    · intro hwritable
      obtain ⟨c, hcompile, -, hsame⟩ := exists_compile htable hfresh hwritable
      exact ⟨c, hcompile, hsame⟩
    · intro hwritable
      rw [compile_eq htable, hfresh]
      -- The text fails, and it can only fail because of a number.
      change (Kernel.text t layouts >>= _) = _
      cases htext : Kernel.text t layouts with
      | ok text => exact absurd ((Kernel.succeeds_text_iff t layouts).mp ⟨text, htext⟩) hwritable
      | error f =>
        rw [Kernel.text_failsWith t layouts f htext]
        rfl
  · intro hresolved
    rw [compile_eq htable, hfresh]
    cases hlayouts : t.order.mapM ((Layout.direct t).layoutOf t) with
    | ok layouts => exact absurd (Layout.resolved_of_layouts hw ⟨layouts, hlayouts⟩) hresolved
    | error f =>
      obtain ⟨e, rfl, hblames⟩ := hhonest f hlayouts
      exact ⟨e, rfl, hblames⟩

/-- A tagged struct with a reference to a type that is not declared. -/
def pointSchema : Schema where
  decls :=
    [.struct { name := "Point", fields :=
        [{ name := "at", ty := .vector .f32 2 }, { name := "next", ty := .ref (.named "Gone") }] },
      .enum { name := "Shape", variants := [{ name := "Dot", payload := [.named "Point"] }] }]

/-- An enum as the type of a field. -/
def holderSchema : Schema where
  decls :=
    [.struct { name := "Holder", fields := [{ name := "shape", ty := .named "Shape" }] },
      .enum { name := "Shape", variants := [] }]

theorem compile_resolved_samples :
    (∃ c, pointSchema.compile = .ok c ∧ c.layouts.map TypeLayout.size = [20, 20]) ∧
      ∃ e, holderSchema.compile = .error (.schema e) ∧ Blames holderSchema.decls e := by
  constructor
  · have hproper : Proper pointSchema.decls := by
      simp [Proper, pointSchema, Decl.contents, FieldType.Proper, FieldType.Counted]
    have hresolved : Resolved pointSchema.decls := by
      refine ⟨?_, ?_⟩
      · rintro n _ ⟨hd, hf, hn⟩
        simp only [pointSchema, List.mem_cons, Decl.struct.injEq, reduceCtorEq, List.not_mem_nil,
          or_false] at hd
        subst hd
        simp only [List.mem_cons, List.not_mem_nil, or_false] at hf
        rcases hf with rfl | rfl <;> cases hn
      · rintro n _ ⟨hd, hv, hn⟩
        simp only [pointSchema, List.mem_cons, Decl.enum.injEq, reduceCtorEq, List.not_mem_nil,
          or_false, false_or] at hd
        subst hd
        cases List.mem_singleton.mp hv
        cases List.mem_singleton.mp hn
        exact ⟨_, List.mem_cons_self, rfl⟩
    obtain ⟨layouts, hlayouts, hcompiles, -⟩ := (compile_resolved rfl hproper).1 hresolved
    cases hlayouts
    obtain ⟨c, hc, hsame⟩ := hcompiles (by unfold Writable Overlong; decide)
    refine ⟨c, hc, ?_⟩
    rw [hsame]
    rfl
  · have hproper : Proper holderSchema.decls := by
      simp [Proper, holderSchema, Decl.contents, FieldType.Proper, FieldType.Counted]
    apply (compile_resolved rfl hproper).2
    intro hresolved
    have hused : InField holderSchema.decls "Shape" _ :=
      .intro List.mem_cons_self List.mem_cons_self rfl
    obtain ⟨d, hd, hname⟩ := hresolved.fields _ _ hused
    simp only [holderSchema, List.mem_cons, Decl.struct.injEq, reduceCtorEq, List.not_mem_nil,
      or_false] at hd
    subst hd
    exact absurd hname (by decide)

end Schema

end PackedSchema
