import PackedSchema.Proofs.Command.Writing
import PackedSchema.Proofs.Kernel.Warnings

/-!
# Exit codes

A run that compiles its source file and stores what it was asked for returns one if a field refers to a bare
name that is not declared, and zero otherwise.
-/

namespace PackedSchema.Command

open Run

variable {α β : Type} {env : Environment} {o : Options} {d : Directory} {source : String} {c : Compiled}
  {args : List String}

/-! ## Parts that go on -/

/-- The part goes on, or ends the run without success. -/
def Proceeds (m : Run α) : Prop := ∀ w e, (exec m w).1 = .error e → ¬ e.Successful

theorem proceeds_of_ok {m : Run α} (h : ∀ w, ∃ a, (exec m w).1 = .ok a) : Proceeds m := by
  intro w e he
  obtain ⟨a, ha⟩ := h w
  cases ha.symm.trans he

theorem proceeds_pure (a : α) : Proceeds (pure a) := proceeds_of_ok fun _ => ⟨a, rfl⟩

theorem proceeds_print (s : String) : Proceeds (print s) := proceeds_of_ok fun _ => ⟨(), rfl⟩

theorem proceeds_crash (crash : Crash) : Proceeds (Run.crash crash : Run α) := by
  rintro w _ ⟨⟩
  exact not_successful_crashed crash

theorem Proceeds.bind {m : Run α} {k : α → Run β} (hm : Proceeds m) (hk : ∀ a, Proceeds (k a)) :
    Proceeds (m >>= k) := by
  intro w e he
  cases hresult : (exec m w).1 with
  | ok a =>
    rw [exec_bind_ok (Prod.ext hresult rfl)] at he
    exact hk a _ e he
  | error e' =>
    rw [exec_bind_error (Prod.ext hresult rfl)] at he
    cases he
    exact hm w e hresult

theorem proceeds_orCrash {ε : Type} (asCrash : ε → Crash) (x : Except ε α) : Proceeds (orCrash asCrash x) := by
  cases x with
  | ok a => exact proceeds_pure a
  | error e => exact proceeds_crash _

theorem proceeds_writeFile (path : String) (bytes : List UInt8) : Proceeds (writeFile path bytes) := by
  refine Proceeds.bind (proceeds_of_ok fun w => ⟨w, rfl⟩) fun _ => ?_
  exact (proceeds_orCrash _ _).bind fun _ => proceeds_of_ok fun _ => ⟨(), rfl⟩

theorem proceeds_printLines (lines : List (Except Manifest.SummaryFault String)) :
    Proceeds (printLines lines) := by
  unfold printLines
  refine (proceeds_print _).bind fun _ => ?_
  cases (Manifest.printed lines).2 with
  | none => exact proceeds_pure ()
  | some f => exact proceeds_crash _

/-- What holds behind a part that goes on, and of every run without success, holds. -/
theorem Leads.bind_proceeds {m : Run α} {k : α → Run β} {P : Except Ending β → Directory → Prop} (hm : Proceeds m)
    (hk : ∀ a d', Leads d' (k a) P) (hfailed : ∀ e d', ¬ e.Successful → P (.error e) d') : Leads d (m >>= k) P := by
  intro w hw
  cases hresult : (exec m w).1 with
  | ok a =>
    rw [exec_bind_ok (Prod.ext hresult rfl)]
    exact hk a _ _ rfl
  | error e =>
    rw [exec_bind_error (Prod.ext hresult rfl)]
    exact hfailed e _ (hm w e hresult)

/-! ## Codes -/

/-- A success returns a code. -/
def Returns (code : Nat) (r : Except Ending Unit) : Prop :=
  (endingOf r).Successful → endingOf r = .returned code

theorem leads_store_returns (env : Environment) (o : Options) (d : Directory) (c : Compiled) (report : Report) :
    Leads d (store env o c c.manifest report) fun r _ => Returns (if report.hasWarnings then 1 else 0) r := by
  have hfailed (e : Ending) (_ : Directory) (he : ¬ e.Successful) :
      Returns (if report.hasWarnings then 1 else 0) (.error e) := fun h => absurd h he
  have hreport (d' : Directory) : Leads d' (printReport env report >>= fun _ =>
      finish (if report.hasWarnings then 1 else 0)) fun r _ => Returns (if report.hasWarnings then 1 else 0) r :=
    .bind_ok (gives_printReport env d' report) (.of_gives (gives_finish d' _) fun _ => rfl)
  have hmanifest (path : String) (d' : Directory) :
      Leads d' (orCrash .failure (Manifest.write c.manifest) >>= fun bytes => writeFile path bytes >>= fun _ =>
        printReport env report >>= fun _ => finish (if report.hasWarnings then 1 else 0))
        fun r _ => Returns (if report.hasWarnings then 1 else 0) r := by
    refine Leads.bind_proceeds (proceeds_orCrash _ _) (fun bytes d' => ?_) hfailed
    exact Leads.bind_proceeds (proceeds_writeFile path bytes) (fun _ => hreport) hfailed
  unfold store
  cases given o.out with
  | none =>
    refine Leads.bind_proceeds (proceeds_print _) (fun _ d' => ?_) hfailed
    cases given o.manifest with
    | none => exact hreport d'
    | some path => exact hmanifest path d'
  | some out =>
    refine Leads.bind_proceeds (proceeds_writeFile out _) (fun _ d' => ?_) hfailed
    cases given o.manifest with
    | none => exact hreport d'
    | some path => exact hmanifest path d'

/-- There are warnings exactly if a reference dangles. -/
theorem hasWarnings_iff {s : Schema} {report : Report} (hc : s.compile = .ok c) (hitems : report.items = c.warnings) :
    report.hasWarnings = true ↔ s.Dangles := by
  rw [Report.hasWarnings, hitems, (Schema.warned_of_compile hc).warnings, ← danglingWarnings_ne_nil_iff,
    List.any_eq_true]
  constructor
  · rintro ⟨w, hw, -⟩
    exact List.ne_nil_of_mem hw
  · intro h
    obtain ⟨w, hw⟩ := List.exists_mem_of_ne_nil _ h
    refine ⟨w, hw, ?_⟩
    obtain ⟨d, -, hw⟩ := List.mem_flatMap.mp hw
    obtain ⟨f, -, hw⟩ := List.mem_filterMap.mp hw
    obtain ⟨n, -, rfl⟩ := Option.map_eq_some_iff.mp hw
    rfl

/-- A run that compiles a source file with success returns one exactly if a reference of the schema dangles. -/
def Signals (d : Directory) (source : String) (e : Ending) : Prop :=
  e.Successful → ∃ text s, HasSource d (Path.resolve d.cwd (Path.ofText source)) text ∧
    Schema.ofText text = .ok s ∧ (e = .returned 1 ↔ s.Dangles)

theorem leads_compileFile_signals (env : Environment) (o : Options) (d : Directory) (source : String) :
    Leads d (compileFile env o source) fun r _ => Signals d source (endingOf r) := by
  have hfailed (e : Ending) (_ : Directory) (he : ¬ e.Successful) : Signals d source (endingOf (.error e)) :=
    fun h => absurd h he
  refine leads_stages (fun e he _ => hfailed e d he) fun text c report _ htext hcompile hitems => ?_
  obtain ⟨s, hs, hc⟩ := bind_eq_ok_iff.mp hcompile
  have hstore (d' : Directory) :
      Leads d' (store env o c c.manifest report) fun r _ => Signals d source (endingOf r) := by
    intro w hw hsuccessful
    refine ⟨text, s, htext, hs, ?_⟩
    rw [leads_store_returns env o d' c report w hw hsuccessful, ← hasWarnings_iff hc hitems]
    cases report.hasWarnings <;> simp
  refine .ite (fun _ => ?_) (fun _ => hstore d)
  refine Leads.bind_proceeds (proceeds_printLines _) (fun _ d' => ?_) hfailed
  exact .bind_ok (gives_print d' _) (hstore d')

theorem run_signals (env : Environment) (d : Directory) (hargs : parse args = .run o)
    (hcompiling : Compiling o source) : Signals d source (run env args d).ending := by
  have hperform : Leads d (perform env o) fun r _ => Signals d source (endingOf r) := by
    unfold perform
    rw [hcompiling.version, hcompiling.manifestInfo, hcompiling.source]
    refine .ite (fun hversion => by cases hversion) fun _ => ?_
    exact .ite_bind (fun _ => gives_complain d _) (leads_compileFile_signals env o d source)
  rw [run_eq env d hargs (Prod.ext rfl rfl)]
  exact hperform _ rfl

/-- Compilation warns of the references to bare names that are not declared, of each once and in order, and of
nothing else; the text has words for these and for references to other than bare names. Nothing is told before an
error, and a run returns one rather than zero exactly if there is such a reference. -/
theorem warned_exactly :
    (∀ (s : Schema) (c : Compiled), s.compile = .ok c → c.Warned s) ∧
      (∀ (s : Schema) (r : Report), r.items = [] → TellsAll r (Telling.exec s.tellCompile r) s.compile) ∧
      ∀ env args d o source, parse args = .run o → Compiling o source → Signals d source (run env args d).ending :=
  ⟨fun _ _ => Schema.warned_of_compile, fun s _ => tellsAll_tellCompile s,
    fun env _ d _ _ hargs hcompiling => run_signals env d hargs hcompiling⟩

/-- A reference to a type that is not declared, and one to a reference. -/
def goneText : String := "struct A \x7b r: Ref<Gone>, q: Ref<Ref<Gone>>, a: Ref<A> \x7d"

def goneDirectory : Directory where
  cwd := { root := "/", parts := ["work"] }
  nodes := [(["work", "a.pgs"], .file (Text.Utf8.encode goneText))]

/-- One of the three references is warned of, and the run tells so by its code. -/
theorem warned_exactly_gone :
    (∃ s c, Schema.ofText goneText = .ok s ∧ s.compile = .ok c ∧ c.Warned s ∧
      c.warnings = [Schema.danglingWarning "A" "r" "Gone"]) ∧
      ∃ o, parse ["a.pgs", "--no-banner"] = .run o ∧ Compiling o "a.pgs" ∧
        (run { versionLine := "" } ["a.pgs", "--no-banner"] goneDirectory).ending = .returned 1 ∧
        Signals goneDirectory "a.pgs" (run { versionLine := "" } ["a.pgs", "--no-banner"] goneDirectory).ending := by
  refine ⟨?_, ⟨_, rfl, ⟨rfl, rfl, rfl⟩, ?_, ?_⟩⟩
  · have hwarnings : (compileText goneText).toOption.map Compiled.warnings =
        some [Schema.danglingWarning "A" "r" "Gone"] := by decide +kernel
    cases hcompile : compileText goneText with
    | error f =>
      rw [hcompile] at hwarnings
      cases hwarnings
    | ok c =>
      rw [hcompile] at hwarnings
      obtain ⟨s, hs, hc⟩ := bind_eq_ok_iff.mp hcompile
      exact ⟨s, c, hs, hc, warned_exactly.1 s c hc, Option.some.inj hwarnings⟩
  · decide +kernel
  · exact warned_exactly.2.2 _ _ _ _ _ rfl ⟨rfl, rfl, rfl⟩

end PackedSchema.Command
