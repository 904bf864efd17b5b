import PackedSchema.Proofs.Command.Directory
import PackedSchema.Proofs.Command.Run
import PackedSchema.Proofs.Kernel.Agreement

/-!
# What failed runs write

A run that fails leaves the directory as it was, with one exception. The kernel text is written before the
manifest is packed and before the file for it is opened, so a run that fails there has written the text.
-/

namespace PackedSchema.Command

open Run

/-! ## Reading and reporting -/

/-- The ending of a run that did what it was asked to. -/
def Ending.Successful (e : Ending) : Prop := e = .returned 0 ∨ e = .returned 1

theorem not_successful_two : ¬ (Ending.returned 2).Successful := by simp [Ending.Successful]

theorem not_successful_crashed (c : Crash) : ¬ (Ending.crashed c).Successful := by simp [Ending.Successful]

variable {env : Environment} {o : Options} {d d' written : Directory} {source : String} {c : Compiled}

theorem gives_printReport (env : Environment) (d : Directory) (r : Report) :
    Gives d (printReport env r) (.ok ()) d :=
  .get_bind fun _ _ => gives_complain d _

/-- A failure ends the run, whether it is reported or not. -/
theorem gives_orReport_error {α : Type} (env : Environment) (d : Directory) (r : Report) (f : Failure) :
    ∃ e : Ending, ¬ e.Successful ∧ Gives d (orReport env r (.error f : Except Failure α)) (.error e) d := by
  cases f with
  | schema e =>
    refine ⟨.returned 2, not_successful_two, ?_⟩
    exact .bind_ok (gives_printReport env d _) (gives_finish d 2)
  | _ => exact ⟨_, not_successful_crashed _, gives_crash d _⟩

/-- The text of the source file, if it can be read and decoded. -/
inductive HasSource (d : Directory) (path : Path) : String → Prop
  | intro {text : String} (hread : d.read path = .ok (Text.Utf8.encode text)) :
      HasSource d path (String.ofList (Text.unifyNewlines text.toList))

theorem gives_readSource {path : Path} {text : String} (h : HasSource d path text) :
    Gives d (readSource path) (.ok text) d := by
  cases h with
  | @intro text hread =>
    refine .get_bind fun w hw => ?_
    rw [hw, hread]
    refine .bind_ok ?_ (gives_pure d _)
    rw [Text.Utf8.decode_encode]
    exact gives_pure d text

/-- A source file without a text ends the run. -/
theorem gives_readSource_error {path : Path} (h : ∀ text, ¬ HasSource d path text) :
    ∃ e : Ending, ¬ e.Successful ∧ Gives d (readSource path) (.error e) d := by
  cases hread : d.read path with
  | error f =>
    refine ⟨.returned 2, not_successful_two, .get_bind fun w hw => ?_⟩
    rw [hw, hread]
    exact .bind_ok (gives_complain d _) (gives_finish d 2)
  | ok bytes =>
    cases hdecode : Text.Utf8.decode bytes with
    | ok text =>
      rw [Text.Utf8.decode_eq_ok_iff.mp hdecode] at hread
      exact absurd (.intro hread) (h _)
    | error f =>
      refine ⟨.crashed (.text f), not_successful_crashed _, .get_bind fun w hw => ?_⟩
      rw [hw, hread]
      refine .bind_error ?_ ⟨rfl, rfl⟩
      rw [hdecode]
      exact gives_crash d _

/-! ## Storing -/

/-- The directory after the kernel text was written, or printed if no file is asked for. -/
def Output (o : Options) (d : Directory) (c : Compiled) (written : Directory) : Prop :=
  match given o.out with
  | some out => d.write (Path.ofText out) (Text.Utf8.encode c.text) = .ok written
  | none => written = d

theorem output_some {out : String} (h : given o.out = some out) :
    Output o d c written ↔ d.write (Path.ofText out) (Text.Utf8.encode c.text) = .ok written := by
  rw [Output, h]

theorem output_none (h : given o.out = none) : Output o d c written ↔ written = d := by
  rw [Output, h]

/-- Why the manifest of a compiled schema cannot be stored. -/
inductive Unstored (c : Compiled) (d : Directory) (path : String) : Crash → Prop
  | unpacked {f : Failure} (hf : Manifest.write c.manifest = .error f) : Unstored c d path (.failure f)
  | unwritten {bytes : List UInt8} {f : FileFault} (hbytes : Manifest.write c.manifest = .ok bytes)
      (hf : d.write (Path.ofText path) bytes = .error f) : Unstored c d path (.file f)

/-- How the storing of a compiled schema ends, and the directory that it leaves. -/
inductive Stored (o : Options) (d : Directory) (c : Compiled) : Except Ending Unit → Directory → Prop
  | unwritten {f : FileFault} (hnone : ∀ written, ¬ Output o d c written) :
      Stored o d c (.error (.crashed (.file f))) d
  | unstored {written : Directory} {path : String} {crash : Crash} (hwritten : Output o d c written)
      (hpath : given o.manifest = some path) (hcrash : Unstored c written path crash) :
      Stored o d c (.error (.crashed crash)) written
  | done {e : Ending} {written d' : Directory} (hwritten : Output o d c written)
      (hstored : ∀ path crash, given o.manifest = some path → ¬ Unstored c written path crash)
      (he : e.Successful) : Stored o d c (.error e) d'

theorem successful_code (warned : Bool) : (Ending.returned (if warned then 1 else 0)).Successful := by
  cases warned
  · exact .inl rfl
  · exact .inr rfl

/-- The report behind everything that is stored. -/
theorem leads_report (env : Environment) (report : Report) (d' : Directory) (hwritten : Output o d c written)
    (hstored : ∀ path crash, given o.manifest = some path → ¬ Unstored c written path crash) :
    Leads d' (printReport env report >>= fun _ => finish (if report.hasWarnings then 1 else 0))
      (Stored o d c) := by
  refine .bind_ok (gives_printReport env d' report) ?_
  exact .of_gives (gives_finish d' _) (.done hwritten hstored (successful_code _))

/-- The manifest is stored behind the kernel text. -/
theorem leads_manifest (env : Environment) (report : Report) (hwritten : Output o d c written) :
    Leads written (do
      match given o.manifest with
      | some out => writeFile out (← orCrash .failure (Manifest.write c.manifest))
      | none => pure ()
      printReport env report
      finish (if report.hasWarnings then 1 else 0)) (Stored o d c) := by
  cases hpath : given o.manifest with
  | none =>
    apply leads_report env report written hwritten
    intro path crash hsome
    rw [hpath] at hsome
    cases hsome
  | some path =>
    cases hbytes : Manifest.write c.manifest with
    | error f =>
      exact .bind_error (gives_crash written _) (.unstored hwritten hpath (.unpacked hbytes))
    | ok bytes =>
      refine .bind_ok (gives_pure written bytes) ?_
      cases hwrite : written.write (Path.ofText path) bytes with
      | error f =>
        exact .bind_error (gives_writeFile_fault hwrite) (.unstored hwritten hpath (.unwritten hbytes hwrite))
      | ok d' =>
        refine .bind_ok (gives_writeFile hwrite) (leads_report env report d' hwritten ?_)
        -- Both ways to fail are ruled out by what has just succeeded.
        intro path' crash hsome hunstored
        cases hpath.symm.trans hsome
        cases hunstored with
        | unpacked hf => cases hbytes.symm.trans hf
        | unwritten hbytes' hf =>
          cases hbytes.symm.trans hbytes'
          cases hwrite.symm.trans hf

theorem leads_store (env : Environment) (o : Options) (d : Directory) (c : Compiled) (report : Report) :
    Leads d (store env o c c.manifest report) (Stored o d c) := by
  unfold store
  cases hout : given o.out with
  | none => exact .bind_ok (gives_print d _) (leads_manifest env report ((output_none hout).mpr rfl))
  | some out =>
    cases hwrite : d.write (Path.ofText out) (Text.Utf8.encode c.text) with
    | error f =>
      refine .bind_error (gives_writeFile_fault hwrite) (.unwritten fun written hwritten => ?_)
      cases hwrite.symm.trans ((output_some hout).mp hwritten)
    | ok written =>
      exact .bind_ok (gives_writeFile hwrite) (leads_manifest env report ((output_some hout).mpr hwrite))

/-! ## Compiling -/

/-- The source file of a run compiles, and its layouts can be printed if they are asked for. -/
structure Ready (o : Options) (d : Directory) (source : String) (c : Compiled) : Prop where
  named : (Path.ofText source).hasNull = false
  compiles : ∃ text, HasSource d (Path.resolve d.cwd (Path.ofText source)) text ∧ compileText text = .ok c
  printable : o.dumpLayout = true → (Manifest.printed (Manifest.layoutLines c.manifest)).2 = none

/-- How the compilation of a source file ends, and the directory that it leaves. -/
inductive Compiles (o : Options) (d : Directory) (source : String) : Except Ending Unit → Directory → Prop
  | stopped {e : Ending} (hstopped : ∀ c, ¬ Ready o d source c) (he : ¬ e.Successful) :
      Compiles o d source (.error e) d
  | stored {c : Compiled} {r : Except Ending Unit} {d' : Directory} (hready : Ready o d source c)
      (hstored : Stored o d c r d') : Compiles o d source r d'

section Stages

variable {text : String} {f : Failure} {path : Path}

theorem HasSource.unique {text' : String} (h : HasSource d path text) (h' : HasSource d path text') :
    text = text' := by
  cases h with
  | intro hread =>
    cases h' with
    | intro hread' =>
      have hbytes := Except.ok.inj (hread.symm.trans hread')
      have hdecode := congrArg Text.Utf8.decode hbytes
      rw [Text.Utf8.decode_encode, Text.Utf8.decode_encode] at hdecode
      rw [Except.ok.inj hdecode]

/-- A source text that does not compile is not ready. -/
theorem not_ready_of_error (htext : HasSource d (Path.resolve d.cwd (Path.ofText source)) text)
    (h : compileText text = .error f) (c : Compiled) : ¬ Ready o d source c := by
  intro hready
  obtain ⟨text', htext', hcompile⟩ := hready.compiles
  rw [htext'.unique htext, h] at hcompile
  cases hcompile

/-- What is left to do with a compiled schema. -/
theorem leads_compiled (env : Environment) (report : Report) (hnamed : (Path.ofText source).hasNull = false)
    (htext : HasSource d (Path.resolve d.cwd (Path.ofText source)) text) (hcompile : compileText text = .ok c) :
    Leads d (do
      if o.dumpLayout then
        printLines (Manifest.layoutLines c.manifest)
        print "\n"
      store env o c c.manifest report) (Compiles o d source) := by
  have hstore (hready : Ready o d source c) : Leads d (store env o c c.manifest report) (Compiles o d source) :=
    fun w hw => .stored hready (leads_store env o d c report w hw)
  refine .ite (fun hdump => ?_) (fun hdump => ?_)
  · cases hfault : (Manifest.printed (Manifest.layoutLines c.manifest)).2 with
    | none =>
      refine .bind_ok (gives_printLines d hfault) (.bind_ok (gives_print d _) ?_)
      exact hstore ⟨hnamed, ⟨text, htext, hcompile⟩, fun _ => hfault⟩
    | some f =>
      refine .bind_error (gives_printLines_fault d hfault) (.stopped ?_ (not_successful_crashed _))
      intro c' hready
      obtain ⟨text', htext', hcompile'⟩ := hready.compiles
      rw [htext'.unique htext, hcompile] at hcompile'
      cases hcompile'
      cases hfault.symm.trans (hready.printable hdump)
  · exact hstore ⟨hnamed, ⟨text, htext, hcompile⟩, fun h => absurd h hdump⟩

end Stages

/-- What follows from the stages of a compilation: they end the run without success if the source is not ready,
and go on to the storing of what is compiled otherwise. -/
theorem leads_stages {P : Except Ending Unit → Directory → Prop}
    (hstopped : ∀ e : Ending, ¬ e.Successful → (∀ c, ¬ Ready o d source c) → P (.error e) d)
    (hcompiled : ∀ text c report, (Path.ofText source).hasNull = false →
      HasSource d (Path.resolve d.cwd (Path.ofText source)) text → compileText text = .ok c →
      report.items = c.warnings → Leads d (do
        if o.dumpLayout then
          printLines (Manifest.layoutLines c.manifest)
          print "\n"
        store env o c c.manifest report) P) :
    Leads d (compileFile env o source) P := by
  unfold compileFile
  refine .get_bind fun w hw => ?_
  rw [hw]
  refine .ite (fun hnull => ?_) (fun hnull => ?_)
  · refine .bind_error (gives_crash d _) (hstopped _ (not_successful_crashed _) ?_)
    intro c hready
    rw [hready.named] at hnull
    cases hnull
  · by_cases hsource : ∃ text, HasSource d (Path.resolve d.cwd (Path.ofText source)) text
    case neg =>
      obtain ⟨e, he, hends⟩ := gives_readSource_error (not_exists.mp hsource)
      refine .bind_error hends (hstopped e he ?_)
      intro c hready
      obtain ⟨text, htext, -⟩ := hready.compiles
      exact hsource ⟨text, htext⟩
    case pos =>
      obtain ⟨text, htext⟩ := hsource
      refine .bind_ok (gives_readSource htext) ?_
      -- Behind a stage that fails, the run ends without having stored anything.
      have hfailed {α : Type} {k : α → Run Unit} {report : Report} {f : Failure}
          (h : compileText text = .error f) : Leads d (orReport env report (.error f) >>= k) P := by
        obtain ⟨e, he, hends⟩ := gives_orReport_error env d report f
        exact .bind_error hends (hstopped e he (not_ready_of_error htext h))
      have hparsed : compileText text = Source.Tree.ofText text >>= Schema.ofTree >>= Schema.compile := rfl
      cases htree : Source.Tree.ofText text with
      | error f =>
        rw [htree] at hparsed
        exact hfailed hparsed
      | ok tree =>
        refine .bind_ok (gives_pure d tree) (.ite_bind (fun _ => gives_print d _) ?_)
        rw [htree] at hparsed
        have hbuilt : compileText text = Schema.ofTree tree >>= Schema.compile := hparsed
        cases hschema : Schema.ofTree tree with
        | error f =>
          rw [hschema] at hbuilt
          exact hfailed hbuilt
        | ok schema =>
          refine .bind_ok (gives_pure d schema) (.ite_bind (fun _ => gives_print d _) ?_)
          rw [hschema] at hbuilt
          have hcompile : compileText text = schema.compile := hbuilt
          cases hc : schema.compile with
          | error f => exact hfailed (hcompile.trans hc)
          | ok c =>
            have hread : Schema.ofText text = .ok schema := by
              rw [Schema.ofText, htree]
              exact hschema
            -- The types of a schema that was read can be written, so there is a manifest.
            have hmanifest : c.describe = .ok c.manifest :=
              Manifest.describe_of_describable c.table (Manifest.describable_of_compile hread hc)
            refine .bind_ok (gives_pure d c) ?_
            rw [hmanifest]
            refine .bind_ok (gives_pure d c.manifest) ?_
            exact hcompiled text c _ (Bool.eq_false_iff.mpr hnull) htext (hcompile.trans hc) rfl

theorem leads_compileFile (env : Environment) (o : Options) (d : Directory) (source : String) :
    Leads d (compileFile env o source) (Compiles o d source) :=
  leads_stages (fun _ he hstopped => .stopped hstopped he) fun _ _ report hnamed htext hcompile _ =>
    leads_compiled env report hnamed htext hcompile

/-! ## Runs -/

/-- The part leaves the directory as it is. -/
abbrev Keeps {α : Type} (d : Directory) (m : Run α) : Prop := Leads d m fun _ d' => d' = d

section Keeps

variable {α β : Type}

theorem Keeps.bind {m : Run α} {k : α → Run β} (hm : Keeps d m) (hk : ∀ a, Keeps d (k a)) :
    Keeps d (m >>= k) := by
  intro w hw
  have hleft := hm w hw
  cases hresult : (exec m w).1 with
  | ok a =>
    rw [exec_bind_ok (Prod.ext hresult rfl)]
    exact hk a _ hleft
  | error e =>
    rw [exec_bind_error (Prod.ext hresult rfl)]
    exact hleft

theorem keeps_orCrash {ε : Type} (d : Directory) (asCrash : ε → Crash) (x : Except ε α) :
    Keeps d (orCrash asCrash x) := by
  cases x with
  | ok a => exact .of_gives (gives_pure d a) rfl
  | error e => exact .of_gives (gives_crash d _) rfl

theorem keeps_refuse (d : Directory) (s : String) : Keeps d (complain s >>= fun _ => (finish 2 : Run α)) :=
  .bind_ok (gives_complain d s) (.of_gives (gives_finish d 2) rfl)

theorem keeps_printLines (d : Directory) (lines : List (Except Manifest.SummaryFault String)) :
    Keeps d (printLines lines) := by
  cases hfault : (Manifest.printed lines).2 with
  | none => exact .of_gives (gives_printLines d hfault) rfl
  | some f => exact .of_gives (gives_printLines_fault d hfault) rfl

theorem keeps_showManifest (env : Environment) (d : Directory) (path : Path) : Keeps d (showManifest env path) := by
  unfold showManifest
  refine .get_bind fun w hw => Keeps.bind (keeps_orCrash d _ _) fun there => ?_
  refine .ite (fun _ => ?_) (fun _ => ?_)
  · exact .bind_ok (gives_complain d _) (.bind_error (gives_finish d 2) rfl)
  · dsimp only
    cases w.directory.read path with
    | error f => exact keeps_refuse d _
    | ok bytes =>
      dsimp only
      cases Manifest.read path.text bytes env.memory with
      | ok m => exact keeps_printLines d _
      | error f =>
        cases f with
        | schema e => exact keeps_refuse d _
        | _ => exact .of_gives (gives_crash d _) rfl

end Keeps

/-- The options ask for a source file to be compiled. -/
structure Compiling (o : Options) (source : String) : Prop where
  version : o.version = false
  manifestInfo : given o.manifestInfo = none
  source : given o.source = some source

/-- How a run under options ends, and the directory that it leaves. -/
inductive Performed (o : Options) (d : Directory) : Except Ending Unit → Directory → Prop
  | kept {r : Except Ending Unit} (hkept : ∀ source, ¬ Compiling o source) : Performed o d r d
  | compiled {source : String} {r : Except Ending Unit} {d' : Directory} (hcompiling : Compiling o source)
      (h : Compiles o d source r d') : Performed o d r d'

theorem leads_perform (env : Environment) (o : Options) (d : Directory) :
    Leads d (perform env o) (Performed o d) := by
  unfold perform
  refine .ite (fun hversion => ?_) (fun hversion => ?_)
  · refine .bind_ok (gives_print d _) (.bind_error (gives_finish d 0) (.kept fun source hcompiling => ?_))
    cases hversion.symm.trans hcompiling.version
  · refine .ite_bind (fun _ => gives_complain d _) ?_
    have hkept {m : Run Unit} (hm : Keeps d m) (hnone : ∀ source, ¬ Compiling o source) :
        Leads d m (Performed o d) := by
      intro w hw
      rw [hm w hw]
      exact .kept hnone
    cases hinfo : given o.manifestInfo with
    | some path =>
      refine hkept (keeps_showManifest env d _) fun source hcompiling => ?_
      cases hinfo.symm.trans hcompiling.manifestInfo
    | none =>
      cases hsource : given o.source with
      | none =>
        refine hkept (keeps_refuse d _) fun source hcompiling => ?_
        cases hsource.symm.trans hcompiling.source
      | some source =>
        have hcompiling : Compiling o source := ⟨Bool.eq_false_iff.mpr hversion, hinfo, hsource⟩
        exact fun w hw => .compiled hcompiling (leads_compileFile env o d source w hw)

/-- A run has written the kernel text to the file that was asked for, and cannot store the manifest. -/
inductive HalfDone (args : List String) (d : Directory) (out : String) (c : Compiled) (written : Directory) :
    Crash → Prop
  | intro {o : Options} {source path : String} {crash : Crash} (hargs : parse args = .run o)
      (hcompiling : Compiling o source) (hready : Ready o d source c) (hout : given o.out = some out)
      (hwritten : d.write (Path.ofText out) (Text.Utf8.encode c.text) = .ok written)
      (hpath : given o.manifest = some path) (hcrash : Unstored c written path crash) :
      HalfDone args d out c written crash

theorem Output.unique {written' : Directory} (h : Output o d c written) (h' : Output o d c written') :
    written = written' := by
  cases hout : given o.out with
  | none => rw [(output_none hout).mp h, (output_none hout).mp h']
  | some out => exact Except.ok.inj (((output_some hout).mp h).symm.trans ((output_some hout).mp h'))

theorem Unstored.unique {path : String} {crash crash' : Crash} (h : Unstored c d path crash)
    (h' : Unstored c d path crash') : crash = crash' := by
  cases h with
  | unpacked hf =>
    cases h' with
    | unpacked hf' =>
      cases hf.symm.trans hf'
      rfl
    | unwritten hbytes' hf' => cases hf.symm.trans hbytes'
  | unwritten hbytes hf =>
    cases h' with
    | unpacked hf' => cases hbytes.symm.trans hf'
    | unwritten hbytes' hf' =>
      cases hbytes.symm.trans hbytes'
      cases hf.symm.trans hf'
      rfl

theorem Ready.unique {c' : Compiled} (h : Ready o d source c) (h' : Ready o d source c') : c = c' := by
  obtain ⟨text, htext, hcompile⟩ := h.compiles
  obtain ⟨text', htext', hcompile'⟩ := h'.compiles
  rw [htext'.unique htext] at hcompile'
  exact Except.ok.inj (hcompile.symm.trans hcompile')

/-- How a run ends under the options that its arguments give. -/
theorem run_performed {args : List String} (env : Environment) (d : Directory) (hargs : parse args = .run o) :
    ∃ r, Performed o d r (run env args d).world.directory ∧ (run env args d).ending = endingOf r := by
  obtain ⟨r, w, hperform⟩ : ∃ r w, exec (perform env o) { directory := d } = (r, w) := ⟨_, _, rfl⟩
  have hperformed := leads_perform env o d { directory := d } rfl
  rw [hperform] at hperformed
  rw [run_eq env d hargs hperform]
  exact ⟨r, hperformed, rfl⟩

/-- Arguments that do not give options leave the directory as it is. -/
theorem run_unperformed {args : List String} (env : Environment) (d : Directory)
    (hargs : ∀ o, parse args ≠ .run o) : (run env args d).world.directory = d := by
  unfold run
  cases hparse : parse args with
  | run o => exact absurd hparse (hargs o)
  | help => rfl
  | error e => rfl

/-- A run that is half done crashes with the kernel text written. -/
theorem HalfDone.run_eq {args : List String} {out : String} {crash : Crash} (env : Environment)
    (h : HalfDone args d out c written crash) :
    (run env args d).ending = .crashed crash ∧ (run env args d).world.directory = written := by
  obtain ⟨hargs, hcompiling, hready, hout, hwritten, hpath, hcrash⟩ := h
  obtain ⟨r, hperformed, hending⟩ := run_performed env d hargs
  have houtput := (output_some hout).mpr hwritten
  generalize (run env args d).world.directory = left at hperformed ⊢
  -- All other ways to end are ruled out by what the run has done.
  cases hperformed with
  | kept hkept => exact absurd hcompiling (hkept _)
  | compiled hcompiling' hcompiles =>
    cases hcompiling.source.symm.trans hcompiling'.source
    cases hcompiles with
    | stopped hstopped he => exact absurd hready (hstopped _)
    | stored hready' hstored =>
      cases hready.unique hready'
      cases hstored with
      | unwritten hnone => exact absurd houtput (hnone _)
      | done hdone hstored he =>
        cases houtput.unique hdone
        exact absurd hcrash (hstored _ _ hpath)
      | unstored houtput' hpath' hcrash' =>
        cases houtput.unique houtput'
        cases hpath.symm.trans hpath'
        rw [hcrash.unique hcrash']
        exact ⟨hending, rfl⟩

/-- A run that wrote the kernel text and cannot store the manifest crashes, and leaves a directory that
differs from the one before in the file that was asked for, and in nothing else. Every other run that does
not return zero or one leaves the directory as it was. -/
theorem run_writes (env : Environment) (args : List String) (d : Directory) :
    (∀ out c written crash, HalfDone args d out c written crash →
      (run env args d).ending = .crashed crash ∧ (run env args d).world.directory = written ∧
      ∃ place, d.locate (Path.ofText out) = .ok place ∧ ∀ q, written.node? q =
        if q = place then some (.file (Text.Utf8.encode c.text)) else d.node? q) ∧
    ((∀ out c written crash, ¬ HalfDone args d out c written crash) →
      ¬ (run env args d).ending.Successful → (run env args d).world.directory = d) := by
  constructor
  · intro out c written crash h
    obtain ⟨hending, hleft⟩ := h.run_eq env
    obtain ⟨hargs, hcompiling, hready, hout, hwritten, hpath, hcrash⟩ := h
    exact ⟨hending, hleft, Directory.write_frame hwritten⟩
  · intro hnone hfailed
    by_cases hargs : ∃ o, parse args = .run o
    case neg => exact run_unperformed env d (not_exists.mp hargs)
    case pos =>
      obtain ⟨o, hargs⟩ := hargs
      obtain ⟨r, hperformed, hending⟩ := run_performed env d hargs
      generalize (run env args d).world.directory = left at hperformed ⊢
      cases hperformed with
      | kept hkept => rfl
      | compiled hcompiling hcompiles =>
        cases hcompiles with
        | stopped hstopped he => rfl
        | stored hready hstored =>
          cases hstored with
          | unwritten hnowhere => rfl
          | done hwritten hstored he =>
            rw [hending] at hfailed
            exact absurd he hfailed
          | unstored hwritten hpath hcrash =>
            -- Without a file for the kernel text nothing has been written yet.
            cases hout : given o.out with
            | none => exact (output_none hout).mp hwritten
            | some out =>
              have hhalf := HalfDone.intro hargs hcompiling hready hout ((output_some hout).mp hwritten) hpath hcrash
              exact absurd hhalf (hnone _ _ _ _)

/-! ### A run that is half done -/

/-- A directory with one source file. -/
def markDirectory : Directory where
  cwd := { root := "/", parts := ["work"] }
  nodes := [(["work", "a.pgs"], .file (Text.Utf8.encode Schema.markText))]

/-- The manifest is asked for in a directory that is not there. -/
def markArguments : List String := ["a.pgs", "--no-banner", "-o", "a.h", "--manifest", "no/a.playout"]

def markOptions : Options :=
  { source := some "a.pgs", out := some "a.h", manifest := some "no/a.playout", noBanner := true }

theorem ready_mark :
    ∃ c, Ready markOptions markDirectory "a.pgs" c ∧ ∃ bytes, Manifest.write c.manifest = .ok bytes := by
  obtain ⟨s, -, c, hread, -, hcompile, hname, hlayouts⟩ := Schema.compile_mark
  have hsource : HasSource markDirectory (Path.resolve markDirectory.cwd (Path.ofText "a.pgs"))
      (String.ofList (Text.unifyNewlines Schema.markText.toList)) := .intro rfl
  have hlines : String.ofList (Text.unifyNewlines Schema.markText.toList) = Schema.markText := by decide
  -- The manifest has nothing of the table but the name of the schema.
  have hfits : c.manifest.Fits := by
    rw [Compiled.manifest, Manifest.ofLayouts, hname, hlayouts]
    decide +kernel
  obtain ⟨blob, hpack, -⟩ := Manifest.unpack_pack (Manifest.plain_ofLayouts hfits)
  have hcompiled : compileText Schema.markText = s.compile := by
    rw [compileText, hread]
    rfl
  rw [hlines] at hsource
  exact ⟨c, ⟨rfl, ⟨Schema.markText, hsource, hcompiled.trans hcompile⟩, fun h => by cases h⟩, _,
    Manifest.write_eq_ok hpack⟩

/-- The run crashes at the manifest, and the kernel text is there all the same. -/
theorem text_left_mark :
    let outcome := run { versionLine := "" } markArguments markDirectory
    outcome.ending = .crashed (.file (.missing "no/a.playout")) ∧ ¬ outcome.ending.Successful ∧
      markDirectory.node? ["work", "a.h"] = none ∧
      ∃ bytes, outcome.world.directory.node? ["work", "a.h"] = some (.file bytes) := by
  have hargs : parse markArguments = .run markOptions := rfl
  obtain ⟨c, hready, bytes, hbytes⟩ := ready_mark
  have hhalf : HalfDone markArguments markDirectory "a.h" c
      (markDirectory.put ["work", "a.h"] (Text.Utf8.encode c.text)) (.file (.missing "no/a.playout")) :=
    .intro hargs ⟨rfl, rfl, rfl⟩ hready rfl rfl rfl (.unwritten hbytes rfl)
  obtain ⟨hending, hleft⟩ := hhalf.run_eq { versionLine := "" }
  refine ⟨hending, ?_, rfl, Text.Utf8.encode c.text, ?_⟩
  · rw [hending]
    exact not_successful_crashed _
  · rw [hleft]
    rfl

end PackedSchema.Command
