import PackedSchema.Proofs.Command.Run
import PackedSchema.Proofs.Manifest.Summary

/-!
# Runs that show a manifest

A run that is asked to show a manifest file prints the whole summary, or reports why the file is refused, for
every file that memory can be had for and whose types can all be shown. Other files crash the run. Memory, and the
levels of a value that can be followed, are those of the machine the run finds itself on.
-/

namespace PackedSchema.Command

open Run Manifest

variable {d : Directory} {name : String} {path : Path} {m : Value} {bytes : List UInt8} (env : Environment)

/-! ## The run by what is read -/

/-- The arguments that ask for the manifest in a file. -/
def infoArguments (name : String) : List String := ["--no-banner", "--manifest-info", name]

/-- The argument is taken as the name of a file, and the file has these bytes. -/
structure NamesFile (d : Directory) (name : String) (bytes : List UInt8) : Prop where
  plain : markOf name = .ok .plain
  nonempty : name ≠ ""
  read_eq : d.read (Path.ofText name) = .ok bytes

theorem parse_info (h : markOf name = .ok .plain) :
    parse (infoArguments name) = .run { manifestInfo := some name, noBanner := true } := by
  -- Two dashes alone would end the options before they are marked.
  have hne : name ≠ "--" := by
    rintro rfl
    cases h
  have hbanner : markOf "--no-banner" = .ok (.option .noBanner none) := rfl
  have hinfo : markOf "--manifest-info" = .ok (.option .manifestInfo none) := rfl
  have hmarks : markAll (infoArguments name) =
      .ok [("--no-banner", .option .noBanner none), ("--manifest-info", .option .manifestInfo none),
        (name, .plain)] := by
    simp [infoArguments, markAll, hbanner, hinfo, hne, h, bind, Except.bind, pure, Except.pure]
  rw [parse, hmarks]
  rfl

theorem hasNode_of_read (h : d.read path = .ok bytes) : d.hasNode path = .ok true := by
  obtain ⟨place, hplace, h⟩ := bind_eq_ok_iff.mp h
  rw [Directory.hasNode, hplace]
  cases hnode : d.node? place with
  | some n => simp [hnode]
  | none =>
    rw [hnode] at h
    cases h

/-- What the run gives, and the world it leaves, by what is read from the file. -/
theorem exec_showManifest (h : d.read path = .ok bytes) :
    exec (showManifest env path) { directory := d } =
      match Manifest.read path.text bytes env.memory with
      | .error (.schema e) =>
        (.error (.returned 2), { stderr := "error: " ++ e.text ++ "\n", directory := d })
      | .error f => (.error (.crashed (.manifest f)), { directory := d })
      | .ok m => exec (printLines (summaryLines m env.levels)) { directory := d } := by
  have hthere : exec (orCrash Crash.file (d.hasNode path)) { directory := d } =
      (.ok true, { directory := d }) := by
    rw [hasNode_of_read h]
    rfl
  unfold showManifest
  -- The file is there, so the run goes on to what is read from it.
  refine (exec_bind_ok (show exec get _ = (.ok _, _) from rfl)).trans ?_
  refine (exec_bind_ok hthere).trans ?_
  simp only [Bool.not_true, Bool.false_eq_true, if_false, h]
  cases Manifest.read path.text bytes env.memory with
  | ok m => rfl
  | error f =>
    cases f with
    | schema e =>
      refine (exec_bind_ok (exec_complain _ _)).trans ?_
      simp only [String.empty_append]
      rfl
    | _ => rfl

/-- A run that shows a manifest does nothing else. -/
theorem run_info {r : Except Ending Unit} {w : World} (h : NamesFile d name bytes)
    (hshow : exec (showManifest env (Path.ofText name)) { directory := d } = (r, w)) :
    run env (infoArguments name) d = { ending := endingOf r, world := w } := by
  refine run_eq env d (parse_info h.plain) ?_
  have hgiven : given (some name) = some name := by simp [given, h.nonempty]
  rw [← hshow]
  unfold perform
  simp only [hgiven]
  rfl

theorem run_of_holds (h : NamesFile d name bytes) (hm : Holds bytes m) (hafford : Affordable env.memory bytes)
    {text : String} {fault : Option SummaryFault} (hprinted : printed (summaryLines m env.levels) = (text, fault)) :
    run env (infoArguments name) d =
      { ending := fault.elim (.returned 0) fun f => .crashed (.summary f)
        world := { stdout := text, directory := d } } := by
  have hshow : exec (showManifest env (Path.ofText name)) { directory := d } =
      exec (printLines (summaryLines m env.levels)) { directory := d } := by
    rw [exec_showManifest env h.read_eq, Manifest.read_of_holds hm hafford]
  have hlines : exec (printLines (summaryLines m env.levels)) { directory := d } =
      (fault.elim (.ok ()) fun f => .error (.crashed (.summary f)), { stdout := text, directory := d }) := by
    unfold printLines
    rw [hprinted]
    refine (exec_bind_ok (exec_print _ _)).trans ?_
    simp only [String.empty_append]
    cases fault <;> rfl
  rw [run_info env h (hshow.trans hlines)]
  cases fault <;> rfl

/-- The whole summary is printed if the manifest can be shown. -/
theorem run_shown (h : NamesFile d name bytes) (hm : Holds bytes m) (hafford : Affordable env.memory bytes)
    (hprintable : Printable env.levels m) :
    ∃ lines : List String, summaryLines m env.levels = lines.map .ok ∧
      run env (infoArguments name) d =
        { ending := .returned 0, world := { stdout := textOf lines, directory := d } } := by
  obtain ⟨lines, hlines, hprinted⟩ := printed_of_printable hm hprintable
  exact ⟨lines, hlines, run_of_holds env h hm hafford hprinted⟩

/-- The run crashes in the summary of any other manifest. -/
theorem run_cut (h : NamesFile d name bytes) (hm : Holds bytes m) (hafford : Affordable env.memory bytes)
    (hnot : ¬ Printable env.levels m) :
    ∃ (lines : List String) (f : SummaryFault) (rest : List (Except SummaryFault String)),
      summaryLines m env.levels = lines.map .ok ++ .error f :: rest ∧
        run env (infoArguments name) d =
          { ending := .crashed (.summary f), world := { stdout := textOf lines, directory := d } } := by
  obtain ⟨lines, f, rest, hlines, hprinted⟩ := printed_of_not_printable hm hnot
  exact ⟨lines, f, rest, hlines, run_of_holds env h hm hafford hprinted⟩

theorem exists_refusal (path : String) {memory : Nat} (hnone : ∀ m, ¬ Holds bytes m)
    (hafford : Affordable memory bytes) :
    ∃ e, Manifest.read path bytes memory = .error (.schema e) ∧ Refused path memory bytes (.schema e) := by
  have hends := read_ends path memory bytes
  cases hread : Manifest.read path bytes memory with
  | ok m =>
    rw [hread] at hends
    exact absurd hends (hnone m)
  | error f =>
    obtain ⟨e, rfl, -⟩ := (affordable_iff path memory bytes).mp hafford f hread
    rw [hread] at hends
    exact ⟨e, rfl, hends⟩

/-- A file that is no manifest is reported, if memory can be had for it. -/
theorem run_refused (h : NamesFile d name bytes) (hnone : ∀ m, ¬ Holds bytes m)
    (hafford : Affordable env.memory bytes) :
    ∃ e, Refused (Path.ofText name).text env.memory bytes (.schema e) ∧
      run env (infoArguments name) d =
        { ending := .returned 2, world := { stderr := "error: " ++ e.text ++ "\n", directory := d } } := by
  obtain ⟨e, hread, hrefused⟩ := exists_refusal (Path.ofText name).text hnone hafford
  have hshow := exec_showManifest env h.read_eq
  rw [hread] at hshow
  exact ⟨e, hrefused, run_info env h hshow⟩

/-- The run crashes at a length that memory cannot be had for, with nothing printed. -/
theorem run_of_unaffordable (h : NamesFile d name bytes) (hafford : ¬ Affordable env.memory bytes) :
    ∃ f, Refused (Path.ofText name).text env.memory bytes f ∧
      run env (infoArguments name) d = { ending := .crashed (.manifest f), world := { directory := d } } := by
  rw [affordable_iff (Path.ofText name).text] at hafford
  have hshow := exec_showManifest env h.read_eq
  have hends := read_ends (Path.ofText name).text env.memory bytes
  cases hread : Manifest.read (Path.ofText name).text bytes env.memory with
  | ok m =>
    refine absurd (fun f hf => ?_) hafford
    cases hread.symm.trans hf
  | error f =>
    rw [hread] at hshow hends
    cases f with
    | schema e =>
      refine absurd (fun f hf => ?_) hafford
      cases hread.symm.trans hf
      exact ⟨e, rfl, hends.category⟩
    | _ => exact ⟨_, hends, run_info env h hshow⟩

/-! ## All files -/

/-- A run that is asked to show a manifest file ends in one of four ways. If memory can be had for the file, it
prints the whole summary of a manifest that can be shown, crashes in that of any other manifest, and reports why
another file is refused. Without memory it crashes before it prints anything. So it returns exactly if neither the
length nor the name or a type of the manifest stands in the way, on a machine with any amount of memory that follows
any number of levels. -/
theorem run_manifestInfo (h : NamesFile d name bytes) :
    let outcome := run env (infoArguments name) d
    (Affordable env.memory bytes →
      (∀ m, Holds bytes m → Printable env.levels m →
        ∃ lines : List String, summaryLines m env.levels = lines.map .ok ∧
          outcome = { ending := .returned 0, world := { stdout := textOf lines, directory := d } }) ∧
      (∀ m, Holds bytes m → ¬ Printable env.levels m →
        ∃ (lines : List String) (f : SummaryFault) (rest : List (Except SummaryFault String)),
          summaryLines m env.levels = lines.map .ok ++ .error f :: rest ∧
          outcome = { ending := .crashed (.summary f), world := { stdout := textOf lines, directory := d } }) ∧
      ((∀ m, ¬ Holds bytes m) →
        ∃ e, Refused (Path.ofText name).text env.memory bytes (.schema e) ∧
          outcome =
            { ending := .returned 2, world := { stderr := "error: " ++ e.text ++ "\n", directory := d } })) ∧
    (¬ Affordable env.memory bytes →
      ∃ f, Refused (Path.ofText name).text env.memory bytes f ∧
        outcome = { ending := .crashed (.manifest f), world := { directory := d } }) ∧
    (outcome.ending = .returned 0 ∨ outcome.ending = .returned 2 ↔
      Affordable env.memory bytes ∧ ∀ m, Holds bytes m → Printable env.levels m) := by
  refine ⟨fun hafford => ⟨fun m hm => run_shown env h hm hafford, fun m hm => run_cut env h hm hafford,
    fun hnone => run_refused env h hnone hafford⟩, run_of_unaffordable env h, fun hreturned => ?_, ?_⟩
  · have hafford : Affordable env.memory bytes := by
      by_contra hafford
      obtain ⟨f, -, hcrashed⟩ := run_of_unaffordable env h hafford
      simp [hcrashed] at hreturned
    refine ⟨hafford, fun m hm => ?_⟩
    by_contra hnot
    obtain ⟨lines, f, rest, -, hcrashed⟩ := run_cut env h hm hafford hnot
    simp [hcrashed] at hreturned
  · rintro ⟨hafford, hprintable⟩
    by_cases hsome : ∃ m, Holds bytes m
    · obtain ⟨m, hm⟩ := hsome
      obtain ⟨lines, -, hreturned⟩ := run_shown env h hm hafford (hprintable m hm)
      simp [hreturned]
    · obtain ⟨e, -, hreturned⟩ := run_refused env h (not_exists.mp hsome) hafford
      simp [hreturned]

/-! ## Two files -/

/-- A directory with one manifest file. -/
def manifestDirectory (blob : List UInt8) : Directory where
  cwd := { root := "/", parts := ["work"] }
  nodes := [(["work", "m.playout"], .file (fileOf blob))]

theorem namesFile_manifest (blob : List UInt8) : NamesFile (manifestDirectory blob) "m.playout" (fileOf blob) :=
  ⟨rfl, by decide, rfl⟩

theorem holds_fileOf {blob : List UInt8} (hlength : blob.length < 2 ^ 64) (hblob : unpack blob = .ok m)
    (htable : isLayoutTable m = true) : Holds (fileOf blob) m :=
  ⟨blob, [], (List.append_nil _).symm, hlength, unpack_eq_ok_iff.mp hblob, isLayoutTable_iff.mp htable⟩

theorem affordable_fileOf {memory : Nat} {blob : List UInt8} (h : Room memory blob.length) :
    Affordable memory (fileOf blob) := by
  have hindex := h.index
  rw [fileOf_eq]
  exact (affordable_header (by omega)).mpr h

/-- An enum with a variant that has a truth value for its tag, and null for its name. -/
def enumManifest : Value :=
  .record [("types", .list [.record [("kind", .text "enum"), ("name", .text "E"), ("size", .int 4),
    ("body_words", .int 0), ("variants", .list [.record [("tag", .bool true), ("name", .nil)]])]])]

def enumBlob : List UInt8 :=
  [0x81, 0xa5, 0x74, 0x79, 0x70, 0x65, 0x73, 0x91, 0x85, 0xa4, 0x6b, 0x69, 0x6e, 0x64, 0xa4, 0x65, 0x6e, 0x75,
    0x6d, 0xa4, 0x6e, 0x61, 0x6d, 0x65, 0xa1, 0x45, 0xa4, 0x73, 0x69, 0x7a, 0x65, 0x04, 0xaa, 0x62, 0x6f, 0x64,
    0x79, 0x5f, 0x77, 0x6f, 0x72, 0x64, 0x73, 0x00, 0xa8, 0x76, 0x61, 0x72, 0x69, 0x61, 0x6e, 0x74, 0x73, 0x91,
    0x82, 0xa3, 0x74, 0x61, 0x67, 0xc3, 0xa4, 0x6e, 0x61, 0x6d, 0x65, 0xc0]

theorem holds_enum : Holds (fileOf enumBlob) enumManifest := holds_fileOf (by decide) rfl rfl

theorem printable_enum : Printable 0 enumManifest := by
  constructor
  · intro x hx
    cases hx
  · intro e he
    obtain rfl := List.mem_singleton.mp he
    refine .enum rfl ?_ ⟨_, rfl, .list fun v hv => ?_⟩
    · simp only [Value.HasColumns, List.forall_mem_cons]
      exact ⟨⟨_, rfl, by decide⟩, ⟨_, rfl, by decide⟩, ⟨_, rfl, by decide⟩, by simp⟩
    · obtain rfl := List.mem_singleton.mp hv
      refine ⟨⟨_, rfl, .bool true⟩, ?_⟩
      simp only [Value.HasColumns, List.forall_mem_cons]
      exact ⟨⟨_, rfl, by decide⟩, by simp⟩

theorem run_manifestInfo_enum :
    NamesFile (manifestDirectory enumBlob) "m.playout" (fileOf enumBlob) ∧
      Affordable 1000 (fileOf enumBlob) ∧ Holds (fileOf enumBlob) enumManifest ∧ Printable 0 enumManifest ∧
      run { versionLine := "", memory := 1000, levels := 0 } (infoArguments "m.playout")
          (manifestDirectory enumBlob) =
        { ending := .returned 0
          world :=
            { stdout := "Module: <anonymous>\nTypes: 1\n\n  enum E (size 4, body words 0):\n    1     None\n"
              directory := manifestDirectory enumBlob } } := by
  have hafford : Affordable 1000 (fileOf enumBlob) := affordable_fileOf ⟨by decide, by decide⟩
  refine ⟨namesFile_manifest enumBlob, hafford, holds_enum, printable_enum, ?_⟩
  obtain ⟨haffordable, -⟩ :=
    run_manifestInfo { versionLine := "", memory := 1000, levels := 0 } (namesFile_manifest enumBlob)
  obtain ⟨lines, hlines, hrun⟩ := (haffordable hafford).1 enumManifest holds_enum printable_enum
  have hprinted : printed (summaryLines enumManifest 0) =
      ("Module: <anonymous>\nTypes: 1\n\n  enum E (size 4, body words 0):\n    1     None\n", none) := by
    decide +kernel
  rw [hlines, printed_map] at hprinted
  rw [hrun, (Prod.mk.inj hprinted).1]

/-- A struct that tells nothing but its kind. -/
def bareManifest : Value := .record [("types", .list [.record [("kind", .text "struct")]])]

def bareBlob : List UInt8 :=
  [0x81, 0xa5, 0x74, 0x79, 0x70, 0x65, 0x73, 0x91, 0x81, 0xa4, 0x6b, 0x69, 0x6e, 0x64, 0xa6, 0x73, 0x74, 0x72,
    0x75, 0x63, 0x74]

set_option maxRecDepth 2000 in
theorem holds_bare : Holds (fileOf bareBlob) bareManifest := holds_fileOf (by decide) rfl rfl

/-- The file is read as a manifest, and the run crashes after the first lines all the same. -/
theorem summary_cut_bare :
    declaredLength (fileOf bareBlob) < 2 ^ 63 ∧ Holds (fileOf bareBlob) bareManifest ∧
      Affordable 54 (fileOf bareBlob) ∧ ∀ memory levels, Affordable memory (fileOf bareBlob) →
        run { versionLine := "", memory, levels } (infoArguments "m.playout") (manifestDirectory bareBlob) =
          { ending := .crashed (.summary (.missingKey "tagged"))
            world := { stdout := "Module: <anonymous>\nTypes: 1\n\n", directory := manifestDirectory bareBlob } } := by
  refine ⟨by decide +kernel, holds_bare, affordable_fileOf ⟨by decide, by decide⟩, fun memory levels hafford => ?_⟩
  -- The fault comes before any column.
  have hlines : summaryLines bareManifest levels = summaryLines bareManifest 0 := rfl
  have hprinted : printed (summaryLines bareManifest 0) =
      ("Module: <anonymous>\nTypes: 1\n\n", some (.missingKey "tagged")) := by
    decide +kernel
  rw [← hlines] at hprinted
  exact run_of_holds { versionLine := "", memory, levels } (namesFile_manifest bareBlob) holds_bare hafford hprinted

end PackedSchema.Command
