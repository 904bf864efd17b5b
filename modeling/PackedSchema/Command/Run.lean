import PackedSchema.Command.Directory
import PackedSchema.Command.Options
import PackedSchema.Compile
import PackedSchema.Manifest.Summary

/-!
# Running the command

A run takes arguments and a directory to the text it prints, the way it ends, and the directory it
leaves. Files are written in the order of the options that ask for them, so a run that fails at the
second file has written the first.
-/

namespace PackedSchema.Command

/-- What a run finds around it, other than files. -/
structure Environment where
  /-- The line that tells the version of the program. -/
  versionLine : String
  /-- The stream for messages. -/
  console : Console := {}
  /-- The bytes of memory that can be had for one value. -/
  memory : Nat := Manifest.addressable
  /-- How many levels of a value can be followed to show it in the line of a type. By default no manifest that
  can be read goes further. -/
  levels : Nat := Manifest.nestingLimit

/-- A failure that the command does not report by itself. -/
inductive Crash
  | failure (f : Failure)
  | text (f : Text.Utf8.Fault)
  | file (f : FileFault)
  | summary (f : Manifest.SummaryFault)
  | manifest (f : Manifest.ReadFailure)
  deriving Repr, DecidableEq

def Crash.message : Crash → String
  | failure f => f.message
  | text f => f.message
  | file f => f.message
  | summary f => f.message
  | manifest f => f.message

/-- How a run ends. -/
inductive Ending
  | returned (code : Nat)
  /-- The arguments ended the run. -/
  | exited (code : Nat)
  | crashed (c : Crash)
  deriving Repr, DecidableEq

structure World where
  stdout : String := ""
  stderr : String := ""
  directory : Directory

/-- A part of a run, which may end it. -/
abbrev Run := ExceptT Ending (StateM World)

namespace Run

def print (s : String) : Run Unit := modify fun w => { w with stdout := w.stdout ++ s }

def complain (s : String) : Run Unit := modify fun w => { w with stderr := w.stderr ++ s }

def finish {α : Type} (code : Nat) : Run α := throw (.returned code)

def crash {α : Type} (c : Crash) : Run α := throw (.crashed c)

/-- The value, or a crash with the error. -/
def orCrash {ε α : Type} (asCrash : ε → Crash) : Except ε α → Run α
  | .ok a => return a
  | .error e => crash (asCrash e)

/-- Prints lines up to the first that cannot be made, which crashes the run. -/
def printLines (lines : List (Except Manifest.SummaryFault String)) : Run Unit := do
  let (text, fault) := Manifest.printed lines
  print text
  match fault with
  | none => return
  | some f => crash (.summary f)

def writeFile (path : String) (bytes : List UInt8) : Run Unit := do
  let d ← orCrash .file ((← get).directory.write (Path.ofText path) bytes)
  modify fun w => { w with directory := d }

end Run

open Run

/-! ## Parts of a run -/

/-- The line that names the program, in bold on a terminal. -/
def banner (tty : Bool) (versionLine : String) : String :=
  if tty then "\x1b[1m" ++ versionLine ++ "\x1b[0m\n" else versionLine ++ "\n"

/-- Shows what a manifest file records. -/
def showManifest (env : Environment) (path : Path) : Run Unit := do
  let d := (← get).directory
  if !(← orCrash .file (d.hasNode path)) then
    complain ("error: file not found: " ++ path.text ++ "\n")
    finish 2
  match d.read path with
  | .error f =>
    complain ("error: cannot read " ++ path.text ++ ": " ++ f.message ++ "\n")
    finish 2
  | .ok bytes =>
    match Manifest.read path.text bytes env.memory with
    | .error (.schema e) =>
      complain ("error: " ++ e.text ++ "\n")
      finish 2
    | .error f => crash (.manifest f)
    | .ok m => printLines (Manifest.summaryLines m env.levels)

/-- The text of a source file, with every line end as `\n`. -/
def readSource (path : Path) : Run String := do
  match (← get).directory.read path with
  | .error f =>
    complain ("error: cannot read " ++ path.text ++ ": " ++ f.message ++ "\n")
    finish 2
  | .ok bytes =>
    let text ← orCrash .text (Text.Utf8.decode bytes)
    return String.ofList (Text.unifyNewlines text.toList)

def printReport (env : Environment) (r : Report) : Run Unit := do
  complain (r.printed (← get).directory.cwd (env.console.style none none))

/-- The value, or the end of the run: a schema error is reported, other failures crash. -/
def orReport {α : Type} (env : Environment) (r : Report) : Except Failure α → Run α
  | .ok a => return a
  | .error (.schema e) => do
    printReport env (r.addError e)
    finish 2
  | .error f => crash (.failure f)

/-- The value of an option that is given and not empty. -/
def given (value : Option String) : Option String := value.filter fun s => s != ""

/-- Writes or prints the kernel text, writes the manifest if it is asked for, and reports. -/
def store (env : Environment) (o : Options) (c : Compiled) (manifest : Manifest.Value) (report : Report) :
    Run Unit := do
  match given o.out with
  | some out => writeFile out (Text.Utf8.encode c.text)
  | none => print c.text
  match given o.manifest with
  | some out => writeFile out (← orCrash .failure (Manifest.write manifest))
  | none => pure ()
  printReport env report
  finish (if report.hasWarnings then 1 else 0)

/-- Compiles the source file that a path leads to. -/
def compileFile (env : Environment) (o : Options) (source : String) : Run Unit := do
  let cwd := (← get).directory.cwd
  if (Path.ofText source).hasNull then crash (.file .nullCharacter)
  let path := Path.resolve cwd (Path.ofText source)
  let text ← readSource path
  let report : Report := { source := some text, filename := path.text }
  let tree ← orReport env report (Source.Tree.ofText text)
  if o.dumpParse then print (tree.outline ++ "\n")
  let schema ← orReport env report (Schema.ofTree tree)
  if o.dumpAst then print (schema.dump ++ "\n\n")
  let compiled ← orReport env report schema.compile
  let manifest ← orReport env report compiled.describe
  let report := { report with items := compiled.warnings }
  if o.dumpLayout then
    -- The columns of a manifest that was made here are numbers and texts, which have no levels.
    printLines (Manifest.layoutLines manifest)
    print "\n"
  store env o compiled manifest report

/-- Runs the command under options. -/
def perform (env : Environment) (o : Options) : Run Unit := do
  if o.version then
    print (env.versionLine ++ "\n")
    finish 0
  if !o.noBanner then complain (banner env.console.tty env.versionLine)
  match given o.manifestInfo, given o.source with
  | some path, _ => showManifest env (Path.ofText path)
  | none, some source => compileFile env o source
  | none, none =>
    complain "error: schema file required (unless using --manifest-info)\n"
    finish 2

/-! ## The run -/

/-- A whole run: how it ends, what it printed, and the directory it leaves. -/
structure Outcome where
  ending : Ending
  world : World

def run (env : Environment) (args : List String) (d : Directory) : Outcome :=
  let world : World := { directory := d }
  match parse args with
  | .help => { ending := .exited 0, world := { world with stdout := helpText } }
  | .error e => { ending := .exited 2, world := { world with stderr := errorText e } }
  | .run o =>
    let (result, world) := (perform env o).run.run world
    match result with
    | .ok () => { ending := .returned 0, world }
    | .error ending => { ending, world }

end PackedSchema.Command
