import PackedSchema.Command.Run

/-!
# The command line

Looks up the files that the arguments name, runs the command on them, writes the files that the run
changed, and prints what it printed.
-/

namespace PackedSchema.Command

/-- The paths that a run may read or write. -/
def pathsOf : Parsed → List Path
  | .run o => ([o.source, o.out, o.manifest, o.manifestInfo].filterMap given).map Path.ofText
  | _ => []

/-- A path and all the paths on the way to it. -/
def stagesOf (p : Path) : List Path :=
  (List.range (p.parts.length + 1)).map fun n => { p with parts := p.parts.take n }

/-- What the paths lead to. -/
def lookAt (paths : List Path) : IO Directory := do
  let here ← IO.currentDir
  let cwd := Path.ofText here.toString
  let mut nodes := []
  for p in paths.flatMap stagesOf do
    let file := here / p.text
    let place := (Path.resolve cwd p).parts
    if ← file.isDir then nodes := (place, Node.directory) :: nodes
    else if ← file.pathExists then
      nodes := (place, Node.file (← IO.FS.readBinFile file).toList) :: nodes
  return { cwd, nodes }

/-- The bytes of memory that a machine tells of, in lines with a name and an amount in units of 1024. -/
def memoryTold (info : String) : Nat :=
  (info.splitOn "\n").foldl (fun told line =>
    match (line.splitOn " ").filter (· != "") with
    | name :: amount :: _ =>
      if name == "MemTotal:" || name == "SwapTotal:" then told + 1024 * amount.toNat?.getD 0 else told
    | _ => told) 0

/-- The memory of the machine, or what can be addressed on one that tells of none. -/
def memoryOfMachine : IO Nat := do
  let info ← try IO.FS.readFile "/proc/meminfo" catch _ => pure ""
  let told := memoryTold info
  return if told = 0 then Manifest.addressable else told

def versionLine : String := program ++ " 0.3.0"

end PackedSchema.Command

open PackedSchema PackedSchema.Command in
/-- Runs the command on the files of the working directory. -/
def main (args : List String) : IO UInt32 := do
  let before ← lookAt (pathsOf (parse args))
  let tty ← (← IO.getStderr).isTty
  let mut settings := []
  for name in ["NO_COLOR", "NO_UNICODE", "TERM"] do
    if let some value ← IO.getEnv name then settings := (name, value) :: settings
  let env : Environment :=
    { versionLine, console := Console.ofSettings tty settings, memory := ← memoryOfMachine }
  let outcome := run env args before
  IO.print outcome.world.stdout
  IO.eprint outcome.world.stderr
  for (place, bytes) in before.changes outcome.world.directory do
    IO.FS.writeBinFile ("/" ++ "/".intercalate place) (ByteArray.mk bytes.toArray)
  match outcome.ending with
  | .returned code | .exited code => return code.toUInt32
  | .crashed c =>
    IO.eprintln c.message
    return 1
