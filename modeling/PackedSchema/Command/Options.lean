import PackedSchema.Decimal.Numeral

/-!
# Options

The arguments of the command line. An argument that starts with a dash is an option, unless it is a
lone dash, a negative number, or unknown with a blank in it; everything behind `--` is plain. A long
option may be cut short where that is unambiguous, and a value may be attached to an option. The first
plain argument that no option takes as its value is the source.

All arguments are told apart before any of them takes effect, so an ambiguous option is reported before
anything else.

These are the rules of the standard argument parser up to its release 3.11.8. Later releases read two things
differently: they keep an attached `--` as a value, and they show the help text for `-h` with letters
attached that are no options.
-/

namespace PackedSchema.Command

/-! ## The options -/

inductive Switch
  | help | version | out | dumpParse | dumpAst | dumpLayout | manifest | manifestInfo | noBanner
  deriving Repr, DecidableEq

namespace Switch

def all : List Switch :=
  [help, version, out, dumpParse, dumpAst, dumpLayout, manifest, manifestInfo, noBanner]

def spellings : Switch → List String
  | help => ["-h", "--help"]
  | version => ["--version"]
  | out => ["-o", "--out"]
  | dumpParse => ["--dump-parse"]
  | dumpAst => ["--dump-ast"]
  | dumpLayout => ["--dump-layout"]
  | manifest => ["--manifest"]
  | manifestInfo => ["--manifest-info"]
  | noBanner => ["--no-banner"]

def takesValue : Switch → Bool
  | out | manifest | manifestInfo => true
  | _ => false

/-- All spellings with their options. -/
def table : List (String × Switch) := all.flatMap fun s => s.spellings.map fun n => (n, s)

end Switch

structure Options where
  source : Option String := none
  version : Bool := false
  out : Option String := none
  dumpParse : Bool := false
  dumpAst : Bool := false
  dumpLayout : Bool := false
  manifest : Option String := none
  manifestInfo : Option String := none
  noBanner : Bool := false
  deriving Repr, DecidableEq

namespace Options

def setFlag (o : Options) : Switch → Options
  | .version => { o with version := true }
  | .dumpParse => { o with dumpParse := true }
  | .dumpAst => { o with dumpAst := true }
  | .dumpLayout => { o with dumpLayout := true }
  | .noBanner => { o with noBanner := true }
  | _ => o

def setValue (o : Options) (value : Option String) : Switch → Options
  | .out => { o with out := value }
  | .manifest => { o with manifest := value }
  | .manifestInfo => { o with manifestInfo := value }
  | _ => o

end Options

/-! ## Errors -/

inductive UsageError
  | ambiguous (argument : String) (candidates : List String)
  | missingValue (s : Switch)
  | ignoredValue (s : Switch) (value : String)
  | unrecognized (arguments : List String)
  deriving Repr, DecidableEq

def UsageError.message : UsageError → String
  | ambiguous a candidates =>
    "ambiguous option: " ++ a ++ " could match " ++ ", ".intercalate candidates
  | missingValue s => "argument " ++ "/".intercalate s.spellings ++ ": expected one argument"
  | ignoredValue s v =>
    "argument " ++ "/".intercalate s.spellings ++ ": ignored explicit argument " ++ Text.quote v
  | unrecognized as => "unrecognized arguments: " ++ " ".intercalate as

/-! ## Telling arguments apart -/

/-- What an argument is. -/
inductive Mark
  /-- An option, and the text attached to it behind an equals sign or directly. -/
  | option (s : Switch) (attached : Option String)
  | unknown
  | plain
  /-- The argument behind which all others are plain. -/
  | separator
  deriving Repr, DecidableEq

/-- The parts of an argument before and behind its first equals sign. -/
def splitEquals (a : List Char) : List Char × Option (List Char) :=
  match a.dropWhile (· ≠ '=') with
  | [] => (a, none)
  | _ :: value => (a.takeWhile (· ≠ '='), some value)

def isDigit (c : Char) : Bool := (Numeral.digitValue? c).isSome

/-- Whether the part of an argument behind its dash makes it a negative number. -/
def isNumber (cs : List Char) : Bool :=
  let body := if cs.getLast? = some '\n' then cs.dropLast else cs
  let digits (ds : List Char) := !ds.isEmpty && ds.all isDigit
  digits body ||
    match body.dropWhile isDigit with
    | '.' :: fraction => digits fraction
    | _ => false

/-- The options that an argument may mean, with the texts attached to them. -/
def candidates (a : String) : List (String × Switch × Option String) :=
  match a.toList with
  | '-' :: '-' :: _ =>
    let (name, value) := splitEquals a.toList
    (Switch.table.filter fun e => name.isPrefixOf e.1.toList).map fun e =>
      (e.1, e.2, value.map String.ofList)
  | cs =>
    (Switch.table.filter fun e => e.1.toList = cs.take 2).map fun e =>
      (e.1, e.2, some (String.ofList (cs.drop 2)))

/-- An argument that is no option's exact spelling and starts with a dash. -/
def markGuess (a : String) : Except UsageError Mark :=
  match candidates a with
  | [(_, s, attached)] => .ok (.option s attached)
  | [] =>
    if isNumber (a.toList.drop 1) || a.toList.contains ' ' then .ok .plain else .ok .unknown
  | many => .error (.ambiguous a (many.map fun c => c.1))

def markOf (a : String) : Except UsageError Mark :=
  if a.toList.head? ≠ some '-' then .ok .plain
  else
    match Switch.table.lookup a with
    | some s => .ok (.option s none)
    | none =>
      if a == "-" then .ok .plain
      else
        match splitEquals a.toList with
        | (name, some value) =>
          match Switch.table.lookup (String.ofList name) with
          | some s => .ok (.option s (some (String.ofList value)))
          | none => markGuess a
        | (_, none) => markGuess a

/-- An argument and what it is. -/
abbrev Marked := String × Mark

def markAll : List String → Except UsageError (List Marked)
  | [] => .ok []
  | a :: as =>
    if a == "--" then .ok ((a, .separator) :: as.map fun b => (b, .plain))
    else return (a, ← markOf a) :: (← markAll as)

/-! ## Taking effect -/

/-- How the arguments end: with options to run under, with the help text, or with an error. -/
inductive Parsed
  | run (o : Options)
  | help
  | error (e : UsageError)
  deriving Repr, DecidableEq

def isOption : Mark → Bool
  | .option .. | .unknown => true
  | _ => false

/-- The letters attached to `-h` are options too: `-h` once more, or `-o`, which takes the letters behind
it, or else the next argument, as its value. Any other letter is an error, though not in later releases of the
parser. Unless there is an error the help text is shown, and nothing else takes effect. -/
def helpLetters (next : List Marked) : List Char → Parsed
  | ['h'] => .help
  | 'h' :: cs => helpLetters next cs
  | ['o'] =>
    match next with
    | (_, .plain) :: _ => .help
    | _ => .error (.missingValue .out)
  | 'o' :: _ => .help
  | cs => .error (.ignoredValue .help (String.ofList cs))

/-- The value that an attached text gives to an option. `--` is a separator there too: it is taken away,
and the option is left without a value. Later releases of the parser keep it. -/
def attachedValue (text : String) : Option String := if text == "--" then none else some text

/-- The arguments behind the last option, when no source was given before. -/
def takeSource (as : List Marked) : Option String × List Marked :=
  match as with
  | (a, .plain) :: (_, .separator) :: rest => (some a, rest)
  | (a, .plain) :: rest => (some a, rest)
  | (_, .separator) :: (a, _) :: rest => (some a, rest)
  | (_, .separator) :: [] => (none, [])
  | as => (none, as)

/-- Lets arguments take effect in order. `sourceTaken` tells whether the source was given, `extras` are
the arguments that nothing takes. -/
def applyMarks (o : Options) (sourceTaken : Bool) (extras : List String) : List Marked → Parsed
  | [] => if extras.isEmpty then .run o else .error (.unrecognized extras)
  | (a, mark) :: rest =>
    match mark with
    | .option s none =>
      if s = .help then .help
      else if s.takesValue then
        match rest with
        | (v, .plain) :: rest => applyMarks (o.setValue (some v) s) sourceTaken extras rest
        | _ => .error (.missingValue s)
      else applyMarks (o.setFlag s) sourceTaken extras rest
    | .option s (some attached) =>
      if s.takesValue then
        applyMarks (o.setValue (attachedValue attached) s) sourceTaken extras rest
      else if s = .help && a.toList.take 2 = ['-', 'h'] then helpLetters rest attached.toList
      else .error (.ignoredValue s attached)
    | .unknown => applyMarks o sourceTaken (extras ++ [a]) rest
    | mark =>
      if rest.any fun m => isOption m.2 then
        if sourceTaken then applyMarks o true (extras ++ [a]) rest
        else applyMarks { o with source := some a } true extras rest
      else
        let (source, left) := if sourceTaken then (o.source, (a, mark) :: rest)
          else takeSource ((a, mark) :: rest)
        let extras := extras ++ left.map fun m => m.1
        if extras.isEmpty then .run { o with source } else .error (.unrecognized extras)

/-- Reads the arguments of a command line. -/
def parse (args : List String) : Parsed :=
  match markAll args with
  | .error e => .error e
  | .ok marks => applyMarks {} false [] marks

/-! ## Texts -/

def program : String := "piet-layout"

def usage : String :=
  "usage: piet-layout [-h] [--version] [-o OUT] [--dump-parse] [--dump-ast]\n"
  ++ "                   [--dump-layout] [--manifest PATH] [--manifest-info FILE]\n"
  ++ "                   [--no-banner]\n"
  ++ "                   [source]\n"

def helpText : String :=
  usage
  ++ "\n"
  ++ "Compile a piet scene schema into packed kernel declarations and accessors\n"
  ++ "\n"
  ++ "positional arguments:\n"
  ++ "  source                Path to schema file\n"
  ++ "\n"
  ++ "options:\n"
  ++ "  -h, --help            show this help message and exit\n"
  ++ "  --version             Show version and exit\n"
  ++ "  -o OUT, --out OUT     Output file for generated kernel source (default:\n"
  ++ "                        stdout)\n"
  ++ "  --dump-parse          Print raw lark tree\n"
  ++ "  --dump-ast            Print schema AST\n"
  ++ "  --dump-layout         Print computed sizes and field offsets\n"
  ++ "  --manifest PATH       Also write a binary layout manifest for encoders\n"
  ++ "  --manifest-info FILE  Display the layouts recorded in a manifest file\n"
  ++ "  --no-banner           Do not print the version banner\n"

def errorText (e : UsageError) : String := usage ++ program ++ ": error: " ++ e.message ++ "\n"

end PackedSchema.Command
