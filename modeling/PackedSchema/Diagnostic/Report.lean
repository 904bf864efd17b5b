import PackedSchema.Diagnostic.SchemaError
import PackedSchema.Path
import PackedSchema.Text.Lines

/-!
# Reports

A report collects the diagnostics about one source and shows each with the source line it points at
and a caret under the column.
-/

namespace PackedSchema

/-- A diagnostic of a report. -/
structure Finding where
  severity : Diagnostic.Severity
  code : String
  message : String
  span : Option Span := none
  deriving Repr, DecidableEq

structure Report where
  source : Option String := none
  filename : String := "<schema>"
  items : List Finding := []
  deriving Repr, DecidableEq

/-- How a report is drawn. -/
structure Style where
  color : Bool
  unicode : Bool
  deriving Repr, DecidableEq

/-- What the output stream of a report can show. -/
structure Console where
  tty : Bool := false
  noColor : Bool := false
  noUnicode : Bool := false
  dumb : Bool := false
  deriving Repr, DecidableEq

namespace Console

/-- A stream under the settings of an environment. -/
def ofSettings (tty : Bool) (settings : List (String × String)) : Console :=
  { tty
    noColor := (settings.lookup "NO_COLOR").isSome
    noUnicode := (settings.lookup "NO_UNICODE").isSome
    dumb := settings.lookup "TERM" == some "dumb" }

/-- Colours and box characters are used on a terminal that can show them, unless asked otherwise. -/
def style (c : Console) (color unicode : Option Bool) : Style :=
  { color := color.getD (c.tty && !c.noColor && !c.dumb)
    unicode := unicode.getD (c.tty && !c.noUnicode && !c.dumb) }

end Console

namespace Report

/-! ## Collecting -/

def add (r : Report) (f : Finding) : Report := { r with items := r.items ++ [f] }

def addError (r : Report) (e : SchemaError) : Report :=
  r.add ⟨.error, e.code.id, e.message, e.span⟩

def hasErrors (r : Report) : Bool := r.items.any fun f => f.severity == .error

def hasWarnings (r : Report) : Bool := r.items.any fun f => f.severity == .warning

/-- Adds the message of a catalogue entry with the severity that the entry has. -/
def addEntry (r : Report) (c : Diagnostic.Code) (args : Diagnostic.Arguments)
    (span : Option Span) : Except Diagnostic.LookupFault Report := do
  Diagnostic.Maker.report.checkArguments args
  return r.add ⟨c.severity, c.id, ← Diagnostic.messageOf c.id args, span⟩

/-- Adds the message of a code as an error, and gives the error on one line. -/
def addRaised (r : Report) (id : String) (args : Diagnostic.Arguments) (span : Option Span) :
    Except Diagnostic.LookupFault (Report × String) := do
  Diagnostic.Maker.error.checkArguments args
  let message ← Diagnostic.messageOf id args
  return (r.add ⟨.error, id, message, span⟩, id ++ ": " ++ message)

/-! ## Drawing -/

/-- A file inside the working directory is shown by its path from there, any other file by its name.
A name in angle brackets stands for itself. -/
def displayName (cwd : Path) (filename : String) : String :=
  if filename.toList.head? == some '<' then filename
  else
    let path := Path.ofText filename
    let inside := if path.hasNull then none else (Path.resolve cwd path).relativeTo? cwd
    match inside with
    | some rel => "./" ++ rel.text
    | none => path.name?.getD filename

/-- The escape sequence that starts a text attribute of a terminal. -/
def ansi (n : String) : String := "\x1b[" ++ n ++ "m"

def reset : String := ansi "0"

def severityColor : Diagnostic.Severity → String
  | .error => ansi "31"
  | .warning => ansi "33"

/-- A message is a sentence: it ends in a full stop. -/
def sentence (message : String) : String :=
  if message.toList.getLast? == some '.' then message else message ++ "."

def heading (style : Style) (file : String) (f : Finding) : String :=
  let loc := match f.span with
    | none => file
    | some s => file ++ ":" ++ Numeral.text s.line ++ ":" ++ Numeral.text s.col
  if style.color then
    ansi "36" ++ loc ++ reset ++ ": " ++ ansi "1" ++ severityColor f.severity
      ++ f.severity.name ++ reset ++ " [" ++ ansi "2" ++ f.code ++ reset ++ "]: "
      ++ sentence f.message
  else loc ++ ": " ++ f.severity.name ++ " [" ++ f.code ++ "]: " ++ sentence f.message

/-- The source line of that number, counted from one; empty where the source has no such line. -/
def sourceLine (lines : List String) (line : Int) : String :=
  if line < 1 then "" else lines.getD (line.toNat - 1) ""

/-- A caret under the column; a column before the first counts as the first. -/
def caret (col : Int) : String :=
  String.ofList (List.replicate (max 1 col - 1).toNat ' ') ++ "^"

/-- The marks at the left of the source line and of the caret line. -/
def guides (style : Style) : String × String :=
  if style.unicode then ("  │ ", "  ╰ ") else ("  | ", "  \x60 ")

def excerpt (style : Style) (lines : List String) (f : Finding) (s : Span) : List String :=
  let (lineGuide, caretGuide) := guides style
  let text := sourceLine lines s.line
  if style.color then
    let gray := ansi "90"
    [gray ++ lineGuide ++ reset ++ text,
      gray ++ caretGuide ++ reset ++ severityColor f.severity ++ caret s.col ++ reset]
  else [lineGuide ++ text, caretGuide ++ caret s.col]

def sourceLines (r : Report) : List String := (r.source.map Text.lines).getD []

/-- The lines that show one diagnostic. -/
def drawing (style : Style) (file : String) (lines : List String) (f : Finding) : List String :=
  heading style file f :: (f.span.map (excerpt style lines f)).getD []

/-- The whole report, seen from a working directory. -/
def format (r : Report) (cwd : Path) (style : Style) : String :=
  "\n".intercalate (r.items.flatMap (drawing style (displayName cwd r.filename) r.sourceLines))

/-- What printing the report writes: nothing at all if there is nothing to show. -/
def printed (r : Report) (cwd : Path) (style : Style) : String :=
  let text := r.format cwd style
  if text.isEmpty then "" else text ++ "\n"

end Report

end PackedSchema
