import PackedSchema.Manifest.File

/-!
# Summaries

The lines that show what a manifest records. A manifest that was read from a file may have entries of
any shape; the lines before the first one that cannot be made are still shown.

A value is shown by following its parts down, level by level, and there is a limit to the levels that can be
followed. It is given for the lines of types; the line above them may go one level further.
-/

namespace PackedSchema.Manifest

/-- Where a value goes on beyond the levels that can be followed. -/
inductive DepthFault
  /-- At a part of a list, a map or an extension. -/
  | part
  /-- At an extension or a time, whose own parts are a level further down. -/
  | call
  /-- At a number of a time. -/
  | number
  deriving Repr, DecidableEq

def DepthFault.message : DepthFault → String
  | part => "maximum recursion depth exceeded while getting the repr of an object"
  | call => "maximum recursion depth exceeded"
  | number => "maximum recursion depth exceeded while getting the str of an object"

/-- Why a line of a summary cannot be made. -/
inductive SummaryFault
  | missingKey (key : String)
  /-- A value without entries is asked for one. -/
  | notSubscriptable (kindName : String)
  /-- A sequence is asked for the entry of a text key. -/
  | notIndexed (message : String)
  | notIterable (kindName : String)
  /-- A value that cannot be padded to a width. -/
  | notPadded (kindName : String)
  | numeral (f : Numeral.Fault)
  | tooDeep (f : DepthFault)
  deriving Repr, DecidableEq

def SummaryFault.message : SummaryFault → String
  | missingKey k => k
  | notSubscriptable k => "'" ++ k ++ "' object is not subscriptable"
  | notIndexed m => m
  | notIterable k => "'" ++ k ++ "' object is not iterable"
  | notPadded k => "unsupported format string passed to " ++ k ++ ".__format__"
  | numeral f => f.message
  | tooDeep f => f.message

/-- A key as a value. -/
def Key.value : Key → Value
  | .text s => .text s
  | .bytes b => .bytes b

namespace Value

/-! ## Access -/

def entry (key : String) (v : Value) : Except SummaryFault Value :=
  match v with
  | map es =>
    match es.lookup (.text key) with
    | some x => .ok x
    | none => .error (.missingKey key)
  | text _ => .error (.notIndexed "string indices must be integers, not 'str'")
  | list _ => .error (.notIndexed "list indices must be integers or slices, not str")
  | bytes _ => .error (.notIndexed "byte indices must be integers or slices, not str")
  | ext .. => .error (.notIndexed "tuple indices must be integers or slices, not str")
  | v => .error (.notSubscriptable v.kindName)

/-- The items of a sequence: the characters of a text, the numbers of bytes, the keys of a map. -/
def items (v : Value) : Except SummaryFault (List Value) :=
  match v with
  | list vs => .ok vs
  | text s => .ok (s.toList.map fun c => text (String.singleton c))
  | bytes b => .ok (b.map fun x => int x.toNat)
  | map es => .ok (es.map fun e => e.1.value)
  | ext code data => .ok [int code, bytes data]
  | v => .error (.notIterable v.kindName)

/-! ## Columns -/

mutual

/-- The first fault of a value below which so many levels can be followed. -/
def depthFault? : Nat → Value → Option DepthFault
  | levels, list items => itemsFault? levels items
  | levels, map es => entriesFault? levels es
  | 0, ext .. => some .call
  | 1, ext .. => some .part
  | 0, timestamp .. => some .call
  | 1, timestamp .. => some .number
  | _, _ => none

def itemsFault? : Nat → List Value → Option DepthFault
  | _, [] => none
  | 0, _ :: _ => some .part
  | levels + 1, v :: vs => (depthFault? levels v).or (itemsFault? (levels + 1) vs)

def entriesFault? : Nat → List (Key × Value) → Option DepthFault
  | _, [] => none
  | 0, _ :: _ => some .part
  | levels + 1, (_, v) :: es => (depthFault? levels v).or (entriesFault? (levels + 1) es)

end

def numeralText (n : Int) : Except SummaryFault String := (Numeral.write n).mapError .numeral

/-- A value as a text of its own, made with so many levels. -/
def shownTo (levels : Nat) (v : Value) : Except SummaryFault String :=
  match v.depthFault? levels with
  | none => .ok v.shown
  | some f => .error (.tooDeep f)

/-- A value as part of a line. -/
def column (levels : Nat) : Value → Except SummaryFault String
  | int n => numeralText n
  | v => v.shownTo levels

def padRight (width : Nat) (s : String) : String :=
  s ++ String.ofList (List.replicate (width - s.length) ' ')

/-- A value at the left of a column of that width; truth values stand there as numbers. -/
def padded (width : Nat) (v : Value) : Except SummaryFault String :=
  match v with
  | int n => return padRight width (← numeralText n)
  | bool b => .ok (padRight width (if b then "1" else "0"))
  | float _ | text _ => .ok (padRight width v.shown)
  | v => .error (.notPadded v.kindName)

end Value

/-! ## Lines -/

section Lines

variable (levels : Nat)

def fieldLine (f : Value) : Except SummaryFault String := do
  let offset ← (← f.entry "offset").padded 4
  let name ← (← f.entry "name").column levels
  let type ← (← f.entry "type").column levels
  let size ← (← f.entry "size").column levels
  return "    +" ++ offset ++ " " ++ name ++ ": " ++ type ++ " (" ++ size ++ " bytes)"

def variantLine (v : Value) : Except SummaryFault String := do
  let tag ← (← v.entry "tag").padded 5
  let name ← (← v.entry "name").column levels
  return "    " ++ tag ++ " " ++ name

def structLine (e : Value) : Except SummaryFault String := do
  let tagged := if (← e.entry "tagged").isGiven then ", tagged" else ""
  let name ← (← e.entry "name").column levels
  let size ← (← e.entry "size").column levels
  let alignment ← (← e.entry "alignment").column levels
  return "  struct " ++ name ++ " (size " ++ size ++ ", align " ++ alignment ++ tagged ++ "):"

def enumLine (e : Value) : Except SummaryFault String := do
  let name ← (← e.entry "name").column levels
  let size ← (← e.entry "size").column levels
  let words ← (← e.entry "body_words").column levels
  return "  enum " ++ name ++ " (size " ++ size ++ ", body words " ++ words ++ "):"

/-- The lines of the items of an entry. -/
def itemLines (e : Value) (key : String) (line : Value → Except SummaryFault String) :
    List (Except SummaryFault String) :=
  match e.entry key >>= Value.items with
  | .ok items => items.map line
  | .error f => [.error f]

/-- The lines of one type. -/
def typeLines (e : Value) : List (Except SummaryFault String) :=
  match e.get? "kind" with
  | some (.text "struct") => structLine levels e :: itemLines e "fields" (fieldLine levels)
  | _ => enumLine levels e :: itemLines e "variants" (variantLine levels)

end Lines

/-- The types of a manifest. -/
def types (m : Value) : List Value :=
  match m.get? "types" with
  | some (.list types) => types
  | _ => []

/-- The lines of all types. -/
def layoutLines (m : Value) (levels : Nat := nestingLimit) : List (Except SummaryFault String) :=
  (types m).flatMap (typeLines levels)

/-- The name of the schema, or the text for none. -/
def moduleName (m : Value) (levels : Nat) : Except SummaryFault String :=
  match m.get? "module" with
  | some v => if v.isGiven then v.shownTo levels else .ok "<anonymous>"
  | none => .ok "<anonymous>"

def moduleLine (m : Value) (levels : Nat) : Except SummaryFault String :=
  return "Module: " ++ (← moduleName m (levels + 1))

/-- The lines of a whole manifest. -/
def summaryLines (m : Value) (levels : Nat) : List (Except SummaryFault String) :=
  [moduleLine m levels, .ok ("Types: " ++ Nat.repr (types m).length), .ok ""] ++ layoutLines m levels

/-- The text of the lines before the first fault, and that fault. -/
def printed : List (Except SummaryFault String) → String × Option SummaryFault
  | [] => ("", none)
  | .error f :: _ => ("", some f)
  | .ok s :: lines =>
    let (text, fault) := printed lines
    (s ++ "\n" ++ text, fault)

end PackedSchema.Manifest
