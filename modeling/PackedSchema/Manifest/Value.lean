import PackedSchema.Decimal.Shortest
import PackedSchema.Schema.Dump

/-!
# Manifest values

The self-describing values that a manifest is made of. Keys of a map are texts or byte strings; a key
that is given twice keeps its first place and its last value.
-/

namespace PackedSchema.Manifest

inductive Key
  | text (s : String)
  | bytes (b : List UInt8)
  deriving Repr, DecidableEq

def Key.dump : Key → String
  | .text s => Text.quote s
  | .bytes b => Text.quoteBytes b

inductive Value
  | nil
  | bool (b : Bool)
  | int (n : Int)
  /-- A floating-point number, by its 64-bit pattern. -/
  | float (bits : Nat)
  | text (s : String)
  | bytes (b : List UInt8)
  | list (items : List Value)
  | map (entries : List (Key × Value))
  /-- Bytes with an application's code. -/
  | ext (code : Nat) (data : List UInt8)
  | timestamp (seconds : Int) (nanoseconds : Nat)
  deriving Inhabited

namespace Value

/-! ## Equality -/

mutual

def same : Value → Value → Bool
  | nil, nil => true
  | bool a, bool b => a == b
  | int a, int b => a == b
  | float a, float b => a == b
  | text a, text b => a == b
  | bytes a, bytes b => a == b
  | list as, list bs => sameItems as bs
  | map as, map bs => sameEntries as bs
  | ext c a, ext d b => c == d && a == b
  | timestamp s a, timestamp t b => s == t && a == b
  | _, _ => false

def sameItems : List Value → List Value → Bool
  | [], [] => true
  | a :: as, b :: bs => same a b && sameItems as bs
  | _, _ => false

def sameEntries : List (Key × Value) → List (Key × Value) → Bool
  | [], [] => true
  | (k, a) :: as, (l, b) :: bs => k == l && same a b && sameEntries as bs
  | _, _ => false

end

/-! ## Maps -/

/-- Adds an entry, or gives the present entry of that key a new value. -/
def insert (k : Key) (v : Value) : List (Key × Value) → List (Key × Value)
  | [] => [(k, v)]
  | e :: es => if e.1 = k then (k, v) :: es else e :: insert k v es

/-- The value of a text key of a map. -/
def get? (key : String) : Value → Option Value
  | map es => es.lookup (.text key)
  | _ => none

/-- A map with text keys. -/
def record (entries : List (String × Value)) : Value :=
  map (entries.map fun e => (.text e.1, e.2))

/-! ## Texts -/

/-- The name of the kind of a value. -/
def kindName : Value → String
  | nil => "NoneType" | bool _ => "bool" | int _ => "int" | float _ => "float" | text _ => "str"
  | bytes _ => "bytes" | list _ => "list" | map _ => "dict" | ext .. => "ExtType"
  | timestamp .. => "Timestamp"

def boolText (b : Bool) : String := if b then "True" else "False"

mutual

/-- A value as it stands inside another one. -/
def dump : Value → String
  | nil => "None"
  | bool b => boolText b
  | int n => Numeral.text n
  | float bits => Decimal.text Decimal.plain bits
  | text s => Text.quote s
  | bytes b => Text.quoteBytes b
  | list items => dumpList (dumpItems items)
  | map es => "\x7b" ++ ", ".intercalate (dumpEntries es) ++ "\x7d"
  | ext code data =>
    dumpRecord "ExtType" [("code", Nat.repr code), ("data", Text.quoteBytes data)]
  | timestamp s n =>
    dumpRecord "Timestamp" [("seconds", Numeral.text s), ("nanoseconds", Nat.repr n)]

def dumpItems : List Value → List String
  | [] => []
  | v :: vs => dump v :: dumpItems vs

def dumpEntries : List (Key × Value) → List String
  | [] => []
  | (k, v) :: es => (k.dump ++ ": " ++ dump v) :: dumpEntries es

end

/-- A value as a text of its own: a text stands for itself. -/
def shown : Value → String
  | text s => s
  | v => v.dump

/-- Whether a value counts as given: not null, false, zero or empty. -/
def isGiven : Value → Bool
  | nil => false
  | bool b => b
  | int n => n != 0
  | float bits => bits % Nat.pow 2 63 != 0
  | text s => s != ""
  | bytes b => !b.isEmpty
  | list items => !items.isEmpty
  | map es => !es.isEmpty
  | ext .. | timestamp .. => true

end Value

end PackedSchema.Manifest
