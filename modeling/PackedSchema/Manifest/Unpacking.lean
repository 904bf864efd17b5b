import PackedSchema.Manifest.Packing

/-!
# Unpacking

Reads the bytes of one manifest value, from front to back, and stops at the first fault. Containers
may be nested to a limit, and a list or map that claims more items than its bytes could hold is refused
before its items are read.
-/

namespace PackedSchema.Manifest

/-- What is wrong with the bytes of a value. -/
inductive UnpackFault
  | incomplete
  /-- There are bytes behind the value. -/
  | extra
  /-- The head byte that has no meaning. -/
  | reservedHead
  | nestedTooDeep
  | listTooLong (count limit : Nat)
  | mapTooLong (count limit : Nat)
  | invalidText (f : Text.Utf8.Fault)
  /-- A key that is neither a text nor a byte string. -/
  | badKey (kindName : String)
  | badCode
  | badTimestamp (length : Nat)
  | badNanoseconds
  deriving Repr, DecidableEq

def UnpackFault.reason : UnpackFault → String
  | incomplete => "Unpack failed: incomplete input"
  | extra => "unpack(b) received extra data."
  | reservedHead | nestedTooDeep => ""
  | listTooLong n limit => Nat.repr n ++ " exceeds max_array_len(" ++ Nat.repr limit ++ ")"
  | mapTooLong n limit => Nat.repr n ++ " exceeds max_map_len(" ++ Nat.repr limit ++ ")"
  | invalidText f => f.message
  | badKey k => k ++ " is not allowed for map key when strict_map_key=True"
  | badCode => "code must be 0~127"
  | badTimestamp n => "invalid timestamp data (length " ++ Nat.repr n ++ ")"
  | badNanoseconds => "nanoseconds must be a non-negative integer not greater than 999999999."

/-- A reader of a part of the bytes. -/
abbrev Unpacker (α : Type) := List UInt8 → Except UnpackFault (α × List UInt8)

/-! ## Parts -/

/-- Takes that many bytes. -/
def takeBytes (n : Nat) : Unpacker (List UInt8) := fun bytes =>
  if bytes.length < n then .error .incomplete else .ok (bytes.take n, bytes.drop n)

/-- The number that bytes spell, the highest first. -/
def ofBigEndian (bytes : List UInt8) : Nat := bytes.foldl (fun n b => 256 * n + b.toNat) 0

/-- A number of `width` bytes. -/
def takeNat (width : Nat) : Unpacker Nat := fun bytes => do
  let (b, rest) ← takeBytes width bytes
  return (ofBigEndian b, rest)

/-- A number in two's complement of that many bits. -/
def signed (bits n : Nat) : Int := if n < Nat.pow 2 (bits - 1) then n else (n : Int) - Nat.pow 2 bits

def takeText (n : Nat) : Unpacker Value := fun bytes => do
  let (b, rest) ← takeBytes n bytes
  match Text.Utf8.decode b with
  | .ok s => .ok (.text s, rest)
  | .error f => .error (.invalidText f)

/-- Seconds and nanoseconds of a timestamp. -/
def timestampOf (data : List UInt8) : Except UnpackFault (Int × Nat) :=
  let n := ofBigEndian data
  match data.length with
  | 4 => .ok ((n : Nat), 0)
  | 8 => .ok ((n % Nat.pow 2 34 : Nat), n / Nat.pow 2 34)
  | 12 => .ok (signed 64 (n % Nat.pow 2 64), n / Nat.pow 2 64)
  | k => .error (.badTimestamp k)

/-- The value of `n` bytes behind a code. -/
def takeExt (n : Nat) : Unpacker Value := fun bytes => do
  let (b, rest) ← takeBytes (n + 1) bytes
  let code := signed 8 (ofBigEndian (b.take 1))
  let data := b.drop 1
  if code = -1 then
    let (seconds, nanoseconds) ← timestampOf data
    if Nat.pow 10 9 ≤ nanoseconds then .error .badNanoseconds
    else return (.timestamp seconds nanoseconds, rest)
  else if code < 0 then .error .badCode
  else return (.ext code.toNat data, rest)

/-! ## Heads -/

/-- What a head stands for: a whole value, or a container and the number of its items. -/
inductive Head
  | value (v : Value)
  | list (count : Nat)
  | map (count : Nat)

def asValue (u : Unpacker Value) : Unpacker Head := fun bytes => do
  let (v, rest) ← u bytes
  return (.value v, rest)

/-- A number of `width` bytes, as what `f` makes of it. -/
def counted (width : Nat) (f : Nat → Unpacker Head) : Unpacker Head := fun bytes => do
  let (n, rest) ← takeNat width bytes
  f n rest

def pureHead (h : Head) : Unpacker Head := fun bytes => .ok (h, bytes)

/-- The head that a first byte starts. -/
def headOf (first : Nat) : Unpacker Head :=
  if first < 0x80 then pureHead (.value (.int first))
  else if first < 0x90 then pureHead (.map (first - 0x80))
  else if first < 0xa0 then pureHead (.list (first - 0x90))
  else if first < 0xc0 then asValue (takeText (first - 0xa0))
  else if 0xe0 ≤ first then pureHead (.value (.int (signed 8 first)))
  else
    match first with
    | 0xc0 => pureHead (.value .nil)
    | 0xc2 => pureHead (.value (.bool false))
    | 0xc3 => pureHead (.value (.bool true))
    | 0xc4 => counted 1 bytesOf
    | 0xc5 => counted 2 bytesOf
    | 0xc6 => counted 4 bytesOf
    | 0xc7 => counted 1 fun n => asValue (takeExt n)
    | 0xc8 => counted 2 fun n => asValue (takeExt n)
    | 0xc9 => counted 4 fun n => asValue (takeExt n)
    | 0xca => counted 4 fun n => pureHead (.value (.float (Decimal.Binary.widen n)))
    | 0xcb => counted 8 fun n => pureHead (.value (.float n))
    | 0xcc => counted 1 fun n => pureHead (.value (.int n))
    | 0xcd => counted 2 fun n => pureHead (.value (.int n))
    | 0xce => counted 4 fun n => pureHead (.value (.int n))
    | 0xcf => counted 8 fun n => pureHead (.value (.int n))
    | 0xd0 => counted 1 fun n => pureHead (.value (.int (signed 8 n)))
    | 0xd1 => counted 2 fun n => pureHead (.value (.int (signed 16 n)))
    | 0xd2 => counted 4 fun n => pureHead (.value (.int (signed 32 n)))
    | 0xd3 => counted 8 fun n => pureHead (.value (.int (signed 64 n)))
    | 0xd4 => asValue (takeExt 1)
    | 0xd5 => asValue (takeExt 2)
    | 0xd6 => asValue (takeExt 4)
    | 0xd7 => asValue (takeExt 8)
    | 0xd8 => asValue (takeExt 16)
    | 0xd9 => counted 1 fun n => asValue (takeText n)
    | 0xda => counted 2 fun n => asValue (takeText n)
    | 0xdb => counted 4 fun n => asValue (takeText n)
    | 0xdc => counted 2 fun n => pureHead (.list n)
    | 0xdd => counted 4 fun n => pureHead (.list n)
    | 0xde => counted 2 fun n => pureHead (.map n)
    | 0xdf => counted 4 fun n => pureHead (.map n)
    | _ => fun _ => .error .reservedHead
where
  bytesOf (n : Nat) : Unpacker Head := fun bytes => do
    let (b, rest) ← takeBytes n bytes
    return (.value (.bytes b), rest)

def takeHead : Unpacker Head
  | [] => .error .incomplete
  | b :: rest => headOf b.toNat rest

/-! ## Containers -/

/-- That many items, each read by `item`. -/
def takeItems (item : Unpacker Value) : Nat → Unpacker (List Value)
  | 0 => fun bytes => .ok ([], bytes)
  | n + 1 => fun bytes => do
    let (v, rest) ← item bytes
    let (vs, rest) ← takeItems item n rest
    return (v :: vs, rest)

def keyOf : Value → Except UnpackFault Key
  | .text s => .ok (.text s)
  | .bytes b => .ok (.bytes b)
  | v => .error (.badKey v.kindName)

/-- That many entries behind the entries `es`. -/
def takeEntries (item : Unpacker Value) (es : List (Key × Value)) :
    Nat → Unpacker (List (Key × Value))
  | 0 => fun bytes => .ok (es, bytes)
  | n + 1 => fun bytes => do
    let (k, rest) ← item bytes
    let (v, rest) ← item rest
    takeEntries item (Value.insert (← keyOf k) v es) n rest

/-- How deep containers may be nested. -/
def nestingLimit : Nat := 1024

/-- One value. `length` is the number of all bytes, which bounds the number of items; `depth` is how
many containers may still be opened. -/
def takeValue (length : Nat) : (depth : Nat) → Unpacker Value
  | 0 => fun bytes => do
    match ← takeHead bytes with
    | (.value v, rest) => return (v, rest)
    | _ => .error .nestedTooDeep
  | depth + 1 => fun bytes => do
    match ← takeHead bytes with
    | (.value v, rest) => return (v, rest)
    | (.list n, rest) =>
      if length < n then .error (.listTooLong n length)
      else
        let (items, rest) ← takeItems (takeValue length depth) n rest
        return (.list items, rest)
    | (.map n, rest) =>
      if length / 2 < n then .error (.mapTooLong n (length / 2))
      else
        let (es, rest) ← takeEntries (takeValue length depth) [] n rest
        return (.map es, rest)

/-- The value that some bytes spell, all of them. -/
def unpack (bytes : List UInt8) : Except UnpackFault Value := do
  let (v, rest) ← takeValue bytes.length nestingLimit bytes
  if rest.isEmpty then return v else .error .extra

end PackedSchema.Manifest
