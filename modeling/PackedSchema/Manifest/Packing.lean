import PackedSchema.Failure
import PackedSchema.Manifest.Value
import PackedSchema.Text.Utf8

/-!
# Packing

The bytes of a manifest value. A head byte tells the kind of a value, and for small values also their
content or length; every integer, text, byte string, list and map takes its shortest form. Numbers are
written with the highest byte first. No integer has more than eight bytes, and no length more than four.
-/

namespace PackedSchema.Manifest

/-- The lowest `width` bytes of a number, the highest first. -/
def bigEndian : (width : Nat) → Nat → List UInt8
  | 0, _ => []
  | w + 1, n => bigEndian w (n / 256) ++ [UInt8.ofNat n]

/-- A head byte that is followed by a number of `width` bytes. -/
def headed (head width n : Nat) : List UInt8 := UInt8.ofNat head :: bigEndian width n

def packNat (n : Nat) : Except Failure (List UInt8) :=
  if n < Nat.pow 2 7 then .ok [UInt8.ofNat n]
  else if n < Nat.pow 2 8 then .ok (headed 0xcc 1 n)
  else if n < Nat.pow 2 16 then .ok (headed 0xcd 2 n)
  else if n < Nat.pow 2 32 then .ok (headed 0xce 4 n)
  else if n < Nat.pow 2 64 then .ok (headed 0xcf 8 n)
  else .error .integerOutOfRange

/-- Negative numbers in two's complement. -/
def packInt : Int → Except Failure (List UInt8)
  | .ofNat n => packNat n
  | .negSucc n =>
    let k := n + 1
    if k ≤ Nat.pow 2 5 then .ok [UInt8.ofNat (Nat.pow 2 8 - k)]
    else if k ≤ Nat.pow 2 7 then .ok (headed 0xd0 1 (Nat.pow 2 8 - k))
    else if k ≤ Nat.pow 2 15 then .ok (headed 0xd1 2 (Nat.pow 2 16 - k))
    else if k ≤ Nat.pow 2 31 then .ok (headed 0xd2 4 (Nat.pow 2 32 - k))
    else if k ≤ Nat.pow 2 63 then .ok (headed 0xd3 8 (Nat.pow 2 64 - k))
    else .error .integerOutOfRange

/-- A head byte that is followed by a length of four bytes, the most that a length can have. -/
def longHead (what : String) (head n : Nat) : Except Failure (List UInt8) :=
  if n < Nat.pow 2 32 then .ok (headed head 4 n) else .error (.numeral (.tooLargeToCount what))

/-- The head of a text of `n` bytes. -/
def textHead (n : Nat) : Except Failure (List UInt8) :=
  if n < Nat.pow 2 5 then .ok [UInt8.ofNat (0xa0 + n)]
  else if n < Nat.pow 2 8 then .ok (headed 0xd9 1 n)
  else if n < Nat.pow 2 16 then .ok (headed 0xda 2 n)
  else longHead "unicode string" 0xdb n

def bytesHead (n : Nat) : Except Failure (List UInt8) :=
  if n < Nat.pow 2 8 then .ok (headed 0xc4 1 n)
  else if n < Nat.pow 2 16 then .ok (headed 0xc5 2 n)
  else longHead "bytes object" 0xc6 n

def listHead (n : Nat) : Except Failure (List UInt8) :=
  if n < Nat.pow 2 4 then .ok [UInt8.ofNat (0x90 + n)]
  else if n < Nat.pow 2 16 then .ok (headed 0xdc 2 n)
  else longHead "list" 0xdd n

def mapHead (n : Nat) : Except Failure (List UInt8) :=
  if n < Nat.pow 2 4 then .ok [UInt8.ofNat (0x80 + n)]
  else if n < Nat.pow 2 16 then .ok (headed 0xde 2 n)
  else longHead "dict" 0xdf n

/-- The head of `n` bytes with an application's code. -/
def extHead (n code : Nat) : Except Failure (List UInt8) := do
  let head ←
    if n = 1 then .ok [0xd4]
    else if n = 2 then .ok [0xd5]
    else if n = 4 then .ok [0xd6]
    else if n = 8 then .ok [0xd7]
    else if n = 16 then .ok [0xd8]
    else if n < Nat.pow 2 8 then .ok (headed 0xc7 1 n)
    else if n < Nat.pow 2 16 then .ok (headed 0xc8 2 n)
    else longHead "EXT data" 0xc9 n
  return head ++ [UInt8.ofNat code]

/-- The code of a timestamp among the codes of bytes, in two's complement. -/
def timestampCode : Nat := 0xff

def packText (s : String) : Except Failure (List UInt8) := do
  let bytes := Text.Utf8.encode s
  return (← textHead bytes.length) ++ bytes

def packBytes (b : List UInt8) : Except Failure (List UInt8) :=
  return (← bytesHead b.length) ++ b

def packExt (code : Nat) (data : List UInt8) : Except Failure (List UInt8) :=
  return (← extHead data.length code) ++ data

/-- A timestamp takes four, eight or twelve bytes, as its seconds and nanoseconds need. -/
def packTimestamp (seconds : Int) (nanoseconds : Nat) : Except Failure (List UInt8) :=
  packExt timestampCode
    (if 0 ≤ seconds ∧ seconds < Nat.pow 2 32 ∧ nanoseconds = 0 then bigEndian 4 seconds.toNat
     else if 0 ≤ seconds ∧ seconds < Nat.pow 2 34 then
       bigEndian 8 (nanoseconds * Nat.pow 2 34 + seconds.toNat)
     else bigEndian 4 nanoseconds ++ bigEndian 8 (seconds % Nat.pow 2 64).toNat)

def Key.pack : Key → Except Failure (List UInt8)
  | .text s => packText s
  | .bytes b => packBytes b

namespace Value

mutual

def pack : Value → Except Failure (List UInt8)
  | nil => .ok [0xc0]
  | bool b => .ok [if b then 0xc3 else 0xc2]
  | int n => packInt n
  | float bits => .ok (headed 0xcb 8 bits)
  | text s => packText s
  | bytes b => packBytes b
  | list items => return (← listHead items.length) ++ (← packItems items)
  | map es => return (← mapHead es.length) ++ (← packEntries es)
  | ext code data => packExt code data
  | timestamp seconds nanoseconds => packTimestamp seconds nanoseconds

def packItems : List Value → Except Failure (List UInt8)
  | [] => .ok []
  | v :: vs => return (← pack v) ++ (← packItems vs)

def packEntries : List (Key × Value) → Except Failure (List UInt8)
  | [] => .ok []
  | (k, v) :: es => return (← k.pack) ++ (← pack v) ++ (← packEntries es)

end

end Value

end PackedSchema.Manifest
