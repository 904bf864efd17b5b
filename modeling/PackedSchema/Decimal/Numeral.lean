import PackedSchema.Text.Quoted

/-!
# Decimal numerals

Whole numbers as decimal text. A numeral may have blanks around it, a sign, and single underscores
between its digits; its digits may be those of any script. Both directions refuse more than
`Numeral.limit` digits, so that no text costs more than quadratic time in a small bound.
-/

namespace PackedSchema

namespace Numeral

/-- The most digits that a numeral is read or written with. -/
def limit : Nat := 4300

inductive Fault
  /-- The text is no numeral. -/
  | malformed (text : String)
  /-- The numeral has more digits than are read. -/
  | tooLongToRead (digits : Nat)
  /-- The number needs more digits than are written. -/
  | tooLongToWrite
  /-- The number is a count, and more than the format it is packed in can count. -/
  | tooLargeToCount (counted : String)
  deriving Repr, DecidableEq

/-- The malformed text is shown quoted, cut after this many characters. -/
def shownLength : Nat := 200

def Fault.message : Fault → String
  | .malformed text =>
    "invalid literal for int() with base 10: "
      ++ String.ofList ((Text.quoteChars text.toList).take shownLength)
  | .tooLongToRead digits =>
    "Exceeds the limit (" ++ Nat.repr limit ++ " digits) for integer string conversion: value has "
      ++ Nat.repr digits ++ " digits; use sys.set_int_max_str_digits() to increase the limit"
  | .tooLongToWrite =>
    "Exceeds the limit (" ++ Nat.repr limit ++ " digits) for integer string conversion; "
      ++ "use sys.set_int_max_str_digits() to increase the limit"
  | .tooLargeToCount counted => counted ++ " is too large"

/-! ## Characters -/

/-- The digit zero of every script with decimal digits; the other nine follow it. -/
def zeros : List Nat := [
  0x30, 0x660, 0x6f0, 0x7c0, 0x966, 0x9e6, 0xa66, 0xae6, 0xb66, 0xbe6, 0xc66, 0xce6, 0xd66, 0xde6,
  0xe50, 0xed0, 0xf20, 0x1040, 0x1090, 0x17e0, 0x1810, 0x1946, 0x19d0, 0x1a80, 0x1a90, 0x1b50,
  0x1bb0, 0x1c40, 0x1c50, 0xa620, 0xa8d0, 0xa900, 0xa9d0, 0xa9f0, 0xaa50, 0xabf0, 0xff10, 0x104a0,
  0x10d30, 0x11066, 0x110f0, 0x11136, 0x111d0, 0x112f0, 0x11450, 0x114d0, 0x11650, 0x116c0,
  0x11730, 0x118e0, 0x11950, 0x11c50, 0x11d50, 0x11da0, 0x16a60, 0x16ac0, 0x16b50, 0x1d7ce,
  0x1d7d8, 0x1d7e2, 0x1d7ec, 0x1d7f6, 0x1e140, 0x1e2f0, 0x1e950, 0x1fbf0]

/-- The value of a decimal digit of any script. -/
def digitValue? (c : Char) : Option Nat :=
  (zeros.find? fun z => z ≤ c.toNat && c.toNat < z + 10).map (c.toNat - ·)

/-- The blanks that may stand around a numeral: the ASCII ones without the information separators,
and every blank beyond ASCII. -/
def isBlank (c : Char) : Bool :=
  let n := c.toNat
  n = 0x20 || (0x9 ≤ n && n ≤ 0xd) || n = 0x85 || n = 0xa0 || n = 0x1680
    || (0x2000 ≤ n && n ≤ 0x200a) || n = 0x2028 || n = 0x2029 || n = 0x202f || n = 0x205f
    || n = 0x3000

/-! ## Reading -/

/-- The digit values of a run of digits, in which an underscore may stand between two digits. -/
def digits? : List Char → Option (List Nat)
  | [] => none
  | [c] => (digitValue? c).map ([·])
  | c :: '_' :: cs => do return (← digitValue? c) :: (← digits? cs)
  | c :: cs => do return (← digitValue? c) :: (← digits? cs)

def ofDigits (ds : List Nat) : Nat := ds.foldl (fun n d => 10 * n + d) 0

/-- The digits without a sign, and whether the sign is a minus. -/
def splitSign : List Char → Bool × List Char
  | '-' :: cs => (true, cs)
  | '+' :: cs => (false, cs)
  | cs => (false, cs)

/-- The characters that a run of digits is made of. -/
def inRun (c : Char) : Bool := c = '_' || (digitValue? c).isSome

/-- Reads a numeral. The length of its run of digits is judged before what stands behind it. -/
def read (text : String) : Except Fault Int :=
  let (negative, body) := splitSign (text.toList.dropWhile isBlank)
  match digits? (body.takeWhile inRun) with
  | none => .error (.malformed text)
  | some ds =>
    if ds.length > limit then .error (.tooLongToRead ds.length)
    else if !(body.dropWhile inRun).all isBlank then .error (.malformed text)
    else if negative then .ok (-(ofDigits ds : Int)) else .ok (ofDigits ds)

/-! ## Writing -/

/-- The decimal text of a number, of any length. -/
def text : Int → String
  | .ofNat n => Nat.repr n
  | .negSucc n => "-" ++ Nat.repr (n + 1)

/-- The decimal text of a number of at most `limit` digits. -/
def write (n : Int) : Except Fault String :=
  if (Nat.toDigits 10 n.natAbs).length > limit then .error .tooLongToWrite else .ok (text n)

end Numeral

end PackedSchema
