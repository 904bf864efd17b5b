import PackedSchema.Decimal.Numeral

/-!
# Shortest decimals

The decimal text of a binary floating-point number with as few digits as read back to that number, and
among those the nearest to it.

A number is `m * 2 ^ q`. The reals that round to it form an interval, whose ends belong to it if `m` is
even. For a growing number of digits, the two neighbours of the number on the decimal grid are tested;
the first grid with a neighbour in the interval gives the digits.
-/

namespace PackedSchema.Decimal

/-- A floating-point number of 64 bits. -/
inductive Binary
  | nan
  | infinite (negative : Bool)
  /-- The number `m * 2 ^ q`; `boundary` if the number below it is half as far as the one above. -/
  | finite (negative : Bool) (m : Nat) (q : Int) (boundary : Bool)
  deriving Repr, DecidableEq

namespace Binary

/-- The number with a bit pattern. -/
def ofBits (bits : Nat) : Binary :=
  let negative := bits / Nat.pow 2 63 % 2 = 1
  let exponent : Nat := bits / Nat.pow 2 52 % Nat.pow 2 11
  let fraction : Nat := bits % Nat.pow 2 52
  if exponent = Nat.pow 2 11 - 1 then if fraction = 0 then .infinite negative else .nan
  else if exponent = 0 then .finite negative fraction (-1074) false
  else .finite negative (fraction + Nat.pow 2 52) (exponent - 1075) (fraction = 0 && 1 < exponent)

/-- The 64-bit pattern of the number that a 32-bit pattern stands for. -/
def widen (bits : Nat) : Nat :=
  let sign := bits / Nat.pow 2 31 % 2 * Nat.pow 2 63
  let exponent := bits / Nat.pow 2 23 % Nat.pow 2 8
  let fraction := bits % Nat.pow 2 23
  if exponent = Nat.pow 2 8 - 1 then sign + (Nat.pow 2 11 - 1) * Nat.pow 2 52 + fraction * Nat.pow 2 29
  else if exponent = 0 then
    if fraction = 0 then sign
    else
      let top := Nat.log2 fraction
      sign + (top + 874) * Nat.pow 2 52 + (fraction * Nat.pow 2 (52 - top) - Nat.pow 2 52)
  else sign + (exponent + 896) * Nat.pow 2 52 + fraction * Nat.pow 2 29

end Binary

/-! ## Digits -/

/-- A positive decimal `digits * 10 ^ exponent`. -/
structure Scientific where
  digits : Nat
  exponent : Int
  deriving Repr, DecidableEq

/-- The powers that bring a number with exponent difference `e` to whole numbers. -/
def up (base : Nat) (e : Int) : Nat := Nat.pow base e.toNat

def down (base : Nat) (e : Int) : Nat := Nat.pow base (-e).toNat

/-- A ratio of whole numbers with the interval around it, all over one denominator. -/
structure Target where
  value : Nat
  low : Nat
  high : Nat
  den : Nat
  /-- Whether the ends belong to the interval. -/
  closed : Bool

/-- The interval of the reals that round to `m * 2 ^ q`. -/
def Target.ofBinary (m : Nat) (q : Int) (boundary : Bool) : Target :=
  let scale := up 2 (q - 2)
  { value := 4 * m * scale
    low := (4 * m - if boundary then 1 else 2) * scale
    high := (4 * m + 2) * scale
    den := down 2 (q - 2)
    closed := m % 2 = 0 }

namespace Target

/-- More places than the smallest number has zeros behind the point. -/
def places : Nat := 400

/-- The exponent `k` with `10 ^ (k - 1) ≤ value < 10 ^ k`. -/
def magnitude (t : Target) : Int :=
  (Nat.toDigits 10 (t.value * Nat.pow 10 places / t.den)).length - places

/-- Whether the decimal `d * 10 ^ e` lies in the interval. -/
def contains (t : Target) (e : Int) (d : Nat) : Bool :=
  let x := d * up 10 e * t.den
  let low := t.low * down 10 e
  let high := t.high * down 10 e
  if t.closed then low ≤ x && x ≤ high else low < x && x < high

/-- The distance of the decimal `d * 10 ^ e` from the value, in a unit that depends on `e` only. -/
def distance (t : Target) (e : Int) (d : Nat) : Nat :=
  let x := d * up 10 e * t.den
  let v := t.value * down 10 e
  if x ≤ v then v - x else x - v

/-- The digits of the neighbour of the value on the grid `10 ^ e` that lies in the interval; of two,
the nearer, and of two equally near ones the even. -/
def neighbour? (t : Target) (e : Int) : Option Nat :=
  let below := t.value * down 10 e / (t.den * up 10 e)
  match t.contains e below, t.contains e (below + 1) with
  | false, false => none
  | true, false => some below
  | false, true => some (below + 1)
  | true, true =>
    let a := t.distance e below
    let b := t.distance e (below + 1)
    if a < b then some below
    else if b < a then some (below + 1)
    else if below % 2 = 0 then some below
    else some (below + 1)

/-- The first hit on the grids of one digit, two digits and so on to seventeen, which always do. -/
def shortest (t : Target) (magnitude : Int) : Scientific :=
  let onGrid (e : Int) : Option Scientific := (t.neighbour? e).map fun d => ⟨d, e⟩
  ((List.range' 1 17).findSome? fun (count : Nat) => onGrid (magnitude - count)).getD
    ⟨t.value / t.den, 0⟩

end Target

/-! ## Text -/

/-- The decisions of a number format. -/
structure Format where
  /-- Numbers with a decimal exponent from here … -/
  fixedFrom : Int
  /-- … to below this are written without an exponent. -/
  fixedBelow : Int
  /-- The least number of digits of an exponent. -/
  exponentDigits : Nat

/-- Positional from `0.0001` to below `10 ^ 16`, with at least one digit behind the point; other
exponents have a sign and at least two digits. -/
def plain : Format := { fixedFrom := -4, fixedBelow := 16, exponentDigits := 2 }

def zeros (n : Nat) : List Char := List.replicate n '0'

def stripZeros (ds : List Char) : List Char :=
  match (ds.reverse.dropWhile (· = '0')).reverse with
  | [] => ['0']
  | ds => ds

/-- The digits `ds` with the decimal point behind the first `point` of them. -/
def positional (ds : List Char) (point : Int) : List Char :=
  if point ≤ 0 then ['0', '.'] ++ zeros (-point).toNat ++ ds
  else
    let n := point.toNat
    if ds.length ≤ n then ds ++ zeros (n - ds.length) ++ ['.', '0']
    else ds.take n ++ ['.'] ++ ds.drop n

def exponential (f : Format) (ds : List Char) (exponent : Int) : List Char :=
  let fraction := match ds.drop 1 with
    | [] => []
    | rest => '.' :: rest
  let e := Nat.toDigits 10 exponent.natAbs
  ds.take 1 ++ fraction ++ ['e', if exponent < 0 then '-' else '+']
    ++ zeros (f.exponentDigits - e.length) ++ e

def Scientific.text (f : Format) (s : Scientific) : List Char :=
  let all := Nat.toDigits 10 s.digits
  let point : Int := all.length + s.exponent
  let ds := stripZeros all
  if f.fixedFrom ≤ point - 1 ∧ point - 1 < f.fixedBelow then positional ds point
  else exponential f ds (point - 1)

/-- The text of the floating-point number with a bit pattern. -/
def text (f : Format) (bits : Nat) : String :=
  let signed (negative : Bool) (cs : List Char) : String :=
    String.ofList (if negative then '-' :: cs else cs)
  match Binary.ofBits bits with
  | .nan => "nan"
  | .infinite negative => signed negative ['i', 'n', 'f']
  | .finite negative m q boundary =>
    if m = 0 then signed negative ['0', '.', '0']
    else
      let t := Target.ofBinary m q boundary
      signed negative ((t.shortest t.magnitude).text f)

end PackedSchema.Decimal
