import PackedSchema.Text.Quoted

/-!
# UTF-8

Text as bytes. Decoding refuses overlong forms, surrogates and code points beyond the last one, and
says which bytes are at fault.
-/

namespace PackedSchema.Text.Utf8

/-! ## Encoding -/

/-- A continuation byte with six bits of a code point. -/
def tail (n : Nat) : UInt8 := UInt8.ofNat (0x80 + n % 0x40)

def encodeChar (c : Char) : List UInt8 :=
  let n := c.toNat
  if n < 0x80 then [UInt8.ofNat n]
  else if n < 0x800 then [UInt8.ofNat (0xc0 + n / 0x40), tail n]
  else if n < 0x10000 then [UInt8.ofNat (0xe0 + n / 0x1000), tail (n / 0x40), tail n]
  else [UInt8.ofNat (0xf0 + n / 0x40000), tail (n / 0x1000), tail (n / 0x40), tail n]

def encode (s : String) : List UInt8 := s.toList.flatMap encodeChar

/-! ## Faults -/

inductive FaultKind
  | invalidStart | invalidContinuation | unexpectedEnd
  deriving Repr, DecidableEq

def FaultKind.text : FaultKind → String
  | invalidStart => "invalid start byte"
  | invalidContinuation => "invalid continuation byte"
  | unexpectedEnd => "unexpected end of data"

/-- The bytes that are no text: their first position, the byte there, and how many they are. -/
structure Fault where
  kind : FaultKind
  position : Nat
  byte : UInt8
  count : Nat
  deriving Repr, DecidableEq

def Fault.message (f : Fault) : String :=
  let place :=
    if f.count = 1 then
      "byte 0x" ++ String.ofList (hex 2 f.byte.toNat) ++ " in position " ++ Nat.repr f.position
    else "bytes in position " ++ Nat.repr f.position ++ "-" ++ Nat.repr (f.position + f.count - 1)
  "'utf-8' codec can't decode " ++ place ++ ": " ++ f.kind.text

/-! ## Decoding -/

def isTail (b : UInt8) : Bool := 0x80 ≤ b.toNat && b.toNat < 0xc0

/-- Whether a byte may follow a leading byte: some leading bytes take a part of the continuation
bytes only, as the rest would give overlong forms, surrogates or too large code points. -/
def follows (lead b : UInt8) : Bool :=
  isTail b &&
    (if lead = 0xe0 then 0xa0 ≤ b.toNat
     else if lead = 0xed then b.toNat < 0xa0
     else if lead = 0xf0 then 0x90 ≤ b.toNat
     else if lead = 0xf4 then b.toNat < 0x90
     else true)

/-- The six bits of a continuation byte. -/
def bits (b : UInt8) : Nat := b.toNat % 0x40

/-- Decodes bytes that start at a position. -/
def decodeFrom (position : Nat) : List UInt8 → Except Fault (List Char)
  | [] => .ok []
  | a :: rest =>
    if a.toNat < 0x80 then
      return Char.ofNat a.toNat :: (← decodeFrom (position + 1) rest)
    else if a.toNat < 0xc2 ∨ 0xf4 < a.toNat then .error ⟨.invalidStart, position, a, 1⟩
    else
      match rest with
      | [] => .error ⟨.unexpectedEnd, position, a, 1⟩
      | b :: rest =>
        if !follows a b then .error ⟨.invalidContinuation, position, a, 1⟩
        else if a.toNat < 0xe0 then
          return Char.ofNat (a.toNat % 0x20 * 0x40 + bits b) :: (← decodeFrom (position + 2) rest)
        else
          match rest with
          | [] => .error ⟨.unexpectedEnd, position, a, 2⟩
          | c :: rest =>
            if !isTail c then .error ⟨.invalidContinuation, position, a, 2⟩
            else if a.toNat < 0xf0 then
              return Char.ofNat (a.toNat % 0x10 * 0x1000 + bits b * 0x40 + bits c)
                :: (← decodeFrom (position + 3) rest)
            else
              match rest with
              | [] => .error ⟨.unexpectedEnd, position, a, 3⟩
              | d :: rest =>
                if !isTail d then .error ⟨.invalidContinuation, position, a, 3⟩
                else
                  return Char.ofNat
                      (a.toNat % 0x08 * 0x40000 + bits b * 0x1000 + bits c * 0x40 + bits d)
                    :: (← decodeFrom (position + 4) rest)

def decode (bytes : List UInt8) : Except Fault String :=
  return String.ofList (← decodeFrom 0 bytes)

end PackedSchema.Text.Utf8
