import PackedSchema.Text.Utf8
import Mathlib.Data.UInt

/-!
# UTF-8 reads back

A character takes one to four bytes, and the decoder finds it again in front of whatever follows. So
decoding gives back every text that was encoded. It accepts nothing else: the bytes that it reads as a
character are the ones that the character is encoded as.
-/

namespace PackedSchema.Text.Utf8

theorem toNat_valid (c : Char) :
    c.toNat < 0xd800 ∨ (0xdfff < c.toNat ∧ c.toNat < 0x110000) := c.valid

theorem toNat_ofNat_of_lt {n : Nat} (h : n < 256) : (UInt8.ofNat n).toNat = n := by
  simp [Nat.mod_eq_of_lt h]

/-! ## Continuation bytes -/

@[simp] theorem toNat_tail (n : Nat) : (tail n).toNat = 0x80 + n % 0x40 :=
  toNat_ofNat_of_lt (by omega)

@[simp] theorem isTail_tail (n : Nat) : isTail (tail n) = true := by
  simp [isTail]
  omega

@[simp] theorem bits_tail (n : Nat) : bits (tail n) = n % 0x40 := by
  simp [bits]
  omega

/-- A continuation byte may follow a leading byte if it is in the part that the leading byte takes. -/
theorem follows_tail {lead n : Nat} (hlead : lead < 256) (he0 : lead = 0xe0 → 0x20 ≤ n % 0x40)
    (hed : lead = 0xed → n % 0x40 < 0x20) (hf0 : lead = 0xf0 → 0x10 ≤ n % 0x40)
    (hf4 : lead = 0xf4 → n % 0x40 < 0x10) : follows (UInt8.ofNat lead) (tail n) = true := by
  have hbyte (k : UInt8) : UInt8.ofNat lead = k ↔ lead = k.toNat := by
    rw [← UInt8.toNat_inj, toNat_ofNat_of_lt hlead]
  simp only [follows, hbyte, isTail_tail, toNat_tail, Bool.true_and]
  split
  case isTrue h =>
    have := he0 h
    simp
    omega
  split
  case isTrue h =>
    have := hed h
    simp
    omega
  split
  case isTrue h =>
    have := hf0 h
    simp
    omega
  split
  case isTrue h =>
    have := hf4 h
    simp
    omega
  rfl

/-! ## Characters -/

section Steps

variable {position n lead : Nat} {rest : List UInt8}

theorem decodeFrom_one (hlead : lead < 0x80) :
    decodeFrom position (UInt8.ofNat lead :: rest) =
      List.cons (Char.ofNat lead) <$> decodeFrom (position + 1) rest := by
  rw [decodeFrom.eq_def]
  simp [toNat_ofNat_of_lt (show lead < 256 by omega), hlead]

theorem decodeFrom_two (hlead : 0xc2 ≤ lead ∧ lead < 0xe0) :
    decodeFrom position (UInt8.ofNat lead :: tail n :: rest) =
      List.cons (Char.ofNat (lead % 0x20 * 0x40 + n % 0x40)) <$> decodeFrom (position + 2) rest := by
  have hfollows : follows (UInt8.ofNat lead) (tail n) = true := by
    apply follows_tail <;> omega
  have hascii : ¬ lead < 0x80 := by omega
  have hstart : ¬ (lead < 0xc2 ∨ 0xf4 < lead) := by omega
  rw [decodeFrom.eq_def]
  simp [toNat_ofNat_of_lt (show lead < 256 by omega), hascii, hstart, hfollows, hlead.2]

theorem decodeFrom_three {m : Nat} (hlead : 0xe0 ≤ lead ∧ lead < 0xf0)
    (hfollows : follows (UInt8.ofNat lead) (tail m) = true) :
    decodeFrom position (UInt8.ofNat lead :: tail m :: tail n :: rest) =
      List.cons (Char.ofNat (lead % 0x10 * 0x1000 + m % 0x40 * 0x40 + n % 0x40)) <$>
        decodeFrom (position + 3) rest := by
  have hascii : ¬ lead < 0x80 := by omega
  have hstart : ¬ (lead < 0xc2 ∨ 0xf4 < lead) := by omega
  have htwo : ¬ lead < 0xe0 := by omega
  rw [decodeFrom.eq_def]
  simp [toNat_ofNat_of_lt (show lead < 256 by omega), hascii, hstart, htwo, hfollows, hlead.2]

theorem decodeFrom_four {l m : Nat} (hlead : 0xf0 ≤ lead ∧ lead ≤ 0xf4)
    (hfollows : follows (UInt8.ofNat lead) (tail l) = true) :
    decodeFrom position (UInt8.ofNat lead :: tail l :: tail m :: tail n :: rest) =
      List.cons
          (Char.ofNat (lead % 0x08 * 0x40000 + l % 0x40 * 0x1000 + m % 0x40 * 0x40 + n % 0x40)) <$>
        decodeFrom (position + 4) rest := by
  have hascii : ¬ lead < 0x80 := by omega
  have hstart : ¬ (lead < 0xc2 ∨ 0xf4 < lead) := by omega
  have htwo : ¬ lead < 0xe0 := by omega
  have hthree : ¬ lead < 0xf0 := by omega
  rw [decodeFrom.eq_def]
  simp [toNat_ofNat_of_lt (show lead < 256 by omega), hascii, hstart, htwo, hthree, hfollows]

end Steps

/-- The decoder reads an encoded character and goes on behind it. -/
theorem decodeFrom_encodeChar (position : Nat) (c : Char) (rest : List UInt8) :
    decodeFrom position (encodeChar c ++ rest) =
      List.cons c <$> decodeFrom (position + (encodeChar c).length) rest := by
  have hvalid := toNat_valid c
  unfold encodeChar
  simp only
  -- The number of bytes follows from the range that the code point lies in.
  split
  case isTrue h =>
    simp only [List.cons_append, List.nil_append, decodeFrom_one h, Char.ofNat_toNat,
      List.length_singleton]
  split
  case isTrue h =>
    simp only [List.cons_append, List.nil_append, List.length_cons, List.length_nil]
    rw [decodeFrom_two (by omega),
      show (0xc0 + c.toNat / 0x40) % 0x20 * 0x40 + c.toNat % 0x40 = c.toNat by omega,
      Char.ofNat_toNat]
  split
  case isTrue h =>
    simp only [List.cons_append, List.nil_append, List.length_cons, List.length_nil]
    rw [decodeFrom_three (by omega) (by apply follows_tail <;> omega),
      show (0xe0 + c.toNat / 0x1000) % 0x10 * 0x1000 + c.toNat / 0x40 % 0x40 * 0x40 + c.toNat % 0x40 =
        c.toNat by omega, Char.ofNat_toNat]
  case isFalse h =>
    simp only [List.cons_append, List.nil_append, List.length_cons, List.length_nil]
    rw [decodeFrom_four (by omega) (by apply follows_tail <;> omega),
      show (0xf0 + c.toNat / 0x40000) % 0x08 * 0x40000 + c.toNat / 0x1000 % 0x40 * 0x1000 +
        c.toNat / 0x40 % 0x40 * 0x40 + c.toNat % 0x40 = c.toNat by omega, Char.ofNat_toNat]

theorem decodeFrom_encode (position : Nat) (cs : List Char) :
    decodeFrom position (cs.flatMap encodeChar) = .ok cs := by
  induction cs generalizing position with
  | nil => rfl
  | cons c cs ih =>
    rw [List.flatMap_cons, decodeFrom_encodeChar, ih]
    rfl

/-- Decoding gives back what was encoded. -/
theorem decode_encode (s : String) : decode (encode s) = .ok s := by
  unfold decode encode
  rw [decodeFrom_encode]
  exact congrArg Except.ok (String.ofList_toList)

/-! ## Bytes that are texts -/

theorem toNat_ofNat_of_valid {n : Nat} (h : n < 0xd800 ∨ (0xdfff < n ∧ n < 0x110000)) :
    (Char.ofNat n).toNat = n := by
  have hvalid : n.isValidChar := h
  rw [Char.ofNat, dif_pos hvalid]
  rfl

theorem tail_eq {n : Nat} {b : UInt8} (hb : isTail b = true) (h : n % 0x40 = bits b) : tail n = b := by
  simp only [isTail, bits, Bool.and_eq_true, decide_eq_true_eq] at hb h
  rw [← UInt8.toNat_inj, toNat_tail, h]
  omega

theorem ofNat_eq {n : Nat} {a : UInt8} (h : n = a.toNat) : UInt8.ofNat n = a := by
  rw [h, UInt8.ofNat_toNat]

theorem bits_lt (b : UInt8) : bits b < 0x40 := Nat.mod_lt _ (by decide)

section Read

variable {a b c d : UInt8}

/-- What a leading byte takes from the continuation bytes. -/
theorem bits_of_follows (h : follows a b = true) :
    isTail b = true ∧ (a.toNat = 0xe0 → 0x20 ≤ bits b) ∧ (a.toNat = 0xed → bits b < 0x20) ∧
      (a.toNat = 0xf0 → 0x10 ≤ bits b) ∧ (a.toNat = 0xf4 → bits b < 0x10) := by
  have hbyte (k : UInt8) : a = k ↔ a.toNat = k.toNat := UInt8.toNat_inj.symm
  simp only [follows, hbyte, Bool.and_eq_true] at h
  obtain ⟨htail, h⟩ := h
  refine ⟨htail, ?_⟩
  simp only [isTail, Bool.and_eq_true, decide_eq_true_eq] at htail
  simp only [bits]
  refine ⟨fun ha => ?_, fun ha => ?_, fun ha => ?_, fun ha => ?_⟩ <;>
  · simp [ha] at h
    omega

theorem encodeChar_one (ha : a.toNat < 0x80) : encodeChar (Char.ofNat a.toNat) = [a] := by
  have hn := toNat_ofNat_of_valid (n := a.toNat) (by omega)
  unfold encodeChar
  simp only [hn, if_pos ha, UInt8.ofNat_toNat]

theorem encodeChar_two (ha : 0xc2 ≤ a.toNat ∧ a.toNat < 0xe0) (hb : isTail b = true) :
    encodeChar (Char.ofNat (a.toNat % 0x20 * 0x40 + bits b)) = [a, b] := by
  have hbits := bits_lt b
  generalize hn : a.toNat % 0x20 * 0x40 + bits b = n
  have hchar := toNat_ofNat_of_valid (n := n) (by omega)
  unfold encodeChar
  simp only [hchar]
  rw [if_neg (by omega), if_pos (by omega), ofNat_eq (a := a) (by omega), tail_eq hb (by omega)]

theorem encodeChar_three (ha : 0xe0 ≤ a.toNat ∧ a.toNat < 0xf0) (hb : follows a b = true)
    (hc : isTail c = true) :
    encodeChar (Char.ofNat (a.toNat % 0x10 * 0x1000 + bits b * 0x40 + bits c)) = [a, b, c] := by
  obtain ⟨htail, hlow, hsurrogate, -⟩ := bits_of_follows hb
  have hbits := bits_lt b
  have hbits' := bits_lt c
  generalize hn : a.toNat % 0x10 * 0x1000 + bits b * 0x40 + bits c = n
  have hchar := toNat_ofNat_of_valid (n := n) (by omega)
  unfold encodeChar
  simp only [hchar]
  rw [if_neg (by omega), if_neg (by omega), if_pos (by omega), ofNat_eq (a := a) (by omega),
    tail_eq htail (by omega), tail_eq hc (by omega)]

theorem encodeChar_four (ha : 0xf0 ≤ a.toNat ∧ a.toNat ≤ 0xf4) (hb : follows a b = true)
    (hc : isTail c = true) (hd : isTail d = true) :
    encodeChar (Char.ofNat (a.toNat % 0x08 * 0x40000 + bits b * 0x1000 + bits c * 0x40 + bits d)) =
      [a, b, c, d] := by
  obtain ⟨htail, -, -, hlow, hhigh⟩ := bits_of_follows hb
  have hbits := bits_lt b
  have hbits' := bits_lt c
  have hbits'' := bits_lt d
  generalize hn : a.toNat % 0x08 * 0x40000 + bits b * 0x1000 + bits c * 0x40 + bits d = n
  have hchar := toNat_ofNat_of_valid (n := n) (by omega)
  unfold encodeChar
  simp only [hchar]
  rw [if_neg (by omega), if_neg (by omega), if_neg (by omega), ofNat_eq (a := a) (by omega),
    tail_eq htail (by omega), tail_eq hc (by omega), tail_eq hd (by omega)]

end Read

theorem append_eq_of_step {c : Char} {bytes rest : List UInt8} {x : Except Fault (List Char)} {cs : List Char}
    (hc : encodeChar c = bytes) (ih : ∀ {cs}, x = .ok cs → rest = cs.flatMap encodeChar)
    (h : (x >>= fun cs => pure (c :: cs)) = .ok cs) : bytes ++ rest = cs.flatMap encodeChar := by
  cases x with
  | error f => cases h
  | ok cs =>
    cases h
    rw [List.flatMap_cons, hc, ← ih rfl]

/-- Bytes that are decoded are the encoding of what they are decoded to. -/
theorem eq_of_decodeFrom {position : Nat} {bytes : List UInt8} {cs : List Char}
    (h : decodeFrom position bytes = .ok cs) : bytes = cs.flatMap encodeChar := by
  fun_induction decodeFrom position bytes generalizing cs with
  | case1 =>
    cases h
    rfl
  | case2 position a rest ha ih => exact append_eq_of_step (encodeChar_one ha) ih h
  | case6 position a _ hlead b rest hb ha ih =>
    have hb : follows a b = true := by simpa using hb
    exact append_eq_of_step (encodeChar_two (by omega) (bits_of_follows hb).1) ih h
  | case9 position a _ hlead b hb _ c rest hc ha ih =>
    have hb : follows a b = true := by simpa using hb
    have hc : isTail c = true := by simpa using hc
    exact append_eq_of_step (encodeChar_three (by omega) hb hc) ih h
  | case12 position a _ hlead b hb _ c hc _ d rest hd ih =>
    have hb : follows a b = true := by simpa using hb
    have hc : isTail c = true := by simpa using hc
    have hd : isTail d = true := by simpa using hd
    exact append_eq_of_step (encodeChar_four (by omega) hb hc hd) ih h
  | _ => cases h

/-- A byte string is a text exactly if it is the encoding of it. -/
theorem decode_eq_ok_iff {bytes : List UInt8} {s : String} : decode bytes = .ok s ↔ bytes = encode s := by
  constructor
  · intro h
    unfold decode at h
    cases hcs : decodeFrom 0 bytes with
    | error f =>
      rw [hcs] at h
      cases h
    | ok cs =>
      rw [hcs] at h
      cases h
      rw [encode, String.toList_ofList]
      exact eq_of_decodeFrom hcs
  · rintro rfl
    exact decode_encode s

end PackedSchema.Text.Utf8
