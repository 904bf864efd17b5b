import PackedSchema.Decimal.Numeral
import Mathlib.Data.List.TakeWhile

/-!
# Numerals of plain digits

A run of the ten common digits is read as the number it stands for, unless it is too long. Numbers are
written with these digits.
-/

namespace PackedSchema.Numeral

variable {c : Char} {digits : List Char}

theorem toNat_of_isDigit (h : c.isDigit = true) : 48 ≤ c.toNat ∧ c.toNat ≤ 57 := by
  simpa [Char.isDigit, UInt32.le_iff_toNat_le, ← Char.toNat_val] using h

theorem digitValue?_of_isDigit (h : c.isDigit = true) : digitValue? c = some (c.toNat - '0'.toNat) := by
  obtain ⟨hlow, hhigh⟩ := toNat_of_isDigit h
  have hzero : c.toNat < 58 := by omega
  simp [digitValue?, zeros, hlow, hzero]

theorem ne_of_isDigit {d : Char} (h : c.isDigit = true) (hd : d.isDigit = false) : c ≠ d := by
  rintro rfl
  rw [h] at hd
  cases hd

theorem not_isBlank_of_isDigit (h : c.isDigit = true) : isBlank c = false := by
  obtain ⟨hlow, hhigh⟩ := toNat_of_isDigit h
  simp [isBlank]
  omega

theorem digits?_of_isDigit (hne : digits ≠ []) (h : ∀ c ∈ digits, c.isDigit = true) :
    digits? digits = some (digits.map fun c => c.toNat - '0'.toNat) := by
  induction digits with
  | nil => exact absurd rfl hne
  | cons c digits ih =>
    rw [List.forall_mem_cons] at h
    obtain ⟨hc, hdigits⟩ := h
    cases digits with
    | nil => simp [digits?, digitValue?_of_isDigit hc]
    | cons d digits =>
      have hd : d ≠ '_' := ne_of_isDigit (hdigits d List.mem_cons_self) rfl
      rw [digits?.eq_4 _ _ (by simp) (by simp [hd])]
      simp [digitValue?_of_isDigit hc, ih (by simp) hdigits]

theorem ofDigits_map (digits : List Char) :
    ofDigits (digits.map fun c => c.toNat - '0'.toNat) = Nat.ofDigitChars 10 digits 0 := by
  rw [ofDigits, List.foldl_map, Nat.ofDigitChars_eq_foldl]

theorem read_digits (hne : digits ≠ []) (h : ∀ c ∈ digits, c.isDigit = true) :
    read (String.ofList digits) = if digits.length ≤ limit then .ok (Nat.ofDigitChars 10 digits 0)
      else .error (.tooLongToRead digits.length) := by
  have hblank : digits.dropWhile isBlank = digits := by
    cases digits with
    | nil => rfl
    | cons c digits => simp [not_isBlank_of_isDigit (h c List.mem_cons_self)]
  have hsign : splitSign digits = (false, digits) := by
    cases digits with
    | nil => rfl
    | cons c digits =>
      have hc := h c List.mem_cons_self
      rw [splitSign]
      · simp [ne_of_isDigit hc (d := '-') rfl]
      · simp [ne_of_isDigit hc (d := '+') rfl]
  have hrun : ∀ c ∈ digits, inRun c = true := by
    intro c hc
    simp [inRun, digitValue?_of_isDigit (h c hc)]
  simp only [read, String.toList_ofList, hblank, hsign, List.takeWhile_eq_self_iff.mpr hrun,
    List.dropWhile_eq_nil_iff.mpr hrun, digits?_of_isDigit hne h, List.length_map, ofDigits_map]
  by_cases hlength : digits.length ≤ limit
  · simp [hlength, Nat.not_lt.mpr hlength]
  · simp [hlength, Nat.lt_of_not_le hlength]

/-! ## Numbers that are written -/

theorem toList_repr_ne_nil (n : Nat) : (Nat.repr n).toList ≠ [] := by
  rw [Nat.toList_repr]
  exact Nat.toDigits_ne_nil

theorem isDigit_of_mem_repr {n : Nat} (h : c ∈ (Nat.repr n).toList) : c.isDigit = true := by
  rw [Nat.toList_repr] at h
  exact Nat.isDigit_of_mem_toDigits (by decide) (by decide) h

/-- The text of a number has digits only, but for a sign. -/
theorem isDigit_of_mem_text {n : Int} (h : c ∈ (text n).toList) : c.isDigit = true ∨ c = '-' := by
  cases n with
  | ofNat k => exact .inl (isDigit_of_mem_repr h)
  | negSucc k =>
    simp only [text, String.toList_append, List.mem_append] at h
    rcases h with h | h
    · exact .inr (by simpa using h)
    · exact .inl (isDigit_of_mem_repr h)

theorem ofDigitChars_lt (h : ∀ c ∈ digits, c.isDigit = true) (n : Nat) :
    Nat.ofDigitChars 10 digits n < (n + 1) * Nat.pow 10 digits.length := by
  induction digits generalizing n with
  | nil => simp
  | cons c digits ih =>
    rw [List.forall_mem_cons] at h
    obtain ⟨hc, hdigits⟩ := h
    have hdigit : c.toNat - '0'.toNat ≤ 9 := Nat.sub_le_sub_right (toNat_of_isDigit hc).2 _
    have hnext : 10 * n + 10 = (n + 1) * 10 := by omega
    rw [Nat.ofDigitChars_cons]
    calc Nat.ofDigitChars 10 digits (10 * n + (c.toNat - '0'.toNat))
        < (10 * n + (c.toNat - '0'.toNat) + 1) * Nat.pow 10 digits.length := ih hdigits _
      _ ≤ (10 * n + 10) * Nat.pow 10 digits.length := Nat.mul_le_mul_right _ (by omega)
      _ = (n + 1) * (Nat.pow 10 digits.length * 10) := by rw [hnext, Nat.mul_assoc, Nat.mul_comm 10]

/-- No digits of a number are fewer than those it is written with. -/
theorem length_repr_ofDigitChars_le (hne : digits ≠ []) (h : ∀ c ∈ digits, c.isDigit = true) :
    (Nat.repr (Nat.ofDigitChars 10 digits 0)).toList.length ≤ digits.length := by
  rw [Nat.toList_repr, Nat.length_toDigits_le_iff (by decide) (List.length_pos_iff.mpr hne)]
  simpa using ofDigitChars_lt h 0

theorem write_eq_ok {n : Int} {s : String} (h : write n = .ok s) : s = text n := by
  unfold write at h
  split at h
  · cases h
  · cases h
    rfl

end PackedSchema.Numeral
