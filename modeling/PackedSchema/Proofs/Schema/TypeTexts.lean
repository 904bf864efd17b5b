import PackedSchema.Proofs.Kernel.Emission
import PackedSchema.Proofs.Schema.Wording

/-!
# Texts of types

The text of a type that was read can be written, and is one of the ways to write the type: where a field has
that text for its type, the type is read again. So types that were read have the same text only if they are the
same.
-/

namespace PackedSchema

open Source

variable {ty other : FieldType} {ws : List Word}

/-! ## Spelling with texts -/

/-- Some valid words mean the type. -/
def FieldType.Readable (ty : FieldType) : Prop := ∃ ws, ty.Worded ws ∧ ∀ w ∈ ws, w.Valid

/-- The words that the text of a type spells, whatever follows it. -/
theorem FieldType.Worded.exists_text (h : ty.Worded ws) (hws : ∀ w ∈ ws, w.Valid) :
    ∃ words, ty.Worded words ∧
      ∀ later rest, Spells later rest → Spells (words ++ later) (ty.text.toList ++ rest) := by
  induction h with
  | scalar k =>
    have hvalid : (nameWord k.keyword).Valid := by cases k <;> decide
    exact ⟨_, .scalar k, fun later rest hlater => .word .nil hvalid hlater⟩
  | @vector k count digits hlimit hvalue hcount =>
    have hkeyword : (nameWord k.keyword).Valid := by cases k <;> decide
    have hdigits : Word.Valid ⟨.int, digits⟩ := hws _ (by simp)
    have hrepr : Word.Valid ⟨.int, (Nat.repr count).toList⟩ :=
      ⟨Numeral.toList_repr_ne_nil count, fun c hc => Numeral.isDigit_of_mem_repr hc⟩
    -- The decimal text of the count has no zeros in front, so it is not longer than the digits.
    have hshort : (Nat.repr count).toList.length ≤ digits.length := by
      rw [← hvalue]
      exact Numeral.length_repr_ofDigitChars_le hdigits.1 hdigits.2
    have hcanonical : Nat.ofDigitChars 10 (Nat.repr count).toList 0 = count := by
      rw [Nat.toList_repr, Nat.ofDigitChars_ten_toDigits]
    refine ⟨_, .vector (hshort.trans hlimit) hcanonical hcount, fun later rest hlater => ?_⟩
    have hclosing : Spells (⟨.int, (Nat.repr count).toList⟩ :: Terminal.rsqb.word :: later)
        ((Nat.repr count).toList ++ (']' :: rest)) := .word .nil hrepr (.word .nil rfl hlater)
    have hspells : Spells (Terminal.lsqb.word :: nameWord k.keyword :: Terminal.semicolon.word ::
        ⟨.int, (Nat.repr count).toList⟩ :: Terminal.rsqb.word :: later)
        ('[' :: (k.keyword.toList ++ (';' :: ' ' :: ((Nat.repr count).toList ++ (']' :: rest))))) :=
      .word .nil rfl (.word .nil hkeyword (.word .nil rfl (hclosing.blank rfl)))
    simpa [FieldType.text, Numeral.text] using hspells
  | named hname => exact ⟨_, .named hname, fun later rest hlater => .word .nil (hws _ (by simp)) hlater⟩
  | @ref inner ws hinner ih =>
    obtain ⟨words, hwords, hspells⟩ := ih fun w hw => hws w (by simp [hw])
    refine ⟨_, .ref hwords, fun later rest hlater => ?_⟩
    have hinside := hspells (Terminal.more.word :: later) ('>' :: rest) (.word .nil rfl hlater)
    have hspells : Spells (nameWord "Ref" :: Terminal.less.word :: (words ++ Terminal.more.word :: later))
        ("Ref".toList ++ ('<' :: (inner.text.toList ++ ('>' :: rest)))) :=
      .word .nil (by decide) (.word .nil rfl hinside)
    simpa [FieldType.text] using hspells

/-! ## Writing texts of types -/

/-- The number in the text of a type. -/
def FieldType.textNumbers : FieldType → List Int
  | vector _ n => [n]
  | ref inner => inner.textNumbers
  | _ => []

theorem FieldType.succeeds_write_iff (ty : FieldType) :
    Succeeds ty.write ↔ ∀ n ∈ ty.textNumbers, ¬ Overlong n := by
  induction ty with
  | vector k n =>
    rw [textNumbers, List.forall_mem_singleton]
    exact succeeds_bind_pure_iff.trans (PackedSchema.succeeds_write_iff n)
  | ref inner ih => exact succeeds_bind_pure_iff.trans ih
  | _ => exact iff_of_true (succeeds_ok _) (List.forall_mem_nil _)

theorem FieldType.write_failsWith (ty : FieldType) : FailsWith (· = .tooLongToWrite) ty.write := by
  induction ty with
  | vector k n => exact (PackedSchema.write_failsWith n).bind fun _ _ => .ok _
  | ref inner ih => exact ih.bind fun _ _ => .ok _
  | _ => exact .ok _

/-- The count of a type that was read has no more digits than were read for it. -/
theorem FieldType.Readable.not_overlong (h : ty.Readable) : ∀ n ∈ ty.textNumbers, ¬ Overlong n := by
  obtain ⟨ws, hworded, hws⟩ := h
  induction hworded with
  | @vector k count digits hlimit hvalue hcount =>
    have hdigits : Word.Valid ⟨.int, digits⟩ := hws _ (by simp)
    have hshort : (Nat.toDigits 10 count).length ≤ digits.length := by
      rw [← Nat.toList_repr, ← hvalue]
      exact Numeral.length_repr_ofDigitChars_le hdigits.1 hdigits.2
    rw [textNumbers, List.forall_mem_singleton]
    exact Nat.not_lt.mpr (hshort.trans hlimit)
  | ref _ ih => exact ih fun w hw => hws w (by simp [hw])
  | _ => exact List.forall_mem_nil _

/-! ## Reading texts of types -/

/-- A schema text with one struct, which has one field. -/
def loneField (name field type : String) : String :=
  "struct " ++ name ++ " \x7b " ++ field ++ ": " ++ type ++ " \x7d"

/-- The text of a type is read as the type. -/
theorem FieldType.Readable.ofText (h : ty.Readable) {name field : String} (hname : (nameWord name).Valid)
    (hfield : (nameWord field).Valid) :
    ∃ s, Schema.ofText (loneField name field ty.text) = .ok s ∧
      s.plain = { decls := [.struct { name, fields := [{ name := field, ty }] }] } := by
  obtain ⟨_, hworded, hvalid⟩ := h
  obtain ⟨words, hwords, hspells⟩ := hworded.exists_text hvalid
  have hclosing : Spells [Terminal.rbrace.word] [' ', '\x7d'] :=
    Spells.blank (.word .nil rfl (.done (.gap .nil))) rfl
  have hafter := hspells _ _ hclosing
  have hinside : Spells (Terminal.lbrace.word :: nameWord field :: Terminal.colon.word ::
      (words ++ [Terminal.rbrace.word]))
      ('\x7b' :: ' ' :: (field.toList ++ (':' :: ' ' :: (ty.text.toList ++ [' ', '\x7d'])))) :=
    .word .nil rfl (Spells.blank (.word .nil hfield (.word .nil rfl (hafter.blank rfl))) rfl)
  have hall : Spells (Terminal.struct.word :: nameWord name :: Terminal.lbrace.word :: nameWord field ::
      Terminal.colon.word :: (words ++ [Terminal.rbrace.word])) (loneField name field ty.text).toList := by
    have hstruct := Spells.word .nil (w := Terminal.struct.word) rfl
      (Spells.blank (.word .nil hname (hinside.blank (c := ' ') rfl)) (c := ' ') rfl)
    simpa [loneField, nameWord, Terminal.word, Terminal.spelling] using hstruct
  have hspelled : Schema.Spelled { decls := [.struct { name, fields := [{ name := field, ty }] }] }
      (loneField name field ty.text) :=
    ⟨_, .bare rfl (.cons (.struct (.last (.intro hwords))) .nil), by simpa using hall⟩
  exact exists_ofText_iff.mpr hspelled

/-- Different types that were read have different texts. -/
theorem FieldType.Readable.eq_of_text (h : ty.Readable) (hother : other.Readable)
    (htext : ty.text = other.text) : ty = other := by
  have hname : (nameWord "A").Valid := by decide
  obtain ⟨s, hs, hplain⟩ := h.ofText hname hname
  obtain ⟨s', hs', hplain'⟩ := hother.ofText hname hname
  rw [htext, hs'] at hs
  cases hs
  simpa [hplain] using hplain'

/-! ## Types that are read -/

theorem Decl.Worded.readable {d : Decl} (h : d.Worded ws) (hws : ∀ w ∈ ws, w.Valid) (hty : ty ∈ d.contents) :
    ty.Readable := by
  cases h with
  | struct hfields =>
    obtain ⟨f, hf, rfl⟩ := List.mem_map.mp hty
    obtain ⟨part, hpart, hmem⟩ := hfields.exists_part hf
    cases hpart with
    | intro hworded => exact ⟨_, hworded, fun w hw => hws w (by simp [hmem w (by simp [hw])])⟩
  | enum hvariants =>
    obtain ⟨v, hv, hty⟩ := List.mem_flatMap.mp hty
    obtain ⟨part, hpart, hmem⟩ := hvariants.exists_part hv
    cases hpart with
    | bare hpayload => simp [hpayload] at hty
    | payload hpayload =>
      obtain ⟨inside, hworded, hinside⟩ := hpayload.exists_part hty
      exact ⟨_, hworded, fun w hw => hws w (by simp [hmem w (by simp [hinside w hw])])⟩

/-- Every type in a schema that is read can be read from its own text. -/
theorem readable_of_ofText {source : String} {s : Schema} (h : Schema.ofText source = .ok s) {d : Decl}
    (hd : d ∈ s.decls) (hty : ty ∈ d.contents) : ty.Readable := by
  obtain ⟨ws, hworded, hvalid⟩ := exists_worded_of_ofText h hd
  exact hworded.readable hvalid hty

end PackedSchema
