import PackedSchema.Manifest.Unpacking
import PackedSchema.Proofs.Outcome
import PackedSchema.Proofs.Text.Utf8

/-!
# Packed values read back

The reader finds a packed value again in front of whatever follows. The boundaries between the short and
the long forms of integers, texts, lists and maps are the same on both sides.
-/

namespace PackedSchema.Manifest

open Text.Utf8 (toNat_ofNat_of_lt)

variable {width n count : Nat} {rest : List UInt8}

/-! ## Numbers -/

@[simp] theorem length_bigEndian (width n : Nat) : (bigEndian width n).length = width := by
  induction width generalizing n with
  | zero => rfl
  | succ width ih => simp [bigEndian, ih]

theorem ofBigEndian_bigEndian (h : n < 256 ^ width) : ofBigEndian (bigEndian width n) = n := by
  induction width generalizing n with
  | zero =>
    have : n = 0 := by simpa using h
    simp [bigEndian, ofBigEndian, this]
  | succ width ih =>
    have hhigh : n / 256 < 256 ^ width := by
      rw [pow_succ] at h
      exact Nat.div_lt_of_lt_mul (by omega)
    have hlow := ih hhigh
    unfold ofBigEndian at hlow ⊢
    rw [bigEndian, List.foldl_append, hlow]
    simp only [List.foldl_cons, List.foldl_nil, UInt8.toNat_ofNat']
    omega

/-- Taking bytes takes the bytes that stand in front. -/
theorem takeBytes_append {bytes : List UInt8} (h : bytes.length = n) :
    takeBytes n (bytes ++ rest) = .ok (bytes, rest) := by
  subst h
  simp [takeBytes]

theorem takeNat_bigEndian (h : n < 256 ^ width) :
    takeNat width (bigEndian width n ++ rest) = .ok (n, rest) := by
  unfold takeNat
  rw [takeBytes_append (length_bigEndian width n)]
  change Except.ok (ofBigEndian (bigEndian width n), rest) = _
  rw [ofBigEndian_bigEndian h]

theorem counted_bigEndian {f : Nat → Unpacker Head} (h : n < 256 ^ width) :
    counted width f (bigEndian width n ++ rest) = f n rest := by
  unfold counted
  rw [takeNat_bigEndian h]
  rfl

/-! ## Heads -/

theorem takeHead_byte {first : Nat} (hfirst : first < 256) :
    takeHead ([UInt8.ofNat first] ++ rest) = headOf first rest := by
  simp [takeHead, Nat.mod_eq_of_lt hfirst]

/-- A head byte that announces a number of `width` bytes is read with that number. -/
theorem takeHead_headed {head : Nat} {f : Nat → Unpacker Head} (hhead : headOf head = counted width f)
    (hbyte : head < 256) (h : n < 256 ^ width) : takeHead (headed head width n ++ rest) = f n rest := by
  rw [headed, List.cons_append, takeHead, toNat_ofNat_of_lt hbyte, hhead, counted_bigEndian h]

theorem headOf_small (h : n < 0x80) : headOf n = pureHead (.value (.int n)) := by
  rw [headOf.eq_def, if_pos h]

theorem headOf_smallMap (h : n < 0x10) : headOf (0x80 + n) = pureHead (.map n) := by
  rw [headOf.eq_def, if_neg (by omega), if_pos (by omega), Nat.add_sub_cancel_left]

theorem headOf_smallList (h : n < 0x10) : headOf (0x90 + n) = pureHead (.list n) := by
  rw [headOf.eq_def, if_neg (by omega), if_neg (by omega), if_pos (by omega), Nat.add_sub_cancel_left]

theorem headOf_smallText (h : n < 0x20) : headOf (0xa0 + n) = asValue (takeText n) := by
  rw [headOf.eq_def, if_neg (by omega), if_neg (by omega), if_neg (by omega), if_pos (by omega),
    Nat.add_sub_cancel_left]

theorem headOf_negative (h : 0xe0 ≤ n) : headOf n = pureHead (.value (.int (signed 8 n))) := by
  rw [headOf.eq_def, if_neg (by omega), if_neg (by omega), if_neg (by omega), if_neg (by omega), if_pos h]

/-! ## Integers -/

theorem takeHead_packNat {bytes : List UInt8} (h : packNat n = .ok bytes) :
    takeHead (bytes ++ rest) = .ok (.value (.int n), rest) := by
  have hform {head width : Nat} (hhead : headOf head = counted width fun n => pureHead (.value (.int n)))
      (hbyte : head < 256) (hn : n < 256 ^ width) :
      takeHead (headed head width n ++ rest) = .ok (.value (.int n), rest) := by
    rw [takeHead_headed hhead hbyte hn, pureHead]
  simp only [packNat, Nat.pow_eq] at h
  split at h
  case isTrue hsmall =>
    cases h
    rw [takeHead_byte (by omega), headOf_small (by omega), pureHead]
  split at h
  case isTrue =>
    cases h
    exact hform rfl (by decide) (by omega)
  split at h
  case isTrue =>
    cases h
    exact hform rfl (by decide) (by omega)
  split at h
  case isTrue =>
    cases h
    exact hform rfl (by decide) (by omega)
  split at h
  case isTrue =>
    cases h
    exact hform rfl (by decide) (by omega)
  cases h

/-- Two's complement of a negative number that the bits can hold. -/
theorem signed_sub {bits k : Nat} (hle : k ≤ 2 ^ bits) :
    signed (bits + 1) (2 ^ (bits + 1) - k) = -k := by
  have hpow : 2 ^ (bits + 1) = 2 * 2 ^ bits := by rw [pow_succ, Nat.mul_comm]
  simp only [signed, Nat.pow_eq, Nat.add_sub_cancel]
  rw [if_neg (by omega)]
  omega

theorem takeHead_packInt {i : Int} {bytes : List UInt8} (h : packInt i = .ok bytes) :
    takeHead (bytes ++ rest) = .ok (.value (.int i), rest) := by
  cases i with
  | ofNat n => exact takeHead_packNat h
  | negSucc k =>
    have hform (bits : Nat) {head width : Nat}
        (hhead : headOf head =
          counted width fun n => pureHead (.value (.int (signed (bits + 1) n))))
        (hbyte : head < 256) (hwidth : 2 ^ (bits + 1) = 256 ^ width) (hk : k + 1 ≤ 2 ^ bits) :
        takeHead (headed head width (2 ^ (bits + 1) - (k + 1)) ++ rest) =
          .ok (.value (.int (.negSucc k)), rest) := by
      have hlt : 2 ^ (bits + 1) - (k + 1) < 256 ^ width := by
        have : 0 < 2 ^ (bits + 1) := Nat.two_pow_pos _
        omega
      rw [takeHead_headed hhead hbyte hlt, pureHead, signed_sub hk]
      rfl
    simp only [packInt, Nat.pow_eq] at h
    split at h
    case isTrue hsmall =>
      cases h
      rw [takeHead_byte (by omega), headOf_negative (by omega), pureHead,
        signed_sub (show k + 1 ≤ 2 ^ 7 by omega)]
      rfl
    split at h
    case isTrue hk =>
      cases h
      exact hform 7 rfl (by decide) (by decide) hk
    split at h
    case isTrue hk =>
      cases h
      exact hform 15 rfl (by decide) (by decide) hk
    split at h
    case isTrue hk =>
      cases h
      exact hform 31 rfl (by decide) (by decide) hk
    split at h
    case isTrue hk =>
      cases h
      exact hform 63 rfl (by decide) (by decide) hk
    cases h

/-- The integers that the format can hold. -/
theorem succeeds_packInt {i : Int} (hlow : -2 ^ 63 ≤ i) (hhigh : i < 2 ^ 64) : Succeeds (packInt i) := by
  cases i with
  | ofNat n =>
    have hlast : n < Nat.pow 2 64 := Int.ofNat_lt.mp hhigh
    simp only [packInt, packNat, hlast, if_true]
    split_ifs <;> exact succeeds_ok _
  | negSucc k =>
    have hlast : k + 1 ≤ Nat.pow 2 63 := by
      rw [Nat.pow_eq]
      omega
    simp only [packInt, hlast, if_true]
    split_ifs <;> exact succeeds_ok _

/-! ## Texts and counts -/

theorem takeText_encode (s : String) :
    takeText (Text.Utf8.encode s).length (Text.Utf8.encode s ++ rest) = .ok (.text s, rest) := by
  unfold takeText
  rw [takeBytes_append rfl]
  simp only [bind, Except.bind, Text.Utf8.decode_encode]

theorem succeeds_longHead {what : String} {head : Nat} (h : n < 2 ^ 32) : Succeeds (longHead what head n) := by
  rw [longHead, Nat.pow_eq, if_pos h]
  exact succeeds_ok _

/-- A head byte that announces a length of four bytes is read with that length. -/
theorem takeHead_longHead {what : String} {head : Nat} {bytes : List UInt8} {f : Nat → Unpacker Head}
    (h : longHead what head n = .ok bytes) (hhead : headOf head = counted 4 f) (hbyte : head < 256) :
    takeHead (bytes ++ rest) = f n rest := by
  simp only [longHead, Nat.pow_eq] at h
  split at h
  case isTrue hn =>
    cases h
    exact takeHead_headed hhead hbyte (by omega)
  case isFalse => cases h

theorem succeeds_textHead (h : n < 2 ^ 32) : Succeeds (textHead n) := by
  unfold textHead
  split_ifs
  · exact succeeds_ok _
  · exact succeeds_ok _
  · exact succeeds_ok _
  · exact succeeds_longHead h

theorem takeHead_textHead {bytes : List UInt8} (h : textHead n = .ok bytes) :
    takeHead (bytes ++ rest) = asValue (takeText n) rest := by
  simp only [textHead, Nat.pow_eq] at h
  split at h
  case isTrue =>
    cases h
    rw [takeHead_byte (by omega), headOf_smallText (by omega)]
  split at h
  case isTrue =>
    cases h
    exact takeHead_headed (f := fun n => asValue (takeText n)) rfl (by decide) (by omega)
  split at h
  case isTrue =>
    cases h
    exact takeHead_headed (f := fun n => asValue (takeText n)) rfl (by decide) (by omega)
  exact takeHead_longHead (f := fun n => asValue (takeText n)) h rfl (by decide)

theorem takeHead_packText {s : String} {bytes : List UInt8} (h : packText s = .ok bytes) :
    takeHead (bytes ++ rest) = .ok (.value (.text s), rest) := by
  obtain ⟨head, hhead, h⟩ := bind_eq_ok_iff.mp h
  cases h
  rw [List.append_assoc, takeHead_textHead hhead, asValue, takeText_encode]
  rfl

theorem succeeds_listHead (h : n < 2 ^ 32) : Succeeds (listHead n) := by
  unfold listHead
  split_ifs
  · exact succeeds_ok _
  · exact succeeds_ok _
  · exact succeeds_longHead h

theorem takeHead_listHead {bytes : List UInt8} (h : listHead n = .ok bytes) :
    takeHead (bytes ++ rest) = .ok (.list n, rest) := by
  simp only [listHead, Nat.pow_eq] at h
  split at h
  case isTrue =>
    cases h
    rw [takeHead_byte (by omega), headOf_smallList (by omega), pureHead]
  split at h
  case isTrue =>
    cases h
    exact takeHead_headed (f := fun n => pureHead (.list n)) rfl (by decide) (by omega)
  exact takeHead_longHead (f := fun n => pureHead (.list n)) h rfl (by decide)

theorem succeeds_mapHead (h : n < 2 ^ 32) : Succeeds (mapHead n) := by
  unfold mapHead
  split_ifs
  · exact succeeds_ok _
  · exact succeeds_ok _
  · exact succeeds_longHead h

theorem takeHead_mapHead {bytes : List UInt8} (h : mapHead n = .ok bytes) :
    takeHead (bytes ++ rest) = .ok (.map n, rest) := by
  simp only [mapHead, Nat.pow_eq] at h
  split at h
  case isTrue =>
    cases h
    rw [takeHead_byte (by omega), headOf_smallMap (by omega), pureHead]
  split at h
  case isTrue =>
    cases h
    exact takeHead_headed (f := fun n => pureHead (.map n)) rfl (by decide) (by omega)
  exact takeHead_longHead (f := fun n => pureHead (.map n)) h rfl (by decide)

/-! ## Values -/

/-- The value has packed bytes, and the reader finds it again in front of whatever follows them. -/
def ReadsBack (depth : Nat) (v : Value) : Prop :=
  ∃ bytes, v.pack = .ok bytes ∧ bytes ≠ [] ∧ ∀ length rest, bytes.length ≤ length →
    takeValue length depth (bytes ++ rest) = .ok (v, rest)

/-- A head byte is at least one byte. -/
theorem ne_nil_of_takeHead {bytes : List UInt8} {head : Head}
    (h : takeHead (bytes ++ []) = .ok (head, [])) : bytes ≠ [] := by
  rintro rfl
  cases h

/-- A value that its head gives as a whole is read back at any depth. -/
theorem readsBack_of_head {depth : Nat} {v : Value} {bytes : List UInt8} (hpack : v.pack = .ok bytes)
    (hhead : ∀ rest, takeHead (bytes ++ rest) = .ok (.value v, rest)) : ReadsBack depth v := by
  refine ⟨bytes, hpack, ne_nil_of_takeHead (hhead []), ?_⟩
  intro length rest _
  cases depth <;> simp only [takeValue, hhead] <;> rfl

theorem takeValue_list {length depth : Nat} {head bytes : List UInt8} {items : List Value}
    (hhead : listHead items.length = .ok head) (hlength : items.length ≤ length)
    (hitems : takeItems (takeValue length depth) items.length bytes = .ok (items, rest)) :
    takeValue length (depth + 1) (head ++ bytes) = .ok (.list items, rest) := by
  simp only [takeValue, takeHead_listHead hhead]
  change (if length < items.length then _ else takeItems _ items.length bytes >>= _) = _
  rw [if_neg (by omega), hitems]
  rfl

theorem takeValue_map {length depth : Nat} {head bytes : List UInt8} {entries : List (Key × Value)}
    (hhead : mapHead entries.length = .ok head) (hlength : entries.length ≤ length / 2)
    (hentries : takeEntries (takeValue length depth) [] entries.length bytes = .ok (entries, rest)) :
    takeValue length (depth + 1) (head ++ bytes) = .ok (.map entries, rest) := by
  simp only [takeValue, takeHead_mapHead hhead]
  change (if length / 2 < entries.length then _ else takeEntries _ _ entries.length bytes >>= _) = _
  rw [if_neg (by omega), hentries]
  rfl

/-- Items that are read back one by one are read back together. -/
theorem readsBack_items {depth : Nat} {items : List Value} (h : ∀ v ∈ items, ReadsBack depth v) :
    ∃ bytes, Value.packItems items = .ok bytes ∧ items.length ≤ bytes.length ∧
      ∀ length rest, bytes.length ≤ length →
        takeItems (takeValue length depth) items.length (bytes ++ rest) = .ok (items, rest) := by
  induction items with
  | nil => exact ⟨[], rfl, by simp, fun _ _ _ => rfl⟩
  | cons v items ih =>
    obtain ⟨⟨first, hfirst, hne, hreads⟩, hlater⟩ := List.forall_mem_cons.mp h
    obtain ⟨later, hpack, hcount, hreads'⟩ := ih hlater
    have hpos : 0 < first.length := List.length_pos_iff.mpr hne
    refine ⟨first ++ later, ?_, by simp; omega, ?_⟩
    · rw [Value.packItems, hfirst, hpack]
      rfl
    · intro length rest hlength
      rw [List.length_append] at hlength
      simp only [List.length_cons, takeItems, List.append_assoc,
        hreads length _ (show first.length ≤ length by omega)]
      change (takeItems _ items.length (later ++ rest) >>= _) = _
      rw [hreads' length rest (by omega)]
      rfl

theorem insert_of_not_mem {k : Key} {v : Value} {entries : List (Key × Value)}
    (h : k ∉ entries.map Prod.fst) : Value.insert k v entries = entries ++ [(k, v)] := by
  induction entries with
  | nil => rfl
  | cons e entries ih =>
    simp only [List.map_cons, List.mem_cons, not_or] at h
    rw [Value.insert, if_neg (Ne.symm h.1), ih h.2, List.cons_append]

/-- Entries with different keys, behind entries that were read before, are read back together. -/
theorem readsBack_entries {depth : Nat} {entries : List (Key × Value)}
    (hkeys : ∀ e ∈ entries, ∃ s, e.1 = .text s ∧ ReadsBack depth (.text s))
    (hvalues : ∀ e ∈ entries, ReadsBack depth e.2) :
    ∃ bytes, Value.packEntries entries = .ok bytes ∧ 2 * entries.length ≤ bytes.length ∧
      ∀ length rest before, bytes.length ≤ length → ((before ++ entries).map Prod.fst).Nodup →
        takeEntries (takeValue length depth) before entries.length (bytes ++ rest) =
          .ok (before ++ entries, rest) := by
  induction entries with
  | nil =>
    refine ⟨[], rfl, by simp, fun _ _ before _ _ => ?_⟩
    rw [List.append_nil]
    rfl
  | cons e entries ih =>
    obtain ⟨k, v⟩ := e
    obtain ⟨⟨s, hk, keyBytes, hkey, hkeyNe, hkeyReads⟩, hkeys'⟩ := List.forall_mem_cons.mp hkeys
    obtain ⟨⟨valueBytes, hvalue, hvalueNe, hvalueReads⟩, hvalues'⟩ := List.forall_mem_cons.mp hvalues
    obtain ⟨later, hpack, hcount, hreads⟩ := ih hkeys' hvalues'
    have hkeyPos : 0 < keyBytes.length := List.length_pos_iff.mpr hkeyNe
    have hvaluePos : 0 < valueBytes.length := List.length_pos_iff.mpr hvalueNe
    simp only at hk hvalue hvalueReads
    subst hk
    have hkeyPack : Key.pack (.text s) = .ok keyBytes := hkey
    refine ⟨keyBytes ++ valueBytes ++ later, ?_, by simp; omega, ?_⟩
    · rw [Value.packEntries, hvalue, hpack, hkeyPack]
      rfl
    · intro length rest before hlength hnodup
      simp only [List.length_append] at hlength
      -- The key is new, so its entry is put behind those that were read before.
      have hnew : Key.text s ∉ before.map Prod.fst := by
        rw [List.map_append, List.nodup_append] at hnodup
        intro hmem
        exact hnodup.2.2 _ hmem _ List.mem_cons_self rfl
      simp only [List.length_cons, takeEntries, List.append_assoc,
        hkeyReads length _ (show keyBytes.length ≤ length by omega)]
      change (takeValue length depth (valueBytes ++ (later ++ rest)) >>= _) = _
      rw [hvalueReads length _ (by omega)]
      change takeEntries _ (Value.insert (.text s) v before) entries.length (later ++ rest) = _
      rw [insert_of_not_mem hnew, hreads length rest _ (by omega) (by simpa using hnodup)]
      simp

/-- A value made of null, booleans, integers, texts, lists and maps with different texts as keys, all
within the bounds of the format, in which containers are nested to a depth. -/
inductive Plain : (depth : Nat) → Value → Prop
  | nil {depth : Nat} : Plain depth .nil
  | bool {depth : Nat} (b : Bool) : Plain depth (.bool b)
  | int {depth : Nat} {i : Int} (hlow : -2 ^ 63 ≤ i) (hhigh : i < 2 ^ 64) : Plain depth (.int i)
  | text {depth : Nat} {s : String} (h : (Text.Utf8.encode s).length < 2 ^ 32) : Plain depth (.text s)
  | list {depth : Nat} {items : List Value} (hcount : items.length < 2 ^ 32)
      (hitems : ∀ v ∈ items, Plain depth v) : Plain (depth + 1) (.list items)
  | map {depth : Nat} {entries : List (Key × Value)} (hcount : entries.length < 2 ^ 32)
      (hnodup : (entries.map Prod.fst).Nodup)
      (hkeys : ∀ e ∈ entries, ∃ s, e.1 = .text s ∧ (Text.Utf8.encode s).length < 2 ^ 32)
      (hvalues : ∀ e ∈ entries, Plain depth e.2) : Plain (depth + 1) (.map entries)

theorem readsBack_text {depth : Nat} {s : String} (h : (Text.Utf8.encode s).length < 2 ^ 32) :
    ReadsBack depth (.text s) := by
  obtain ⟨bytes, hbytes⟩ : Succeeds (packText s) := succeeds_bind_pure_iff.mpr (succeeds_textHead h)
  exact readsBack_of_head hbytes fun _ => takeHead_packText hbytes

theorem Plain.readsBack {depth : Nat} {v : Value} (h : Plain depth v) : ReadsBack depth v := by
  induction h with
  | nil => exact readsBack_of_head rfl fun _ => rfl
  | bool b => cases b <;> exact readsBack_of_head rfl fun _ => rfl
  | int hlow hhigh =>
    obtain ⟨bytes, hbytes⟩ := succeeds_packInt hlow hhigh
    exact readsBack_of_head hbytes fun _ => takeHead_packInt hbytes
  | text h => exact readsBack_text h
  | @list depth items hcount _ ih =>
    obtain ⟨bytes, hpack, hitems, hreads⟩ := readsBack_items ih
    obtain ⟨head, hhead⟩ := succeeds_listHead hcount
    refine ⟨head ++ bytes, ?_, by simp [ne_nil_of_takeHead (takeHead_listHead hhead)], ?_⟩
    · rw [Value.pack, hhead, hpack]
      rfl
    · intro length rest hlength
      rw [List.length_append] at hlength
      rw [List.append_assoc]
      exact takeValue_list hhead (by omega) (hreads length rest (by omega))
  | @map depth entries hcount hnodup hkeys _ ih =>
    have htexts : ∀ e ∈ entries, ∃ s, e.1 = .text s ∧ ReadsBack depth (.text s) := by
      intro e he
      obtain ⟨s, hs, hshort⟩ := hkeys e he
      exact ⟨s, hs, readsBack_text hshort⟩
    obtain ⟨bytes, hpack, hentries, hreads⟩ := readsBack_entries htexts ih
    obtain ⟨head, hhead⟩ := succeeds_mapHead hcount
    refine ⟨head ++ bytes, ?_, by simp [ne_nil_of_takeHead (takeHead_mapHead hhead)], ?_⟩
    · rw [Value.pack, hhead, hpack]
      rfl
    · intro length rest hlength
      rw [List.length_append] at hlength
      rw [List.append_assoc]
      exact takeValue_map hhead (by omega) (hreads length rest [] (by omega) hnodup)

/-- Unpacking gives back what was packed. -/
theorem unpack_pack {v : Value} (h : Plain nestingLimit v) :
    ∃ blob, v.pack = .ok blob ∧ unpack blob = .ok v := by
  obtain ⟨blob, hpack, -, hreads⟩ := h.readsBack
  refine ⟨blob, hpack, ?_⟩
  have hread := hreads blob.length [] (Nat.le_refl _)
  rw [List.append_nil] at hread
  rw [unpack, hread]
  rfl

end PackedSchema.Manifest
