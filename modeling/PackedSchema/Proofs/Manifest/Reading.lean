import PackedSchema.Proofs.Manifest.File
import PackedSchema.Proofs.Manifest.Format

/-!
# What is read as a manifest

Every byte string is read as a manifest or refused for the first of its sections that is not right. The
sections are the magic word, the version, the length of the value and the value, which is one complete
value of the format and describes types. Bytes behind these sections do not matter.

A length that memory cannot be had for is not refused like other lengths that the file does not live up to.
How much memory there is differs from machine to machine, so everything here is said of any amount of it.
-/

namespace PackedSchema.Manifest

variable {path : String} {n memory : Nat} {v : Value} {bytes rest blob : List UInt8}

/-! ## Sections -/

theorem littleEndian_ofLittleEndian (bytes : List UInt8) :
    littleEndian bytes.length (ofLittleEndian bytes) = bytes := by
  induction bytes with
  | nil => rfl
  | cons b bytes ih =>
    have hb := b.toNat_lt
    have hlow : UInt8.ofNat (b.toNat + 256 * ofLittleEndian bytes) = b := by
      rw [← UInt8.toNat_inj, UInt8.toNat_ofNat']
      omega
    have hhigh : (b.toNat + 256 * ofLittleEndian bytes) / 256 = ofLittleEndian bytes := by omega
    change UInt8.ofNat (b.toNat + 256 * ofLittleEndian bytes) ::
      littleEndian bytes.length ((b.toNat + 256 * ofLittleEndian bytes) / 256) = _
    rw [hlow, hhigh, ih]

theorem ofLittleEndian_lt (bytes : List UInt8) : ofLittleEndian bytes < 256 ^ bytes.length := by
  induction bytes with
  | nil => simp [ofLittleEndian]
  | cons b bytes ih =>
    have hb := b.toNat_lt
    change b.toNat + 256 * ofLittleEndian bytes < 256 ^ (bytes.length + 1)
    rw [pow_succ]
    omega

theorem exists_append_of_le (h : n ≤ bytes.length) :
    ∃ front back, bytes = front ++ back ∧ front.length = n :=
  ⟨bytes.take n, bytes.drop n, (List.take_append_drop n bytes).symm, List.length_take_of_le h⟩

/-- What stands in front of a value of a length in a file. -/
def header (length : Nat) : List UInt8 := magic ++ (littleEndian 4 version ++ littleEndian 8 length)

theorem length_header (n : Nat) : (header n).length = 20 := by simp [header, magic]

theorem fileOf_eq (blob : List UInt8) : fileOf blob = header blob.length ++ blob := by
  simp [fileOf, header]

/-- How far the sections in front of the value go. -/
inductive Sections : List UInt8 → Prop
  | noMagic {bytes : List UInt8} (h : ¬ magic <+: bytes) : Sections bytes
  | versionCut {rest : List UInt8} (h : rest.length < 4) : Sections (magic ++ rest)
  | otherVersion {number rest : List UInt8} (hnumber : number.length = 4)
      (h : ofLittleEndian number ≠ version) : Sections (magic ++ (number ++ rest))
  | lengthCut {rest : List UInt8} (h : rest.length < 8) :
      Sections (magic ++ (littleEndian 4 version ++ rest))
  | header {n : Nat} {rest : List UInt8} (h : n < 2 ^ 64) : Sections (header n ++ rest)

theorem sections (bytes : List UInt8) : Sections bytes := by
  by_cases hmagic : magic <+: bytes
  case neg => exact .noMagic hmagic
  obtain ⟨rest, rfl⟩ := hmagic
  by_cases hversion : rest.length < 4
  · exact .versionCut hversion
  -- The next four bytes are the version, and the eight behind them the length.
  obtain ⟨number, rest, rfl, hnumber⟩ := exists_append_of_le (Nat.not_lt.mp hversion)
  by_cases hother : ofLittleEndian number = version
  case neg => exact .otherVersion hnumber hother
  have hwritten := littleEndian_ofLittleEndian number
  rw [hnumber, hother] at hwritten
  rw [← hwritten]
  by_cases hlength : rest.length < 8
  · exact .lengthCut hlength
  obtain ⟨number, rest, rfl, hnumber⟩ := exists_append_of_le (Nat.not_lt.mp hlength)
  have hwritten := littleEndian_ofLittleEndian number
  have hlt := ofLittleEndian_lt number
  rw [hnumber] at hwritten hlt
  rw [← hwritten, ← List.append_assoc, ← List.append_assoc, List.append_assoc magic]
  exact .header (by omega)

/-! ## Reading the sections -/

theorem read_no_magic (h : ¬ magic <+: bytes) :
    read path bytes memory = .error (.schema { cause := .notAManifest path }) := by
  have hne : bytes.take magic.length ≠ magic := fun heq => h (List.prefix_iff_eq_take.mpr heq.symm)
  simp only [read, bne_iff_ne, hne, ne_eq, not_false_eq_true, if_true]
  rfl

theorem read_other_version {number : List UInt8} (hnumber : number.length = 4)
    (h : ofLittleEndian number ≠ version) :
    read path (magic ++ (number ++ rest)) memory =
      .error (.schema { cause := .unsupportedVersion path (ofLittleEndian number) version }) := by
  simp only [read, List.take_left, List.drop_left, bne_self_eq_false, Bool.false_eq_true, if_false,
    split_append hnumber, bind, Except.bind, bne_iff_ne, h, ne_eq, not_false_eq_true, if_true]
  rfl

theorem read_header_append (h : n < 2 ^ 64) :
    read path (header n ++ rest) memory = readBlob path memory n rest := by
  rw [header, List.append_assoc, List.append_assoc, read_header (by omega)]

/-! ## Reading the value -/

/-- The value is a map with a list of types, each of them a map that tells its kind. -/
def IsTable (v : Value) : Prop :=
  ∃ types, v.get? "types" = some (.list types) ∧
    ∀ ty ∈ types, ty.get? "kind" = some (.text "struct") ∨ ty.get? "kind" = some (.text "enum")

theorem isLayoutTable_iff : isLayoutTable v = true ↔ IsTable v := by
  unfold isLayoutTable IsTable
  split
  case h_1 types htypes =>
    simp only [htypes, List.all_eq_true, Option.some.injEq, Value.list.injEq, exists_eq_left']
    refine forall₂_congr fun ty _ => ?_
    split
    case h_1 k hk => simp [hk]
    case h_2 hk =>
      simp only [Bool.false_eq_true, false_iff, not_or]
      exact ⟨hk "struct", hk "enum"⟩
  case h_2 hno =>
    simp only [Bool.false_eq_true, false_iff, not_exists, not_and]
    exact fun types htypes => absurd htypes (hno types)

/-! ## Outcomes -/

/-- The file starts with the sections of a manifest, and the value describes types. -/
def Holds (bytes : List UInt8) (v : Value) : Prop :=
  ∃ blob rest, bytes = fileOf blob ++ rest ∧ blob.length < 2 ^ 64 ∧ Encoded nestingLimit v blob ∧ IsTable v

/-- What is said of a file that ends before all of a section. -/
def cutText (path : String) (expected actual : Nat) : String :=
  "CE3003: manifest '" ++ path ++ "' is truncated: expected " ++ Nat.repr expected ++ " bytes, got "
    ++ Nat.repr actual

theorem truncated_text (path : String) (expected actual : Nat) :
    (truncated path expected actual).text = cutText path expected actual := by
  have hcode : (truncated path expected actual).code.id = "CE3003" := rfl
  have hmessage : (truncated path expected actual).message =
      "manifest '" ++ (path ++ ("' is truncated: expected " ++ (Nat.repr expected ++
        (" bytes, got " ++ (Nat.repr actual ++ ""))))) := rfl
  rw [SchemaError.text, hcode, hmessage]
  unfold cutText
  -- The digits of the counts do not matter, and are not to be opened.
  generalize Nat.repr expected = wanted
  generalize Nat.repr actual = had
  simp [← String.append_assoc]

/-- The length of the value that a file declares behind the version. -/
def declaredLength (bytes : List UInt8) : Nat := ofLittleEndian ((bytes.drop 12).take 8)

/-- Memory can be had for the value of the length that the file declares, if it declares one. -/
def Affordable (memory : Nat) (bytes : List UInt8) : Prop :=
  ∀ n rest, n < 2 ^ 64 → bytes = header n ++ rest → Room memory n

/-- Why a file is refused: its first section that is not right, or a length that is too much for memory. -/
inductive Refused (path : String) (memory : Nat) : List UInt8 → ReadFailure → Prop
  | noMagic {bytes : List UInt8} {e : SchemaError} (h : ¬ magic <+: bytes)
      (herror : e = { cause := .notAManifest path }) (hcode : e.code.id = "CE3001") :
      Refused path memory bytes (.schema e)
  | versionCut {rest : List UInt8} {e : SchemaError} (h : rest.length < 4)
      (herror : e = truncated path 4 rest.length) (htext : e.text = cutText path 4 rest.length) :
      Refused path memory (magic ++ rest) (.schema e)
  | otherVersion {number rest : List UInt8} {e : SchemaError} (hnumber : number.length = 4)
      (h : ofLittleEndian number ≠ version)
      (herror : e = { cause := .unsupportedVersion path (ofLittleEndian number) version })
      (hcode : e.code.id = "CE3002") : Refused path memory (magic ++ (number ++ rest)) (.schema e)
  | lengthCut {rest : List UInt8} {e : SchemaError} (h : rest.length < 8)
      (herror : e = truncated path 8 rest.length) (htext : e.text = cutText path 8 rest.length) :
      Refused path memory (magic ++ (littleEndian 4 version ++ rest)) (.schema e)
  | noIndex {n : Nat} {rest : List UInt8} (hn : n < 2 ^ 64) (h : 2 ^ 63 ≤ n) :
      Refused path memory (header n ++ rest) .lengthNoIndex
  | tooLarge {n : Nat} {rest : List UInt8} (hn : n < 2 ^ 63) (h : 2 ^ 63 ≤ n + memoryOverhead) :
      Refused path memory (header n ++ rest) .lengthTooLarge
  | outOfMemory {n : Nat} {rest : List UInt8} (hn : n + memoryOverhead < 2 ^ 63)
      (h : memory < n + memoryOverhead) : Refused path memory (header n ++ rest) .outOfMemory
  | valueCut {n : Nat} {rest : List UInt8} {e : SchemaError} (hroom : Room memory n) (h : rest.length < n)
      (herror : e = truncated path n rest.length) (htext : e.text = cutText path n rest.length) :
      Refused path memory (header n ++ rest) (.schema e)
  | noValue {blob rest : List UInt8} {reason : String} {e : SchemaError} (hroom : Room memory blob.length)
      (h : ∀ v, ¬ Encoded nestingLimit v blob) (herror : e = { cause := .undecodableManifest path reason })
      (hcode : e.code.id = "CE3004") : Refused path memory (fileOf blob ++ rest) (.schema e)
  | noTable {blob rest : List UInt8} {v : Value} {e : SchemaError} (hroom : Room memory blob.length)
      (hv : Encoded nestingLimit v blob) (h : ¬ IsTable v)
      (herror : e = { cause := .undecodableManifest path "metadata is not a layout table" })
      (hcode : e.code.id = "CE3004") : Refused path memory (fileOf blob ++ rest) (.schema e)

theorem declaredLength_header (h : n < 2 ^ 64) (rest : List UInt8) :
    declaredLength (header n ++ rest) = n := by
  have hsections : header n ++ rest = (magic ++ littleEndian 4 version) ++ (littleEndian 8 n ++ rest) := by
    simp [header]
  rw [declaredLength, hsections, List.drop_left' (by simp [magic]),
    List.take_left' (length_littleEndian 8 n), ofLittleEndian_littleEndian (by omega)]

/-- What a file declares is one length. -/
theorem affordable_header (hn : n < 2 ^ 64) : Affordable memory (header n ++ rest) ↔ Room memory n := by
  constructor
  · intro h
    exact h n rest hn rfl
  · intro hroom n' rest' hn' hbytes
    have hsame := congrArg declaredLength hbytes
    rw [declaredLength_header hn, declaredLength_header hn'] at hsame
    exact hsame ▸ hroom

/-- Without memory the file is refused, and not for what is in it. -/
theorem readBlob_of_no_room (hn : n < 2 ^ 64) (hroom : ¬ Room memory n) (path : String) (rest : List UInt8) :
    ∃ f, readBlob path memory n rest = .error f ∧ Refused path memory (header n ++ rest) f ∧
      ∀ e, f ≠ .schema e := by
  rcases checkLength_of_no_room hroom with ⟨hindex, h⟩ | ⟨hindex, hlarge, h⟩ | ⟨hindex, hmemory, h⟩
  · exact ⟨_, readBlob_of_checkLength_error h, .noIndex hn hindex, fun e he => by cases he⟩
  · exact ⟨_, readBlob_of_checkLength_error h, .tooLarge hindex hlarge, fun e he => by cases he⟩
  · exact ⟨_, readBlob_of_checkLength_error h, .outOfMemory hindex hmemory, fun e he => by cases he⟩

theorem read_whole_ends (path : String) (rest : List UInt8) (hroom : Room memory blob.length) :
    Ends (Holds (fileOf blob ++ rest)) (Refused path memory (fileOf blob ++ rest))
      (readBlob path memory blob.length (blob ++ rest)) := by
  cases hunpack : unpack blob with
  | error f =>
    rw [readBlob_undecodable hroom hunpack]
    refine .noValue hroom (fun v hv => ?_) rfl rfl
    rw [unpack_eq_ok_iff.mpr hv] at hunpack
    cases hunpack
  | ok v =>
    have hv := unpack_eq_ok_iff.mp hunpack
    have hindex := hroom.index
    rw [readBlob_decoded hroom hunpack]
    by_cases htable : isLayoutTable v = true
    · rw [if_pos htable]
      exact ⟨blob, rest, rfl, by omega, hv, isLayoutTable_iff.mp htable⟩
    · rw [if_neg htable]
      exact .noTable hroom hv (fun h => htable (isLayoutTable_iff.mpr h)) rfl rfl

/-- The end that reading comes to, section by section. -/
theorem read_ends (path : String) (memory : Nat) (bytes : List UInt8) :
    Ends (Holds bytes) (Refused path memory bytes) (read path bytes memory) := by
  cases sections bytes with
  | noMagic h =>
    rw [read_no_magic h]
    exact .noMagic h rfl rfl
  | versionCut h =>
    rw [read_short_version rfl h]
    exact .versionCut h rfl (truncated_text ..)
  | otherVersion hnumber h =>
    rw [read_other_version hnumber h]
    exact .otherVersion hnumber h rfl rfl
  | lengthCut h =>
    rw [read_short_length rfl h]
    exact .lengthCut h rfl (truncated_text ..)
  | @header n rest hn =>
    rw [read_header_append hn]
    -- From here on the length decides, before any byte of the value is looked at.
    by_cases hroom : Room memory n
    case neg =>
      obtain ⟨f, hread, hrefused, -⟩ := readBlob_of_no_room hn hroom path rest
      rw [hread]
      exact hrefused
    by_cases hcut : rest.length < n
    · rw [readBlob_cut hroom rfl hcut]
      exact .valueCut hroom hcut rfl (truncated_text ..)
    · obtain ⟨blob, rest, rfl, rfl⟩ := exists_append_of_le (Nat.not_lt.mp hcut)
      rw [← List.append_assoc, ← fileOf_eq]
      exact read_whole_ends path rest hroom

theorem readBlob_take (path : String) (memory n : Nat) (rest : List UInt8) :
    readBlob path memory n (rest.take n) = readBlob path memory n rest := by
  by_cases hroom : Room memory n
  case neg =>
    rcases checkLength_of_no_room hroom with ⟨-, h⟩ | ⟨-, -, h⟩ | ⟨-, -, h⟩ <;>
      rw [readBlob_of_checkLength_error h, readBlob_of_checkLength_error h]
  by_cases hcut : rest.length < n
  · rw [List.take_of_length_le (by omega)]
  · obtain ⟨blob, rest, rfl, rfl⟩ := exists_append_of_le (Nat.not_lt.mp hcut)
    have halone : readBlob path memory blob.length blob = readBlob path memory blob.length (blob ++ []) := by
      rw [List.append_nil]
    rw [List.take_left, halone]
    cases hunpack : unpack blob with
    | error f => rw [readBlob_undecodable hroom hunpack, readBlob_undecodable hroom hunpack]
    | ok v => rw [readBlob_decoded hroom hunpack, readBlob_decoded hroom hunpack]

/-- Nothing behind the value matters. -/
theorem read_take (path : String) (memory : Nat) (bytes : List UInt8) :
    read path (bytes.take (20 + declaredLength bytes)) memory = read path bytes memory := by
  cases sections bytes with
  | @noMagic bytes h =>
    have hcut : ¬ magic <+: bytes.take (20 + declaredLength bytes) :=
      fun hstart => h (hstart.trans (List.take_prefix _ _))
    rw [read_no_magic h, read_no_magic hcut]
  | @versionCut rest h => rw [List.take_of_length_le (by simp [magic]; omega)]
  | @otherVersion number rest hnumber h =>
    -- The cut is behind the version, so the same version is found.
    have htake : (magic ++ (number ++ rest)).take (20 + declaredLength (magic ++ (number ++ rest))) =
        magic ++ (number ++ rest.take (8 + declaredLength (magic ++ (number ++ rest)))) := by
      have hmagic : magic.length = 8 := rfl
      rw [List.take_append, List.take_of_length_le (by omega), List.take_append,
        List.take_of_length_le (by omega)]
      congr 3
      omega
    rw [htake, read_other_version hnumber h, read_other_version hnumber h]
  | @lengthCut rest h => rw [List.take_of_length_le (by simp [magic]; omega)]
  | @header n rest hn =>
    rw [declaredLength_header hn, List.take_append, length_header, Nat.add_sub_cancel_left,
      List.take_of_length_le (by rw [length_header]; omega), read_header_append hn, read_header_append hn,
      readBlob_take]

theorem read_of_holds (h : Holds bytes v) (hafford : Affordable memory bytes) : read path bytes memory = .ok v := by
  obtain ⟨blob, rest, rfl, hlength, hv, htable⟩ := h
  rw [fileOf_eq, List.append_assoc] at hafford ⊢
  rw [read_header_append hlength, readBlob_decoded ((affordable_header hlength).mp hafford)
    (unpack_eq_ok_iff.mpr hv)]
  exact if_pos (isLayoutTable_iff.mpr htable)

theorem Refused.category {e : SchemaError} (h : Refused path memory bytes (.schema e)) :
    e.code.category = .manifest := by
  cases h with
  | noMagic _ herror => rw [herror]; rfl
  | versionCut _ herror => rw [herror]; rfl
  | otherVersion _ _ herror => rw [herror]; rfl
  | lengthCut _ herror => rw [herror]; rfl
  | valueCut _ _ herror => rw [herror]; rfl
  | noValue _ _ herror => rw [herror]; rfl
  | noTable _ _ _ herror => rw [herror]; rfl

/-- The refusals that are no errors of the format are those for want of memory. -/
theorem affordable_iff (path : String) (memory : Nat) (bytes : List UInt8) :
    Affordable memory bytes ↔
      ∀ f, read path bytes memory = .error f → ∃ e, f = .schema e ∧ e.code.category = .manifest := by
  constructor
  · intro hafford f hf
    have hends := read_ends path memory bytes
    rw [hf] at hends
    have hrefused : Refused path memory bytes f := hends
    cases f with
    | schema e => exact ⟨e, rfl, hrefused.category⟩
    | lengthNoIndex =>
      cases hrefused with
      | @noIndex n rest hn h => have := (hafford n rest hn rfl).index; omega
    | lengthTooLarge =>
      cases hrefused with
      | @tooLarge n rest hn h => have := (hafford n rest (by omega) rfl).index; omega
    | outOfMemory =>
      cases hrefused with
      | @outOfMemory n rest hn h => have := (hafford n rest (by omega) rfl).memory; omega
  · rintro h n rest hn rfl
    by_contra hroom
    obtain ⟨f, hread, -, hother⟩ := readBlob_of_no_room hn hroom path rest
    obtain ⟨e, he, -⟩ := h f ((read_header_append hn).trans hread)
    exact hother e he

/-- A file that is read has had memory. -/
theorem affordable_of_read (h : read path bytes memory = .ok v) : Affordable memory bytes := by
  rw [affordable_iff path]
  intro f hf
  cases h.symm.trans hf

theorem declaredLength_congr {other : List UInt8}
    (h : other.take (20 + declaredLength bytes) = bytes.take (20 + declaredLength bytes)) :
    declaredLength other = declaredLength bytes := by
  have hfront := congrArg (fun front => (front.drop 12).take 8) h
  simp only [List.drop_take, List.take_take, Nat.min_eq_left (show 8 ≤ 20 + declaredLength bytes - 12 by omega)]
    at hfront
  rw [declaredLength, declaredLength, hfront]

/-- A file is read as the value it holds if memory can be had for the value it declares. A file is refused for
the first of its sections that is not right, and always with an error of the format exactly if memory can be had.
Only the bytes up to the end of the value matter. -/
theorem read_exact (path : String) (memory : Nat) (bytes : List UInt8) :
    (∀ v, read path bytes memory = .ok v ↔ Holds bytes v ∧ Affordable memory bytes) ∧
    (∀ f, read path bytes memory = .error f → Refused path memory bytes f) ∧
    (Affordable memory bytes ↔
      ∀ f, read path bytes memory = .error f → ∃ e, f = .schema e ∧ e.code.category = .manifest) ∧
    ∀ other, other.take (20 + declaredLength bytes) = bytes.take (20 + declaredLength bytes) →
      read path other memory = read path bytes memory := by
  have hends := read_ends path memory bytes
  refine ⟨fun v => ⟨fun hread => ⟨?_, affordable_of_read hread⟩, fun h => read_of_holds h.1 h.2⟩,
    fun f hread => ?_, affordable_iff path memory bytes, ?_⟩
  · rw [hread] at hends
    exact hends
  · rw [hread] at hends
    exact hends
  · intro other hsame
    rw [← read_take path memory other, declaredLength_congr hsame, hsame, read_take]

/-- A length below the first that is no index, with no byte of the value there: however much memory there is, the
file is not said to be truncated. -/
theorem read_length_too_large :
    declaredLength (header (2 ^ 63 - 1)) < 2 ^ 63 ∧
      ∀ memory, read "in.playout" (header (2 ^ 63 - 1)) memory = .error .lengthTooLarge :=
  ⟨by decide +kernel, fun _ => rfl⟩

end PackedSchema.Manifest
