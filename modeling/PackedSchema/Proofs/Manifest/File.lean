import PackedSchema.Proofs.Compile
import PackedSchema.Proofs.Layout.Answers
import PackedSchema.Proofs.Manifest.Packing
import PackedSchema.Proofs.Schema.TypeTexts

/-!
# Manifest files read back

The file of a manifest is read back as the same manifest, and no part of it that misses an end is read as
a manifest at all: it ends in the magic word, in one of the two numbers behind it, or in the value. Behind the
two numbers this takes memory for the value.
-/

namespace PackedSchema.Manifest

variable {path : String} {n width memory : Nat} {bytes rest blob : List UInt8}

/-! ## Sections of a file -/

@[simp] theorem length_littleEndian (width n : Nat) : (littleEndian width n).length = width := by
  induction width generalizing n with
  | zero => rfl
  | succ width ih => simp [littleEndian, ih]

theorem ofLittleEndian_littleEndian (h : n < 256 ^ width) :
    ofLittleEndian (littleEndian width n) = n := by
  induction width generalizing n with
  | zero =>
    have : n = 0 := by simpa using h
    simp [littleEndian, ofLittleEndian, this]
  | succ width ih =>
    have hhigh : n / 256 < 256 ^ width := by
      rw [pow_succ] at h
      exact Nat.div_lt_of_lt_mul (by omega)
    have hlow := ih hhigh
    unfold ofLittleEndian at hlow ⊢
    rw [littleEndian, List.foldr_cons, hlow, UInt8.toNat_ofNat']
    omega

theorem split_append (h : bytes.length = n) : split path n (bytes ++ rest) = .ok (bytes, rest) := by
  subst h
  simp [split]

/-- The error about a file that ends before all of a section. -/
def truncated (path : String) (expected actual : Nat) : SchemaError :=
  { cause := .truncatedManifest path expected actual }

theorem split_short {available : Nat} (hbytes : bytes.length = available) (h : available < n) :
    split path n bytes = .error (.schema (truncated path n available)) := by
  simp [split, hbytes, h, truncated]

/-! ## Reading from the front -/

theorem read_short_magic (h : bytes.length < magic.length) :
    read path bytes memory = .error (.schema { cause := .notAManifest path }) := by
  have hne : bytes.take magic.length ≠ magic := by
    intro heq
    have := congrArg List.length heq
    simp only [List.length_take] at this
    omega
  simp only [read, bne_iff_ne, hne, ne_eq, not_false_eq_true, if_true]
  rfl

theorem read_short_version {available : Nat} (hrest : rest.length = available) (h : available < 4) :
    read path (magic ++ rest) memory = .error (.schema (truncated path 4 available)) := by
  simp only [read, List.take_left, List.drop_left, bne_self_eq_false, Bool.false_eq_true, if_false,
    split_short hrest h]
  rfl

theorem read_short_length {available : Nat} (hrest : rest.length = available) (h : available < 8) :
    read path (magic ++ (littleEndian 4 version ++ rest)) memory =
      .error (.schema (truncated path 8 available)) := by
  have hversion : ofLittleEndian (littleEndian 4 version) = version :=
    ofLittleEndian_littleEndian (by decide)
  simp only [read, List.take_left, List.drop_left, bne_self_eq_false, Bool.false_eq_true, if_false,
    split_append (length_littleEndian 4 version), bind, Except.bind, hversion, split_short hrest h]

theorem read_header (h : n < 256 ^ 8) :
    read path (magic ++ (littleEndian 4 version ++ (littleEndian 8 n ++ rest))) memory =
      readBlob path memory n rest := by
  have hversion : ofLittleEndian (littleEndian 4 version) = version :=
    ofLittleEndian_littleEndian (by decide)
  simp only [read, List.take_left, List.drop_left, bne_self_eq_false, Bool.false_eq_true, if_false,
    split_append (length_littleEndian _ _), bind, Except.bind, hversion,
    ofLittleEndian_littleEndian h]

/-! ## Reading the value -/

/-- Memory can be had for a value of that length. -/
structure Room (memory length : Nat) : Prop where
  index : length + memoryOverhead < 2 ^ 63
  memory : length + memoryOverhead ≤ memory

theorem checkLength_of_room (h : Room memory n) : checkLength memory n = .ok () := by
  obtain ⟨hindex, hmemory⟩ := h
  rw [checkLength, Nat.pow_eq, if_neg (by omega), if_neg (by omega), if_neg (by omega)]

/-- The three ways in which a length is too much. -/
theorem checkLength_of_no_room (h : ¬ Room memory n) :
    (2 ^ 63 ≤ n ∧ checkLength memory n = .error .lengthNoIndex) ∨
      (n < 2 ^ 63 ∧ 2 ^ 63 ≤ n + memoryOverhead ∧ checkLength memory n = .error .lengthTooLarge) ∨
      (n + memoryOverhead < 2 ^ 63 ∧ memory < n + memoryOverhead ∧
        checkLength memory n = .error .outOfMemory) := by
  rw [checkLength, Nat.pow_eq]
  by_cases hindex : 2 ^ 63 ≤ n
  · exact .inl ⟨hindex, by rw [if_pos hindex]⟩
  by_cases hlarge : 2 ^ 63 ≤ n + memoryOverhead
  · exact .inr (.inl ⟨by omega, hlarge, by rw [if_neg hindex, if_pos hlarge]⟩)
  have hmemory : memory < n + memoryOverhead := by
    by_contra hmemory
    exact h ⟨by omega, by omega⟩
  exact .inr (.inr ⟨by omega, hmemory, by rw [if_neg hindex, if_neg hlarge, if_pos hmemory]⟩)

/-- Without memory the length is refused, whatever stands behind it. -/
theorem readBlob_of_checkLength_error {f : ReadFailure} (h : checkLength memory n = .error f) :
    readBlob path memory n rest = .error f := by
  rw [readBlob, h]
  rfl

theorem readBlob_cut {available : Nat} (hroom : Room memory n) (hrest : rest.length = available)
    (h : available < n) : readBlob path memory n rest = .error (.schema (truncated path n available)) := by
  rw [readBlob, checkLength_of_room hroom, split_short hrest h]
  rfl

/-- A value that is whole is read with whatever stands behind it. -/
theorem readBlob_undecodable {f : UnpackFault} (hroom : Room memory blob.length) (h : unpack blob = .error f) :
    readBlob path memory blob.length (blob ++ rest) =
      .error (.schema { cause := .undecodableManifest path f.reason }) := by
  rw [readBlob, checkLength_of_room hroom, split_append rfl]
  simp only [bind, Except.bind, h]
  rfl

theorem readBlob_decoded {m : Value} (hroom : Room memory blob.length) (h : unpack blob = .ok m) :
    readBlob path memory blob.length (blob ++ rest) = if isLayoutTable m then .ok m else
      .error (.schema { cause := .undecodableManifest path "metadata is not a layout table" }) := by
  rw [readBlob, checkLength_of_room hroom, split_append rfl]
  simp only [bind, Except.bind, h]
  rfl

/-! ## Files and their beginnings -/

/-- The file that holds a packed value. -/
def fileOf (blob : List UInt8) : List UInt8 :=
  magic ++ (littleEndian 4 version ++ (littleEndian 8 blob.length ++ blob))

theorem length_fileOf (blob : List UInt8) : (fileOf blob).length = 20 + blob.length := by
  simp [fileOf, magic]
  omega

theorem write_eq_ok {v : Value} (h : v.pack = .ok blob) : write v = .ok (fileOf blob) := by
  simp only [write, h, fileOf, ← List.append_assoc]
  rfl

theorem read_fileOf {m : Value} (hroom : Room memory blob.length) (hunpack : unpack blob = .ok m)
    (htable : isLayoutTable m = true) : read path (fileOf blob) memory = .ok m := by
  have hblob : readBlob path memory blob.length (blob ++ []) = _ := readBlob_decoded hroom hunpack
  have hindex := hroom.index
  rw [List.append_nil, if_pos htable] at hblob
  rw [fileOf, read_header (by omega), hblob]

/-- Why the first `k` bytes of the file with the value `blob` are refused, if memory can be had for the value. -/
def cutFailure (path : String) (blob : List UInt8) (k : Nat) : SchemaError :=
  if k < 8 then { cause := .notAManifest path }
  else if k < 12 then truncated path 4 (k - 8)
  else if k < 20 then truncated path 8 (k - 12)
  else truncated path blob.length (k - 20)

theorem cutFailure_code {k : Nat} (h : 8 ≤ k) : (cutFailure path blob k).code.id = "CE3003" := by
  unfold cutFailure
  rw [if_neg (by omega)]
  split
  · rfl
  · split <;> rfl

/-- Memory does not matter to a cut in front of the value. -/
theorem read_take_fileOf {k : Nat} (hk : k < (fileOf blob).length) (hroom : 20 ≤ k → Room memory blob.length) :
    read path ((fileOf blob).take k) memory = .error (.schema (cutFailure path blob k)) := by
  rw [length_fileOf] at hk
  have hmagic : magic.length = 8 := rfl
  unfold cutFailure fileOf
  -- The cut goes through one of the four sections, and those before it are whole.
  split
  case isTrue h => exact read_short_magic (by simp; omega)
  rw [List.take_append, List.take_of_length_le (by omega)]
  split
  case isTrue h => exact read_short_version (by simp; omega) (by omega)
  rw [List.take_append, List.take_of_length_le (by simp; omega)]
  split
  case isTrue h => exact read_short_length (by simp; omega) (by omega)
  have hroom := hroom (by omega)
  have hindex := hroom.index
  rw [List.take_append, List.take_of_length_le (by simp; omega), read_header (by omega),
    readBlob_cut hroom (show _ = k - 20 by simp; omega) (by omega)]

/-! ## Manifests -/

namespace Value

mutual

/-- The integers of a value are in the range of the format, and its texts, lists and maps are no longer
than the format allows. -/
def Fits : Value → Prop
  | int i => -2 ^ 63 ≤ i ∧ i < 2 ^ 64
  | text s => (Text.Utf8.encode s).length < 2 ^ 32
  | list items => items.length < 2 ^ 32 ∧ FitItems items
  | map entries => entries.length < 2 ^ 32 ∧ FitEntries entries
  | _ => True

def FitItems : List Value → Prop
  | [] => True
  | v :: vs => v.Fits ∧ FitItems vs

def FitEntries : List (Key × Value) → Prop
  | [] => True
  | (_, v) :: es => v.Fits ∧ FitEntries es

end

mutual

def decFits : (v : Value) → Decidable v.Fits
  | int i => inferInstanceAs (Decidable (-2 ^ 63 ≤ i ∧ i < 2 ^ 64))
  | text s => inferInstanceAs (Decidable ((Text.Utf8.encode s).length < 2 ^ 32))
  | list items =>
    have := decFitItems items
    inferInstanceAs (Decidable (items.length < 2 ^ 32 ∧ FitItems items))
  | map entries =>
    have := decFitEntries entries
    inferInstanceAs (Decidable (entries.length < 2 ^ 32 ∧ FitEntries entries))
  | nil | bool _ | float _ | .bytes _ | ext .. | timestamp .. => .isTrue trivial

def decFitItems : (items : List Value) → Decidable (FitItems items)
  | [] => .isTrue trivial
  | v :: vs =>
    have := v.decFits
    have := decFitItems vs
    inferInstanceAs (Decidable (v.Fits ∧ FitItems vs))

def decFitEntries : (entries : List (Key × Value)) → Decidable (FitEntries entries)
  | [] => .isTrue trivial
  | (_, v) :: es =>
    have := v.decFits
    have := decFitEntries es
    inferInstanceAs (Decidable (v.Fits ∧ FitEntries es))

end

instance : DecidablePred Fits := decFits

theorem fitItems_iff {items : List Value} : FitItems items ↔ ∀ v ∈ items, v.Fits := by
  induction items with
  | nil => simp [FitItems]
  | cons v items ih => simp [FitItems, ih]

theorem fitEntries_iff {entries : List (Key × Value)} :
    FitEntries entries ↔ ∀ e ∈ entries, e.2.Fits := by
  induction entries with
  | nil => simp [FitEntries]
  | cons e entries ih => simp [FitEntries, ih]

end Value

/-- A record is plain if its values are. -/
theorem plain_record {depth : Nat} {entries : List (String × Value)}
    (hnodup : (entries.map Prod.fst).Nodup)
    (hkeys : ∀ k ∈ entries.map Prod.fst, (Text.Utf8.encode k).length < 2 ^ 32)
    (hfits : (Value.record entries).Fits) (hvalues : ∀ e ∈ entries, e.2.Fits → Plain depth e.2) :
    Plain (depth + 1) (.record entries) := by
  obtain ⟨hcount, hentries⟩ := hfits
  simp only [Value.fitEntries_iff, List.forall_mem_map] at hentries hkeys
  have hinjective : Function.Injective Key.text := fun a b h => Key.text.inj h
  refine .map hcount ?_ ?_ ?_
  · simpa [Function.comp_def] using hnodup.map hinjective
  · simp only [List.forall_mem_map]
    exact fun e he => ⟨e.1, rfl, hkeys e he⟩
  · simp only [List.forall_mem_map]
    exact fun e he => hvalues e he (hentries e he)

theorem plain_list {depth : Nat} {items : List Value} (hfits : (Value.list items).Fits)
    (hitems : ∀ v ∈ items, v.Fits → Plain depth v) : Plain (depth + 1) (.list items) := by
  obtain ⟨hcount, hfits⟩ := hfits
  rw [Value.fitItems_iff] at hfits
  exact .list hcount fun v hv => hitems v hv (hfits v hv)

theorem plain_int {depth : Nat} {i : Int} (h : (Value.int i).Fits) : Plain depth (.int i) :=
  .int h.1 h.2

theorem plain_fieldValue {depth : Nat} {f : FieldLayout} (h : (fieldValue f).Fits) :
    Plain (depth + 1) (fieldValue f) := by
  refine plain_record (by simp) (by simp; decide) h ?_
  simp only [List.forall_mem_cons]
  exact ⟨.text, .text, plain_int, plain_int, by simp⟩

theorem plain_typeValue {depth : Nat} {l : TypeLayout} (h : (typeValue l).Fits) :
    Plain (depth + 3) (typeValue l) := by
  cases l with
  | struct name size alignment tagged fields =>
    refine plain_record (by simp) (by simp; decide) h ?_
    simp only [List.forall_mem_cons]
    refine ⟨.text, .text, plain_int, plain_int, fun _ => .bool tagged, fun hfields => ?_, by simp⟩
    refine plain_list hfields ?_
    simp only [List.forall_mem_map]
    exact fun f _ => plain_fieldValue
  | enum name size words variants =>
    refine plain_record (by simp) (by simp; decide) h ?_
    simp only [List.forall_mem_cons]
    refine ⟨.text, .text, plain_int, plain_int, fun hvariants => ?_, by simp⟩
    refine plain_list hvariants ?_
    simp only [List.forall_mem_map]
    intro v _ hv
    refine plain_record (by simp) (by simp; decide) hv ?_
    simp only [List.forall_mem_cons]
    exact ⟨.text, plain_int, by simp⟩

/-- A manifest is a plain value, five containers deep. -/
theorem plain_ofLayouts {depth : Nat} {t : TypeTable} {layouts : List TypeLayout}
    (h : (ofLayouts t layouts).Fits) : Plain (depth + 5) (ofLayouts t layouts) := by
  refine plain_record (by simp) (by simp; decide) h ?_
  simp only [List.forall_mem_cons]
  refine ⟨?_, fun htypes => ?_, by simp⟩
  · cases t.schemaName with
    | none => exact fun _ => .nil
    | some name => exact .text
  · refine plain_list htypes ?_
    simp only [List.forall_mem_map]
    exact fun l _ => plain_typeValue

theorem isLayoutTable_ofLayouts (t : TypeTable) (layouts : List TypeLayout) :
    isLayoutTable (ofLayouts t layouts) = true := by
  have htypes : (ofLayouts t layouts).get? "types" = some (.list (layouts.map typeValue)) := rfl
  simp only [isLayoutTable, htypes, List.all_map, List.all_eq_true, Function.comp_apply]
  intro l _
  cases l <;> rfl

/-! ## Manifests that can be made -/

/-- No type of a field has a count of more digits than are written. -/
def Describable (layouts : List TypeLayout) : Prop :=
  ∀ ty ∈ layouts.flatMap TypeLayout.types, ∀ n ∈ ty.textNumbers, ¬ Overlong n

section Describing

variable {t : TypeTable} {layouts : List TypeLayout} {s : Schema}

theorem describe_of_describable (t : TypeTable) (h : Describable layouts) :
    describe t layouts = .ok (ofLayouts t layouts) := by
  obtain ⟨texts, htexts⟩ := succeeds_mapM_iff.mpr fun ty hty => (FieldType.succeeds_write_iff ty).mpr (h ty hty)
  rw [describe, htexts]
  rfl

theorem describe_of_not_describable (t : TypeTable) (h : ¬ Describable layouts) :
    describe t layouts = .error (.numeral .tooLongToWrite) := by
  unfold describe
  cases htexts : (layouts.flatMap TypeLayout.types).mapM FieldType.write with
  | ok texts =>
    refine absurd (fun ty hty => ?_) h
    exact (FieldType.succeeds_write_iff ty).mp (succeeds_mapM_iff.mp ⟨texts, htexts⟩ ty hty)
  | error f =>
    cases FailsWith.mapM (fun ty _ => ty.write_failsWith) f htexts
    rfl

theorem describe_eq_ok {m : Value} (h : describe t layouts = .ok m) : m = ofLayouts t layouts := by
  obtain ⟨-, -, h⟩ := bind_eq_ok_iff.mp h
  cases h
  rfl

theorem ask_build (t : TypeTable) (session : Layout.Session) :
    (Layout.ask (build t) session).1 = (Layout.ask (Layout.layouts t) session).1 >>= describe t := by
  unfold build
  cases h : Layout.ask (Layout.layouts t) session with
  | mk result after =>
    cases result with
    | ok layouts =>
      rw [Layout.ask_bind_ok h]
      change (Layout.ask (liftM (describe t layouts)) after).1 = describe t layouts
      cases describe t layouts <;> rfl
    | error e =>
      rw [Layout.ask_bind_error h]
      rfl

/-- The fields of a schema that was read can be described: their types can be written. -/
theorem describable_of_ofText {source : String} (hread : Schema.ofText source = .ok s)
    (h : List.Forall₂ Layout.LaysOut s.decls layouts) : Describable layouts := by
  intro ty hty
  obtain ⟨l, hl, hty⟩ := List.mem_flatMap.mp hty
  obtain ⟨d, hd, hlaysOut⟩ := exists_partner h.flip hl
  cases hlaysOut with
  | @struct d size alignment tagged fields hfields =>
    have htypes : fields.map FieldLayout.ty = d.fields.map Field.ty := by
      simpa only [List.map_map, Function.comp_def] using congrArg (List.map Prod.snd) hfields
    rw [TypeLayout.types, htypes] at hty
    exact (readable_of_ofText hread hd hty).not_overlong
  | enum => cases hty

theorem describable_of_compile {source : String} {c : Compiled} (hread : Schema.ofText source = .ok s)
    (hc : s.compile = .ok c) : Describable c.layouts := by
  obtain ⟨htable, hlayouts, -⟩ := Schema.compile_eq_ok hc
  obtain ⟨ht, hw⟩ := TypeTable.ofSchema_eq_ok htable
  have hlaysOut := Layout.laysOut_layouts hw hlayouts
  have hdecls : c.table.decls = s.decls := by rw [ht]
  rw [hdecls] at hlaysOut
  exact describable_of_ofText hread hlaysOut

end Describing

/-! ## The way there and back -/

/-- A schema that compiles has a manifest exactly if the types of its fields can be written, as they can be if the
schema was read from a text. The manifest is written to a file that is read back as the same manifest, if memory
can be had for it. A file that misses bytes at the end is refused: without all of the magic word it is no
manifest, and otherwise it is one that is cut off, where memory only matters to a cut behind the two numbers. -/
theorem read_write_manifest {s : Schema} {c : Compiled} (hcompile : s.compile = .ok c)
    (hfits : c.manifest.Fits) (path : String) (memory : Nat) :
    (Describable c.layouts → (Layout.ask (build c.table) {}).1 = .ok c.manifest) ∧
      (¬ Describable c.layouts → (Layout.ask (build c.table) {}).1 = .error (.numeral .tooLongToWrite)) ∧
      (∀ source, Schema.ofText source = .ok s → Describable c.layouts) ∧
      ∃ blob bytes, c.manifest.pack = .ok blob ∧ write c.manifest = .ok bytes ∧
        (Room memory blob.length → read path bytes memory = .ok c.manifest) ∧
        ∀ k < bytes.length,
          (k < 8 → ∃ e, read path (bytes.take k) memory = .error (.schema e) ∧ e.code.id = "CE3001") ∧
          (8 ≤ k → k < 20 ∨ Room memory blob.length →
            ∃ e, read path (bytes.take k) memory = .error (.schema e) ∧ e.code.id = "CE3003") := by
  obtain ⟨-, hlayouts, -⟩ := Schema.compile_eq_ok hcompile
  have hbuild : (Layout.ask (build c.table) {}).1 = describe c.table c.layouts := by
    rw [ask_build, hlayouts]
    rfl
  have hplain : Plain nestingLimit c.manifest := plain_ofLayouts hfits
  obtain ⟨blob, hpack, hunpack⟩ := unpack_pack hplain
  rw [hbuild]
  refine ⟨describe_of_describable _, describe_of_not_describable _,
    fun source hread => describable_of_compile hread hcompile, blob, fileOf blob, hpack, write_eq_ok hpack,
    fun hroom => read_fileOf hroom hunpack (isLayoutTable_ofLayouts _ _), fun k hk => ⟨fun hmagic => ?_, ?_⟩⟩
  · refine ⟨_, read_take_fileOf hk (by omega), ?_⟩
    rw [cutFailure, if_pos hmagic]
    rfl
  · intro hmagic hroom
    exact ⟨_, read_take_fileOf hk fun hvalue => hroom.resolve_left (by omega), cutFailure_code hmagic⟩

/-- A schema with a name beyond one byte a character and offsets beyond two bytes. -/
def wideSchema : Schema where
  name := some "größe"
  decls :=
    [.struct { name := "Point", fields :=
        [{ name := "at", ty := .vector .f32 70000 }, { name := "next", ty := .ref (.named "Gone") }] },
      .enum { name := "Shape", variants := [{ name := "Dot", payload := [.named "Point"] }] }]

theorem read_write_manifest_wide :
    ∃ c, wideSchema.compile = .ok c ∧ c.manifest.Fits ∧
      (Layout.ask (build c.table) {}).1 = .ok c.manifest ∧
      ∃ bytes, write c.manifest = .ok bytes ∧ bytes.length = 274 ∧ read "a.layout" bytes 287 = .ok c.manifest ∧
        (∃ e, read "a.layout" (bytes.take 273) 287 = .error (.schema e) ∧ e.code.id = "CE3003") ∧
        ∃ e, read "a.layout" (bytes.take 19) 0 = .error (.schema e) ∧ e.code.id = "CE3003" := by
  obtain ⟨c, hcompile, hfits, hlength, hdescribable⟩ : ∃ c, wideSchema.compile = .ok c ∧ c.manifest.Fits ∧
      (write c.manifest).map List.length = .ok 274 ∧ Describable c.layouts := by
    refine ⟨_, rfl, ?_, ?_, ?_⟩
    · decide +kernel
    · decide +kernel
    · unfold Describable Overlong
      decide +kernel
  obtain ⟨hbuild, -, -, blob, bytes, hpack, hwrite, hread, hcut⟩ :=
    read_write_manifest hcompile hfits "a.layout" 287
  obtain ⟨-, -, -, blob', bytes', -, hwrite', -, hcut'⟩ := read_write_manifest hcompile hfits "a.layout" 0
  cases hwrite.symm.trans hwrite'
  rw [hwrite] at hlength
  have hbytes : bytes.length = 274 := Except.ok.inj hlength
  have hblob : blob.length = 254 := by
    rw [write_eq_ok hpack] at hwrite
    cases hwrite
    rw [length_fileOf] at hbytes
    omega
  have hroom : Room 287 blob.length := by
    rw [hblob]
    exact ⟨by decide, by decide⟩
  exact ⟨c, hcompile, hfits, hbuild hdescribable, bytes, hwrite, hbytes, hread hroom,
    (hcut 273 (by omega)).2 (by omega) (.inr hroom), (hcut' 19 (by omega)).2 (by omega) (.inl (by omega))⟩

end PackedSchema.Manifest
