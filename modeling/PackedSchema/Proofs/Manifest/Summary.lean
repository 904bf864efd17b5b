import PackedSchema.Manifest.Summary
import PackedSchema.Proofs.Compile
import PackedSchema.Proofs.Manifest.Reading

/-!
# Which manifests can be shown

A manifest that is read is a table of types, but nothing is asked of its types except their kinds. The
summary asks for more: it looks up keys, goes through lists, pads values to columns and follows the levels of
the others. It is made whole for exactly the manifests whose types have all of this, and whose columns go no
deeper than can be followed.
-/

namespace PackedSchema.Manifest

variable {v x : Value} {key : String} {n levels : Nat} {bytes : List UInt8}

/-! ## Numbers of the format -/

theorem lt_of_natural (h : naturalForm.Writes n bytes) : n < 2 ^ 64 := by
  cases h with
  | single h =>
    have hcount := (mem_singles.mp h).1
    omega
  | @spelled head digits h =>
    have hlength : digits.length ≤ 8 := by
      simp only [naturalForm, List.mem_cons, Prod.mk.injEq, List.not_mem_nil, or_false] at h
      omega
    calc ofBigEndian digits < 256 ^ digits.length := ofBigEndian_lt digits
      _ ≤ 256 ^ 8 := Nat.pow_le_pow_right (by decide) hlength
      _ = 2 ^ 64 := by decide

theorem natAbs_signed_le {bits : Nat} (h : n < 2 ^ bits) : (signed bits n).natAbs ≤ 2 ^ bits := by
  simp only [signed, Nat.pow_eq]
  split <;> omega

theorem Plainly.natAbs_le {i : Int} (h : Plainly (.int i) bytes) : i.natAbs ≤ 2 ^ 64 := by
  cases h with
  | natural h =>
    have hlt := lt_of_natural h
    omega
  | @negative head h =>
    have hlt := head.toNat_lt
    omega
  | @signed head digits h =>
    have hlength : 8 * digits.length ≤ 64 := by
      simp only [signedHeads, List.mem_cons, Prod.mk.injEq, List.not_mem_nil, or_false] at h
      omega
    have hlt : ofBigEndian digits < 2 ^ (8 * digits.length) := by
      rw [pow_mul]
      exact ofBigEndian_lt digits
    exact (natAbs_signed_le hlt).trans (Nat.pow_le_pow_right (by decide) hlength)
  | coded h hback => cases hback

/-! ## Values of the format -/

/-- The value has bytes in the format. -/
def Value.Formatted (v : Value) : Prop := ∃ depth bytes, Encoded depth v bytes

theorem Plainly.no_container (h : Plainly v bytes) :
    (∀ items, v ≠ .list items) ∧ ∀ entries, v ≠ .map entries := by
  cases h with
  | coded h hback => cases hback <;> simp
  | _ => simp

theorem mem_insert {k : Key} {e : Key × Value} {es : List (Key × Value)} (h : e ∈ Value.insert k v es) :
    e = (k, v) ∨ e ∈ es := by
  induction es with
  | nil => exact .inl (List.mem_singleton.mp h)
  | cons e' es ih =>
    rw [Value.insert] at h
    split at h
    · rcases List.mem_cons.mp h with rfl | h
      · exact .inl rfl
      · exact .inr (List.mem_cons_of_mem _ h)
    · rcases List.mem_cons.mp h with rfl | h
      · exact .inr List.mem_cons_self
      · exact (ih h).imp_right (List.mem_cons_of_mem _)

/-- The entries of a map are among those that it is made of. -/
theorem mem_ofEntries {e : Key × Value} {es entries : List (Key × Value)}
    (h : e ∈ Value.ofEntries es entries) : e ∈ es ∨ e ∈ entries := by
  induction entries generalizing es with
  | nil => exact .inl h
  | cons e' entries ih =>
    rcases ih h with h | h
    · rcases mem_insert h with rfl | h
      · exact .inr List.mem_cons_self
      · exact .inl h
    · exact .inr (List.mem_cons_of_mem _ h)

namespace Value.Formatted

theorem composed (h : v.Formatted) : ∃ depth bytes, Composed (Encoded depth) v bytes := by
  obtain ⟨depth, bytes, h⟩ := h
  cases depth with
  | zero => exact ⟨0, bytes, .plain h⟩
  | succ depth => exact ⟨depth, bytes, h⟩

theorem natAbs_le {i : Int} (h : (Value.int i).Formatted) : i.natAbs ≤ 2 ^ 64 := by
  obtain ⟨depth, bytes, h⟩ := h.composed
  cases h with
  | plain h => exact h.natAbs_le

theorem item {items : List Value} (h : (Value.list items).Formatted) (hx : x ∈ items) : x.Formatted := by
  obtain ⟨depth, bytes, h⟩ := h.composed
  cases h with
  | plain h => exact absurd rfl (h.no_container.1 items)
  | list h hitems =>
    obtain ⟨part, -, hpart⟩ := exists_partner hitems hx
    exact ⟨depth, part, hpart⟩

theorem entry (h : v.Formatted) (hx : v.get? key = some x) : x.Formatted := by
  cases v with
  | map entries =>
    obtain ⟨depth, bytes, h⟩ := h.composed
    cases h with
    | plain h => exact absurd rfl (h.no_container.2 entries)
    | @map entries parts front h hentries =>
      obtain ⟨before, after, hsplit, -⟩ := List.lookup_eq_some_iff.mp hx
      have hmem : (Key.text key, x) ∈ Value.ofEntries [] entries := by simp [hsplit]
      rcases mem_ofEntries hmem with hmem | hmem
      · cases hmem
      · obtain ⟨_, -, front, back, -, -, hback⟩ := exists_partner hentries hmem
        exact ⟨depth, back, hback⟩
  | _ => cases hx

/-- A number of the format is short enough to be written out. -/
theorem not_overlong {i : Int} (h : (Value.int i).Formatted) : ¬ Overlong i := by
  have hle := h.natAbs_le
  have hdigits : (Nat.toDigits 10 i.natAbs).length ≤ 20 :=
    (Nat.length_toDigits_le_iff (by decide) (by decide)).mpr (by omega)
  unfold Overlong Numeral.limit
  omega

end Value.Formatted

/-! ## Levels -/

namespace Value

mutual

/-- The levels below a value that its text is made of. -/
def depth : Value → Nat
  | list items => itemsDepth items
  | map es => entriesDepth es
  | ext .. | timestamp .. => 2
  | _ => 0

def itemsDepth : List Value → Nat
  | [] => 0
  | v :: vs => max (v.depth + 1) (itemsDepth vs)

def entriesDepth : List (Key × Value) → Nat
  | [] => 0
  | (_, v) :: es => max (v.depth + 1) (entriesDepth es)

end

mutual

theorem depthFault?_eq_none_iff (v : Value) (levels : Nat) : v.depthFault? levels = none ↔ v.depth ≤ levels := by
  cases v with
  | list items => exact itemsFault?_eq_none_iff items levels
  | map es => exact entriesFault?_eq_none_iff es levels
  | ext code data => rcases levels with _ | _ | levels <;> simp [depthFault?, depth]
  | timestamp seconds nanoseconds => rcases levels with _ | _ | levels <;> simp [depthFault?, depth]
  | _ => simp [depthFault?, depth]

theorem itemsFault?_eq_none_iff (items : List Value) (levels : Nat) :
    itemsFault? levels items = none ↔ itemsDepth items ≤ levels := by
  cases items with
  | nil => simp [itemsFault?, itemsDepth]
  | cons v vs =>
    cases levels with
    | zero => simp [itemsFault?, itemsDepth]
    | succ levels =>
      have hv := depthFault?_eq_none_iff v levels
      have hvs := itemsFault?_eq_none_iff vs (levels + 1)
      simp [itemsFault?, itemsDepth, hv, hvs]

theorem entriesFault?_eq_none_iff (entries : List (Key × Value)) (levels : Nat) :
    entriesFault? levels entries = none ↔ entriesDepth entries ≤ levels := by
  match entries with
  | [] => simp [entriesFault?, entriesDepth]
  | (k, v) :: es =>
    cases levels with
    | zero => simp [entriesFault?, entriesDepth]
    | succ levels =>
      have hv := depthFault?_eq_none_iff v levels
      have hes := entriesFault?_eq_none_iff es (levels + 1)
      simp [entriesFault?, entriesDepth, hv, hes]

end

theorem succeeds_shownTo_iff : Succeeds (v.shownTo levels) ↔ v.depth ≤ levels := by
  rw [shownTo, ← depthFault?_eq_none_iff]
  cases v.depthFault? levels with
  | none => exact iff_of_true (succeeds_ok _) rfl
  | some f => exact iff_of_false (not_succeeds_error _) (by simp)

end Value

/-! ## Columns -/

/-- The value can be padded to a width. -/
inductive Value.Paddable : Value → Prop
  | bool (b : Bool) : Paddable (.bool b)
  | int (i : Int) : Paddable (.int i)
  | float (bits : Nat) : Paddable (.float bits)
  | text (s : String) : Paddable (.text s)

theorem entry_eq_ok_iff : v.entry key = .ok x ↔ v.get? key = some x := by
  cases v with
  | map entries =>
    simp only [Value.entry, Value.get?]
    cases entries.lookup (.text key) <;> simp
  | _ => simp [Value.entry, Value.get?]

theorem succeeds_numeralText {i : Int} (h : (Value.int i).Formatted) : Succeeds (Value.numeralText i) :=
  succeeds_mapError_iff.mpr ((succeeds_write_iff i).mpr h.not_overlong)

theorem succeeds_column_iff (h : v.Formatted) : Succeeds (v.column levels) ↔ v.depth ≤ levels := by
  cases v with
  | int i => exact iff_of_true (succeeds_numeralText h) (Nat.zero_le _)
  | _ =>
    rw [← Value.succeeds_shownTo_iff]
    rfl

theorem succeeds_padded_iff (h : v.Formatted) (width : Nat) : Succeeds (v.padded width) ↔ v.Paddable := by
  cases v with
  | int i => exact iff_of_true (succeeds_bind_pure_iff.mpr (succeeds_numeralText h)) (.int i)
  | bool b => exact iff_of_true (succeeds_ok _) (.bool b)
  | float bits => exact iff_of_true (succeeds_ok _) (.float bits)
  | text s => exact iff_of_true (succeeds_ok _) (.text s)
  | _ => exact iff_of_false (not_succeeds_error _) (fun h => by cases h)

/-! ## Lines -/

/-- The value has an entry for each of the keys, which goes no deeper than a number of levels. -/
def Value.HasColumns (levels : Nat) (keys : List String) (v : Value) : Prop :=
  ∀ key ∈ keys, ∃ x, v.get? key = some x ∧ x.depth ≤ levels

/-- The value has a first entry that can be padded, and the other entries. -/
def Value.IsRow (levels : Nat) (first : String) (others : List String) (v : Value) : Prop :=
  (∃ x, v.get? first = some x ∧ x.Paddable) ∧ v.HasColumns levels others

section Lines

variable {α : Type} {keys : List String}

theorem succeeds_pure_iff (v : Value) (a : α) :
    Succeeds (pure a : Except SummaryFault α) ↔ v.HasColumns levels [] :=
  iff_of_true (succeeds_ok a) (by simp [Value.HasColumns])

/-- A line goes on behind an entry exactly if it is there. -/
theorem succeeds_entry_bind_iff {rest : Value → Except SummaryFault α} {P : Prop}
    (h : ∀ x, Succeeds (rest x) ↔ P) : Succeeds (v.entry key >>= rest) ↔ (∃ x, v.get? key = some x) ∧ P := by
  simp only [succeeds_bind_iff, entry_eq_ok_iff, h, exists_and_right]

/-- A line goes on behind a column exactly if its entry is there and can be followed. -/
theorem succeeds_column_bind_iff {rest : String → Except SummaryFault α} (hv : v.Formatted)
    (h : ∀ s, Succeeds (rest s) ↔ v.HasColumns levels keys) :
    Succeeds (v.entry key >>= fun x => x.column levels >>= rest) ↔ v.HasColumns levels (key :: keys) := by
  rw [Value.HasColumns, List.forall_mem_cons]
  simp only [succeeds_bind_iff, entry_eq_ok_iff, h]
  constructor
  · rintro ⟨x, hx, s, hs, hkeys⟩
    exact ⟨⟨x, hx, (succeeds_column_iff (hv.entry hx)).mp ⟨s, hs⟩⟩, hkeys⟩
  · rintro ⟨⟨x, hx, hdepth⟩, hkeys⟩
    obtain ⟨s, hs⟩ := (succeeds_column_iff (hv.entry hx)).mpr hdepth
    exact ⟨x, hx, s, hs, hkeys⟩

/-- A line starts with a column of a width exactly if its entry can be padded. -/
theorem succeeds_padded_bind_iff {rest : String → Except SummaryFault α} (hv : v.Formatted) {width : Nat}
    (h : ∀ s, Succeeds (rest s) ↔ v.HasColumns levels keys) :
    Succeeds (v.entry key >>= fun x => x.padded width >>= rest) ↔ v.IsRow levels key keys := by
  simp only [succeeds_bind_iff, entry_eq_ok_iff, h]
  constructor
  · rintro ⟨x, hx, s, hs, hkeys⟩
    exact ⟨⟨x, hx, (succeeds_padded_iff (hv.entry hx) width).mp ⟨s, hs⟩⟩, hkeys⟩
  · rintro ⟨⟨x, hx, hpaddable⟩, hkeys⟩
    obtain ⟨s, hs⟩ := (succeeds_padded_iff (hv.entry hx) width).mpr hpaddable
    exact ⟨x, hx, s, hs, hkeys⟩

end Lines

theorem succeeds_fieldLine_iff (h : v.Formatted) :
    Succeeds (fieldLine levels v) ↔ v.IsRow levels "offset" ["name", "type", "size"] :=
  succeeds_padded_bind_iff h fun _ => succeeds_column_bind_iff h fun _ => succeeds_column_bind_iff h
    fun _ => succeeds_column_bind_iff h fun _ => succeeds_pure_iff v _

theorem succeeds_variantLine_iff (h : v.Formatted) :
    Succeeds (variantLine levels v) ↔ v.IsRow levels "tag" ["name"] :=
  succeeds_padded_bind_iff h fun _ => succeeds_column_bind_iff h fun _ => succeeds_pure_iff v _

/-- The value has the columns of the line of a struct. Its tag is only asked for. -/
def Value.HeadsStruct (levels : Nat) (v : Value) : Prop :=
  (∃ x, v.get? "tagged" = some x) ∧ v.HasColumns levels ["name", "size", "alignment"]

theorem succeeds_structLine_iff (h : v.Formatted) : Succeeds (structLine levels v) ↔ v.HeadsStruct levels :=
  succeeds_entry_bind_iff fun _ => succeeds_column_bind_iff h fun _ => succeeds_column_bind_iff h
    fun _ => succeeds_column_bind_iff h fun _ => succeeds_pure_iff v _

theorem succeeds_enumLine_iff (h : v.Formatted) :
    Succeeds (enumLine levels v) ↔ v.HasColumns levels ["name", "size", "body_words"] :=
  succeeds_column_bind_iff h fun _ => succeeds_column_bind_iff h fun _ => succeeds_column_bind_iff h
    fun _ => succeeds_pure_iff v _

/-! ## Lines of types -/

/-- The value can be gone through, and all that is found there are rows. -/
inductive Value.Lists (row : Value → Prop) : Value → Prop
  | list {items : List Value} (h : ∀ x ∈ items, row x) : Lists row (.list items)
  /-- There is nothing to find in what is empty. -/
  | noText : Lists row (.text "")
  | noBytes : Lists row (.bytes [])
  | noEntries : Lists row (.map [])

/-- The value has an entry that lists rows. -/
def Value.HasRows (rows : String) (row : Value → Prop) (v : Value) : Prop :=
  ∃ x, v.get? rows = some x ∧ x.Lists row

/-- All that the lines of a type ask for is there, and its columns go no deeper than a number of levels. -/
inductive Value.Showable (levels : Nat) (v : Value) : Prop
  | struct (hkind : v.get? "kind" = some (.text "struct")) (hhead : v.HeadsStruct levels)
      (hrows : v.HasRows "fields" (Value.IsRow levels "offset" ["name", "type", "size"]))
  | enum (hkind : v.get? "kind" = some (.text "enum"))
      (hhead : v.HasColumns levels ["name", "size", "body_words"])
      (hrows : v.HasRows "variants" (Value.IsRow levels "tag" ["name"]))

/-- The name in a manifest and all of its types can be shown, where so many levels can be followed in the lines
of types and one more in the line above them. -/
structure Printable (levels : Nat) (m : Value) : Prop where
  name : ∀ x, m.get? "module" = some x → x.depth ≤ levels + 1
  types : ∀ e ∈ types m, e.Showable levels

section Rows

variable {α : Type} {row : Value → Prop} {line : Value → Except SummaryFault String}

theorem exists_map_of_succeeds {rest : Value → Except SummaryFault α} (h : Succeeds (v.entry key >>= rest)) :
    ∃ entries, v = .map entries := by
  obtain ⟨x, hx, -⟩ := succeeds_bind_iff.mp h
  cases v with
  | map entries => exact ⟨entries, rfl⟩
  | _ => cases hx

theorem forall_itemLines_iff {rows : String} :
    (∀ l ∈ itemLines v rows line, Succeeds l) ↔
      ∃ x, v.get? rows = some x ∧ ∃ items, x.items = .ok items ∧ ∀ y ∈ items, Succeeds (line y) := by
  unfold itemLines
  split
  case h_1 items hitems =>
    obtain ⟨x, hx, hitems⟩ := bind_eq_ok_iff.mp hitems
    rw [List.forall_mem_map]
    constructor
    · intro h
      exact ⟨x, entry_eq_ok_iff.mp hx, items, hitems, h⟩
    · rintro ⟨x', hx', items', hitems', h⟩
      cases hx.symm.trans (entry_eq_ok_iff.mpr hx')
      cases hitems.symm.trans hitems'
      exact h
  case h_2 f hfault =>
    refine iff_of_false (fun h => not_succeeds_error f (h _ List.mem_cons_self)) ?_
    rintro ⟨x, hx, items, hitems, -⟩
    have hok : v.entry rows >>= Value.items = .ok items :=
      bind_eq_ok_iff.mpr ⟨x, entry_eq_ok_iff.mpr hx, hitems⟩
    cases hfault.symm.trans hok

/-- Lines that only maps have can be made of all items exactly if there are only rows, or no items. -/
theorem forall_items_iff (hv : v.Formatted) (hline : ∀ x, x.Formatted → (Succeeds (line x) ↔ row x))
    (hmap : ∀ x, Succeeds (line x) → ∃ entries, x = .map entries) :
    (∃ items, v.items = .ok items ∧ ∀ x ∈ items, Succeeds (line x)) ↔ v.Lists row := by
  constructor
  · rintro ⟨items, hitems, h⟩
    cases v with
    | list vs =>
      cases hitems
      exact .list fun x hx => (hline x (hv.item hx)).mp (h x hx)
    | text s =>
      cases hitems
      cases hchars : s.toList with
      | nil =>
        rw [String.toList_eq_nil_iff] at hchars
        rw [hchars]
        exact .noText
      | cons c cs =>
        obtain ⟨entries, hentries⟩ := hmap _ (h (.text (String.singleton c)) (by simp [hchars]))
        cases hentries
    | bytes b =>
      cases hitems
      cases b with
      | nil => exact .noBytes
      | cons c cs =>
        obtain ⟨entries, hentries⟩ := hmap _ (h _ List.mem_cons_self)
        cases hentries
    | map es =>
      cases hitems
      cases es with
      | nil => exact .noEntries
      | cons e es =>
        obtain ⟨k, x⟩ := e
        obtain ⟨entries, hentries⟩ := hmap _ (h k.value List.mem_cons_self)
        cases k <;> cases hentries
    | ext code data =>
      cases hitems
      obtain ⟨entries, hentries⟩ := hmap _ (h _ List.mem_cons_self)
      cases hentries
    | _ => cases hitems
  · intro h
    cases h with
    | @list vs h => exact ⟨vs, rfl, fun x hx => (hline x (hv.item hx)).mpr (h x hx)⟩
    | noText => exact ⟨[], rfl, by simp⟩
    | noBytes => exact ⟨[], rfl, by simp⟩
    | noEntries => exact ⟨[], rfl, by simp⟩

theorem forall_described_iff {first : Except SummaryFault String} {P : Prop} {rows : String}
    (hv : v.Formatted) (hfirst : Succeeds first ↔ P)
    (hline : ∀ x, x.Formatted → (Succeeds (line x) ↔ row x))
    (hmap : ∀ x, Succeeds (line x) → ∃ entries, x = .map entries) :
    (∀ l ∈ first :: itemLines v rows line, Succeeds l) ↔ P ∧ v.HasRows rows row := by
  rw [List.forall_mem_cons, hfirst, forall_itemLines_iff]
  refine and_congr_right fun _ => exists_congr fun x => and_congr_right fun hx => ?_
  exact forall_items_iff (hv.entry hx) hline hmap

end Rows

theorem forall_typeLines_iff (hv : v.Formatted)
    (hkind : v.get? "kind" = some (.text "struct") ∨ v.get? "kind" = some (.text "enum")) :
    (∀ l ∈ typeLines levels v, Succeeds l) ↔ v.Showable levels := by
  rcases hkind with hkind | hkind
  · have hlines : typeLines levels v = structLine levels v :: itemLines v "fields" (fieldLine levels) := by
      simp only [typeLines, hkind]
    rw [hlines, forall_described_iff hv (succeeds_structLine_iff hv) (fun x => succeeds_fieldLine_iff)
      fun x => exists_map_of_succeeds]
    constructor
    · rintro ⟨hhead, hrows⟩
      exact .struct hkind hhead hrows
    · rintro (⟨-, hhead, hrows⟩ | ⟨hother, -, -⟩)
      · exact ⟨hhead, hrows⟩
      · simp [hkind] at hother
  · have hlines : typeLines levels v = enumLine levels v :: itemLines v "variants" (variantLine levels) := by
      rw [typeLines, hkind]
      rfl
    rw [hlines, forall_described_iff hv (succeeds_enumLine_iff hv) (fun x => succeeds_variantLine_iff)
      fun x => exists_map_of_succeeds]
    constructor
    · rintro ⟨hhead, hrows⟩
      exact .enum hkind hhead hrows
    · rintro (⟨hother, -, -⟩ | ⟨-, hhead, hrows⟩)
      · simp [hkind] at hother
      · exact ⟨hhead, hrows⟩

/-- What does not count as given has no levels. -/
theorem depth_of_not_given (h : v.isGiven = false) : v.depth = 0 := by
  cases v with
  | list items => cases items <;> simp_all [Value.isGiven, Value.depth, Value.itemsDepth]
  | map es => cases es <;> simp_all [Value.isGiven, Value.depth, Value.entriesDepth]
  | ext => cases h
  | timestamp => cases h
  | _ => simp [Value.depth]

theorem succeeds_moduleLine_iff {m : Value} :
    Succeeds (moduleLine m levels) ↔ ∀ x, m.get? "module" = some x → x.depth ≤ levels + 1 := by
  refine succeeds_bind_pure_iff.trans ?_
  unfold moduleName
  cases m.get? "module" with
  | none => simp [succeeds_ok]
  | some x =>
    simp only [Option.some.injEq, forall_eq']
    cases hgiven : x.isGiven with
    | true => exact Value.succeeds_shownTo_iff
    | false => exact iff_of_true (succeeds_ok _) (by rw [depth_of_not_given hgiven]; omega)

theorem forall_summaryLines_iff {m : Value} (h : Holds bytes m) :
    (∀ l ∈ summaryLines m levels, Succeeds l) ↔ Printable levels m := by
  obtain ⟨blob, -, -, -, hblob, tys, htypes, hkinds⟩ := h
  have hm : m.Formatted := ⟨nestingLimit, blob, hblob⟩
  have htys : types m = tys := by simp only [types, htypes]
  have hlines : (∀ l ∈ layoutLines m levels, Succeeds l) ↔ ∀ e ∈ types m, e.Showable levels := by
    rw [layoutLines, List.forall_mem_flatMap, htys]
    refine forall₂_congr fun e he => ?_
    exact forall_typeLines_iff ((hm.entry htypes).item he) (hkinds e he)
  unfold summaryLines
  simp only [List.cons_append, List.nil_append, List.forall_mem_cons, succeeds_ok, true_and, hlines,
    succeeds_moduleLine_iff]
  exact ⟨fun h => ⟨h.1, h.2⟩, fun h => ⟨h.name, h.types⟩⟩

/-! ## The printed text -/

/-- The text of lines. -/
def textOf (lines : List String) : String := String.join (lines.map (· ++ "\n"))

theorem textOf_cons (s : String) (lines : List String) : textOf (s :: lines) = s ++ "\n" ++ textOf lines := by
  simp [textOf]

/-- Lines are printed up to the first that cannot be made. -/
theorem printed_append (lines : List String) (rest : List (Except SummaryFault String)) :
    printed (lines.map .ok ++ rest) = (textOf lines ++ (printed rest).1, (printed rest).2) := by
  induction lines with
  | nil => simp [textOf]
  | cons s lines ih =>
    rw [List.map_cons, List.cons_append, printed, ih, textOf_cons]
    simp only [String.append_assoc]

theorem printed_map (lines : List String) : printed (lines.map .ok) = (textOf lines, none) := by
  have h := printed_append lines []
  rw [List.append_nil] at h
  rw [h, printed, String.append_empty]

/-- Either all lines can be made, or there is a first that cannot. -/
theorem lines_cases (lines : List (Except SummaryFault String)) :
    (∃ texts : List String, lines = texts.map .ok) ∨
      ∃ (texts : List String) (f : _) (rest : _), lines = texts.map .ok ++ .error f :: rest := by
  induction lines with
  | nil => exact .inl ⟨[], rfl⟩
  | cons l lines ih =>
    cases l with
    | error f => exact .inr ⟨[], f, lines, rfl⟩
    | ok s =>
      rcases ih with ⟨texts, rfl⟩ | ⟨texts, f, rest, rfl⟩
      · exact .inl ⟨s :: texts, rfl⟩
      · exact .inr ⟨s :: texts, f, rest, rfl⟩

/-- The summary of a manifest that can be shown is printed whole. -/
theorem printed_of_printable {m : Value} (hm : Holds bytes m) (h : Printable levels m) :
    ∃ lines : List String, summaryLines m levels = lines.map .ok ∧ printed (summaryLines m levels) = (textOf lines, none) := by
  rcases lines_cases (summaryLines m levels) with ⟨lines, hlines⟩ | ⟨lines, f, rest, hlines⟩
  · refine ⟨lines, hlines, ?_⟩
    rw [hlines, printed_map]
  · have hfault := (forall_summaryLines_iff hm).mpr h (.error f) (by simp [hlines])
    exact absurd hfault (not_succeeds_error f)

/-- The summary of any other manifest is printed up to a line that cannot be made. -/
theorem printed_of_not_printable {m : Value} (hm : Holds bytes m) (h : ¬ Printable levels m) :
    ∃ (lines : List String) (f : SummaryFault) (rest : List (Except SummaryFault String)),
      summaryLines m levels = lines.map .ok ++ .error f :: rest ∧
        printed (summaryLines m levels) = (textOf lines, some f) := by
  rcases lines_cases (summaryLines m levels) with ⟨lines, hlines⟩ | ⟨lines, f, rest, hlines⟩
  · refine absurd ((forall_summaryLines_iff hm).mp ?_) h
    rw [hlines, List.forall_mem_map]
    exact fun s _ => succeeds_ok s
  · refine ⟨lines, f, rest, hlines, ?_⟩
    rw [hlines, printed_append, printed, String.append_empty]

end PackedSchema.Manifest
