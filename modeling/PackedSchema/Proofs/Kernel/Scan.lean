import PackedSchema.Source.Token
import PackedSchema.Proofs.Decimal.Numeral
import PackedSchema.Proofs.Kernel.Emission

/-!
# Scanning kernel texts

What a kernel text tells of the bytes of its declarations, found again from the lines of the text alone. The
scan gives back the offsets, body words and tags of the layouts that the text was made from, as long as the
names in it are names.
-/

namespace PackedSchema

/-- What is told of the bytes of a declaration. -/
inductive Outline
  /-- A struct, with the offsets of the fields that one load reads. -/
  | struct (name : String) (tagged : Bool) (fields : List (String × Int))
  /-- An enum, with the tags of its variants. -/
  | enum (name : String) (size bodyWords : Int) (tags : List (String × Int))
  deriving Repr, DecidableEq

namespace Outline

def name : Outline → String
  | struct n .. => n
  | enum n .. => n

/-- The outline without the mark of a tag word, if it is a field that has the name of the tag word. -/
def settled : Outline → Outline
  | struct name tagged fields => struct name (tagged && fields.all fun f => f.1 != tagName) fields
  | enum name size words tags => enum name size words tags

/-- An enum is as large as its words, and its tags count from one. -/
def Numbered : Outline → Prop
  | struct .. => True
  | enum _ size words tags =>
    size = 4 + 4 * words ∧ tags.map Prod.snd = (List.range' 1 tags.length).map Int.ofNat

theorem numbered_settled (o : Outline) : o.settled.Numbered ↔ o.Numbered := by cases o <;> rfl

end Outline

/-! ## Names -/

/-- The text has characters of names only. -/
def IsName (s : String) : Prop := ∀ c ∈ s.toList, Source.isNameChar c = true

-- Through the characters of the text: a search for an instance may go through all characters there are.
instance : DecidablePred IsName := fun s =>
  decidable_of_iff (s.toList.all Source.isNameChar = true) List.all_eq_true

theorem isName_append {a b : String} (ha : IsName a) (hb : IsName b) : IsName (a ++ b) := by
  intro c hc
  rw [String.toList_append, List.mem_append] at hc
  exact hc.elim (ha c) (hb c)

theorem IsName.notMem {s : String} (h : IsName s) {c : Char} (hc : Source.isNameChar c = false) :
    c ∉ s.toList := by
  intro hmem
  rw [h c hmem] at hc
  cases hc

theorem IsName.newline {s : String} (h : IsName s) : '\n' ∉ s.toList := h.notMem rfl

theorem IsName.bracket {s : String} (h : IsName s) : ']' ∉ s.toList := h.notMem rfl

theorem isName_repr (n : Nat) : IsName (Nat.repr n) := by
  intro c hc
  have hdigit := Numeral.isDigit_of_mem_repr hc
  simp [Source.isNameChar, Char.isAlphanum, hdigit]

/-- A type that can stand in a schema text. -/
def FieldType.Legible : FieldType → Prop
  | scalar _ => True
  | vector _ count => 1 ≤ count
  | named n => IsName n ∧ ScalarKind.ofKeyword? n = none
  | ref inner => inner.Legible
  | missing => False

instance FieldType.decidableLegible : (ty : FieldType) → Decidable ty.Legible
  | scalar _ => .isTrue trivial
  | vector _ count => inferInstanceAs (Decidable (1 ≤ count))
  | named n => inferInstanceAs (Decidable (IsName n ∧ ScalarKind.ofKeyword? n = none))
  | ref inner => inner.decidableLegible
  | missing => .isFalse id

/-- The names of a layout are names. No field of a tagged struct has the name of its tag word; an enum is as
large as its words, and its tags count from one. -/
def TypeLayout.Sound : TypeLayout → Prop
  | struct name _ _ tagged fields =>
    IsName name ∧ (∀ f ∈ fields, IsName f.name ∧ f.ty.Legible) ∧
      (tagged = true → ∀ f ∈ fields, f.name ≠ tagName)
  | enum name size words variants =>
    IsName name ∧ (∀ v ∈ variants, IsName v.1) ∧ size = 4 + 4 * words ∧
      variants.map Prod.snd = List.range' 1 variants.length

/-- What is told of the bytes of a layout. -/
def TypeLayout.outline : TypeLayout → Outline
  | struct name _ _ tagged fields =>
    .struct name tagged ((fields.filter fun f => f.ty.isSmall).map fun f => (f.name, f.offset))
  | enum name size words variants => .enum name size words (variants.map fun v => (v.1, (v.2 : Int)))

theorem TypeLayout.Sound.numbered {l : TypeLayout} (h : l.Sound) : l.outline.Numbered := by
  cases l with
  | struct => trivial
  | enum name size words variants =>
    obtain ⟨-, -, hsize, htags⟩ := h
    refine ⟨hsize, ?_⟩
    rw [List.length_map, ← htags]
    simp [Function.comp_def]

namespace Kernel

/-! ## The scan -/

/-- What stands between a beginning and an end of a line. -/
def between? (before after : String) (line : List Char) : Option (List Char) :=
  (before.toList.isPrefixOf? line).bind after.toList.isSuffixOf?

/-- What stands behind the first such character. -/
def behind (c : Char) (cs : List Char) : List Char := (cs.dropWhile (· ≠ c)).tail

def natural? (digits : List Char) : Option Nat :=
  if digits ≠ [] ∧ digits.all Char.isDigit then some (Nat.ofDigitChars 10 digits 0) else none

/-- A decimal number, of any length. -/
def number? : List Char → Option Int
  | '-' :: digits => (natural? digits).map fun n => -(n : Int)
  | digits => (natural? digits).map Int.ofNat

/-- The field in the name of an accessor, from its first line. -/
def fieldName? (name : String) (line : List Char) : Option String := do
  let start ← between? "" ("(const device char *buf, " ++ name ++ "Ref ref) \x7b") line
  return String.ofList (← between? (name ++ "_") "" (behind ' ' start))

def addressOffset? (cs : List Char) : Option Int :=
  if cs = "buf + ref".toList then some 0 else between? "buf + ref + " "" cs >>= number?

/-- The offset of the address that an accessor loads from. -/
def loadOffset? (line : List Char) : Option Int := do
  addressOffset? (behind '(' (← between? "    return *((const device " "));" line))

/-- The names and offsets of accessors, which take three lines each. -/
def accesses? (name : String) : List (List Char) → Option (List (String × Int))
  | [] => some []
  | head :: body :: foot :: rest => do
    let field ← fieldName? name head
    let offset ← loadOffset? body
    if foot = "\x7d".toList then return (field, offset) :: (← accesses? name rest) else none
  | _ => none

/-- The outline of a struct. It is marked as tagged by its first member, whatever that is. -/
def structOutline? : List (List Char) → Option Outline
  | [] => none
  | first :: rest => do
    let name := String.ofList (← between? "struct " "Packed \x7b" first)
    let accesses ← accesses? name (rest.dropWhile (· ≠ "\x7d;".toList)).tail
    if accesses.head? = some ("read", 0) then
      return .struct name (rest.head? = some "    uint tag;".toList) accesses.tail
    else none

/-- A variant and its tag. -/
def definition? (name : String) (line : List Char) : Option (String × Int) := do
  let rest ← between? ("#define " ++ name ++ "_") "" line
  return (String.ofList (rest.takeWhile (· ≠ ' ')), ← number? (behind ' ' rest))

def enumOutline? : List (List Char) → Option Outline
  | first :: _ :: body :: _ :: _ :: _ :: _ :: definitions => do
    let name := String.ofList (← between? "struct " " \x7b" first)
    let words ← number? (← between? "    uint body[" "];" body)
    return .enum name (4 + 4 * words) words (← definitions.mapM (definition? name))
  | _ => none

def outline? (block : List (List Char)) : Option Outline := enumOutline? block <|> structOutline? block

/-- The lines of each declaration. They stand between empty lines, behind the aliases. -/
def blocks (text : String) : List (List (List Char)) :=
  ((text.toList.splitOn '\n').splitOn []).tail.filter (· ≠ [])

/-- The outlines of all declarations of a kernel text. -/
def scan (text : String) : Option (List Outline) := (blocks text).mapM outline?

/-- What the kernel text of a layout shows of it. -/
def shown (t : TypeTable) : TypeLayout → Outline
  | .struct name _ _ tagged fields =>
    .struct name ((members t tagged fields).head? = some (wordType, tagName))
      ((fields.filter fun f => f.ty.isSmall).map fun f => (f.name, f.offset))
  | .enum name _ words variants =>
    .enum name (4 + 4 * words) words (variants.map fun v => (v.1, (v.2 : Int)))

/-! ## Parts of lines -/

section Parts

variable {before after : String} {line inner cs rest : List Char} {c : Char}

theorem between?_eq_some_iff :
    between? before after line = some inner ↔ line = before.toList ++ (inner ++ after.toList) := by
  simp only [between?, Option.bind_eq_some_iff, List.isPrefixOf?_eq_some_iff_append_eq,
    List.isSuffixOf?_eq_some_iff_append_eq]
  constructor
  · rintro ⟨_, rfl, rfl⟩
    rfl
  · rintro rfl
    exact ⟨_, rfl, rfl⟩

theorem behind_append (h : c ∉ cs) : behind c (cs ++ c :: rest) = rest := by
  have hpass : ∀ d ∈ cs, decide (d ≠ c) = true := by
    intro d hd
    simp only [ne_eq, decide_eq_true_eq]
    rintro rfl
    exact h hd
  rw [behind, List.dropWhile_append_of_pos hpass]
  simp

theorem natural?_repr (n : Nat) : natural? (Nat.repr n).toList = some n := by
  have hdigits : (Nat.repr n).toList.all Char.isDigit = true :=
    List.all_eq_true.mpr fun _ => Numeral.isDigit_of_mem_repr
  rw [natural?, if_pos ⟨Numeral.toList_repr_ne_nil n, hdigits⟩, Nat.toList_repr,
    Nat.ofDigitChars_ten_toDigits]

theorem number?_repr (n : Nat) : number? (Nat.repr n).toList = some (n : Int) := by
  have hsign : ∀ digits, (Nat.repr n).toList ≠ '-' :: digits := by
    intro digits h
    have hminus : ('-').isDigit = true :=
      Numeral.isDigit_of_mem_repr (n := n) (by rw [h]; exact List.mem_cons_self)
    cases hminus
  rw [number?.eq_2 _ hsign, natural?_repr]
  rfl

theorem number?_write {n : Int} {s : String} (h : Numeral.write n = .ok s) : number? s.toList = some n := by
  rw [Numeral.write_eq_ok h]
  cases n with
  | ofNat k => exact number?_repr k
  | negSucc k =>
    have htext : (Numeral.text (.negSucc k)).toList = '-' :: (Nat.repr (k + 1)).toList := by
      simp [Numeral.text]
    rw [htext, number?, natural?_repr]
    rfl

end Parts

/-! ## Accessors read back -/

section Accessors

variable {t : TypeTable} {name field type a : String} {offset : Int} {rest : List (List Char)}

theorem isName_typeName (t : TypeTable) {ty : FieldType} (h : ty.Legible) : IsName (typeName t ty) := by
  cases ty with
  | scalar k =>
    change IsName k.kernelName
    cases k <;> decide
  | vector k count =>
    obtain ⟨n, rfl⟩ := Int.eq_ofNat_of_zero_le (show 0 ≤ count by have : 1 ≤ count := h; omega)
    refine isName_append ?_ (isName_repr n)
    cases k <;> decide
  | named n => exact isName_append h.1 (by decide)
  | missing => cases h
  | ref inner =>
    -- Only a reference to a declared name shows what it refers to.
    cases inner with
    | named n =>
      simp only [typeName]
      split
      · exact isName_append h.1 (by decide)
      · decide
    | _ => exact (by decide : IsName wordType)

theorem fieldName?_signature (h : IsName type) :
    fieldName? name (signature type (name ++ "_" ++ field) name).toList = some field := by
  have hline : between? "" ("(const device char *buf, " ++ name ++ "Ref ref) \x7b")
      (signature type (name ++ "_" ++ field) name).toList =
        some (type.toList ++ ' ' :: (name ++ "_" ++ field).toList) := by
    rw [between?_eq_some_iff]
    simp [signature, aliasOf, opening]
  have hname : between? (name ++ "_") "" (name ++ "_" ++ field).toList = some field.toList := by
    rw [between?_eq_some_iff]
    simp
  simp only [fieldName?, hline, Option.bind_eq_bind, Option.bind_some,
    behind_append (h.notMem (c := ' ') rfl), hname, Option.pure_def, String.ofList_toList]

theorem addressOffset?_address (h : address offset = .ok a) : addressOffset? a.toList = some offset := by
  unfold address at h
  split at h
  case isTrue hzero =>
    cases h
    rw [hzero]
    rfl
  case isFalse =>
    obtain ⟨s, hs, h⟩ := bind_eq_ok_iff.mp h
    cases h
    have hbetween : between? "buf + ref + " "" ("buf + ref + " ++ s).toList = some s.toList := by
      rw [between?_eq_some_iff]
      simp
    have hne : ("buf + ref + " ++ s).toList ≠ "buf + ref".toList := by simp
    unfold addressOffset?
    rw [if_neg hne, hbetween, Option.bind_eq_bind, Option.bind_some, number?_write hs]

theorem loadOffset?_load (htype : IsName type) (h : address offset = .ok a) :
    loadOffset? (load type a).toList = some offset := by
  have hline : between? "    return *((const device " "));" (load type a).toList =
      some ((type ++ " *)").toList ++ '(' :: a.toList) := by
    rw [between?_eq_some_iff]
    unfold load
    simp
  have hfree : '(' ∉ (type ++ " *)").toList := by
    simp [htype.notMem (c := '(') rfl]
  unfold loadOffset?
  rw [hline, Option.bind_eq_bind, Option.bind_some, behind_append hfree, addressOffset?_address h]

theorem accesses?_cons (htype : IsName type) (h : address offset = .ok a) :
    accesses? name ((signature type (name ++ "_" ++ field) name).toList :: (load type a).toList ::
      closing.toList :: rest) = (accesses? name rest).map ((field, offset) :: ·) := by
  have hclosing : closing.toList = "\x7d".toList := rfl
  simp only [accesses?, fieldName?_signature htype, loadOffset?_load htype h, hclosing, if_true]
  cases accesses? name rest <;> rfl

theorem linesOf_cons_eq_ok {i : Item} {items : List Item} {lines : List String}
    (h : linesOf (i :: items) = .ok lines) :
    ∃ first later, i.lines = .ok first ∧ linesOf items = .ok later ∧ lines = first ++ later := by
  obtain ⟨parts, hparts, h⟩ := bind_eq_ok_iff.mp h
  cases h
  rw [mapM_eq_ok_iff] at hparts
  cases hparts with
  | cons hfirst hlater =>
    refine ⟨_, _, hfirst, ?_, rfl⟩
    exact bind_eq_ok_iff.mpr ⟨_, mapM_eq_ok_iff.mpr hlater, rfl⟩

/-- The accessors of fields are read back as their names and offsets. -/
theorem accesses?_accessors {fields : List FieldLayout} {lines : List String}
    (hfields : ∀ f ∈ fields, f.ty.Legible) (h : linesOf (accessors t name fields) = .ok lines) :
    accesses? name (lines.map String.toList) =
      some ((fields.filter fun f => f.ty.isSmall).map fun f => (f.name, f.offset)) := by
  unfold accessors at h
  have hsmall : ∀ f ∈ fields.filter (fun f => f.ty.isSmall), f.ty.Legible :=
    fun f hf => hfields f (List.mem_of_mem_filter hf)
  generalize fields.filter (fun f => f.ty.isSmall) = small at h hsmall ⊢
  induction small generalizing lines with
  | nil =>
    cases h
    rfl
  | cons f small ih =>
    rw [List.forall_mem_cons] at hsmall
    obtain ⟨hty, hsmall⟩ := hsmall
    obtain ⟨first, later, hfirst, hlater, rfl⟩ := linesOf_cons_eq_ok h
    obtain ⟨a, ha, hfirst⟩ := bind_eq_ok_iff.mp hfirst
    cases hfirst
    simp only [List.cons_append, List.nil_append, List.map_cons,
      accesses?_cons (isName_typeName t hty) ha, ih hlater hsmall, Option.map_some]

end Accessors

/-! ## Characters of lines -/

/-- A text that is one line, and not an empty one. -/
def Closed (line : String) : Prop := line.toList ≠ [] ∧ '\n' ∉ line.toList

/-- A line without a closing bracket. -/
def Quiet (line : String) : Prop := Closed line ∧ ']' ∉ line.toList

/-- The texts in an item are names. -/
def Item.Legible : Item → Prop
  | refAlias name | reader name | tagged name _ | tagReader name => IsName name
  | packed name members => IsName name ∧ ∀ m ∈ members, IsName m.1 ∧ IsName m.2
  | accessor name field type _ => IsName name ∧ IsName field ∧ IsName type
  | tagMacro enum variant _ => IsName enum ∧ IsName variant

section Lines

variable {i : Item} {lines : List String} {s : String} {n : Int}

theorem notMem_of_write (h : Numeral.write n = .ok s) {c : Char} (hdigit : c.isDigit = false)
    (hsign : c ≠ '-') : c ∉ s.toList := by
  rw [Numeral.write_eq_ok h]
  intro hmem
  rcases Numeral.isDigit_of_mem_text hmem with hc | hc
  · rw [hc] at hdigit
    cases hdigit
  · exact hsign hc

theorem quiet_address (h : address n = .ok s) : Quiet s := by
  unfold address at h
  split at h
  · cases h
    simp [Quiet, Closed]
  · obtain ⟨digits, hdigits, h⟩ := bind_eq_ok_iff.mp h
    cases h
    have hend := notMem_of_write hdigits (c := '\n') rfl (by decide)
    have hbracket := notMem_of_write hdigits (c := ']') rfl (by decide)
    simp [Quiet, Closed, hend, hbracket]

theorem quiet_signature {result name declared : String} (hresult : IsName result) (hname : IsName name)
    (hdeclared : IsName declared) : Quiet (signature result name declared) := by
  simp [Quiet, Closed, signature, aliasOf, opening, hresult.newline, hresult.bracket, hname.newline,
    hname.bracket, hdeclared.newline, hdeclared.bracket]

theorem quiet_load {type a : String} (htype : IsName type) (ha : Quiet a) : Quiet (load type a) := by
  obtain ⟨⟨-, hend⟩, hbracket⟩ := ha
  unfold load
  simp [Quiet, Closed, htype.newline, htype.bracket, hend, hbracket]

theorem quiet_closing : Quiet closing := by simp [Quiet, Closed, closing]

/-- Only the lines that declare a body have a bracket. -/
theorem quiet_lines (hlegible : i.Legible) (h : i.lines = .ok lines)
    (hbody : ∀ name words, i ≠ .tagged name words) : ∀ line ∈ lines, Quiet line := by
  cases i with
  | refAlias name =>
    cases h
    have hname : IsName name := hlegible
    simp [Quiet, Closed, wordType, aliasOf, hname.newline, hname.bracket]
  | packed name members =>
    cases h
    obtain ⟨hname, hmembers⟩ := hlegible
    simp only [List.forall_mem_append, List.forall_mem_singleton, List.forall_mem_map]
    refine ⟨⟨?_, fun m hm => ?_⟩, ?_⟩
    · simp [Quiet, Closed, packedOf, opening, hname.newline, hname.bracket]
    · obtain ⟨htype, hm⟩ := hmembers m hm
      simp [Quiet, Closed, member, htype.newline, htype.bracket, hm.newline, hm.bracket]
    · simp [Quiet, Closed, closing]
  | reader name =>
    cases h
    have hpacked : IsName (packedOf name) := isName_append hlegible (by decide)
    have hread : IsName (name ++ "_read") := isName_append hlegible (by decide)
    have haddress : Quiet "buf + ref" := by simp [Quiet, Closed]
    simp only [List.forall_mem_cons]
    exact ⟨quiet_signature hpacked hread hlegible, quiet_load hpacked haddress, quiet_closing,
      List.forall_mem_nil _⟩
  | accessor name field type offset =>
    obtain ⟨a, ha, h⟩ := bind_eq_ok_iff.mp h
    cases h
    obtain ⟨hname, hfield, htype⟩ := hlegible
    have hcalled : IsName (name ++ "_" ++ field) :=
      isName_append (isName_append hname (by decide)) hfield
    simp only [List.forall_mem_cons]
    exact ⟨quiet_signature htype hcalled hname, quiet_load htype (quiet_address ha), quiet_closing,
      List.forall_mem_nil _⟩
  | tagged name words => exact absurd rfl (hbody name words)
  | tagReader name =>
    cases h
    have hname : IsName name := hlegible
    have htag : IsName (name ++ "_tag") := isName_append hname (by decide)
    simp only [List.forall_mem_cons]
    refine ⟨quiet_signature (by decide) htag hname, ?_, quiet_closing, List.forall_mem_nil _⟩
    simp [Quiet, Closed, tagName, hname.newline, hname.bracket]
  | tagMacro enum variant tag =>
    cases h
    obtain ⟨henum, hvariant⟩ := hlegible
    have htag := isName_repr tag
    simp [Quiet, Closed, -Nat.toList_repr, henum.newline, henum.bracket, hvariant.newline,
      hvariant.bracket, htag.newline, htag.bracket]

theorem lines_closed (hlegible : i.Legible) (h : i.lines = .ok lines) :
    ∀ line ∈ lines, Closed line := by
  by_cases hbody : ∃ name words, i = .tagged name words
  · obtain ⟨name, words, rfl⟩ := hbody
    obtain ⟨digits, hdigits, h⟩ := bind_eq_ok_iff.mp h
    cases h
    have hname : IsName name := hlegible
    have hwords := notMem_of_write hdigits (c := '\n') rfl (by decide)
    simp [Closed, member, wordType, tagName, opening, closing, hname.newline, hwords]
  · simp only [not_exists] at hbody
    exact fun line hline => (quiet_lines hlegible h hbody line hline).1

end Lines

/-! ## Structs read back -/

section Structs

variable {t : TypeTable} {name type : String} {lines : List String} {ms : List (String × String)}
  {more : List (List Char)} {fields : List FieldLayout} {tagged : Bool}

theorem enumOutline?_eq_none {block : List (List Char)} (h : ∀ line ∈ block, ']' ∉ line) :
    enumOutline? block = none := by
  unfold enumOutline?
  split
  · rename_i first _ body _ _ _ _ definitions
    have hbody : between? "    uint body[" "];" body = none := by
      apply Option.eq_none_iff_forall_ne_some.mpr
      intro inner hinner
      rw [between?_eq_some_iff] at hinner
      exact h body (by simp) (by simp [hinner])
    rw [hbody]
    cases between? "struct " " \x7b" first <;> rfl
  · rfl

theorem toList_member (type name : String) :
    (member type name).toList = "    ".toList ++ (type.toList ++ ' ' :: (name.toList ++ [';'])) := by
  simp [member]

theorem member_ne_end (type name : String) : (member type name).toList ≠ "\x7d;".toList := by
  simp [toList_member]

/-- A member is written as the tag word only if it has its type and name. -/
theorem member_eq_tag_iff (h : IsName type) (name : String) :
    (member type name).toList = "    uint tag;".toList ↔ type = wordType ∧ name = tagName := by
  constructor
  · intro heq
    have htag : "    uint tag;".toList = (member wordType tagName).toList := rfl
    rw [htag, toList_member, toList_member, List.append_cancel_left_eq] at heq
    -- The first blank ends the type on both sides.
    have hword : IsName wordType := by decide
    have hbehind := congrArg (behind ' ') heq
    rw [behind_append (h.notMem rfl), behind_append (hword.notMem rfl), List.append_cancel_right_eq]
      at hbehind
    rw [hbehind, List.append_cancel_right_eq] at heq
    exact ⟨String.toList_inj.mp heq, String.toList_inj.mp hbehind⟩
  · rintro ⟨rfl, rfl⟩
    rfl

theorem isSmall_of_typeName {ty : FieldType} (h : typeName t ty = wordType) : ty.isSmall = true := by
  cases ty with
  | named n =>
    have hlength : (n ++ "Packed").length = "uint".length := congrArg String.length h
    have hpacked : "Packed".length = 6 := rfl
    have hword : "uint".length = 4 := rfl
    rw [String.length_append] at hlength
    omega
  | _ => rfl

/-- The lines of a packed declaration up to its end. -/
theorem dropWhile_members (ms : List (String × String)) (more : List (List Char)) :
    (ms.map (fun m => (member m.1 m.2).toList) ++ "\x7d;".toList :: more).dropWhile
      (· ≠ "\x7d;".toList) = "\x7d;".toList :: more := by
  rw [List.dropWhile_append_of_pos]
  · simp
  · rw [List.forall_mem_map]
    exact fun m _ => decide_eq_true (member_ne_end m.1 m.2)

theorem head?_members (hms : ∀ m ∈ ms, IsName m.1) :
    (ms.map (fun m => (member m.1 m.2).toList) ++ "\x7d;".toList :: more).head? =
      some "    uint tag;".toList ↔ ms.head? = some (wordType, tagName) := by
  cases ms with
  | nil => simp
  | cons m ms =>
    have hm := member_eq_tag_iff (hms m List.mem_cons_self) m.2
    simp only [List.map_cons, List.cons_append, List.head?_cons, Option.some.injEq, hm, Prod.ext_iff]

/-- The members of a struct begin with a tag word only if it is tagged or its first field looks the same. -/
theorem head?_members_iff :
    (members t tagged fields).head? = some (wordType, tagName) ↔
      tagged = true ∨ ∃ f ∈ fields.head?, typeName t f.ty = wordType ∧ f.name = tagName := by
  cases tagged with
  | true => simp [members]
  | false => cases fields <;> simp [members]

theorem linesOf_struct {size alignment : Int}
    (h : linesOf (itemsOf t (.struct name size alignment tagged fields)) = .ok lines) :
    ∃ later, linesOf (accessors t name fields) = .ok later ∧
      lines = ("struct " ++ packedOf name ++ " " ++ opening) ::
        ((members t tagged fields).map (fun m => member m.1 m.2) ++ (closing ++ ";") ::
          signature (packedOf name) (name ++ "_" ++ "read") name ::
            load (packedOf name) "buf + ref" :: closing :: later) := by
  obtain ⟨packed, rest, hpacked, hrest, rfl⟩ := linesOf_cons_eq_ok h
  obtain ⟨reader, later, hreader, hlater, rfl⟩ := linesOf_cons_eq_ok hrest
  cases hpacked
  cases hreader
  have hread : name ++ "_" ++ "read" = name ++ "_read" := String.append_assoc
  refine ⟨later, hlater, ?_⟩
  rw [hread]
  simp

theorem isName_members (hfields : ∀ f ∈ fields, IsName f.name ∧ f.ty.Legible) :
    ∀ m ∈ members t tagged fields, IsName m.1 ∧ IsName m.2 := by
  unfold members
  rw [List.forall_mem_append, List.forall_mem_map]
  constructor
  · split
    · rw [List.forall_mem_singleton]
      decide
    · exact List.forall_mem_nil _
  · intro f hf
    obtain ⟨hname, hty⟩ := hfields f hf
    exact ⟨isName_typeName t hty, hname⟩

/-- A struct is read back with the offsets of its fields. -/
theorem structOutline?_itemsOf {size alignment : Int} (hname : IsName name)
    (hfields : ∀ f ∈ fields, IsName f.name ∧ f.ty.Legible)
    (h : linesOf (itemsOf t (.struct name size alignment tagged fields)) = .ok lines) :
    structOutline? (lines.map String.toList) =
      some (shown t (.struct name size alignment tagged fields)) := by
  obtain ⟨later, hlater, rfl⟩ := linesOf_struct h
  have hfirst : between? "struct " "Packed \x7b" ("struct " ++ packedOf name ++ " " ++ opening).toList =
      some name.toList := by
    rw [between?_eq_some_iff]
    simp [packedOf, opening]
  have hmembers : ∀ m ∈ members t tagged fields, IsName m.1 := fun m hm => (isName_members hfields m hm).1
  have hpacked : IsName (packedOf name) := isName_append hname (by decide)
  have haccesses : accesses? name ((signature (packedOf name) (name ++ "_" ++ "read") name).toList ::
      (load (packedOf name) "buf + ref").toList :: closing.toList :: later.map String.toList) =
        some (("read", 0) ::
          (fields.filter fun f => f.ty.isSmall).map fun f => (f.name, f.offset)) := by
    have hstart : address 0 = .ok "buf + ref" := rfl
    rw [accesses?_cons hpacked hstart, accesses?_accessors (fun f hf => (hfields f hf).2) hlater,
      Option.map_some]
  have hend : (closing ++ ";").toList = "\x7d;".toList := rfl
  simp only [List.map_cons, List.map_append, List.map_map, Function.comp_def, hend, structOutline?, hfirst,
    Option.bind_eq_bind, Option.bind_some, String.ofList_toList, dropWhile_members, List.tail_cons,
    haccesses, List.head?_cons, if_true, head?_members hmembers, Option.pure_def, shown]

/-- The mark of a struct is settled by its fields. -/
theorem settled_struct {size alignment : Int} (hfree : tagged = true → ∀ f ∈ fields, f.name ≠ tagName) :
    (shown t (.struct name size alignment tagged fields)).settled =
      (TypeLayout.struct name size alignment tagged fields).outline := by
  simp only [shown, Outline.settled, TypeLayout.outline, Outline.struct.injEq, true_and, and_true,
    head?_members_iff]
  cases tagged with
  | true =>
    -- No field has the name of the tag word.
    have hfields : ∀ f ∈ fields, f.ty.isSmall = false ∨ f.name ≠ tagName :=
      fun f hf => .inr (hfree rfl f hf)
    simpa using hfields
  | false =>
    -- A first field that looks like the tag word has an accessor of that name.
    simp only [Bool.false_eq_true, false_or, Bool.and_eq_false_imp, decide_eq_true_eq]
    rintro ⟨f, hf, htype, hname⟩
    have hmem : f ∈ fields := List.mem_of_head? hf
    simp only [List.all_eq_false, List.mem_map, List.mem_filter]
    exact ⟨_, ⟨f, ⟨hmem, isSmall_of_typeName htype⟩, rfl⟩, by simp [hname]⟩

end Structs

/-! ## Enums read back -/

section Enums

variable {t : TypeTable} {name variant : String} {lines : List String} {size words : Int}
  {variants : List (String × Nat)}

theorem definition?_line (hvariant : IsName variant) (tag : Nat) :
    definition? name ("#define " ++ name ++ "_" ++ variant ++ " " ++ Nat.repr tag).toList =
      some (variant, (tag : Int)) := by
  have hline : between? ("#define " ++ name ++ "_") ""
      ("#define " ++ name ++ "_" ++ variant ++ " " ++ Nat.repr tag).toList =
        some (variant.toList ++ ' ' :: (Nat.repr tag).toList) := by
    rw [between?_eq_some_iff]
    simp
  have hfree : ' ' ∉ variant.toList := hvariant.notMem rfl
  have htake : (variant.toList ++ ' ' :: (Nat.repr tag).toList).takeWhile (· ≠ ' ') = variant.toList := by
    rw [List.takeWhile_append_of_pos]
    · simp
    · intro c hc
      simp only [ne_eq, decide_eq_true_eq]
      rintro rfl
      exact hfree hc
  simp only [definition?, hline, Option.bind_eq_bind, Option.bind_some, htake, behind_append hfree,
    number?_repr, String.ofList_toList, Option.pure_def]

theorem mapM_definition? (hvariants : ∀ v ∈ variants, IsName v.1)
    (h : linesOf (variants.map fun v => .tagMacro name v.1 v.2) = .ok lines) :
    (lines.map String.toList).mapM (definition? name) =
      some (variants.map fun v => (v.1, (v.2 : Int))) := by
  induction variants generalizing lines with
  | nil =>
    cases h
    rfl
  | cons v variants ih =>
    rw [List.forall_mem_cons] at hvariants
    obtain ⟨hv, hvariants⟩ := hvariants
    obtain ⟨first, later, hfirst, hlater, rfl⟩ := linesOf_cons_eq_ok h
    cases hfirst
    simp only [List.cons_append, List.nil_append, List.map_cons, List.mapM_cons, definition?_line hv,
      ih hvariants hlater]
    rfl

/-- An enum is read back with its body words and the tags of its variants. -/
theorem enumOutline?_itemsOf (hvariants : ∀ v ∈ variants, IsName v.1)
    (h : linesOf (itemsOf t (.enum name size words variants)) = .ok lines) :
    enumOutline? (lines.map String.toList) = some (shown t (.enum name size words variants)) := by
  obtain ⟨declared, rest, hdeclared, hrest, rfl⟩ := linesOf_cons_eq_ok h
  obtain ⟨reader, later, hreader, hlater, rfl⟩ := linesOf_cons_eq_ok hrest
  obtain ⟨digits, hdigits, hdeclared⟩ := bind_eq_ok_iff.mp hdeclared
  cases hdeclared
  cases hreader
  have hfirst : between? "struct " " \x7b" ("struct " ++ name ++ " " ++ opening).toList =
      some name.toList := by
    rw [between?_eq_some_iff]
    simp [opening]
  have hbody : between? "    uint body[" "];" ("    " ++ wordType ++ " body[" ++ digits ++ "];").toList =
      some digits.toList := by
    rw [between?_eq_some_iff]
    simp [wordType]
  simp only [List.cons_append, List.nil_append, List.map_cons, enumOutline?, hfirst, hbody,
    Option.bind_eq_bind, Option.bind_some, number?_write hdigits, String.ofList_toList,
    mapM_definition? hvariants hlater, Option.pure_def, shown]

end Enums

/-! ## Texts read back -/

section Texts

variable {t : TypeTable} {l : TypeLayout} {layouts : List TypeLayout} {lines : List String}

theorem legible_itemsOf (hl : l.Sound) : ∀ i ∈ itemsOf t l, i.Legible := by
  cases l with
  | struct name size alignment tagged fields =>
    obtain ⟨hname, hfields, -⟩ := hl
    simp only [itemsOf, List.forall_mem_cons, accessors, List.forall_mem_map, List.mem_filter]
    refine ⟨⟨hname, isName_members hfields⟩, hname, fun f hf => ?_⟩
    obtain ⟨hfield, hty⟩ := hfields f hf.1
    exact ⟨hname, hfield, isName_typeName t hty⟩
  | enum name size words variants =>
    obtain ⟨hname, hvariants, -⟩ := hl
    simp only [itemsOf, List.forall_mem_cons, List.forall_mem_map]
    exact ⟨hname, hname, fun v hv => ⟨hname, hvariants v hv⟩⟩

/-- What holds of the lines of each item holds of all lines. -/
theorem forall_mem_linesOf {items : List Item} {P : String → Prop} (h : linesOf items = .ok lines)
    (hitems : ∀ i ∈ items, ∀ ls, i.lines = .ok ls → ∀ line ∈ ls, P line) : ∀ line ∈ lines, P line := by
  induction items generalizing lines with
  | nil =>
    cases h
    exact List.forall_mem_nil _
  | cons i items ih =>
    obtain ⟨first, later, hfirst, hlater, rfl⟩ := linesOf_cons_eq_ok h
    rw [List.forall_mem_cons] at hitems
    rw [List.forall_mem_append]
    exact ⟨hitems.1 first hfirst, ih hlater hitems.2⟩

theorem linesOf_closed {items : List Item} (h : linesOf items = .ok lines)
    (hitems : ∀ i ∈ items, i.Legible) : ∀ line ∈ lines, Closed line :=
  forall_mem_linesOf h fun i hi _ hlines => lines_closed (hitems i hi) hlines

theorem name_shown (t : TypeTable) (l : TypeLayout) : (shown t l).name = l.name := by cases l <;> rfl

theorem settled_shown (t : TypeTable) (hl : l.Sound) : (shown t l).settled = l.outline := by
  cases l with
  | struct => exact settled_struct hl.2.2
  | enum =>
    obtain ⟨-, -, rfl, -⟩ := hl
    rfl

/-- The lines of a declaration give back what they show of it. -/
theorem outline?_itemsOf (hl : l.Sound) (h : linesOf (itemsOf t l) = .ok lines) :
    outline? (lines.map String.toList) = some (shown t l) := by
  cases l with
  | struct name size alignment tagged fields =>
    have hquiet : ∀ line ∈ lines.map String.toList, ']' ∉ line := by
      rw [List.forall_mem_map]
      refine forall_mem_linesOf h fun i hi ls hls line hline => ?_
      refine (quiet_lines (legible_itemsOf hl i hi) hls ?_ line hline).2
      rintro n words rfl
      simp [itemsOf, accessors] at hi
    obtain ⟨hname, hfields, -⟩ := hl
    rw [outline?, enumOutline?_eq_none hquiet, structOutline?_itemsOf hname hfields h]
    rfl
  | enum name size words variants =>
    obtain ⟨-, hvariants, -⟩ := hl
    rw [outline?, enumOutline?_itemsOf hvariants h]
    rfl

theorem intercalate_cons_eq {α : Type} (x : α) (first : List α) (later : List (List α)) :
    [x].intercalate (first :: later) = first ++ (later.map (x :: ·)).flatten := by
  induction later generalizing first with
  | nil => simp
  | cons next later ih => simp [List.intercalate_cons_cons, ih]

theorem splitOn_text (hne : lines ≠ []) (hlines : ∀ line ∈ lines, '\n' ∉ line.toList) :
    ("\n".intercalate lines ++ "\n").toList.splitOn '\n' = lines.map String.toList ++ [[]] := by
  have htext : ("\n".intercalate lines ++ "\n").toList =
      ['\n'].intercalate (lines.map String.toList ++ [[]]) := by
    cases lines with
    | nil => exact absurd rfl hne
    | cons first later =>
      rw [String.toList_append, String.toList_intercalate]
      simp [intercalate_cons_eq]
  rw [htext, List.splitOn_intercalate]
  · simp only [List.forall_mem_append, List.forall_mem_map, List.forall_mem_singleton]
    exact ⟨hlines, List.not_mem_nil⟩
  · simp

theorem splitOn_lines {aliases : List String} {bodies : List (List String)}
    (haliases : ∀ line ∈ aliases, line.toList ≠ [])
    (hbodies : ∀ body ∈ bodies, ∀ line ∈ body, line.toList ≠ []) :
    ((aliases ++ (bodies.map ("" :: ·)).flatten).map String.toList ++ [[]]).splitOn [] =
      aliases.map String.toList :: ((bodies.map fun body => body.map String.toList) ++ [[]]) := by
  have hlines : (aliases ++ (bodies.map ("" :: ·)).flatten).map String.toList ++ [[]] =
      [[]].intercalate (aliases.map String.toList ::
        ((bodies.map fun body => body.map String.toList) ++ [[]])) := by
    simp [intercalate_cons_eq, List.map_flatten, Function.comp_def]
  have hfree {ls : List String} (h : ∀ line ∈ ls, line.toList ≠ []) : [] ∉ ls.map String.toList := by
    intro hmem
    obtain ⟨line, hline, hnil⟩ := List.mem_map.mp hmem
    exact h line hline hnil
  rw [hlines, List.splitOn_intercalate]
  · simp only [List.forall_mem_cons, List.forall_mem_append, List.forall_mem_map]
    exact ⟨hfree haliases, fun body hbody => hfree (hbodies body hbody), List.not_mem_nil,
      List.forall_mem_nil _⟩
  · simp

/-- The blocks of a text stand between its empty lines. -/
theorem blocks_text {aliases : List String} {bodies : List (List String)}
    (haliases : ∀ line ∈ aliases, Closed line)
    (hbodies : ∀ body ∈ bodies, body ≠ [] ∧ ∀ line ∈ body, Closed line) :
    blocks ("\n".intercalate (aliases ++ (bodies.map ("" :: ·)).flatten) ++ "\n") =
      bodies.map fun body => body.map String.toList := by
  by_cases hempty : aliases = [] ∧ bodies = []
  · obtain ⟨rfl, rfl⟩ := hempty
    rfl
  · have hne : aliases ++ (bodies.map ("" :: ·)).flatten ≠ [] := by
      intro hnil
      obtain ⟨haliases, hflat⟩ := List.append_eq_nil_iff.mp hnil
      cases bodies with
      | nil => exact hempty ⟨haliases, rfl⟩
      | cons body bodies => cases hflat
    have hlines : ∀ line ∈ aliases ++ (bodies.map ("" :: ·)).flatten, '\n' ∉ line.toList := by
      simp only [List.forall_mem_append, List.forall_mem_flatten, List.forall_mem_map,
        List.forall_mem_cons]
      exact ⟨fun line hline => (haliases line hline).2, fun body hbody =>
        ⟨by simp, fun line hline => ((hbodies body hbody).2 line hline).2⟩⟩
    have hfilter : ∀ block ∈ bodies.map fun body => body.map String.toList, decide (block ≠ []) = true := by
      simp only [List.forall_mem_map, ne_eq, List.map_eq_nil_iff, decide_eq_true_eq]
      exact fun body hbody => (hbodies body hbody).1
    rw [blocks, splitOn_text hne hlines, splitOn_lines (fun line hline => (haliases line hline).1)
      fun body hbody line hline => ((hbodies body hbody).2 line hline).1]
    simp only [List.tail_cons, List.filter_append, List.filter_eq_self.mpr hfilter]
    simp

theorem linesOf_itemsOf_ne_nil {body : List String} (h : linesOf (itemsOf t l) = .ok body) : body ≠ [] := by
  cases l with
  | struct name size alignment tagged fields =>
    obtain ⟨later, -, rfl⟩ := linesOf_struct h
    simp
  | enum name size words variants =>
    obtain ⟨first, later, hfirst, -, rfl⟩ := linesOf_cons_eq_ok h
    obtain ⟨digits, -, hfirst⟩ := bind_eq_ok_iff.mp hfirst
    cases hfirst
    simp

theorem outlines_of_bodies {bodies : List (List String)} (hlayouts : ∀ l ∈ layouts, l.Sound)
    (h : List.Forall₂ (fun l body => linesOf (itemsOf t l) = .ok body) layouts bodies) :
    (∀ body ∈ bodies, body ≠ [] ∧ ∀ line ∈ body, Closed line) ∧
      (bodies.map fun body => body.map String.toList).mapM outline? = some (layouts.map (shown t)) := by
  induction h with
  | nil => exact ⟨List.forall_mem_nil _, rfl⟩
  | cons hbody _ ih =>
    rw [List.forall_mem_cons] at hlayouts
    obtain ⟨hl, hlayouts⟩ := hlayouts
    obtain ⟨hbodies, houtlines⟩ := ih hlayouts
    refine ⟨?_, ?_⟩
    · rw [List.forall_mem_cons]
      exact ⟨⟨linesOf_itemsOf_ne_nil hbody, linesOf_closed hbody (legible_itemsOf hl)⟩, hbodies⟩
    · rw [List.map_cons, List.mapM_cons, outline?_itemsOf hl hbody, houtlines]
      rfl

/-- A kernel text gives back what it shows of the layouts that it was made from. -/
theorem scan_text {s : String} (hnames : ∀ d ∈ t.decls, IsName d.name) (hlayouts : ∀ l ∈ layouts, l.Sound)
    (h : text t layouts = .ok s) : scan s = some (layouts.map (shown t)) := by
  obtain ⟨aliases, bodies, haliases, hlines, rfl⟩ := text_eq_ok h
  obtain ⟨hbodies, houtlines⟩ := outlines_of_bodies hlayouts hlines
  have hclosed : ∀ line ∈ aliases, Closed line := by
    refine linesOf_closed haliases ?_
    rw [List.forall_mem_map]
    exact hnames
  rw [scan, blocks_text hclosed hbodies, houtlines]

end Texts

end Kernel

end PackedSchema
