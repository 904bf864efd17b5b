import PackedSchema.Kernel
import PackedSchema.Proofs.Outcome

/-!
# Emission

A kernel text is made while warnings about it are told to a report. What is told has no influence on the text,
and a text that is made has told all warnings about its layouts. The text fails only for a number that has too
many digits.
-/

namespace PackedSchema

/-! ## Telling -/

namespace Telling

variable {α β : Type} {m : Telling α} {k : α → Telling β} {x : Except Failure α} {f : α → Except Failure β}
  {ws vs : List Finding} {r r' : Report}

theorem exec_bind_ok {a : α} (h : exec m r = (.ok a, r')) : exec (m >>= k) r = exec (k a) r' :=
  run_bind_ok h

theorem exec_bind_error {e : Failure} (h : exec m r = (.error e, r')) : exec (m >>= k) r = (.error e, r') :=
  run_bind_error h

theorem exec_lift (x : Except Failure α) (r : Report) : exec (liftM x) r = (x, r) := by
  cases x <;> rfl

/-- The computation has an outcome, and if this is a success it has told certain findings by then. -/
def Tells (m : Telling α) (x : Except Failure α) (ws : List Finding) : Prop :=
  ∀ r, ∃ told, exec m r = (x, { r with items := r.items ++ told }) ∧ (Succeeds x → told = ws)

theorem tells_lift (x : Except Failure α) : Tells (liftM x) x [] := by
  intro r
  refine ⟨[], ?_, fun _ => rfl⟩
  rw [exec_lift, List.append_nil]

theorem tells_pure (a : α) : Tells (pure a) (.ok a) [] := tells_lift (.ok a)

theorem tells_tell (w : Finding) : Tells (tell w) (.ok ()) [w] := fun _ => ⟨[w], rfl, fun _ => rfl⟩

theorem Tells.outcome (h : Tells m x ws) (r : Report) : (exec m r).1 = x := by
  obtain ⟨told, hexec, -⟩ := h r
  rw [hexec]

theorem Tells.bind (hm : Tells m x ws) (hk : ∀ a, x = .ok a → Tells (k a) (f a) vs) :
    Tells (m >>= k) (x >>= f) (ws ++ vs) := by
  intro r
  obtain ⟨told, hexec, htold⟩ := hm r
  cases x with
  | error e =>
    refine ⟨told, ?_, fun hsucceeds => absurd hsucceeds (not_succeeds_error e)⟩
    rw [exec_bind_error hexec]
    rfl
  | ok a =>
    obtain ⟨told', hexec', htold'⟩ := hk a rfl _
    refine ⟨told ++ told', ?_, fun hsucceeds => ?_⟩
    · rw [exec_bind_ok hexec, hexec', List.append_assoc]
      rfl
    · rw [htold (succeeds_ok a), htold' hsucceeds]

theorem Tells.bind_ok {a : α} {y : Except Failure β} (hm : Tells m (.ok a) ws) (hk : Tells (k a) y vs) :
    Tells (m >>= k) y (ws ++ vs) := by
  refine hm.bind (f := fun _ => y) fun b hb => ?_
  cases hb
  exact hk

theorem Tells.bind_pure (hm : Tells m x ws) (g : α → β) :
    Tells (m >>= fun a => pure (g a)) (x >>= fun a => pure (g a)) ws := by
  rw [← List.append_nil ws]
  exact hm.bind fun a _ => tells_pure (g a)

theorem Tells.mapM {g : α → Telling β} {ws : α → List Finding} {as : List α}
    (h : ∀ a, Tells (g a) (f a) (ws a)) : Tells (as.mapM g) (as.mapM f) (as.flatMap ws) := by
  induction as with
  | nil => exact tells_pure []
  | cons a as ih =>
    rw [List.mapM_cons, List.mapM_cons, List.flatMap_cons]
    exact (h a).bind fun b _ => ih.bind_pure (b :: ·)

end Telling

open Telling (Tells)

namespace Kernel

variable {t : TypeTable} {l : TypeLayout} {layouts : List TypeLayout}

/-- The warnings about the layouts of a table, in the order of declarations and fields. -/
def warnings (t : TypeTable) (layouts : List TypeLayout) : List Finding :=
  layouts.flatMap fun
    | .struct name _ _ _ fields => fields.filterMap fun f => warning? t (.field f.name name) f.ty
    | .enum .. => []

/-- The kernel types of all fields of a declaration. -/
def namesOf (t : TypeTable) (l : TypeLayout) : Except Failure (List String) :=
  l.types.mapM fun ty => (writeType t ty).mapError Failure.numeral

/-- The lines of one declaration, behind an empty one. -/
def declLines (t : TypeTable) (l : TypeLayout) : Except Failure (List String) := do
  discard (namesOf t l)
  return "" :: (← (linesOf (itemsOf t l)).mapError Failure.numeral)

theorem tells_type (t : TypeTable) (owner : Owner) (ty : FieldType) :
    Tells (tellType t owner ty) ((writeType t ty).mapError Failure.numeral) (warning? t owner ty).toList := by
  unfold tellType
  cases warning? t owner ty with
  | none => exact Telling.tells_lift _
  | some w => exact (Telling.tells_tell w).bind_ok (Telling.tells_lift _)

theorem tells_types (t : TypeTable) (l : TypeLayout) : Tells (tellTypes t l) (namesOf t l) (warnings t [l]) := by
  cases l with
  | enum => exact Telling.tells_pure _
  | struct name size alignment tagged fields =>
    have hnames : namesOf t (.struct name size alignment tagged fields) =
        fields.mapM fun f => (writeType t f.ty).mapError Failure.numeral := by
      rw [namesOf, TypeLayout.types, List.mapM_map]
      rfl
    have hwarnings : warnings t [.struct name size alignment tagged fields] =
        fields.flatMap fun f => (warning? t (.field f.name name) f.ty).toList := by
      rw [← List.filterMap_eq_flatMap_toList]
      exact List.append_nil _
    rw [hnames, hwarnings]
    exact .mapM fun f => tells_type t (.field f.name name) f.ty

theorem tells_lines (t : TypeTable) (l : TypeLayout) : Tells (tellLines t l) (declLines t l) (warnings t [l]) := by
  rw [← List.append_nil (warnings t [l])]
  exact ((tells_types t l).bind_pure fun _ => ()).bind fun _ _ => (Telling.tells_lift _).bind_pure _

theorem tells_text (t : TypeTable) (layouts : List TypeLayout) :
    Tells (tellText t layouts)
      ((linesOf (t.decls.map fun d => .refAlias d.name)).mapError Failure.numeral >>= fun aliases =>
        layouts.mapM (declLines t) >>= fun decls =>
          pure ("\n".intercalate (aliases ++ decls.flatten) ++ "\n")) (warnings t layouts) := by
  have hwarnings : warnings t layouts = layouts.flatMap fun l => warnings t [l] := by
    unfold warnings
    simp only [List.flatMap_singleton]
  rw [← List.nil_append (warnings t layouts)]
  refine (Telling.tells_lift _).bind fun aliases _ => Tells.bind_pure ?_ _
  rw [hwarnings]
  exact .mapM (tells_lines t)

theorem severity_of_mem_warnings {w : Finding} (h : w ∈ warnings t layouts) :
    w.severity = .warning := by
  obtain ⟨l, -, hw⟩ := List.mem_flatMap.mp h
  cases l with
  | struct name size alignment tagged fields =>
    obtain ⟨f, -, hw⟩ := List.mem_filterMap.mp hw
    obtain ⟨n, -, rfl⟩ := Option.map_eq_some_iff.mp hw
    rfl
  | enum => cases hw

theorem filter_warnings (t : TypeTable) (layouts : List TypeLayout) :
    (warnings t layouts).filter (fun f => f.severity == .warning) = warnings t layouts := by
  rw [List.filter_eq_self]
  intro w hw
  rw [severity_of_mem_warnings hw]
  rfl

/-- A text is made of the aliases and of the lines of the declarations, each behind an empty line. -/
theorem text_eq (t : TypeTable) (layouts : List TypeLayout) :
    text t layouts =
      (linesOf (t.decls.map fun d => .refAlias d.name)).mapError Failure.numeral >>= fun aliases =>
        layouts.mapM (declLines t) >>= fun decls =>
          pure ("\n".intercalate (aliases ++ decls.flatten) ++ "\n") :=
  (tells_text t layouts).outcome {}

theorem declLines_eq_ok {block : List String} (h : declLines t l = .ok block) :
    ∃ body, linesOf (itemsOf t l) = .ok body ∧ block = "" :: body := by
  obtain ⟨-, -, h⟩ := bind_eq_ok_iff.mp h
  obtain ⟨body, hbody, h⟩ := bind_eq_ok_iff.mp h
  cases h
  exact ⟨body, mapError_eq_ok_iff.mp hbody, rfl⟩

theorem exists_bodies {decls : List (List String)}
    (h : List.Forall₂ (fun l block => declLines t l = .ok block) layouts decls) :
    ∃ bodies : List (List String), decls = bodies.map ("" :: ·) ∧
      List.Forall₂ (fun l body => linesOf (itemsOf t l) = .ok body) layouts bodies := by
  induction h with
  | nil => exact ⟨[], rfl, .nil⟩
  | cons hblock _ ih =>
    obtain ⟨body, hbody, rfl⟩ := declLines_eq_ok hblock
    obtain ⟨bodies, rfl, hbodies⟩ := ih
    exact ⟨body :: bodies, rfl, .cons hbody hbodies⟩

/-- The lines that a text was made of. -/
theorem text_eq_ok {s : String} (h : text t layouts = .ok s) :
    ∃ aliases bodies, linesOf (t.decls.map fun d => .refAlias d.name) = .ok aliases ∧
      List.Forall₂ (fun l body => linesOf (itemsOf t l) = .ok body) layouts bodies ∧
      s = "\n".intercalate (aliases ++ (bodies.map ("" :: ·)).flatten) ++ "\n" := by
  rw [text_eq] at h
  obtain ⟨aliases, haliases, h⟩ := bind_eq_ok_iff.mp h
  obtain ⟨decls, hdecls, h⟩ := bind_eq_ok_iff.mp h
  cases h
  obtain ⟨bodies, rfl, hbodies⟩ := exists_bodies (mapM_eq_ok_iff.mp hdecls)
  exact ⟨aliases, bodies, mapError_eq_ok_iff.mp haliases, hbodies, rfl⟩

end Kernel

/-! ## Numbers of a kernel text -/

/-- The number has more digits than are written. -/
def Overlong (n : Int) : Prop := Numeral.limit < (Nat.toDigits 10 n.natAbs).length

theorem not_overlong_zero : ¬ Overlong 0 := by
  unfold Overlong
  decide

theorem succeeds_write_iff (n : Int) : Succeeds (Numeral.write n) ↔ ¬ Overlong n := by
  unfold Numeral.write
  split
  · rename_i hlong
    exact iff_of_false (not_succeeds_error _) (not_not.mpr hlong)
  · rename_i hshort
    exact iff_of_true (succeeds_ok _) hshort

theorem write_failsWith (n : Int) : FailsWith (· = .tooLongToWrite) (Numeral.write n) := by
  intro f hf
  unfold Numeral.write at hf
  split at hf
  · cases hf
    rfl
  · cases hf

/-- The number in the kernel type of a field. -/
def FieldType.kernelNumbers : FieldType → List Int
  | vector _ n => [n]
  | _ => []

/-- The numbers of a layout that stand in its kernel text: the counts of vectors and the offsets that are loaded
from, or the words of an enum. -/
def TypeLayout.numbers : TypeLayout → List Int
  | .struct _ _ _ _ fields => fields.flatMap (fun f => f.ty.kernelNumbers) ++
      (fields.filter fun f => f.ty.isSmall).map FieldLayout.offset
  | .enum _ _ words _ => [words]

/-- No number of the layouts has more digits than are written. -/
def Writable (layouts : List TypeLayout) : Prop := ∀ l ∈ layouts, ∀ n ∈ l.numbers, ¬ Overlong n

namespace Kernel

variable {t : TypeTable}

theorem succeeds_writeType_iff (t : TypeTable) (ty : FieldType) :
    Succeeds (writeType t ty) ↔ ∀ n ∈ ty.kernelNumbers, ¬ Overlong n := by
  cases ty with
  | vector k n =>
    rw [FieldType.kernelNumbers, List.forall_mem_singleton]
    exact succeeds_bind_pure_iff.trans (succeeds_write_iff n)
  | _ => exact iff_of_true (succeeds_ok _) (List.forall_mem_nil _)

theorem writeType_failsWith (t : TypeTable) (ty : FieldType) :
    FailsWith (· = .tooLongToWrite) (writeType t ty) := by
  cases ty with
  | vector k n => exact (write_failsWith n).bind fun _ _ => .ok _
  | _ => exact .ok _

/-- A type that can be written is written as it is named. -/
theorem writeType_eq_ok {ty : FieldType} (h : ∀ n ∈ ty.kernelNumbers, ¬ Overlong n) :
    writeType t ty = .ok (typeName t ty) := by
  cases ty with
  | vector k n =>
    have hshort : Numeral.write n = .ok (Numeral.text n) := if_neg (h n List.mem_cons_self)
    rw [writeType, hshort]
    rfl
  | _ => rfl

theorem typeNameOf_eq_ok {ty : FieldType} (hmissing : ty ≠ .missing) (h : ∀ n ∈ ty.kernelNumbers, ¬ Overlong n) :
    typeNameOf t ty = .ok (typeName t ty) := by
  rw [typeNameOf, if_neg hmissing, writeType_eq_ok h]
  rfl

def Item.numbers : Item → List Int
  | accessor _ _ _ offset => [offset]
  | tagged _ words => [words]
  | _ => []

theorem succeeds_address_iff (offset : Int) : Succeeds (address offset) ↔ ¬ Overlong offset := by
  unfold address
  split
  · rename_i hzero
    rw [hzero]
    exact iff_of_true (succeeds_ok _) not_overlong_zero
  · exact succeeds_bind_pure_iff.trans (succeeds_write_iff offset)

theorem succeeds_lines_iff (i : Item) : Succeeds i.lines ↔ ∀ n ∈ i.numbers, ¬ Overlong n := by
  cases i with
  | accessor name field type offset =>
    rw [Item.numbers, List.forall_mem_singleton]
    exact succeeds_bind_pure_iff.trans (succeeds_address_iff offset)
  | tagged name words =>
    rw [Item.numbers, List.forall_mem_singleton]
    exact succeeds_bind_pure_iff.trans (succeeds_write_iff words)
  | _ => exact iff_of_true (succeeds_ok _) (List.forall_mem_nil _)

theorem lines_failsWith (i : Item) : FailsWith (· = .tooLongToWrite) i.lines := by
  cases i with
  | accessor name field type offset =>
    refine FailsWith.bind ?_ fun _ _ => .ok _
    unfold address
    split
    · exact .ok _
    · exact (write_failsWith offset).bind fun _ _ => .ok _
  | tagged name words => exact (write_failsWith words).bind fun _ _ => .ok _
  | _ => exact .ok _

theorem succeeds_linesOf_iff {items : List Item} :
    Succeeds (linesOf items) ↔ ∀ i ∈ items, ∀ n ∈ i.numbers, ¬ Overlong n := by
  refine (succeeds_bind_pure_iff.trans succeeds_mapM_iff).trans ?_
  simp only [succeeds_lines_iff]

theorem linesOf_failsWith (items : List Item) : FailsWith (· = .tooLongToWrite) (linesOf items) :=
  (FailsWith.mapM fun i _ => lines_failsWith i).bind fun _ _ => .ok _

theorem mapError_failsWith {α : Type} {x : Except Numeral.Fault α} (h : FailsWith (· = .tooLongToWrite) x) :
    FailsWith (· = .numeral .tooLongToWrite) (x.mapError Failure.numeral) :=
  h.mapError fun _ hf => congrArg Failure.numeral hf

/-- The numbers of a layout are those of the types of its fields and those of its items. -/
theorem numbers_eq (t : TypeTable) (l : TypeLayout) :
    l.numbers = l.types.flatMap FieldType.kernelNumbers ++ (itemsOf t l).flatMap Item.numbers := by
  cases l with
  | struct name size alignment tagged fields =>
    rw [TypeLayout.numbers, TypeLayout.types, List.flatMap_map]
    simp only [itemsOf, accessors, List.flatMap_cons, List.flatMap_map]
    exact congrArg _ List.map_eq_flatMap
  | enum name size words variants =>
    simp [TypeLayout.numbers, TypeLayout.types, itemsOf, List.flatMap_map, Item.numbers]

/-- The types of fields can be written where all numbers of their layouts can. -/
theorem writable_of_mem {layouts : List TypeLayout} (h : Writable layouts) {l : TypeLayout} (hl : l ∈ layouts)
    {ty : FieldType} (hty : ty ∈ l.types) : ∀ n ∈ ty.kernelNumbers, ¬ Overlong n := by
  intro n hn
  cases l with
  | struct name size alignment tagged fields =>
    obtain ⟨f, hf, rfl⟩ := List.mem_map.mp hty
    exact h _ hl n (List.mem_append_left _ (List.mem_flatMap.mpr ⟨f, hf, hn⟩))
  | enum => cases hty

theorem succeeds_declLines_iff (t : TypeTable) (l : TypeLayout) :
    Succeeds (declLines t l) ↔ ∀ n ∈ l.numbers, ¬ Overlong n := by
  have hnames : Succeeds (namesOf t l) ↔ ∀ ty ∈ l.types, ∀ n ∈ ty.kernelNumbers, ¬ Overlong n := by
    refine succeeds_mapM_iff.trans (forall₂_congr fun ty _ => ?_)
    exact succeeds_mapError_iff.trans (succeeds_writeType_iff t ty)
  have hlines : Succeeds ((linesOf (itemsOf t l)).mapError Failure.numeral) ↔
      ∀ i ∈ itemsOf t l, ∀ n ∈ i.numbers, ¬ Overlong n := succeeds_mapError_iff.trans succeeds_linesOf_iff
  have hboth : Succeeds (declLines t l) ↔
      Succeeds (namesOf t l) ∧ Succeeds ((linesOf (itemsOf t l)).mapError Failure.numeral) := by
    unfold declLines
    cases namesOf t l with
    | error e => exact iff_of_false (not_succeeds_error e) fun h => not_succeeds_error e h.1
    | ok names =>
      refine succeeds_bind_pure_iff.trans ?_
      exact ⟨fun h => ⟨succeeds_ok names, h⟩, And.right⟩
  rw [hboth, hnames, hlines, numbers_eq t l, List.forall_mem_append, List.forall_mem_flatMap,
    List.forall_mem_flatMap]

/-- A kernel text can be written if its numbers can. -/
theorem succeeds_text_iff (t : TypeTable) (layouts : List TypeLayout) :
    Succeeds (text t layouts) ↔ Writable layouts := by
  have haliases : Succeeds (linesOf (t.decls.map fun d => .refAlias d.name)) := by
    rw [succeeds_linesOf_iff, List.forall_mem_map]
    intro d _
    exact List.forall_mem_nil _
  -- The aliases have no numbers, so it depends on the declarations only.
  obtain ⟨aliases, haliases⟩ := haliases
  rw [text_eq, haliases]
  refine (succeeds_bind_pure_iff.trans succeeds_mapM_iff).trans ?_
  simp only [succeeds_declLines_iff, Writable]

theorem text_failsWith (t : TypeTable) (layouts : List TypeLayout) :
    FailsWith (· = .numeral .tooLongToWrite) (text t layouts) := by
  rw [text_eq]
  refine (mapError_failsWith (linesOf_failsWith _)).bind fun aliases _ => ?_
  refine FailsWith.bind (FailsWith.mapM fun l _ => ?_) fun _ _ => .ok _
  refine FailsWith.bind (FailsWith.bind ?_ fun _ _ => .ok _) fun _ _ => ?_
  · exact FailsWith.mapM fun ty _ => mapError_failsWith (writeType_failsWith t ty)
  · exact (mapError_failsWith (linesOf_failsWith _)).bind fun _ _ => .ok _

end Kernel

end PackedSchema
