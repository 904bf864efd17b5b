import PackedSchema.Proofs.Kernel.Identifiers
import PackedSchema.Proofs.Layout.Resolved

/-!
# Types that kernel texts use

A kernel text is closed: the types that its lines use for members, parameters, results and casts are types of
the kernel dialect, or the text itself declares them. Nothing looks at the name of an inline field when it is
written, so this rests on the layouts: a struct with such a field has one only if the name is that of a
struct.
-/

namespace PackedSchema

namespace Kernel

/-! ## Uses -/

/-- What a type is used for. -/
inductive Role
  | member
  | parameter
  | result
  | cast
  deriving Repr, DecidableEq

structure Use where
  role : Role
  type : String
  deriving Repr, DecidableEq

/-- The type in a declaration or a cast, which is the word before the last one. -/
def typeWord (cs : List Char) : String :=
  String.ofList ((behind ' ' cs.reverse).takeWhile Source.isNameChar).reverse

/-- What is in front of the first such character. -/
def upTo (c : Char) (cs : List Char) : List Char := cs.takeWhile (· ≠ c)

/-- The types that a line uses. Members have no parentheses. A cast is behind the second one of a line that
belongs to an accessor, whose first line has the result in front of its parameters. -/
def lineUses (line : List Char) : List Use :=
  if '(' ∉ line then
    if line.take 2 = [' ', ' '] then [⟨.member, typeWord line⟩] else []
  else if isInner line then
    [⟨.cast, typeWord (upTo ')' (behind '(' (behind '(' line)))⟩]
  else
    ⟨.result, typeWord (upTo '(' line)⟩ ::
      ((upTo ')' (behind '(' line)).splitOn ',').map fun parameter => ⟨.parameter, typeWord parameter⟩

/-- The types that a kernel text uses, found from its lines. -/
def uses (text : String) : List Use := (text.toList.splitOn '\n').flatMap lineUses

/-- The types that an accessor of a declaration uses. -/
def accessorUses (result declared loaded : String) : List Use :=
  [⟨.result, result⟩, ⟨.parameter, "char"⟩, ⟨.parameter, aliasOf declared⟩, ⟨.cast, loaded⟩]

/-- The types that an item uses. -/
def Item.uses : Item → List Use
  | refAlias _ => []
  | packed _ members => members.map fun m => ⟨.member, m.1⟩
  | reader name => accessorUses (packedOf name) name (packedOf name)
  | accessor name _ type _ => accessorUses type name type
  | tagged _ _ => [⟨.member, wordType⟩, ⟨.member, wordType⟩]
  | tagReader name => accessorUses wordType name name
  | tagMacro _ _ _ => []

/-! ## Uses read back -/

section Lines

variable {before last rest : List Char} {type name declared : String} {c : Char}

theorem upTo_append (h : c ∉ before) : upTo c (before ++ c :: rest) = before := by
  have hpass : ∀ d ∈ before, decide (d ≠ c) = true := by
    intro d hd
    simp only [ne_eq, decide_eq_true_eq]
    rintro rfl
    exact h hd
  rw [upTo, List.takeWhile_append_of_pos hpass]
  simp

theorem typeWord_append (htype : IsName type) (hbefore : before.reverse.takeWhile Source.isNameChar = [])
    (hlast : ' ' ∉ last) : typeWord (before ++ (type.toList ++ ' ' :: last)) = type := by
  have hreverse : (before ++ (type.toList ++ ' ' :: last)).reverse =
      last.reverse ++ ' ' :: (type.toList.reverse ++ before.reverse) := by simp
  have hword : ∀ c ∈ type.toList.reverse, Source.isNameChar c = true :=
    fun c hc => htype c (List.mem_reverse.mp hc)
  rw [typeWord, hreverse, behind_append (by simpa using hlast), List.takeWhile_append_of_pos hword, hbefore,
    List.append_nil, List.reverse_reverse, String.ofList_toList]

theorem lineUses_plain {line : List Char} (hcall : '(' ∉ line) (hindent : line.take 2 ≠ [' ', ' ']) :
    lineUses line = [] := by
  rw [lineUses, if_pos hcall, if_neg hindent]

/-- A member, whatever stands behind its name. -/
theorem lineUses_member (htype : IsName type) (hcall : '(' ∉ last) (hblank : ' ' ∉ last) :
    lineUses ("    ".toList ++ (type.toList ++ ' ' :: last)) = [⟨.member, type⟩] := by
  have hline : '(' ∉ "    ".toList ++ (type.toList ++ ' ' :: last) := by
    simp [htype.notMem (c := '(') rfl, hcall]
  rw [lineUses, if_pos hline, if_pos (by rfl), typeWord_append htype rfl hblank]

/-- A line of an accessor, with a cast behind its second parenthesis. -/
theorem lineUses_cast {inside : List Char} (hbefore : '(' ∉ before) (hinside : ')' ∉ inside) :
    lineUses ("    ".toList ++ (before ++ '(' :: '(' :: (inside ++ ')' :: rest))) =
      [⟨.cast, typeWord inside⟩] := by
  have hcall : ¬ '(' ∉ "    ".toList ++ (before ++ '(' :: '(' :: (inside ++ ')' :: rest)) := by simp
  have hinner : isInner ("    ".toList ++ (before ++ '(' :: '(' :: (inside ++ ')' :: rest))) = true := rfl
  have hindented : '(' ∉ "    ".toList ++ before := by simp [hbefore]
  have hsecond : behind '(' ('(' :: (inside ++ ')' :: rest)) = inside ++ ')' :: rest :=
    behind_append List.not_mem_nil
  rw [lineUses, if_neg hcall, if_pos hinner, ← List.append_assoc, behind_append hindented, hsecond,
    upTo_append hinside]

/-- The first line of an accessor, with its parameters behind the first parenthesis. -/
theorem lineUses_call {inside : List Char} (hbefore : '(' ∉ before) (hinside : ')' ∉ inside)
    (hinner : isInner (before ++ '(' :: (inside ++ ')' :: rest)) = false) :
    lineUses (before ++ '(' :: (inside ++ ')' :: rest)) = ⟨.result, typeWord before⟩ ::
      (inside.splitOn ',').map fun parameter => ⟨.parameter, typeWord parameter⟩ := by
  have hcall : ¬ '(' ∉ before ++ '(' :: (inside ++ ')' :: rest) := by simp
  rw [lineUses, if_neg hcall, hinner, upTo_append hbefore, behind_append hbefore, upTo_append hinside]
  rfl

end Lines

section Items

variable {i : Item} {lines : List String} {result type name declared : String}

theorem typeWord_pointer (htype : IsName type) : typeWord ("const device " ++ type ++ " *").toList = type := by
  have hpointer : ("const device " ++ type ++ " *").toList =
      "const device ".toList ++ (type.toList ++ ' ' :: ['*']) := by simp
  rw [hpointer]
  exact typeWord_append htype rfl (by decide)

theorem lineUses_load (htype : IsName type) (address : String) :
    lineUses (load type address).toList = [⟨.cast, type⟩] := by
  have hline : (load type address).toList = "    ".toList ++ ("return *".toList ++ '(' :: '(' ::
      (("const device " ++ type ++ " *").toList ++ ')' :: ("(" ++ address ++ "));").toList)) := by
    unfold load
    simp
  have hend : ')' ∉ ("const device " ++ type ++ " *").toList := by simp [htype.notMem (c := ')') rfl]
  rw [hline, lineUses_cast (by decide) hend, typeWord_pointer htype]

theorem lineUses_tagLoad (hname : IsName name) :
    lineUses ("    return ((const device " ++ name ++ " *)(buf + ref))->" ++ tagName ++ ";").toList =
      [⟨.cast, name⟩] := by
  have hline : ("    return ((const device " ++ name ++ " *)(buf + ref))->" ++ tagName ++ ";").toList =
      "    ".toList ++ ("return ".toList ++ '(' :: '(' ::
        (("const device " ++ name ++ " *").toList ++ ')' :: "(buf + ref))->tag;".toList)) := by
    simp [tagName]
  have hend : ')' ∉ ("const device " ++ name ++ " *").toList := by simp [hname.notMem (c := ')') rfl]
  rw [hline, lineUses_cast (by decide) hend, typeWord_pointer hname]

theorem splitOn_parameters (hdeclared : IsName declared) :
    ("const device char *buf, " ++ aliasOf declared ++ " ref").toList.splitOn ',' =
      ["const device char *buf".toList, (" " ++ aliasOf declared ++ " ref").toList] := by
  have hparameters : ("const device char *buf, " ++ aliasOf declared ++ " ref").toList =
      [','].intercalate ["const device char *buf".toList, (" " ++ aliasOf declared ++ " ref").toList] := by
    simp [List.intercalate_cons_cons]
  have hfree : ',' ∉ declared.toList := hdeclared.notMem rfl
  rw [hparameters, List.splitOn_intercalate]
  · simp only [List.forall_mem_cons]
    exact ⟨by decide, by simp [aliasOf, hfree], List.forall_mem_nil _⟩
  · simp

theorem lineUses_signature (hresult : IsName result) (hname : IsName name) (hdeclared : IsName declared) :
    lineUses (signature result name declared).toList =
      [⟨.result, result⟩, ⟨.parameter, "char"⟩, ⟨.parameter, aliasOf declared⟩] := by
  have halias : IsName (aliasOf declared) := isName_append hdeclared (by decide)
  have hline : (signature result name declared).toList = (result.toList ++ ' ' :: name.toList) ++ '(' ::
      (("const device char *buf, " ++ aliasOf declared ++ " ref").toList ++ ')' :: " \x7b".toList) := by
    simp [signature, opening]
  have hinner : isInner (signature result name declared).toList = false := by
    rw [hline, List.append_assoc]
    exact isInner_signature hresult hname
  have hstart : '(' ∉ result.toList ++ ' ' :: name.toList := by
    simp [hresult.notMem (c := '(') rfl, hname.notMem (c := '(') rfl]
  have hend : ')' ∉ ("const device char *buf, " ++ aliasOf declared ++ " ref").toList := by
    simp [halias.notMem (c := ')') rfl]
  have hresultWord : typeWord ([] ++ (result.toList ++ ' ' :: name.toList)) = result :=
    typeWord_append hresult rfl (hname.notMem rfl)
  rw [List.nil_append] at hresultWord
  have hbufferWord : typeWord "const device char *buf".toList = "char" := by decide
  have hreferenceWord : typeWord (" " ++ aliasOf declared ++ " ref").toList = aliasOf declared := by
    have hreference : (" " ++ aliasOf declared ++ " ref").toList =
        [' '] ++ ((aliasOf declared).toList ++ ' ' :: "ref".toList) := by simp
    rw [hreference]
    exact typeWord_append halias rfl (by decide)
  rw [hline] at hinner ⊢
  rw [lineUses_call hstart hend hinner, splitOn_parameters hdeclared, hresultWord, List.map_cons,
    List.map_cons, List.map_nil, hbufferWord, hreferenceWord]

/-- The lines of an accessor use the types of its signature and of its load. -/
theorem flatMap_accessor {loaded line : String} (hresult : IsName result) (hname : IsName name)
    (hdeclared : IsName declared) (hline : lineUses line.toList = [⟨.cast, loaded⟩]) :
    ([signature result name declared, line, closing].map String.toList).flatMap lineUses =
      accessorUses result declared loaded := by
  simp only [List.map_cons, List.map_nil, List.flatMap_cons, List.flatMap_nil,
    lineUses_signature hresult hname hdeclared, hline]
  rfl

/-- A declaration uses the types of its members only. -/
theorem flatMap_struct (hname : IsName name) (inner : List String) :
    ((["struct " ++ name ++ " " ++ opening] ++ inner ++ [closing ++ ";"]).map String.toList).flatMap lineUses =
      inner.flatMap fun line => lineUses line.toList := by
  have hopen : lineUses ("struct " ++ name ++ " " ++ opening).toList = [] :=
    lineUses_plain (by simp [opening, hname.notMem (c := '(') rfl]) (by simp)
  have hclose : lineUses (closing ++ ";").toList = [] := by decide
  rw [List.flatMap_map, List.flatMap_append, List.flatMap_append, List.flatMap_singleton,
    List.flatMap_singleton, hopen, hclose, List.append_nil, List.nil_append]

theorem lineUses_named {field : String} (htype : IsName type) (hfield : IsName field) :
    lineUses (member type field).toList = [⟨.member, type⟩] := by
  rw [toList_member]
  exact lineUses_member htype (by simp [hfield.notMem (c := '(') rfl]) (by simp [hfield.notMem (c := ' ') rfl])

theorem lineUses_body {words : Int} {digits : String} (h : Numeral.write words = .ok digits) :
    lineUses ("    " ++ wordType ++ " body[" ++ digits ++ "];").toList = [⟨.member, wordType⟩] := by
  have hline : ("    " ++ wordType ++ " body[" ++ digits ++ "];").toList =
      "    ".toList ++ (wordType.toList ++ ' ' :: ("body[" ++ digits ++ "];").toList) := by simp
  have hcall := notMem_of_write h (c := '(') rfl (by decide)
  have hblank := notMem_of_write h (c := ' ') rfl (by decide)
  rw [hline]
  exact lineUses_member (by decide) (by simp [hcall]) (by simp [hblank])

/-- The lines of an item use its types. -/
theorem flatMap_lines (hlegible : i.Legible) (h : i.lines = .ok lines) :
    (lines.map String.toList).flatMap lineUses = i.uses := by
  cases i with
  | refAlias name =>
    cases h
    have hname : IsName name := hlegible
    have hplain : lineUses ("typedef " ++ wordType ++ " " ++ aliasOf name ++ ";").toList = [] :=
      lineUses_plain (by simp [wordType, aliasOf, hname.notMem (c := '(') rfl]) (by simp)
    rw [List.map_singleton, List.flatMap_singleton, hplain]
    rfl
  | packed name members =>
    cases h
    obtain ⟨hname, hmembers⟩ := hlegible
    have hpacked : IsName (packedOf name) := isName_append hname (by decide)
    rw [flatMap_struct hpacked, List.flatMap_map, Item.uses, List.map_eq_flatMap]
    refine List.flatMap_congr fun m hm => ?_
    obtain ⟨htype, hfield⟩ := hmembers m hm
    exact lineUses_named htype hfield
  | reader name =>
    cases h
    have hpacked : IsName (packedOf name) := isName_append hlegible (by decide)
    have hread : IsName (name ++ "_read") := isName_append hlegible (by decide)
    exact flatMap_accessor hpacked hread hlegible (lineUses_load hpacked _)
  | accessor name field type offset =>
    obtain ⟨a, -, h⟩ := bind_eq_ok_iff.mp h
    cases h
    obtain ⟨hname, hfield, htype⟩ := hlegible
    have hcalled : IsName (name ++ "_" ++ field) :=
      isName_append (isName_append hname (by decide)) hfield
    exact flatMap_accessor htype hcalled hname (lineUses_load htype a)
  | tagged name words =>
    obtain ⟨digits, hdigits, h⟩ := bind_eq_ok_iff.mp h
    cases h
    have hlines := flatMap_struct hlegible
      [member wordType tagName, "    " ++ wordType ++ " body[" ++ digits ++ "];"]
    refine hlines.trans ?_
    rw [List.flatMap_cons, List.flatMap_singleton, lineUses_named (by decide) (by decide),
      lineUses_body hdigits]
    rfl
  | tagReader name =>
    cases h
    have htag : IsName (name ++ "_tag") := isName_append hlegible (by decide)
    exact flatMap_accessor (by decide) htag hlegible (lineUses_tagLoad hlegible)
  | tagMacro enum variant tag =>
    cases h
    obtain ⟨henum, hvariant⟩ := hlegible
    have hplain : lineUses ("#define " ++ enum ++ "_" ++ variant ++ " " ++ Nat.repr tag).toList = [] := by
      apply lineUses_plain
      · simp [-Nat.toList_repr, henum.notMem (c := '(') rfl, hvariant.notMem (c := '(') rfl,
          (isName_repr tag).notMem (c := '(') rfl]
      · simp
    rw [List.map_singleton, List.flatMap_singleton, hplain]
    rfl

end Items

/-! ## Parts of a text -/

/-- The lines in front of the first empty one. -/
def aliasBlock (text : String) : List (List Char) := ((text.toList.splitOn '\n').splitOn []).headD []

/-- The text declares a struct of that name in one of its blocks. -/
def Declares (text name : String) : Prop :=
  ∃ block ∈ blocks text, block.head? = some ("struct " ++ name ++ " \x7b").toList

/-- A text is made of alias lines and of the lines of declarations, none of which is empty. -/
structure Assembled (t : TypeTable) (layouts : List TypeLayout) (text : String) (aliases : List String)
    (bodies : List (List String)) : Prop where
  aliases_eq : linesOf (t.decls.map fun d => .refAlias d.name) = .ok aliases
  bodies_eq : List.Forall₂ (fun l body => linesOf (itemsOf t l) = .ok body) layouts bodies
  closed_aliases : ∀ line ∈ aliases, Closed line
  closed_bodies : ∀ body ∈ bodies, body ≠ [] ∧ ∀ line ∈ body, Closed line
  text_eq : text = "\n".intercalate (aliases ++ (bodies.map ("" :: ·)).flatten) ++ "\n"

section Texts

variable {t : TypeTable} {layouts : List TypeLayout} {lines aliases : List String} {bodies : List (List String)}
  {s : String} {d : Decl}

theorem assembled_of_text (hnames : ∀ d ∈ t.decls, IsName d.name) (hlayouts : ∀ l ∈ layouts, l.Sound)
    (h : text t layouts = .ok s) : ∃ aliases bodies, Assembled t layouts s aliases bodies := by
  obtain ⟨aliases, bodies, haliases, hlines, rfl⟩ := text_eq_ok h
  obtain ⟨hbodies, -⟩ := outlines_of_bodies hlayouts hlines
  exact ⟨aliases, bodies, haliases, hlines, linesOf_closed haliases (List.forall_mem_map.mpr hnames), hbodies, rfl⟩

/-- All lines of the text are single lines. -/
theorem Assembled.newline (h : Assembled t layouts s aliases bodies) :
    ∀ line ∈ aliases ++ (bodies.map ("" :: ·)).flatten, '\n' ∉ line.toList := by
  simp only [List.forall_mem_append, List.forall_mem_flatten, List.forall_mem_map, List.forall_mem_cons]
  exact ⟨fun line hline => (h.closed_aliases line hline).2, fun body hbody =>
    ⟨by simp, fun line hline => ((h.closed_bodies body hbody).2 line hline).2⟩⟩

theorem mem_linesOf {items : List Item} {i : Item} (hi : i ∈ items) (h : linesOf items = .ok lines) :
    ∃ ls, i.lines = .ok ls ∧ ∀ line ∈ ls, line ∈ lines := by
  induction items generalizing lines with
  | nil => cases hi
  | cons i' items ih =>
    obtain ⟨first, later, hfirst, hlater, rfl⟩ := linesOf_cons_eq_ok h
    rcases List.mem_cons.mp hi with rfl | hi
    · exact ⟨first, hfirst, fun line hline => List.mem_append_left later hline⟩
    · obtain ⟨ls, hls, hmem⟩ := ih hi hlater
      exact ⟨ls, hls, fun line hline => List.mem_append_right first (hmem line hline)⟩

/-- The alias of every declaration stands in front of all declarations. -/
theorem Assembled.mem_aliasBlock (h : Assembled t layouts s aliases bodies) (hd : d ∈ t.decls) :
    ("typedef uint " ++ d.name ++ "Ref;").toList ∈ aliasBlock s := by
  have hline : "typedef uint " ++ d.name ++ "Ref;" ∈ aliases := by
    have hitem : Item.refAlias d.name ∈ t.decls.map fun d => Item.refAlias d.name :=
      List.mem_map.mpr ⟨d, hd, rfl⟩
    obtain ⟨ls, hls, hmem⟩ := mem_linesOf hitem h.aliases_eq
    cases hls
    have hwritten : "typedef uint " ++ d.name ++ "Ref;" =
        "typedef " ++ wordType ++ " " ++ aliasOf d.name ++ ";" := by
      rw [← String.toList_inj]
      simp [wordType, aliasOf]
    rw [hwritten]
    exact hmem _ List.mem_cons_self
  have hne : aliases ++ (bodies.map ("" :: ·)).flatten ≠ [] := by
    intro hnil
    rw [(List.append_eq_nil_iff.mp hnil).1] at hline
    cases hline
  rw [aliasBlock, h.text_eq, splitOn_text hne h.newline,
    splitOn_lines (fun line hline => (h.closed_aliases line hline).1)
      fun body hbody line hline => ((h.closed_bodies body hbody).2 line hline).1]
  exact List.mem_map_of_mem hline

/-- The lines of a declaration begin with its type. -/
theorem head?_body {l : TypeLayout} {body : List String} (hl : Layout.LaysOut d l)
    (h : linesOf (itemsOf t l) = .ok body) :
    body.head? = some ("struct " ++ (d.name ++ d.typeEnding) ++ " " ++ opening) := by
  cases hl with
  | struct hfields =>
    obtain ⟨first, later, hfirst, -, rfl⟩ := linesOf_cons_eq_ok h
    cases hfirst
    simp [Decl.typeEnding, Decl.name, packedOf]
  | enum hvariants =>
    obtain ⟨first, later, hfirst, -, rfl⟩ := linesOf_cons_eq_ok h
    obtain ⟨digits, -, hfirst⟩ := bind_eq_ok_iff.mp hfirst
    cases hfirst
    simp [Decl.typeEnding, Decl.name]

theorem Assembled.declares (h : Assembled t layouts s aliases bodies)
    (hlayouts : List.Forall₂ Layout.LaysOut t.decls layouts) (hd : d ∈ t.decls) :
    Declares s (d.name ++ d.typeEnding) := by
  obtain ⟨l, hl, hlays⟩ := exists_partner hlayouts hd
  obtain ⟨body, hbody, hlines⟩ := exists_partner h.bodies_eq hl
  refine ⟨body.map String.toList, ?_, ?_⟩
  · rw [h.text_eq, blocks_text h.closed_aliases h.closed_bodies]
    exact List.mem_map_of_mem hbody
  · have hblank : " " ++ opening = " \x7b" := rfl
    rw [List.head?_map, head?_body hlays hlines, String.append_assoc, hblank, Option.map_some]

theorem uses_intercalate (hlines : ∀ line ∈ lines, '\n' ∉ line.toList) :
    uses ("\n".intercalate lines ++ "\n") = lines.flatMap fun line => lineUses line.toList := by
  by_cases hne : lines = []
  · subst hne
    rfl
  · rw [uses, splitOn_text hne hlines, List.flatMap_append, List.flatMap_map]
    exact List.append_nil _

theorem flatMap_linesOf {items : List Item} (hitems : ∀ i ∈ items, i.Legible)
    (h : linesOf items = .ok lines) :
    (lines.flatMap fun line => lineUses line.toList) = items.flatMap Item.uses := by
  induction items generalizing lines with
  | nil =>
    cases h
    rfl
  | cons i items ih =>
    obtain ⟨first, later, hfirst, hlater, rfl⟩ := linesOf_cons_eq_ok h
    rw [List.forall_mem_cons] at hitems
    rw [List.flatMap_append, List.flatMap_cons, ih hitems.2 hlater, ← flatMap_lines hitems.1 hfirst,
      List.flatMap_map]

theorem flatMap_bodies (hlayouts : ∀ l ∈ layouts, l.Sound)
    (h : List.Forall₂ (fun l body => linesOf (itemsOf t l) = .ok body) layouts bodies) :
    ((bodies.map ("" :: ·)).flatten.flatMap fun line => lineUses line.toList) =
      layouts.flatMap fun l => (itemsOf t l).flatMap Item.uses := by
  induction h with
  | nil => rfl
  | cons hbody _ ih =>
    rw [List.forall_mem_cons] at hlayouts
    rw [List.map_cons, List.flatten_cons, List.flatMap_append, List.flatMap_cons, List.flatMap_cons,
      ih hlayouts.2, flatMap_linesOf (legible_itemsOf hlayouts.1) hbody]
    rfl

/-- A kernel text uses the types of its items. -/
theorem Assembled.uses_eq (h : Assembled t layouts s aliases bodies) (hnames : ∀ d ∈ t.decls, IsName d.name)
    (hlayouts : ∀ l ∈ layouts, l.Sound) :
    uses s = layouts.flatMap fun l => (itemsOf t l).flatMap Item.uses := by
  have hlegible : ∀ i ∈ t.decls.map fun d => Item.refAlias d.name, i.Legible :=
    List.forall_mem_map.mpr hnames
  have haliases : ((t.decls.map fun d => Item.refAlias d.name).flatMap Item.uses) = [] := by
    rw [List.flatMap_map, List.flatMap_eq_nil_iff]
    exact fun _ _ => rfl
  rw [h.text_eq, uses_intercalate h.newline, List.flatMap_append, flatMap_linesOf hlegible h.aliases_eq,
    haliases, flatMap_bodies hlayouts h.bodies_eq, List.nil_append]

end Texts

/-! ## Closed texts -/

/-- The type is one of the kernel dialect, or the text declares it for a declaration of the schema. -/
inductive Known (s : Schema) (text : String) : String → Prop
  | scalar {base : String} (hbase : base ∈ ["int", "float", "uint"]) : Known s text base
  | vector {base : String} {count : Nat} (hbase : base ∈ ["int", "float", "uint"]) (hcount : 1 ≤ count) :
      Known s text (base ++ Nat.repr count)
  | refAlias {name : String} (hline : ("typedef uint " ++ name ++ "Ref;").toList ∈ aliasBlock text) :
      Known s text (name ++ "Ref")
  | packed {d : StructDecl} (hd : .struct d ∈ s.decls) (hdeclares : Declares text (d.name ++ "Packed")) :
      Known s text (d.name ++ "Packed")
  | enum {d : EnumDecl} (hd : .enum d ∈ s.decls) (hdeclares : Declares text d.name) : Known s text d.name

/-- The use is of a known type, or it is the one of the buffer that every accessor takes. -/
def Use.Covered (s : Schema) (text : String) (use : Use) : Prop :=
  use = ⟨.parameter, "char"⟩ ∨ Known s text use.type

/-- A text with an alias and a block for every declaration of a schema, all of whose inline names resolve. -/
structure Backed (s : Schema) (text : String) : Prop where
  aliases : ∀ d ∈ s.decls, ("typedef uint " ++ d.name ++ "Ref;").toList ∈ aliasBlock text
  declares : ∀ d ∈ s.decls, Declares text (d.name ++ d.typeEnding)
  resolved : Resolved s.decls

section Covered

variable {t : TypeTable} {s : Schema} {text : String} {d : Decl} {l : TypeLayout}

theorem known_word : Known s text wordType := .scalar (by decide)

theorem mem_kernelName (k : ScalarKind) : k.kernelName ∈ ["int", "float", "uint"] := by
  cases k <;> decide

theorem Backed.known_alias (h : Backed s text) (hd : d ∈ s.decls) : Known s text (aliasOf d.name) :=
  .refAlias (h.aliases d hd)

theorem Backed.known_packed {d : StructDecl} (h : Backed s text) (hd : .struct d ∈ s.decls) :
    Known s text (packedOf d.name) :=
  .packed hd (h.declares (.struct d) hd)

theorem Backed.known_enum {d : EnumDecl} (h : Backed s text) (hd : .enum d ∈ s.decls) :
    Known s text d.name := by
  have hdeclares := h.declares (.enum d) hd
  rw [Decl.typeEnding, String.append_empty] at hdeclares
  exact .enum hd hdeclares

/-- The type of a field is known. It is written without a look at the table if the field is inline, but then
it is that of a struct. -/
theorem Backed.known_typeName (h : Backed s text) (hdecls : t.decls = s.decls) {ty : FieldType}
    (hlegible : ty.Legible) {site : Layout.Site} (hinline : ∀ n, ty = .named n → InField s.decls n site) :
    Known s text (typeName t ty) := by
  cases ty with
  | scalar k => exact .scalar (mem_kernelName k)
  | vector k count =>
    obtain ⟨n, rfl⟩ := Int.eq_ofNat_of_zero_le (show 0 ≤ count by have : 1 ≤ count := hlegible; omega)
    exact .vector (mem_kernelName k) (Int.ofNat_le.mp hlegible)
  | named n =>
    obtain ⟨d, hd, rfl⟩ := h.resolved.fields n site (hinline n rfl)
    exact h.known_packed hd
  | missing => cases hlegible
  | ref inner =>
    cases inner with
    | named n =>
      simp only [typeName]
      split
      case isTrue hsome =>
        obtain ⟨d, hd, rfl⟩ := TypeTable.isSome_lookup_iff.mp hsome
        exact h.known_alias (hdecls ▸ hd)
      case isFalse => exact known_word
    | _ => exact known_word

theorem Backed.covered_accessor (h : Backed s text) (hd : d ∈ s.decls) {result loaded : String}
    (hresult : Known s text result) (hloaded : Known s text loaded) :
    ∀ use ∈ accessorUses result d.name loaded, use.Covered s text := by
  simp only [accessorUses, List.forall_mem_cons]
  exact ⟨.inr hresult, .inl rfl, .inr (h.known_alias hd), .inr hloaded, List.forall_mem_nil _⟩

/-- The items of a declaration use types that are known. -/
theorem Backed.covered_itemsOf (h : Backed s text) (hdecls : t.decls = s.decls) (hd : d ∈ s.decls)
    (hl : Layout.LaysOut d l) (hsound : l.Sound) :
    ∀ i ∈ itemsOf t l, ∀ use ∈ i.uses, use.Covered s text := by
  cases hl with
  | @struct d size alignment tagged fields hfields =>
    obtain ⟨-, hlegible, -⟩ := hsound
    have htype : ∀ f ∈ fields, Known s text (typeName t f.ty) := by
      intro f hf
      have hmem := List.mem_map_of_mem (f := fun l : FieldLayout => (l.name, l.ty)) hf
      rw [hfields] at hmem
      obtain ⟨g, hg, heq⟩ := List.mem_map.mp hmem
      have hty : g.ty = f.ty := congrArg Prod.snd heq
      exact h.known_typeName hdecls (hlegible f hf).2 fun n hn => .intro hd hg (hty.trans hn)
    simp only [itemsOf, accessors, List.forall_mem_cons, List.forall_mem_map, List.mem_filter]
    refine ⟨?_, ?_, fun f hf => ?_⟩
    · rw [Item.uses, List.forall_mem_map, members, List.forall_mem_append, List.forall_mem_map]
      refine ⟨?_, fun f hf => .inr (htype f hf)⟩
      split
      · exact List.forall_mem_singleton.mpr (.inr known_word)
      · exact List.forall_mem_nil _
    · exact h.covered_accessor hd (h.known_packed hd) (h.known_packed hd)
    · exact h.covered_accessor hd (htype f hf.1) (htype f hf.1)
  | @enum d size words variants hvariants =>
    simp only [itemsOf, List.forall_mem_cons, List.forall_mem_map, Item.uses]
    refine ⟨?_, ?_, fun v _ => List.forall_mem_nil _⟩
    · exact ⟨.inr known_word, .inr known_word, List.forall_mem_nil _⟩
    · exact h.covered_accessor hd known_word (h.known_enum hd)

/-- A text that no declared name makes known. -/
theorem not_known_char (hnames : "char" ∉ s.decls.map Decl.name) : ¬ Known s text "char" := by
  have hstart {a b : String} (h : a ++ b = "char") : a.toList <+: "char".toList :=
    ⟨b.toList, by rw [← String.toList_append, h]⟩
  have hend {a b : String} (h : a ++ b = "char") : b.toList <:+ "char".toList :=
    ⟨a.toList, by rw [← String.toList_append, h]⟩
  intro hknown
  generalize htype : "char" = type at hknown
  cases hknown with
  | scalar hbase =>
    subst htype
    exact absurd hbase (by decide)
  | @vector base count hbase hcount =>
    have hbegins := hstart htype.symm
    simp only [List.mem_cons, List.not_mem_nil, or_false] at hbase
    rcases hbase with rfl | rfl | rfl <;> exact absurd hbegins (by decide)
  | refAlias hline => exact absurd (hend htype.symm) (by decide)
  | packed hd hdeclares => exact absurd (hend htype.symm) (by decide)
  | enum hd hdeclares =>
    rw [htype] at hnames
    exact hnames (List.mem_map.mpr ⟨_, hd, rfl⟩)

end Covered

end Kernel

namespace Schema

variable {s : Schema} {c : Compiled} {source : String}

/-- The text of a compiled schema is assembled from names that are names. -/
theorem assembled_compiled (hread : Schema.ofText source = .ok s) (hc : s.compile = .ok c) :
    (∀ d ∈ c.table.decls, IsName d.name) ∧ (∀ l ∈ c.layouts, l.Sound) ∧
      ∃ aliases bodies, Kernel.Assembled c.table c.layouts c.text aliases bodies := by
  obtain ⟨htable, hlayouts, htext⟩ := compile_eq_ok hc
  obtain ⟨ht, hw⟩ := TypeTable.ofSchema_eq_ok htable
  have hlegible := legible_of_ofText hread
  obtain ⟨hsound, -⟩ := Layout.sound_layouts htable hlegible (Layout.layouts_direct hw hlayouts)
  have hnames : ∀ d ∈ c.table.decls, IsName d.name := by
    rw [ht]
    exact fun d hd => (hlegible d hd).isName
  exact ⟨hnames, hsound, Kernel.assembled_of_text hnames hsound htext⟩

theorem uses_compiled (hread : Schema.ofText source = .ok s) (hc : s.compile = .ok c) :
    Kernel.uses c.text = c.layouts.flatMap fun l => (Kernel.itemsOf c.table l).flatMap Kernel.Item.uses := by
  obtain ⟨hnames, hsound, aliases, bodies, hassembled⟩ := assembled_compiled hread hc
  exact hassembled.uses_eq hnames hsound

theorem backed_compiled (hread : Schema.ofText source = .ok s) (hc : s.compile = .ok c) :
    Kernel.Backed s c.text := by
  obtain ⟨-, -, aliases, bodies, hassembled⟩ := assembled_compiled hread hc
  obtain ⟨htable, hlayouts, -⟩ := compile_eq_ok hc
  obtain ⟨ht, hw⟩ := TypeTable.ofSchema_eq_ok htable
  have hdecls : c.table.decls = s.decls := by rw [ht]
  constructor <;> rw [← hdecls]
  · exact fun d hd => hassembled.mem_aliasBlock hd
  · exact fun d hd => hassembled.declares (Layout.laysOut_layouts hw hlayouts) hd
  · exact Layout.resolved_of_layouts hw ⟨_, Layout.layouts_direct hw hlayouts⟩

/-- The kernel text of a schema that is read from a text is closed. The types that its lines use are those of
its items, and each of them is known: a scalar or vector type, an alias that stands in front of all
declarations, or a declared struct or enum with its own declaration. The one type that is not is that of the
buffer, which is a parameter of every accessor. -/
theorem uses_covered (hread : Schema.ofText source = .ok s) (hc : s.compile = .ok c) :
    Kernel.uses c.text = c.layouts.flatMap (fun l => (Kernel.itemsOf c.table l).flatMap Kernel.Item.uses) ∧
      ∀ use ∈ Kernel.uses c.text, use = ⟨.parameter, "char"⟩ ∨ Kernel.Known s c.text use.type := by
  have huses := uses_compiled hread hc
  refine ⟨huses, ?_⟩
  rw [huses]
  intro use huse
  obtain ⟨l, hl, huse⟩ := List.mem_flatMap.mp huse
  obtain ⟨i, hi, huse⟩ := List.mem_flatMap.mp huse
  obtain ⟨-, hsound, -⟩ := assembled_compiled hread hc
  obtain ⟨htable, hlayouts, -⟩ := compile_eq_ok hc
  obtain ⟨ht, hw⟩ := TypeTable.ofSchema_eq_ok htable
  have hdecls : c.table.decls = s.decls := by rw [ht]
  -- The layout is that of a declaration, whose items are covered.
  have hflip : List.Forall₂ (flip Layout.LaysOut) c.layouts c.table.decls :=
    (Layout.laysOut_layouts hw hlayouts).flip
  obtain ⟨d, hd, hlaysOut⟩ := exists_partner hflip hl
  rw [hdecls] at hd
  exact (backed_compiled hread hc).covered_itemsOf hdecls hd hlaysOut (hsound l hl) i hi use huse

theorem uses_covered_mark :
    ∃ s c, Schema.ofText markText = .ok s ∧ s.compile = .ok c ∧
      ⟨.member, "PPacked"⟩ ∈ Kernel.uses c.text ∧ Kernel.Known s c.text "PPacked" ∧
      ⟨.cast, "E"⟩ ∈ Kernel.uses c.text ∧ Kernel.Known s c.text "E" := by
  obtain ⟨s, t, c, hread, -, hcompile, -, hlayouts⟩ := compile_mark
  obtain ⟨huses, hcovered⟩ := uses_covered hread hcompile
  have hpacked : ⟨.member, "PPacked"⟩ ∈ Kernel.uses c.text := by
    rw [huses, hlayouts]
    simp [markLayouts, Kernel.itemsOf, Kernel.Item.uses, Kernel.members, Kernel.typeName, Kernel.packedOf]
  have henum : ⟨.cast, "E"⟩ ∈ Kernel.uses c.text := by
    rw [huses, hlayouts]
    simp [markLayouts, Kernel.itemsOf, Kernel.Item.uses, Kernel.accessorUses]
  refine ⟨s, c, hread, hcompile, hpacked, ?_, henum, ?_⟩
  · exact (hcovered _ hpacked).resolve_left (by decide)
  · exact (hcovered _ henum).resolve_left (by decide)

/-- The type of the buffer is not declared. -/
theorem char_unknown_mark :
    ∃ s c, Schema.ofText markText = .ok s ∧ s.compile = .ok c ∧
      ⟨.parameter, "char"⟩ ∈ Kernel.uses c.text ∧ ¬ Kernel.Known s c.text "char" := by
  obtain ⟨s, t, c, hread, -, hcompile, -, hlayouts⟩ := compile_mark
  refine ⟨s, c, hread, hcompile, ?_, ?_⟩
  · rw [uses_compiled hread hcompile, hlayouts]
    simp [markLayouts, Kernel.itemsOf, Kernel.Item.uses, Kernel.accessorUses]
  · obtain ⟨-, -, hnames, -⟩ := compile_shown hread hcompile
    rw [hlayouts] at hnames
    have hdecls : s.decls.map Decl.name = ["E", "P", "A"] := hnames.symm
    exact Kernel.not_known_char (by simp [hdecls])

end Schema

end PackedSchema
