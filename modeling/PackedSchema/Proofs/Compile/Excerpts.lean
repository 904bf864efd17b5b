import PackedSchema.Diagnostic.Report
import PackedSchema.Proofs.Compile.Failures
import PackedSchema.Proofs.Schema.Spans
import PackedSchema.Proofs.Source.Refusals
import PackedSchema.Proofs.Text.Lines

/-!
# Where errors point

Every error of a text points at a character of it: at the start of a token, or at a character with which
nothing begins. A report draws the caret in the column of this character. The line above the caret is the one
the character is in as long as no line up to there has a line break other than its end.
-/

namespace PackedSchema

open Source (File Token TypeNode FieldNode VariantNode DeclNode Marked Covers position isBlank)
open Layout (Site)
open Text (linesFrom numbered chomp Unbroken)

variable {source : String} {span : Span} {ts part : List Token} {cs rest : List Char} {f : Failure}

/-! ## Spans in a text -/

/-- The span starts at a character of the text that is not blank. -/
def Anchored (source : String) (span : Span) : Prop :=
  ∃ before c after, source.toList = before ++ c :: after ∧ isBlank c = false ∧ span.start = position before

/-- A schema error has its place in the text. -/
def Failure.Sited (source : String) : Failure → Prop
  | .schema e => ∃ span, e.span = some span ∧ Anchored source span
  | _ => True

theorem Failure.sited_of {cause : Cause} (h : Anchored source span) :
    (Failure.of cause (some span)).Sited source := ⟨span, rfl, h⟩

theorem Source.Terminal.not_isBlank_of_begins {t : Source.Terminal} {c : Char} (h : t.begins c = true) :
    isBlank c = false := by
  rw [← Bool.not_eq_true]
  intro hblank
  have hnone : Source.ignorable? [c] = none := Source.Terminal.ignorable?_of_begins h
  rw [Source.ignorable?_blank hblank] at hnone
  cases hnone

theorem anchored_of_valid {w : Source.Word} {before after : List Char} (hvalid : w.Valid)
    (hsource : source.toList = before ++ (w.text ++ after)) (hspan : span.start = position before) :
    Anchored source span := by
  obtain ⟨c, m, htext, hbegins⟩ := Source.Terminal.begins_of_valid hvalid
  refine ⟨before, c, m ++ after, ?_, Source.Terminal.not_isBlank_of_begins hbegins, hspan⟩
  rw [hsource, htext, List.cons_append]

theorem Source.Marked.anchored (h : Marked [] ts cs) (hsource : source.toList = cs ++ rest) :
    ∀ t ∈ ts, Anchored source t.span := by
  intro t ht
  obtain ⟨ts₁, ts₂, rfl⟩ := List.append_of_mem ht
  obtain ⟨cs₁, cs₂, rfl, -, hmarked⟩ := h.split
  cases hmarked with
  | @cons _ g cs _ _ _ hvalid hspan _ =>
    have hsource : source.toList = [] ++ cs₁ ++ g ++ (t.word.text ++ (cs ++ rest)) := by simp [hsource]
    exact anchored_of_valid hvalid hsource (congrArg Span.start hspan)

theorem Source.Covers.anchored (h : Covers span part) (hpart : ∀ t ∈ part, Anchored source t.span) :
    Anchored source span := by
  obtain ⟨first, last, hfirst, -, rfl⟩ := h
  exact hpart first (List.mem_of_head? hfirst)

/-- What is told of a text that is refused has its place in the text. -/
theorem Source.Refused.anchored {before : List Char} {fault : Source.SyntaxFault}
    (hsource : source.toList = before ++ rest) (h : Source.Refused source ts before rest fault span) :
    Anchored source span := by
  have hpoint (before : List Char) : (Span.pointBehind before).start = position before := by
    rw [← Source.behind_eq_pointBehind]
    rfl
  cases h with
  | token hvalid htext =>
    obtain ⟨after, rfl⟩ := htext
    exact anchored_of_valid hvalid hsource (hpoint before)
  | finish _ _ hvalid htext => exact anchored_of_valid hvalid htext (hpoint _)
  | @stray c after hrest hbarren =>
    subst hrest
    refine ⟨before, c, after, hsource, ?_, hpoint before⟩
    rw [← Bool.not_eq_true]
    intro hblank
    exact hbarren.piece [c] (.blank hblank) ⟨after, rfl⟩

/-! ### Faults of a file -/

theorem Source.TypeNode.Fault.sited {owner : Owner} {ty : TypeNode} (h : ty.Fault owner f)
    (hty : ty.Written part) (hpart : ∀ t ∈ part, Anchored source t.span) : f.Sited source := by
  induction h generalizing part with
  | element =>
    cases hty with
    | array _ helem => exact Failure.sited_of (helem.covers.anchored fun t ht => hpart t (by simp [ht]))
  | length =>
    cases hty with
    | array => exact Failure.sited_of (hpart _ (by simp))
  | digits => trivial
  | zero =>
    cases hty with
    | array => exact Failure.sited_of (hpart _ (by simp))
  | wrapper => exact Failure.sited_of (hty.covers.anchored hpart)
  | argument _ _ ih =>
    cases hty with
    | apply _ _ hargs =>
      obtain ⟨inner, hinner, hsub⟩ := hargs.exists_part (List.mem_singleton_self _)
      exact ih hinner fun t ht => hpart t (by simp [hsub t ht])

theorem Source.FieldNode.Fault.sited {struct : String} {node : FieldNode} (h : node.Fault struct f)
    (hnode : node.Written part) (hpart : ∀ t ∈ part, Anchored source t.span) : f.Sited source := by
  cases h with
  | unnamed =>
    cases hnode with
    | unnamed hty => exact Failure.sited_of (hty.covers.anchored hpart)
  | type h =>
    cases hnode with
    | named _ _ hty => exact h.sited hty fun t ht => hpart t (by simp [ht])

theorem Source.File.Written.exists_part {file : File} {node : DeclNode} (h : file.Written ts)
    (hnode : node ∈ file.decls) : ∃ part, node.Written part ∧ ∀ t ∈ part, t ∈ ts := by
  cases h with
  | bare hdecls => exact hdecls.exists_part hnode
  | block _ _ _ hdecls =>
    obtain ⟨part, hpart, hsub⟩ := hdecls.exists_part hnode
    exact ⟨part, hpart, fun t ht => by simp [hsub t ht]⟩

theorem Source.File.Fault.sited {file : File} (h : file.Fault f) (hfile : file.Written ts)
    (hts : ∀ t ∈ ts, Anchored source t.span) : f.Sited source := by
  cases h with
  | field hd hnode h =>
    obtain ⟨part, hdecl, hsub⟩ := hfile.exists_part hd
    cases hdecl with
    | struct _ _ _ hfields =>
      obtain ⟨inner, hfield, hinner⟩ := hfields.exists_part hnode
      exact h.sited hfield fun t ht => hts t (hsub t (by simp [hinner t ht]))
  | payload hd hnode hty h =>
    obtain ⟨part, hdecl, hsub⟩ := hfile.exists_part hd
    cases hdecl with
    | enum _ _ _ hvariants =>
      obtain ⟨inner, hvariant, hinner⟩ := hvariants.exists_part hnode
      cases hvariant with
      | bare => cases hty
      | payload _ _ htypes =>
        obtain ⟨type, htype, hsubtype⟩ := htypes.exists_part hty
        exact h.sited htype fun t ht => hts t (hsub t (by simp [hinner t (by simp [hsubtype t ht])]))

/-! ### Declarations -/

/-- The parts of a declaration at which errors point have their places in the text. -/
structure Decl.Sited (source : String) (d : Decl) : Prop where
  site : ∃ span, d.site = some span ∧ Anchored source span
  items : ∀ loc ∈ d.itemLocs, ∃ span, loc = some span ∧ Anchored source span
  variantNames : ∀ v ∈ d.variants, ∃ span, v.nameSpan = some span ∧ Anchored source span

/-- Items of a list have their places in the text if their tokens have. -/
theorem anchored_of_listed {α : Type} {P : α → List Token → Prop} {span : α → Span} {items : List α}
    (hitems : Source.Listed true (Token.Is .comma) P items part)
    (hcovers : ∀ a part, P a part → Covers (span a) part) (hpart : ∀ t ∈ part, Anchored source t.span) :
    ∀ loc ∈ (items.map span).map some, ∃ span, loc = some span ∧ Anchored source span := by
  intro loc hloc
  simp only [List.map_map, List.mem_map] at hloc
  obtain ⟨a, ha, rfl⟩ := hloc
  obtain ⟨inner, hinner, hsub⟩ := hitems.exists_part ha
  exact ⟨span a, rfl, (hcovers a inner hinner).anchored fun t ht => hpart t (hsub t ht)⟩

theorem sited_of_node {d : Decl} {node : DeclNode} (hnode : node.Written part)
    (hpart : ∀ t ∈ part, Anchored source t.span) (hd : Source.Tree.decl node.tree = .ok d) : d.Sited source := by
  cases hnode with
  | @struct keyword n opening closing fields inside _ hn _ hfields _ =>
    obtain ⟨fs, hfs, rfl⟩ := (decl_struct_eq_ok_iff hn d).mp hd
    have hlocs : fs.map Field.loc = _ := map_loc_of_mapM hfields (fun _ _ _ => field_loc) hfs
    refine ⟨⟨n.span, rfl, hpart n (by simp)⟩, ?_, nofun⟩
    rw [Decl.itemLocs, hlocs]
    exact anchored_of_listed hfields (fun _ _ => FieldNode.Written.covers) fun t ht => hpart t (by simp [ht])
  | @enum keyword n opening closing variants inside _ hn _ hvariants _ =>
    obtain ⟨vs, hvs, rfl⟩ := (decl_enum_eq_ok_iff hn d).mp hd
    have hlocs : vs.map Variant.loc = _ :=
      map_loc_of_mapM hvariants (fun _ _ _ hnode hv => (variant_places hnode hv).2.2) hvs
    refine ⟨⟨n.span, rfl, hpart n (by simp)⟩, ?_, fun v hv => ?_⟩
    · rw [Decl.itemLocs, hlocs]
      exact anchored_of_listed hvariants (fun _ _ => VariantNode.Written.covers) fun t ht =>
        hpart t (by simp [ht])
    · obtain ⟨tree, htree, hbuilt⟩ := exists_of_mapM hvs hv
      obtain ⟨node, hmem, rfl⟩ := List.mem_map.mp htree
      obtain ⟨inner, hvariant, hsub⟩ := hvariants.exists_part hmem
      obtain ⟨-, hname, -⟩ := variant_places hvariant hbuilt
      exact ⟨_, hname, hpart _ (by simp [hsub _ hvariant.name_mem])⟩

theorem sited_of_ofText {s : Schema} (h : Schema.ofText source = .ok s) : ∀ d ∈ s.decls, d.Sited source := by
  intro d hd
  obtain ⟨file, hread, hs⟩ := ofText_eq_ok_iff.mp h
  obtain ⟨ts, cs, rest, hwritten, hmarked, hsource⟩ := Source.exists_marked hread
  obtain ⟨node, part, hnode, hpart, hbuilt⟩ := exists_node hwritten hs hd
  exact sited_of_node hnode (fun t ht => hmarked.anchored hsource t (hpart.mem ht)) hbuilt

/-! ### Failures of a compilation -/

section Errors

variable {s : Schema} {e : SchemaError}

theorem FieldFault.sited {tagged : Prop} {struct : String} {fields : List Field}
    (h : FieldFault tagged struct fields e)
    (hfields : ∀ f ∈ fields, ∃ span, f.loc = some span ∧ Anchored source span) :
    Failure.Sited source (.schema e) := by
  cases h with
  | reserved hsplit _ _ _ herror => exact herror ▸ hfields _ (by simp [hsplit])
  | repeated hsplit _ _ _ herror => exact herror ▸ hfields _ (by simp [hsplit])

theorem VariantFault.sited {enum : String} {variants : List Variant} (h : VariantFault enum variants e)
    (hnames : ∀ v ∈ variants, ∃ span, v.nameSpan = some span ∧ Anchored source span)
    (hlocs : ∀ v ∈ variants, ∃ span, v.loc = some span ∧ Anchored source span) :
    Failure.Sited source (.schema e) := by
  cases h with
  | repeated hsplit _ _ herror => exact herror ▸ hnames _ (by simp [hsplit])
  | payload hsplit _ _ _ _ herror => exact herror ▸ hlocs _ (by simp [hsplit])

theorem Schema.FirstFault.sited (h : s.FirstFault e) (hdecls : ∀ d ∈ s.decls, d.Sited source) :
    Failure.Sited source (.schema e) := by
  cases h with
  | name hsplit _ _ herror => exact herror ▸ (hdecls _ (by simp [hsplit])).site
  | @struct before after d _ hsplit _ h =>
    have hmem : d ∈ s.structs := by simp [hsplit]
    obtain ⟨decl, hdecl, hstruct⟩ := List.mem_filterMap.mp hmem
    cases decl with
    | enum => cases hstruct
    | struct d =>
      cases hstruct
      exact h.sited fun f hf => (hdecls _ hdecl).items _ (List.mem_map_of_mem hf)
  | @enum before after d _ _ hsplit _ h =>
    have hmem : d ∈ s.enums := by simp [hsplit]
    obtain ⟨decl, hdecl, henum⟩ := List.mem_filterMap.mp hmem
    cases decl with
    | struct => cases henum
    | enum d =>
      cases henum
      exact h.sited (hdecls _ hdecl).variantNames fun v hv => (hdecls _ hdecl).items _ (List.mem_map_of_mem hv)
  | cycle _ _ _ _ hd _ herror => exact herror ▸ (hdecls _ hd).site

theorem Blames.sited (h : Blames s.decls e) (hdecls : ∀ d ∈ s.decls, d.Sited source) :
    Failure.Sited source (.schema e) := by
  have hfield {n : String} {site : Site} (hused : InField s.decls n site) :
      ∃ span, site.span = some span ∧ Anchored source span := by
    cases hused with
    | intro hd hf => exact (hdecls _ hd).items _ (List.mem_map_of_mem hf)
  have hpayload {n : String} {site : Site} (hused : InPayload s.decls n site) :
      ∃ span, site.span = some span ∧ Anchored source span := by
    cases hused with
    | intro hd hv => exact (hdecls _ hd).items _ (List.mem_map_of_mem hv)
  cases h with
  | undeclared _ _ hused _ herror => exact herror ▸ hused.elim hfield hpayload
  | inlineEnum _ _ hused _ herror => exact herror ▸ hfield hused

end Errors

/-- What stops the compilation of a text has its place in the text. -/
theorem Stops.sited (h : Stops source f) : f.Sited source := by
  cases h with
  | unread hread =>
    obtain ⟨ts, before, rest, hupTo, -, hrefused⟩ := Source.exists_refused hread
    exact Failure.sited_of (hrefused.anchored hupTo.text)
  | faulty hread hfault =>
    obtain ⟨ts', cs, rest, hwritten, hmarked, hsource⟩ := Source.exists_marked hread
    exact hfault.sited hwritten (hmarked.anchored hsource)
  | unlawful hs hfault => exact hfault.sited (sited_of_ofText hs)
  | unresolved hs _ hblames => exact hblames.sited (sited_of_ofText hs)
  | overlong => trivial

theorem compileText_stops (h : compileText source = .error f) : Stops source f := by
  rw [compileText] at h
  cases hs : Schema.ofText source with
  | error f' =>
    rw [hs] at h
    cases h
    exact Schema.ofText_failsWith source f hs
  | ok s =>
    have hends := Schema.compile_ends hs
    rw [hs] at h
    change s.compile = _ at h
    rwa [h] at hends

/-! ## Excerpts -/

/-- The character behind a text is in the line and the column that are counted over the text. -/
theorem numbered_reach {c : Char} (before after : List Char) (hc : c ≠ '\n') :
    (numbered (before ++ c :: after) (Source.reach before).1)[(Source.reach before).2]? = some c := by
  have hfrom := Source.linesFrom_splitOn before (c :: after)
  obtain ⟨l, ls, -, hsplit⟩ := Source.splitOn_char hc after
  rw [hsplit, Span.linesFrom, Nat.add_sub_cancel, Nat.add_sub_cancel] at hfrom
  have hfirst {α : Type} {xs ys : List α} {a : α} {i : Nat} (h : xs.drop i = a :: ys) : xs[i]? = some a := by
    have hhead : (xs.drop i)[0]? = some a := by rw [h]; rfl
    rwa [List.getElem?_drop, Nat.add_zero] at hhead
  cases hdrop : ((before ++ c :: after).splitOn '\n').drop (Source.reach before).1 with
  | nil =>
    rw [hdrop] at hfrom
    cases hfrom
  | cons line lines =>
    rw [hdrop, List.modifyHead_cons] at hfrom
    rw [numbered, List.getD_eq_getElem?_getD, hfirst hdrop]
    exact hfirst (List.cons.inj hfrom).1

theorem position_eq_reach (before : List Char) :
    position before = toLex (((Source.reach before).1 : Int) + 1, ((Source.reach before).2 : Int) + 1) := by
  rw [position, Source.behind_eq, ite_self]
  simp [Int.add_comm 1]

/-- A text in a colour, if colours are used. -/
def Report.painted (style : Style) (color text : String) : String :=
  if style.color then color ++ text ++ reset else text

/-- The line that a report shows for the one of that number, which is counted from zero. -/
def Report.shown (source : String) (n : Nat) : List Char := (linesFrom [] source.toList).getD n []

theorem Report.length_guides (style : Style) : (guides style).1.length = (guides style).2.length := by
  rw [guides]
  split <;> decide

theorem Report.format_error {e : SchemaError} {n k : Nat} (hspan : e.span = some span)
    (hline : span.line = n + 1) (hcol : span.col = k + 1) (filename : String) (cwd : Path) (style : Style) :
    (addError { source := some source, filename } e).format cwd style = "\n".intercalate
      [heading style (displayName cwd filename) ⟨.error, e.code.id, e.message, e.span⟩,
        painted style (ansi "90") (guides style).1 ++ String.ofList (shown source n),
        painted style (ansi "90") (guides style).2 ++
          painted style (ansi "31") (String.ofList (List.replicate k ' ' ++ ['^']))] := by
  have hshown : sourceLine (Text.lines source) span.line = String.ofList (shown source n) := by
    rw [hline, sourceLine, if_neg (by omega), Text.lines, List.getD_eq_getElem?_getD, List.getElem?_map, shown,
      List.getD_eq_getElem?_getD]
    have hindex : ((n : Int) + 1).toNat - 1 = n := by omega
    rw [hindex]
    cases (linesFrom [] source.toList)[n]? <;> rfl
  have hcaret : caret span.col = String.ofList (List.replicate k ' ' ++ ['^']) := by
    have hcount : (max 1 ((k : Int) + 1) - 1).toNat = k := by omega
    rw [hcol, caret, hcount, String.ofList_append]
  simp only [format, addError, add, List.nil_append, List.flatMap_cons, List.flatMap_nil, List.append_nil, drawing,
    hspan, Option.map_some, Option.getD_some, sourceLines, excerpt, hshown, hcaret, severityColor]
  cases hcolor : style.color with
  | true => simp [painted, hcolor, String.append_assoc]
  | false => simp [painted, hcolor]

/-- A report on an error of a text has three lines: the error with its place, a line of the text, and a caret in
the column of a character of the text, with as many marks on its left as the line above it. The line is the one
of that character if no line up to it has a line break inside; all lines up to there are shown as they are
exactly in this case. Lines and columns are counted from zero here. -/
structure Excerpted (source : String) (e : SchemaError) (n k : Nat) (c : Char) : Prop where
  place : ∃ span, e.span = some span ∧ span.line = n + 1 ∧ span.col = k + 1
  char : (numbered source.toList n)[k]? = some c
  visible : isBlank c = false
  drawn : ∀ (filename : String) (cwd : Path) (style : Style),
    (Report.addError { source := some source, filename } e).format cwd style = "\n".intercalate
      [Report.heading style (Report.displayName cwd filename) ⟨.error, e.code.id, e.message, e.span⟩,
        Report.painted style (Report.ansi "90") (Report.guides style).1 ++ String.ofList (Report.shown source n),
        Report.painted style (Report.ansi "90") (Report.guides style).2 ++
          Report.painted style (Report.ansi "31") (String.ofList (List.replicate k ' ' ++ ['^']))] ∧
      (Report.guides style).1.length = (Report.guides style).2.length
  shown_iff : (∀ m ≤ n, Report.shown source m = chomp (numbered source.toList m)) ↔
    ∀ m ≤ n, Unbroken (numbered source.toList m)
  under : (∀ m ≤ n, Unbroken (numbered source.toList m)) →
    Report.shown source n = chomp (numbered source.toList n) ∧ (Report.shown source n)[k]? = some c

/-- Every error of a text is shown at a character of it. -/
theorem compileText_excerpted {e : SchemaError} (h : compileText source = .error (.schema e)) :
    ∃ n k c, Excerpted source e n k c := by
  obtain ⟨span, hspan, before, c, after, hsource, hblank, hstart⟩ := (compileText_stops h).sited
  obtain ⟨hline, hcol⟩ := Prod.mk.inj (toLex.injective (hstart.trans (position_eq_reach before)))
  have hnewline : c ≠ '\n' := by
    rintro rfl
    cases hblank
  have hreturn : c ≠ '\r' := by
    rintro rfl
    cases hblank
  have hchar := numbered_reach before after hnewline
  rw [← hsource] at hchar
  refine ⟨_, _, c, ⟨span, hspan, hline, hcol⟩, hchar, hblank, fun filename cwd style =>
    ⟨Report.format_error hspan hline hcol filename cwd style, Report.length_guides style⟩,
    Text.linesFrom_eq_numbered_iff, fun hunbroken => ?_⟩
  have hshown : Report.shown source _ = _ := Text.linesFrom_getD hunbroken
  rw [hshown]
  exact ⟨rfl, Text.getElem?_chomp hchar hreturn⟩

/-- The place of the error that a compilation ends in. -/
def errorSpan? (r : Except Failure Compiled) : Option Span :=
  match r with
  | .error (.schema e) => e.span
  | _ => none

theorem errorSpan?_eq_some {r : Except Failure Compiled} (h : errorSpan? r = some span) :
    ∃ e, r = .error (.schema e) ∧ e.span = some span := by
  unfold errorSpan? at h
  split at h
  · exact ⟨_, rfl, h⟩
  · cases h

/-- A type that is not declared, on a line that ends in a carriage return and a newline. -/
def returnText : String := "struct B \x7b\r\n  y: Missing\r\n\x7d"

theorem compileText_excerpted_return :
    ∃ e n k c, compileText returnText = .error (.schema e) ∧ e.span = some ⟨2, 3, 2, 13⟩ ∧
      Excerpted returnText e n k c := by
  have hspan : errorSpan? (compileText returnText) = some ⟨2, 3, 2, 13⟩ := by decide +kernel
  obtain ⟨e, he, hspan⟩ := errorSpan?_eq_some hspan
  obtain ⟨n, k, c, hexcerpted⟩ := compileText_excerpted he
  exact ⟨e, n, k, c, he, hspan, hexcerpted⟩

/-- Two declarations with a form feed between them. -/
def pageText : String := "struct A \x7b x : u32 \x7d\n\x0c\nstruct B \x7b y : Missing \x7d"

/-- The error is in the third line, but an empty line is shown: the form feed has a line of its own. -/
theorem shown_ne_numbered_page :
    (∃ e, compileText pageText = .error (.schema e) ∧ e.span = some ⟨3, 12, 3, 23⟩) ∧
      Report.shown pageText 2 = [] ∧
      chomp (numbered pageText.toList 2) = "struct B \x7b y : Missing \x7d".toList := by
  have hspan : errorSpan? (compileText pageText) = some ⟨3, 12, 3, 23⟩ := by decide +kernel
  exact ⟨errorSpan?_eq_some hspan, by decide +kernel, by decide +kernel⟩

end PackedSchema
