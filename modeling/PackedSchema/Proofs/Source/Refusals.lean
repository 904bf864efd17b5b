import Mathlib.Data.List.DropRight
import PackedSchema.Proofs.Source.Positions
import PackedSchema.Schema.OfTree

/-!
# Where reading stops

A text that is no file is refused at the first token that cannot follow the tokens before it, or at the first
character with which nothing begins. From every place of the parser some tokens lead to a file, so the tokens
that were read can always be completed; what the parser refuses, the grammar refuses behind them.
-/

namespace PackedSchema

/-- The empty span before the character that follows a text. Lines end in newlines, and lines and columns are
counted from one. -/
def Span.pointBehind (before : List Char) : Span :=
  .point (before.count '\n' + 1) ((before.rtakeWhile (· ≠ '\n')).length + 1)

namespace Source

variable {p q : Place} {t : Token} {ts more : List Token} {cur here next : Cursor} {f : File}
  {before rest cs : List Char} {source : String} {last : Option Token}

/-! ## Completing -/

/-- A token of the terminal. -/
def Terminal.token (u : Terminal) : Token := ⟨u, String.ofList u.spelling, .point 1 1⟩

/-- Some tokens lead from the place to a file. -/
def Place.Open (p : Place) : Prop := ∃ ts f, p.run ts = .ok f

namespace Place

theorem Open.step (hq : q.Open) (hstep : p.step t = .ok q) : p.Open := by
  obtain ⟨ts, f, hrun⟩ := hq
  exact ⟨t :: ts, f, bind_eq_ok_iff.mpr ⟨q, hstep, hrun⟩⟩

theorem open_items (scope : Scope) : (items scope).Open := by
  obtain ⟨block, decls⟩ := scope
  cases block with
  | none => exact ⟨[], _, rfl⟩
  | some head => exact ⟨[Terminal.rbrace.token], _, rfl⟩

theorem open_variantEnd (head : Head) (done : List VariantNode) : (variantEnd head done).Open :=
  (open_items _).step (t := Terminal.rbrace.token) rfl

/-- Behind a type some token closes what is around it, one frame after the other. -/
theorem exists_endType (site : Site) (frames : List Frame) (ty : TypeNode) :
    ∃ t q, t.terminal ≠ .less ∧ endType site frames ty t = .ok q ∧ q.Open := by
  induction frames generalizing ty with
  | nil =>
    cases site with
    | field head done name => exact ⟨Terminal.rbrace.token, _, nofun, rfl, open_items _⟩
    | payload head done name opening types => exact ⟨Terminal.rpar.token, _, nofun, rfl, open_variantEnd _ _⟩
  | cons frame frames ih =>
    have htypeEnd (ty : TypeNode) : (typeEnd site frames ty).Open := by
      obtain ⟨t, q, -, hstep, hq⟩ := ih ty
      exact hq.step hstep
    cases frame with
    | element opening =>
      have hlengthEnd (count : Token) : (lengthEnd site frames opening ty count).Open :=
        (htypeEnd _).step (t := Terminal.rsqb.token) rfl
      exact ⟨Terminal.semicolon.token, _, nofun, rfl, (hlengthEnd _).step (t := Terminal.int.token) rfl⟩
    | argument name done => exact ⟨Terminal.more.token, _, nofun, rfl, htypeEnd _⟩

theorem open_typeEnd (site : Site) (frames : List Frame) (ty : TypeNode) : (typeEnd site frames ty).Open := by
  obtain ⟨t, q, -, hstep, hq⟩ := exists_endType site frames ty
  exact hq.step hstep

theorem open_typeName (site : Site) (frames : List Frame) (name : Token) :
    (typeName site frames name).Open := by
  obtain ⟨t, q, hless, hstep, hq⟩ := exists_endType site frames (.name name)
  refine hq.step (t := t) ?_
  simpa only [Place.step] using hstep

theorem open_fields (head : Head) (done : List FieldNode) : (fields head done).Open :=
  (open_items _).step (t := Terminal.rbrace.token) rfl

theorem open_variants (head : Head) (done : List VariantNode) : (variants head done).Open :=
  (open_items _).step (t := Terminal.rbrace.token) rfl

theorem open_declOpening (head : Head) : (declOpening head).Open := by
  obtain ⟨scope, keyword, name⟩ := head
  by_cases henum : keyword.terminal = .enum
  · refine (open_variants ⟨scope, keyword, name⟩ []).step (t := Terminal.lbrace.token) ?_
    simp [Place.step, Terminal.token, henum]
  · refine (open_fields ⟨scope, keyword, name⟩ []).step (t := Terminal.lbrace.token) ?_
    simp [Place.step, Terminal.token]

/-- No place is a dead end. -/
theorem open_all (p : Place) : p.Open := by
  have hlengthEnd (site : Site) (frames : List Frame) (opening : Token) (elem : TypeNode) (count : Token) :
      (lengthEnd site frames opening elem count).Open :=
    (open_typeEnd site frames _).step (t := Terminal.rsqb.token) rfl
  have hblockOpening (keyword name : Token) : (blockOpening keyword name).Open :=
    (open_items _).step (t := Terminal.lbrace.token) rfl
  cases p with
  | items scope => exact open_items scope
  | blockName keyword => exact (hblockOpening keyword _).step (t := Terminal.name.token) rfl
  | blockOpening keyword name => exact hblockOpening keyword name
  | closed file => exact ⟨[], file, rfl⟩
  | declName scope keyword => exact (open_declOpening _).step (t := Terminal.name.token) rfl
  | declOpening head => exact open_declOpening head
  | fields head done => exact open_fields head done
  | fieldName head done name => exact (open_items _).step (t := Terminal.rbrace.token) rfl
  | variants head done => exact open_variants head done
  | variantName head done name => exact (open_items _).step (t := Terminal.rbrace.token) rfl
  | variantEnd head done => exact open_variantEnd head done
  | type site frames => exact (open_typeName site frames _).step (t := Terminal.name.token) rfl
  | typeName site frames name => exact open_typeName site frames name
  | typeEnd site frames ty => exact open_typeEnd site frames ty
  | length site frames opening elem =>
    exact (hlengthEnd site frames opening elem _).step (t := Terminal.int.token) rfl
  | lengthEnd site frames opening elem count => exact hlengthEnd site frames opening elem count

end Place

/-! ## Tokens that are read -/

/-- The tokens are those of a file. -/
def Sentence (ts : List Token) : Prop := ∃ f : File, f.Written ts

/-- The tokens can be extended to those of a file. -/
def Viable (ts : List Token) : Prop := ∃ more, Sentence (ts ++ more)

/-- The tokens that are read from a place and a cursor on, with the place and the cursor behind them. -/
inductive Reads : Place → Cursor → List Token → Place → Cursor → Prop
  | nil {p : Place} {cur : Cursor} : Reads p cur [] p cur
  | cons {p q r : Place} {cur next here : Cursor} {t : Token} {ts : List Token}
      (hnext : cur.next p.expected = .token t next) (hstep : p.step t = .ok q)
      (hrest : Reads q next ts r here) : Reads p cur (t :: ts) r here

namespace Reads

theorem run (h : Reads p cur ts q here) (more : List Token) : p.run (ts ++ more) = q.run more := by
  induction h with
  | nil => rfl
  | cons _ hstep _ ih =>
    rw [List.cons_append, Place.run, hstep]
    exact ih

/-- The tokens stand in the text, one behind the other. -/
theorem marked (h : Reads p cur ts q here) (hcur : cur.Behind before) :
    ∃ cs, cur.rest = cs ++ here.rest ∧ Marked before ts cs ∧ here.Behind (before ++ cs) := by
  induction h generalizing before with
  | nil => exact ⟨[], rfl, .nil, by rwa [List.append_nil]⟩
  | cons hnext _ _ ih =>
    obtain ⟨g, hgap, hvalid, htext, hspan, hbehind⟩ := hcur.next hnext
    obtain ⟨cs, hrest, hmarked, hhere⟩ := ih hbehind
    refine ⟨_, ?_, .cons hgap hvalid hspan hmarked, ?_⟩
    · rw [htext, hrest]
      simp only [List.append_assoc]
    · simpa only [List.append_assoc] using hhere

theorem sentence_iff (h : Reads .start cur ts q here) :
    Sentence (ts ++ more) ↔ ∃ f, q.run more = .ok f := by
  refine exists_congr fun f => ?_
  rw [← run_start_eq_ok_iff, h.run]

theorem viable (h : Reads .start cur ts q here) : Viable ts := by
  obtain ⟨more, hmore⟩ := q.open_all
  exact ⟨more, h.sentence_iff.mpr hmore⟩

/-- A token from which nothing leads on makes the tokens impossible. -/
theorem not_viable (h : Reads .start cur ts q here) (ht : ∀ more f, q.run (t :: more) ≠ .ok f) :
    ¬ Viable (ts ++ [t]) := by
  rintro ⟨more, hmore⟩
  rw [List.append_assoc, h.sentence_iff] at hmore
  obtain ⟨f, hf⟩ := hmore
  exact ht more f hf

end Reads

/-- Why the parser goes no further from a place and a cursor. -/
inductive Place.Stops (p : Place) (last : Option Token) (cur : Cursor) : SyntaxError → Prop
  | finished {expected : List Symbol} (hnext : cur.next p.expected = .finished)
      (hfinish : p.finish = .error expected) : Stops p last cur (.atEnd last expected)
  | unexpected {t : Token} (hnext : cur.next p.expected = .unexpected t) :
      Stops p last cur (.atToken t p.wanted)
  | stray {c : Char} {line col : Nat} (hnext : cur.next p.expected = .stray c line col) :
      Stops p last cur ⟨.stray c, line, col⟩
  | refused {t : Token} {next : Cursor} {expected : List Symbol} (hnext : cur.next p.expected = .token t next)
      (hstep : p.step t = .error expected) : Stops p last cur (.atToken t expected)

/-- A text that is refused is read up to a place where the parser stops. -/
theorem exists_stops {e : SyntaxError} (h : p.read last cur = .error e) :
    ∃ ts q here, Reads p cur ts q here ∧ q.Stops (ts.getLast?.or last) here e := by
  fun_induction Place.read p last cur with
  | case1 p last cur hnext =>
    cases hfinish : p.finish with
    | ok f =>
      rw [hfinish] at h
      cases h
    | error expected =>
      rw [hfinish] at h
      cases h
      exact ⟨[], p, cur, .nil, .finished hnext hfinish⟩
  | case2 p last cur t hnext =>
    cases h
    exact ⟨[], p, cur, .nil, .unexpected hnext⟩
  | case3 p last cur c line col hnext =>
    cases h
    exact ⟨[], p, cur, .nil, .stray hnext⟩
  | case4 p last cur t next hnext _ expected hstep =>
    cases h
    exact ⟨[], p, cur, .nil, .refused hnext hstep⟩
  | case5 p last cur t next hnext _ q hstep ih =>
    obtain ⟨ts, r, here, hreads, hstops⟩ := ih h
    refine ⟨t :: ts, r, here, .cons hnext hstep hreads, ?_⟩
    cases ts with
    | nil => exact hstops
    | cons => exact hstops

/-! ## What stands at a cursor -/

theorem Terminal.isSome_lexeme? {w : Word} (hvalid : w.Valid) (h : w.text <+: cs) :
    (w.terminal.lexeme? cs).isSome := by
  obtain ⟨c, m, htext, hbegins⟩ := begins_of_valid hvalid
  obtain ⟨after, rfl⟩ := h
  obtain ⟨u, text⟩ := w
  obtain rfl : text = c :: m := htext
  have hrun {p : Char → Bool} (hc : p c = true) : (run? p (c :: (m ++ after))).isSome := by
    simp [run?, hc]
  cases u with
  | name =>
    have hchar := isNameChar_of_isNameStart hbegins
    have hstart : isNameStart c = true := hbegins
    simpa [lexeme?, hstart] using hrun hchar
  | int => exact hrun hbegins
  | _ =>
    have hspelling : c :: m = _ := hvalid
    rw [hspelling, lexeme?_spelling (by simp) (by simp)]
    rfl

namespace Cursor

theorem token?_eq_none {us : List Terminal} (h : cur.token? us = none) :
    ∀ u ∈ us, u.lexeme? cur.rest = none := by
  induction us with
  | nil => exact List.forall_mem_nil _
  | cons u us ih =>
    unfold token? at h
    split at h
    · cases h
    · rename_i hnone
      exact List.forall_mem_cons.mpr ⟨hnone, ih h⟩

/-- No word of a terminal that was tried in vain stands here. -/
theorem not_prefix_of_token? {us : List Terminal} {w : Word} (h : cur.token? us = none)
    (hw : w.terminal ∈ us) (hvalid : w.Valid) : ¬ w.text <+: cur.rest := by
  intro hstarts
  have hsome := Terminal.isSome_lexeme? hvalid hstarts
  rw [token?_eq_none h _ hw] at hsome
  cases hsome

theorem wordTerminal_cases (m : String) :
    wordTerminal m = .name ∨ wordTerminal m ∈ [Terminal.struct, .enum, .mod] ∧
      m = String.ofList (wordTerminal m).spelling := by
  unfold wordTerminal
  cases hfind : List.find? (fun t : Terminal => String.ofList t.spelling == m) [.struct, .enum, .mod] with
  | none => exact .inl rfl
  | some u =>
    have hfound := List.find?_some hfind
    exact .inr ⟨List.mem_of_find?_eq_some hfind, (beq_iff_eq.mp hfound).symm⟩

/-- A token that is read whatever is expected is a valid word and stands at the cursor. -/
theorem anyToken?_eq_some (hcur : cur.Behind before) (h : cur.anyToken? = some t) :
    t.word.Valid ∧ t.span = spanAt before t.word.text ∧ t.word.text <+: cur.rest := by
  obtain ⟨⟨found, next⟩, htoken, rfl⟩ := Option.map_eq_some_iff.mp h
  obtain ⟨-, hvalid, hrest⟩ := token?_eq_some htoken
  obtain ⟨hspan, -⟩ := hcur.token? htoken
  have hstarts : found.word.text <+: cur.rest := ⟨next.rest, hrest.symm⟩
  dsimp only
  split
  case isFalse => exact ⟨hvalid, hspan, hstarts⟩
  case isTrue hname =>
    refine ⟨?_, hspan, hstarts⟩
    -- The word stays as it is, and a keyword is spelled like one.
    obtain hplain | ⟨hmem, htext⟩ := wordTerminal_cases found.text
    · simpa [Token.word, hname, hplain] using hvalid
    · simp only [Token.word, Word.Valid]
      generalize wordTerminal found.text = u at hmem htext
      simp only [List.mem_cons, List.not_mem_nil, or_false] at hmem
      obtain rfl | rfl | rfl := hmem <;> simp [htext, Terminal.spelling]

theorem not_prefix_of_anyToken? {w : Word} (h : cur.anyToken? = none) (hvalid : w.Valid) :
    ¬ w.text <+: cur.rest := by
  have hnone := Option.map_eq_none_iff.mp h
  by_cases hkeyword : w.terminal = .struct ∨ w.terminal = .enum ∨ w.terminal = .mod
  · -- A keyword is spelled like a name.
    have hname : Word.Valid ⟨.name, w.text⟩ := by
      obtain ⟨u, text⟩ := w
      dsimp only at hkeyword
      obtain rfl | rfl | rfl := hkeyword <;> cases hvalid <;> decide
    have hmem : Terminal.name ∈ Terminal.all.filter fun t => t ≠ .struct ∧ t ≠ .enum ∧ t ≠ .mod := by decide
    exact not_prefix_of_token? (w := ⟨.name, w.text⟩) hnone hmem hname
  · refine not_prefix_of_token? hnone (List.mem_filter.mpr ⟨Terminal.mem_all _, ?_⟩) hvalid
    simpa [not_or] using hkeyword

theorem next_eq_token_iff {us : List Terminal} :
    cur.next us = .token t next ↔ cur.skip.token? us = some (t, next) := by
  simp only [Cursor.next]
  cases cur.skip.token? us with
  | some found => simp [Prod.ext_iff]
  | none =>
    cases cur.skip.anyToken? with
    | some found => simp
    | none => cases cur.skip.rest <;> simp

theorem next_eq_unexpected {us : List Terminal} (h : cur.next us = .unexpected t) :
    cur.skip.token? us = none ∧ cur.skip.anyToken? = some t := by
  unfold Cursor.next at h
  simp only at h
  split at h
  · cases h
  · rename_i hnone
    split at h
    · rename_i hany
      cases h
      exact ⟨hnone, hany⟩
    · split at h <;> cases h

theorem next_eq_stray {us : List Terminal} {c : Char} {line col : Nat} (h : cur.next us = .stray c line col) :
    cur.skip.anyToken? = none ∧ (∃ after, cur.skip.rest = c :: after) ∧ line = cur.skip.line ∧
      col = cur.skip.col := by
  unfold Cursor.next at h
  simp only at h
  split at h
  · cases h
  · split at h
    · cases h
    · rename_i hany
      split at h
      · cases h
      · rename_i hrest
        cases h
        exact ⟨hany, ⟨_, hrest⟩, rfl, rfl⟩

/-- What is skipped before something else is a gap. -/
theorem Behind.gap (hcur : cur.Behind before) (hskip : cur.skip.rest ≠ []) :
    ∃ g, Gap g ∧ cur.rest = g ++ cur.skip.rest ∧ cur.skip.Behind (before ++ g) := by
  obtain ⟨g, hrest, hbehind⟩ := hcur.skip
  obtain ⟨g', hgap, hrest'⟩ | ⟨-, hend⟩ := cur.skip_cases
  · obtain rfl : g = g' := List.append_cancel_right (hrest.symm.trans hrest')
    exact ⟨g, hgap, hrest, hbehind⟩
  · exact absurd hend hskip

end Cursor

theorem Piece.isSome_ignorable? {m : List Char} (hpiece : Piece m) : (ignorable? (m ++ cs)).isSome := by
  cases hpiece with
  | blank h => simp [ignorable?_blank h]
  | line h => simp [ignorable?]
  | block h => simp [ignorable?, commentEnd?_append h]
  | outer h => simp [ignorable?, bracketEnd?_append h]
  | inner h => simp [ignorable?, bracketEnd?_append h]

/-- Nothing that the grammar knows begins here, neither a token nor ignorable text. -/
structure Barren (cs : List Char) : Prop where
  word : ∀ w : Word, w.Valid → ¬ w.text <+: cs
  piece : ∀ m, Piece m → ¬ m <+: cs
  comment : ¬ ['/', '/'] <+: cs

theorem barren_of_anyToken? (h : cur.skip.anyToken? = none) : Barren cur.skip.rest := by
  have hnone := cur.ignorable?_skip
  refine ⟨fun w hvalid => Cursor.not_prefix_of_anyToken? h hvalid, ?_, ?_⟩
  · rintro m hpiece ⟨after, hrest⟩
    have hsome : (ignorable? (m ++ after)).isSome := hpiece.isSome_ignorable?
    rw [hrest, hnone] at hsome
    cases hsome
  · rintro ⟨after, hrest⟩
    rw [← hrest] at hnone
    cases hnone

/-! ## Refusals -/

theorem behind_eq_pointBehind (before : List Char) :
    Span.point (Cursor.behind 1 1 before).1 (Cursor.behind 1 1 before).2 = Span.pointBehind before := by
  have hcount : Cursor.behind 1 1 before =
      (before.count '\n' + 1, (before.rtakeWhile (· ≠ '\n')).length + 1) := by
    induction before using List.reverseRecOn with
    | nil => rfl
    | append_singleton before c ih =>
      rw [behind_append, ih]
      by_cases hc : c = '\n'
      · subst hc
        simp [Cursor.behind]
      · simp [Cursor.behind, hc]
  rw [hcount]
  rfl

/-- The parser has read the tokens, and the text goes on with `rest` behind them and ignorable text. -/
structure ReadUpTo (source : String) (ts : List Token) (before rest : List Char) : Prop where
  text : source.toList = before ++ rest
  read : ∃ place here, Reads .start (.ofText source) ts place here ∧ here.skip.rest = rest
  marked : ∃ cs g, before = cs ++ g ∧ Marked [] ts cs ∧ (Gap g ∨ rest = [] ∧ Trailing g)

/-- Why a text is refused behind some tokens, and the place that is told: that of the first token which cannot
follow, that of the last token if the text ends too early, or that of a character with which nothing begins. -/
inductive Refused (source : String) (ts : List Token) (before rest : List Char) : SyntaxFault → Span → Prop
  | token {t : Token} {expected : List Symbol} (hvalid : t.word.Valid) (htext : t.word.text <+: rest)
      (himpossible : ¬ Viable (ts ++ [t])) :
      Refused source ts before rest (.unexpected (.terminal t.terminal) t.text expected)
        (.pointBehind before)
  | finish {first : List Token} {last : Token} {cs after : List Char} {expected : List Symbol}
      (hrest : rest = []) (hlast : ts = first ++ [last]) (hvalid : last.word.Valid)
      (htext : source.toList = cs ++ (last.word.text ++ after)) (hspan : last.span = spanAt cs last.word.text)
      (hopen : ¬ Sentence ts) :
      Refused source ts before rest (.unexpected .endOfInput "" expected) (.pointBehind cs)
  | stray {c : Char} {after : List Char} (hrest : rest = c :: after) (hbarren : Barren rest) :
      Refused source ts before rest (.stray c) (.pointBehind before)

theorem point_of_behind (h : here.Behind before) :
    Span.point here.line here.col = Span.pointBehind before := by
  unfold Cursor.Behind at h
  rw [← behind_eq_pointBehind, ← h]

theorem point_of_span {inside : List Char} (h : t.span = spanAt before inside) :
    Span.point t.span.line.toNat t.span.col.toNat = Span.pointBehind before := by
  rw [← behind_eq_pointBehind, h]
  rfl

/-- Something that stands behind the tokens is where the parser stops. -/
theorem Reads.readUpTo (h : Reads .start (.ofText source) ts q here) (hrest : here.skip.rest ≠ []) :
    ∃ before, ReadUpTo source ts before here.skip.rest ∧ here.skip.Behind before := by
  have hstart : (Cursor.ofText source).Behind [] := rfl
  obtain ⟨cs, htext, hmarked, hhere⟩ := h.marked hstart
  obtain ⟨g, hgap, hskip, hbehind⟩ := hhere.gap hrest
  refine ⟨cs ++ g, ⟨?_, ⟨q, here, h, rfl⟩, cs, g, rfl, hmarked, .inl hgap⟩, hbehind⟩
  rw [List.append_assoc, ← hskip]
  exact htext

/-- A token that cannot follow is told at its own place. -/
theorem Reads.refused_token (h : Reads .start (.ofText source) ts q here) (hvalid : t.word.Valid)
    (htext : t.word.text <+: here.skip.rest)
    (hspan : ∀ before, here.skip.Behind before → t.span = spanAt before t.word.text)
    (himpossible : ∀ more f, q.run (t :: more) ≠ .ok f) (expected : List Symbol) :
    ∃ before, ReadUpTo source ts before here.skip.rest ∧
      Refused source ts before here.skip.rest (.unexpected (.terminal t.terminal) t.text expected)
        (.point t.span.line.toNat t.span.col.toNat) := by
  have hrest : here.skip.rest ≠ [] := by
    obtain ⟨c, m, hword, -⟩ := Terminal.begins_of_valid hvalid
    obtain ⟨after, hafter⟩ := htext
    simp [← hafter, hword]
  obtain ⟨before, hupTo, hbehind⟩ := h.readUpTo hrest
  refine ⟨before, hupTo, ?_⟩
  rw [point_of_span (hspan before hbehind)]
  exact .token hvalid htext (h.not_viable himpossible)

/-- A text that ends too early ends behind some token, since no text is too short to be a file. -/
theorem Reads.refused_end (h : Reads .start (.ofText source) ts q here) {expected : List Symbol}
    (hnext : here.next q.expected = .finished) (hfinish : q.finish = .error expected) :
    ∃ before last, ReadUpTo source ts before [] ∧ ts.getLast? = some last ∧
      Refused source ts before [] (.unexpected .endOfInput "" expected)
        (.point last.span.line.toNat last.span.col.toNat) := by
  have hstart : (Cursor.ofText source).Behind [] := rfl
  obtain ⟨cs, htext, hmarked, -⟩ := h.marked hstart
  have htrailing := Cursor.next_eq_finished_iff.mp hnext
  have hopen : ¬ Sentence ts := by
    rw [← List.append_nil ts, h.sentence_iff]
    rintro ⟨f, hf⟩
    cases hfinish.symm.trans hf
  have hupTo : ReadUpTo source ts (cs ++ here.rest) [] := by
    refine ⟨?_, ⟨q, here, h, Cursor.skip_trailing htrailing⟩, cs, here.rest, rfl, hmarked, .inr ⟨rfl, htrailing⟩⟩
    rw [List.append_nil]
    exact htext
  obtain rfl | ⟨first, last, rfl⟩ := ts.eq_nil_or_concat'
  · exact absurd ⟨_, .bare .nil⟩ hopen
  · refine ⟨_, last, hupTo, List.getLast?_concat, ?_⟩
    obtain ⟨cs₁, cs₂, rfl, -, hlast⟩ := hmarked.split
    cases hlast with
    | @cons _ g cs _ _ hgap hvalid hspan hrest =>
      rw [point_of_span hspan]
      have hsource : source.toList = cs₁ ++ (g ++ (last.word.text ++ cs)) ++ here.rest := htext
      have htext : source.toList = [] ++ cs₁ ++ g ++ (last.word.text ++ (cs ++ here.rest)) := by simp [hsource]
      exact .finish rfl rfl hvalid htext hspan hopen

/-- A text that is no file is refused where it stops to be the beginning of one. -/
theorem exists_refused {e : SyntaxError} (h : File.read source = .error e) :
    ∃ ts before rest, ReadUpTo source ts before rest ∧ Viable ts ∧
      Refused source ts before rest e.fault (.point e.line e.col) := by
  obtain ⟨ts, q, here, hreads, hstops⟩ := exists_stops h
  rw [Option.or_none] at hstops
  cases hstops with
  | finished hnext hfinish =>
    obtain ⟨before, last, hupTo, hlast, hrefused⟩ := hreads.refused_end hnext hfinish
    rw [hlast]
    exact ⟨ts, before, [], hupTo, hreads.viable, hrefused⟩
  | @unexpected t hnext =>
    obtain ⟨hnone, hany⟩ := Cursor.next_eq_unexpected hnext
    have hstart : (Cursor.ofText source).Behind [] := rfl
    obtain ⟨cs, -, -, hhere⟩ := hreads.marked hstart
    obtain ⟨g, -, hskip⟩ := hhere.skip
    obtain ⟨hvalid, -, htext⟩ := Cursor.anyToken?_eq_some hskip hany
    -- The token was read by the fallback, so its terminal is none of the expected ones.
    have himpossible (more : List Token) (f : File) : q.run (t :: more) ≠ .ok f := fun hrun =>
      Cursor.not_prefix_of_token? hnone (mem_expected (run_eq_ok_iff.mp hrun)) hvalid htext
    obtain ⟨before, hupTo, hrefused⟩ := hreads.refused_token hvalid htext
      (fun _ hbehind => (Cursor.anyToken?_eq_some hbehind hany).2.1) himpossible q.wanted
    exact ⟨ts, before, _, hupTo, hreads.viable, hrefused⟩
  | @stray c line col hnext =>
    obtain ⟨hany, ⟨after, hrest⟩, rfl, rfl⟩ := Cursor.next_eq_stray hnext
    obtain ⟨before, hupTo, hbehind⟩ := hreads.readUpTo (by simp [hrest])
    refine ⟨ts, before, _, hupTo, hreads.viable, ?_⟩
    rw [point_of_behind hbehind]
    exact .stray hrest (barren_of_anyToken? hany)
  | @refused t next expected hnext hstep =>
    have htoken := Cursor.next_eq_token_iff.mp hnext
    obtain ⟨-, hvalid, htext⟩ := Cursor.token?_eq_some htoken
    have himpossible (more : List Token) (f : File) : q.run (t :: more) ≠ .ok f := by
      intro hrun
      rw [Place.run, hstep] at hrun
      cases hrun
    obtain ⟨before, hupTo, hrefused⟩ := hreads.refused_token hvalid ⟨next.rest, htext.symm⟩
      (fun _ hbehind => (hbehind.token? htoken).1) himpossible expected
    exact ⟨ts, before, _, hupTo, hreads.viable, hrefused⟩

/-- A text that cannot be read is refused at the first token that is impossible, or at the first character with
which nothing begins: what was read before can be completed to a file, and with that token it cannot. -/
theorem ofText_refused {failure : Failure} (h : Tree.ofText source = .error failure) :
    ∃ e ts before rest fault span, failure = .schema e ∧ e.code.id = "CE0001" ∧
      e.cause = .syntaxError (fault.detail?.getD "") ∧ e.span = some span ∧
      ReadUpTo source ts before rest ∧ Viable ts ∧ Refused source ts before rest fault span := by
  unfold Tree.ofText at h
  cases hread : File.read source with
  | ok f =>
    rw [hread] at h
    cases h
  | error e =>
    rw [hread] at h
    cases h
    obtain ⟨ts, before, rest, hupTo, hviable, hrefused⟩ := exists_refused hread
    exact ⟨_, ts, before, rest, _, _, rfl, rfl, rfl, rfl, hupTo, hviable, hrefused⟩

/-- A field without a colon. -/
def colonless : String := "struct Point \x7b\n  x u32\n\x7d"

theorem ofText_refused_colonless :
    ∃ failure, Tree.ofText colonless = .error failure ∧
      ∃ e ts before rest fault span, failure = .schema e ∧ e.code.id = "CE0001" ∧
        e.cause = .syntaxError (fault.detail?.getD "") ∧ e.span = some span ∧
        ReadUpTo colonless ts before rest ∧ Viable ts ∧ Refused colonless ts before rest fault span := by
  have hrefused : (Tree.ofText colonless).isOk = false := by decide +kernel
  cases h : Tree.ofText colonless with
  | ok t => simp [h, Except.isOk, Except.toBool] at hrefused
  | error failure => exact ⟨failure, rfl, ofText_refused h⟩

end Source

end PackedSchema
