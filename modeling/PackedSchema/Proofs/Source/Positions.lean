import Mathlib.Data.Prod.Lex
import PackedSchema.Proofs.Source.Reading

/-!
# Positions of tokens

The lexer counts lines and columns over everything that it reads or skips. So the tokens of a text stand in
order, and to cut the text at the span from one token to another gives the text of all tokens from the one to
the other, with the gaps between them.
-/

namespace PackedSchema

/-! ## Spans of a text -/

namespace Span

def start (s : Span) : Int ×ₗ Int := toLex (s.line, s.col)

def stop (s : Span) : Int ×ₗ Int := toLex (s.endLine, s.endCol)

/-- The span ends where another one starts, or before. -/
def Before (a b : Span) : Prop := a.stop ≤ b.start

/-- The span starts and ends between the start and the end of another one. -/
structure Within (inner outer : Span) : Prop where
  start_le : outer.start ≤ inner.start
  ordered : inner.start ≤ inner.stop
  stop_le : inner.stop ≤ outer.stop

/-- The lines of a text up to a line and a column, which are counted from one. -/
def linesUpTo (line col : Nat) (lines : List (List Char)) : List (List Char) :=
  (lines.take line).modify (line - 1) (·.take (col - 1))

/-- The lines of a text from a line and a column on. -/
def linesFrom (line col : Nat) (lines : List (List Char)) : List (List Char) :=
  (lines.drop (line - 1)).modifyHead (·.drop (col - 1))

/-- The text from the start of a span up to its end. -/
def cut (s : Span) (text : String) : String :=
  let before := linesUpTo s.endLine.toNat s.endCol.toNat (text.toList.splitOn '\n')
  String.ofList (['\n'].intercalate (linesFrom s.line.toNat s.col.toNat before))

end Span

namespace Source

open Cursor (behind)

variable {c : Char} {cs before inside after : List Char}

/-! ## Positions -/

/-- How many lines end in a text, and how many characters are behind the last end of a line. -/
def reach : List Char → Nat × Nat
  | [] => (0, 0)
  | c :: cs =>
    let (lines, chars) := reach cs
    if c = '\n' then (lines + 1, chars) else if lines = 0 then (0, chars + 1) else (lines, chars)

theorem reach_newline (cs : List Char) : reach ('\n' :: cs) = ((reach cs).1 + 1, (reach cs).2) := rfl

theorem reach_char (hc : c ≠ '\n') :
    reach (c :: cs) = if (reach cs).1 = 0 then (0, (reach cs).2 + 1) else reach cs := by
  simp only [reach, if_neg hc]

theorem behind_eq (line col : Nat) (cs : List Char) :
    behind line col cs = (line + (reach cs).1, (if (reach cs).1 = 0 then col else 1) + (reach cs).2) := by
  induction cs generalizing line col with
  | nil => rfl
  | cons c cs ih =>
    by_cases hc : c = '\n'
    · subst hc
      rw [behind, if_pos rfl, ih, reach_newline]
      simp [Nat.add_assoc, Nat.add_comm 1]
    · rw [behind, if_neg hc, ih, reach_char hc]
      by_cases hlines : (reach cs).1 = 0
      · simp [hlines, Nat.add_assoc, Nat.add_comm 1]
      · simp [hlines]

theorem behind_append (line col : Nat) (a b : List Char) :
    behind line col (a ++ b) = behind (behind line col a).1 (behind line col a).2 b := by
  induction a generalizing line col with
  | nil => rfl
  | cons c a ih =>
    rw [List.cons_append, behind, behind]
    split
    · exact ih _ _
    · exact ih _ _

/-! ## Cutting -/

theorem splitOn_newline (cs : List Char) : ('\n' :: cs).splitOn '\n' = [] :: cs.splitOn '\n' := by
  rw [List.splitOn_cons_eq_if_modifyHead, if_pos (beq_self_eq_true _)]

theorem splitOn_char (hc : c ≠ '\n') (cs : List Char) : ∃ l ls, cs.splitOn '\n' = l :: ls ∧
    (c :: cs).splitOn '\n' = (c :: l) :: ls := by
  obtain ⟨l, ls, hsplit⟩ := List.exists_cons_of_ne_nil (List.splitOn_ne_nil '\n' cs)
  refine ⟨l, ls, hsplit, ?_⟩
  rw [List.splitOn_cons_eq_if_modifyHead, if_neg (by simpa using hc), hsplit, List.modifyHead_cons]

theorem linesUpTo_splitOn (before after : List Char) :
    Span.linesUpTo ((reach before).1 + 1) ((reach before).2 + 1) ((before ++ after).splitOn '\n') =
      before.splitOn '\n' := by
  simp only [Span.linesUpTo, Nat.add_sub_cancel]
  induction before with
  | nil =>
    obtain ⟨l, ls, hsplit⟩ := List.exists_cons_of_ne_nil (List.splitOn_ne_nil '\n' after)
    rw [List.nil_append, hsplit, List.splitOn_nil]
    rfl
  | cons c before ih =>
    rw [List.cons_append]
    by_cases hc : c = '\n'
    · subst hc
      rw [splitOn_newline, splitOn_newline, reach_newline, List.take_succ_cons, List.modify_succ_cons, ih]
    · obtain ⟨l, ls, hlong, hlong'⟩ := splitOn_char hc (before ++ after)
      obtain ⟨k, ks, hshort, hshort'⟩ := splitOn_char hc before
      rw [hlong, hshort] at ih
      rw [hlong', hshort', reach_char hc]
      cases hlines : (reach before).1 with
      | zero =>
        rw [hlines] at ih
        simpa using ih
      | succ n =>
        rw [hlines] at ih
        simpa [hlines] using ih

theorem linesFrom_splitOn (before after : List Char) :
    Span.linesFrom ((reach before).1 + 1) ((reach before).2 + 1) ((before ++ after).splitOn '\n') =
      after.splitOn '\n' := by
  simp only [Span.linesFrom, Nat.add_sub_cancel]
  induction before with
  | nil =>
    obtain ⟨l, ls, hsplit⟩ := List.exists_cons_of_ne_nil (List.splitOn_ne_nil '\n' after)
    rw [List.nil_append, hsplit]
    rfl
  | cons c before ih =>
    rw [List.cons_append]
    by_cases hc : c = '\n'
    · subst hc
      rw [splitOn_newline, reach_newline, List.drop_succ_cons, ih]
    · obtain ⟨l, ls, hlong, hlong'⟩ := splitOn_char hc (before ++ after)
      rw [hlong] at ih
      rw [hlong', reach_char hc]
      cases hlines : (reach before).1 with
      | zero =>
        rw [hlines] at ih
        simpa using ih
      | succ n =>
        rw [hlines] at ih
        simpa [hlines] using ih

/-- The span of a piece of text behind another one. -/
def spanAt (before inside : List Char) : Span :=
  let (line, col) := behind 1 1 before
  let (endLine, endCol) := behind 1 1 (before ++ inside)
  ⟨line, col, endLine, endCol⟩

theorem cut_spanAt {text : String} (h : text.toList = before ++ (inside ++ after)) :
    (spanAt before inside).cut text = String.ofList inside := by
  have hstart := behind_eq 1 1 before
  have hstop := behind_eq 1 1 (before ++ inside)
  rw [Span.cut, h, ← List.append_assoc, spanAt]
  simp only [hstart, hstop, Int.toNat_natCast, ite_self, Nat.add_comm 1]
  rw [linesUpTo_splitOn, linesFrom_splitOn, List.intercalate_splitOn]

/-! ## Order of positions -/

/-- The position behind a text. -/
def position (cs : List Char) : Int ×ₗ Int := toLex (((behind 1 1 cs).1 : Int), ((behind 1 1 cs).2 : Int))

theorem start_spanAt (before inside : List Char) : (spanAt before inside).start = position before := rfl

theorem stop_spanAt (before inside : List Char) :
    (spanAt before inside).stop = position (before ++ inside) := rfl

theorem le_behind (line col : Nat) (cs : List Char) :
    (toLex ((line : Int), (col : Int)) : Int ×ₗ Int) ≤
      toLex (((behind line col cs).1 : Int), ((behind line col cs).2 : Int)) := by
  induction cs generalizing line col with
  | nil => exact le_refl _
  | cons c cs ih =>
    rw [behind]
    split
    · refine le_trans ?_ (ih (line + 1) 1)
      rw [Prod.Lex.toLex_le_toLex]
      exact Or.inl (Int.ofNat_lt.mpr (Nat.lt_succ_self line))
    · refine le_trans ?_ (ih line (col + 1))
      rw [Prod.Lex.toLex_le_toLex]
      exact Or.inr ⟨rfl, Int.ofNat_le.mpr (Nat.le_succ col)⟩

theorem position_le_append (a b : List Char) : position a ≤ position (a ++ b) := by
  rw [position, position, behind_append]
  exact le_behind _ _ b

/-! ## Positions of cursors -/

namespace Cursor

variable {cur later : Cursor} {ts : List Terminal} {t : Token}

/-- The cursor stands behind a text. -/
def Behind (before : List Char) (cur : Cursor) : Prop := (cur.line, cur.col) = behind 1 1 before

theorem Behind.move (h : cur.Behind before) (m rest : List Char) :
    (cur.move m rest).Behind (before ++ m) := by
  unfold Behind at h ⊢
  rw [behind_append, ← h]
  rfl

theorem Behind.tokenAt (h : cur.Behind before) (u : Terminal) (m : List Char) :
    (cur.tokenAt u m).span = spanAt before m := by
  unfold Behind at h
  rw [spanAt, behind_append, ← h]
  rfl

/-- The lexer counts all that it skips. -/
theorem Behind.skip (h : cur.Behind before) :
    ∃ g, cur.rest = g ++ cur.skip.rest ∧ cur.skip.Behind (before ++ g) := by
  fun_induction Cursor.skip cur generalizing before with
  | case1 cur hnone => exact ⟨[], rfl, by rwa [List.append_nil]⟩
  | case2 cur m rest hsome _ ih =>
    obtain ⟨g, hrest, hbehind⟩ := ih (h.move m rest)
    rw [move_rest] at hrest
    refine ⟨m ++ g, ?_, by rwa [← List.append_assoc]⟩
    rw [List.append_assoc, ← hrest, (ignorable?_eq_some hsome).2]

theorem Behind.token? (h : cur.Behind before) (htoken : cur.token? ts = some (t, later)) :
    t.span = spanAt before t.word.text ∧ later.Behind (before ++ t.word.text) := by
  induction ts with
  | nil => cases htoken
  | cons u ts ih =>
    unfold Cursor.token? at htoken
    split at htoken
    · rename_i m rest hlexeme
      cases htoken
      have htext : (cur.tokenAt u m).word.text = m := by simp [Token.word, Cursor.tokenAt]
      rw [htext]
      exact ⟨h.tokenAt u m, h.move m rest⟩
    · exact ih htoken

/-- A token is read behind a gap, with the span where it stands. -/
theorem Behind.next (h : cur.Behind before) (hnext : cur.next ts = .token t later) :
    ∃ g, Gap g ∧ t.word.Valid ∧ cur.rest = g ++ (t.word.text ++ later.rest) ∧
      t.span = spanAt (before ++ g) t.word.text ∧ later.Behind (before ++ g ++ t.word.text) := by
  obtain ⟨-, hvalid, g, hgap, hrest⟩ := next_eq_token hnext
  obtain ⟨g', hskip, hbehind⟩ := h.skip
  unfold Cursor.next at hnext
  simp only at hnext
  split at hnext
  · rename_i htoken
    cases hnext
    obtain ⟨-, -, hrest'⟩ := token?_eq_some htoken
    -- What is skipped is the gap.
    obtain rfl : g = g' := by
      rw [hskip, hrest'] at hrest
      exact (List.append_cancel_right hrest).symm
    obtain ⟨hspan, hlater⟩ := hbehind.token? htoken
    exact ⟨g, hgap, hvalid, hrest, hspan, hlater⟩
  · split at hnext
    · cases hnext
    · split at hnext <;> cases hnext

end Cursor

/-! ## Texts and their tokens -/

variable {ts part : List Token} {span : Span} {source : String} {rest : List Char}

/-- The tokens of a text that stands behind another one: there is a gap before every token, and nothing behind
the last. -/
inductive Marked : List Char → List Token → List Char → Prop
  | nil {before : List Char} : Marked before [] []
  | cons {before g cs : List Char} {t : Token} {ts : List Token} (hgap : Gap g) (hvalid : t.word.Valid)
      (hspan : t.span = spanAt (before ++ g) t.word.text)
      (hrest : Marked (before ++ g ++ t.word.text) ts cs) : Marked before (t :: ts) (g ++ (t.word.text ++ cs))

theorem marked_of_read {p : Place} {last : Option Token} {cur : Cursor} {f : File} (hcur : cur.Behind before)
    (h : p.read last cur = .ok f) :
    ∃ ts cs rest, p.run ts = .ok f ∧ Marked before ts cs ∧ cur.rest = cs ++ rest := by
  fun_induction Place.read p last cur generalizing before with
  | case1 p last cur hnext => exact ⟨[], [], cur.rest, mapError_eq_ok_iff.mp h, .nil, rfl⟩
  | case2 => cases h
  | case3 => cases h
  | case4 => cases h
  | case5 p last cur t next hnext _ q hstep ih =>
    obtain ⟨g, hgap, hvalid, htext, hspan, hnext⟩ := hcur.next hnext
    obtain ⟨ts, cs, rest, hrun, hmarked, hrest⟩ := ih hnext h
    refine ⟨t :: ts, _, rest, bind_eq_ok_iff.mpr ⟨q, hstep, hrun⟩, .cons hgap hvalid hspan hmarked, ?_⟩
    rw [htext, hrest]
    simp only [List.append_assoc]

/-- The tokens from which a file is read, with the part of the text that they take. -/
theorem exists_marked {f : File} (h : File.read source = .ok f) :
    ∃ ts cs rest, f.Written ts ∧ Marked [] ts cs ∧ source.toList = cs ++ rest := by
  have hstart : (Cursor.ofText source).Behind [] := rfl
  obtain ⟨ts, cs, rest, hrun, hmarked, htext⟩ := marked_of_read hstart h
  exact ⟨ts, cs, rest, run_start_eq_ok_iff.mp hrun, hmarked, htext⟩

namespace Marked

theorem spells (h : Marked before ts cs) : Spells (ts.map Token.word) cs := by
  induction h with
  | nil => exact .done (.gap .nil)
  | cons hgap hvalid _ _ ih => exact .word hgap hvalid ih

theorem split {ts' : List Token} (h : Marked before (ts ++ ts') cs) :
    ∃ cs₁ cs₂, cs = cs₁ ++ cs₂ ∧ Marked before ts cs₁ ∧ Marked (before ++ cs₁) ts' cs₂ := by
  induction ts generalizing before cs with
  | nil => exact ⟨[], cs, rfl, .nil, by rwa [List.append_nil]⟩
  | cons t ts ih =>
    rw [List.cons_append] at h
    cases h with
    | @cons _ g cs _ _ hgap hvalid hspan hrest =>
      obtain ⟨cs₁, cs₂, rfl, hfirst, hsecond⟩ := ih hrest
      refine ⟨g ++ (t.word.text ++ cs₁), cs₂, by simp, .cons hgap hvalid hspan hfirst, ?_⟩
      simpa using hsecond

/-! ### Order -/

theorem position_le_start (h : Marked before ts cs) : ∀ t ∈ ts, position before ≤ t.span.start := by
  induction h with
  | nil => simp
  | @cons before g cs t ts hgap hvalid hspan hrest ih =>
    refine List.forall_mem_cons.mpr ⟨?_, fun t' ht' => ?_⟩
    · rw [hspan, start_spanAt]
      exact position_le_append before g
    · refine le_trans ?_ (ih t' ht')
      rw [List.append_assoc]
      exact position_le_append before _

theorem start_le_stop (h : Marked before ts cs) : ∀ t ∈ ts, t.span.start ≤ t.span.stop := by
  induction h with
  | nil => simp
  | cons hgap hvalid hspan hrest ih =>
    refine List.forall_mem_cons.mpr ⟨?_, ih⟩
    rw [hspan, start_spanAt, stop_spanAt]
    exact position_le_append _ _

theorem pairwise_before (h : Marked before ts cs) : ts.Pairwise fun t t' => t.span.Before t'.span := by
  induction h with
  | nil => exact .nil
  | cons hgap hvalid hspan hrest ih =>
    refine List.pairwise_cons.mpr ⟨fun t' ht' => ?_, ih⟩
    rw [Span.Before, hspan, stop_spanAt]
    exact hrest.position_le_start t' ht'

theorem stop_getLast (h : Marked before ts cs) :
    ∀ t ∈ ts.getLast?, t.span.stop = position (before ++ cs) := by
  induction h with
  | nil => simp
  | @cons before g cs t ts hgap hvalid hspan hrest ih =>
    intro l hl
    cases hrest with
    | nil =>
      obtain rfl : t = l := by simpa using hl
      rw [hspan, stop_spanAt, List.append_nil, List.append_assoc]
    | cons =>
      rw [List.getLast?_cons_cons] at hl
      simpa using ih l hl

/-! ### Cuts -/

theorem cut_token (h : Marked [] ts cs) (hsource : source.toList = cs ++ rest) {t : Token} (ht : t ∈ ts) :
    t.span.cut source = t.text := by
  obtain ⟨ts₁, ts₂, rfl⟩ := List.append_of_mem ht
  obtain ⟨cs₁, cs₂, rfl, -, hmarked⟩ := h.split
  cases hmarked with
  | @cons _ g cs _ _ _ _ hspan _ =>
    have htext : source.toList = ([] ++ cs₁ ++ g) ++ (t.word.text ++ (cs ++ rest)) := by simp [hsource]
    rw [hspan, cut_spanAt htext]
    exact String.ofList_toList

end Marked

/-- The span goes from the first of some tokens to the last. -/
def Covers (span : Span) (ts : List Token) : Prop :=
  ∃ first last, ts.head? = some first ∧ ts.getLast? = some last ∧ span = first.span.cover last.span

theorem eq_of_start_stop {a b : Span} (hstart : a.start = b.start) (hstop : a.stop = b.stop) : a = b := by
  obtain ⟨line, col, endLine, endCol⟩ := a
  obtain ⟨line', col', endLine', endCol'⟩ := b
  cases hstart
  cases hstop
  rfl

/-- The text that is cut at the span of tokens spells them. -/
theorem Marked.spells_cut (h : Marked [] ts cs) (hsource : source.toList = cs ++ rest) (hpart : part <:+: ts)
    (hspan : Covers span part) : Spells (part.map Token.word) (span.cut source).toList := by
  obtain ⟨ts₁, ts₂, rfl⟩ := hpart
  obtain ⟨csl, cs₃, rfl, hleft, -⟩ := h.split
  obtain ⟨cs₁, cs₂, rfl, -, hmarked⟩ := hleft.split
  obtain ⟨first, last, hfirst, hlast, rfl⟩ := hspan
  cases hmarked with
  | nil => cases hfirst
  | @cons _ g cs t more hgap hvalid ht hrest =>
    cases hfirst
    have hstop := (Marked.cons hgap hvalid ht hrest).stop_getLast last hlast
    -- The gap before the first token is not in the span.
    have hspan : first.span.cover last.span = spanAt ([] ++ cs₁ ++ g) (first.word.text ++ cs) := by
      apply eq_of_start_stop
      · exact (congrArg Span.start ht).trans rfl
      · rw [stop_spanAt, List.append_assoc]
        exact hstop
    have htext : source.toList = ([] ++ cs₁ ++ g) ++ ((first.word.text ++ cs) ++ (cs₃ ++ rest)) := by
      simp [hsource]
    rw [hspan, cut_spanAt htext, String.toList_ofList]
    exact .word .nil hvalid hrest.spells

end Source

end PackedSchema
