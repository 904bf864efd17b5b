import PackedSchema.Source.Token
import Mathlib.Data.List.Infix
import Mathlib.Data.List.TakeWhile

/-!
# Spellings

A text spells a sequence of words if it consists of them in that order, with ignorable text before,
between and behind them. The lexer reads a word of an expected terminal where the text goes on with one,
and finds the end where only ignorable text is left.
-/

namespace PackedSchema.Source

variable {c : Char} {cs m g rest body : List Char} {t : Terminal} {ts : List Terminal} {cur next : Cursor}

/-! ## Ignorable text -/

/-- A piece of ignorable text: a blank, a comment with the end of its line, a comment between marks, or an
attribute of what follows or of what is around it. -/
inductive Piece : List Char → Prop
  | blank {c : Char} (h : isBlank c = true) : Piece [c]
  | line {body : List Char} (h : '\n' ∉ body) : Piece ('/' :: '/' :: (body ++ ['\n']))
  | block {body : List Char} (h : ¬ ['*', '/'] <:+: body) : Piece ('/' :: '*' :: (body ++ ['*', '/']))
  | outer {body : List Char} (h : ']' ∉ body) : Piece ('#' :: '[' :: (body ++ [']']))
  | inner {body : List Char} (h : ']' ∉ body) : Piece ('#' :: '!' :: '[' :: (body ++ [']']))

/-- A run of pieces, possibly of none. -/
inductive Gap : List Char → Prop
  | nil : Gap []
  | cons {p g : List Char} (hpiece : Piece p) (hgap : Gap g) : Gap (p ++ g)

/-- Ignorable text at the end of a text, where a comment needs no end of its line. -/
inductive Trailing : List Char → Prop
  | gap {g : List Char} (hgap : Gap g) : Trailing g
  | line {g body : List Char} (hgap : Gap g) (h : '\n' ∉ body) : Trailing (g ++ '/' :: '/' :: body)

theorem Trailing.append {p : List Char} (hpiece : Piece p) (h : Trailing cs) : Trailing (p ++ cs) := by
  cases h with
  | gap hgap => exact .gap (.cons hpiece hgap)
  | line hgap hbody =>
    rw [← List.append_assoc]
    exact .line (.cons hpiece hgap) hbody

/-! ## Ends of comments and attributes -/

theorem commentEnd?_append (h : ¬ ['*', '/'] <:+: body) :
    commentEnd? (body ++ '*' :: '/' :: rest) = some (body ++ ['*', '/'], rest) := by
  induction body with
  | nil => rfl
  | cons c body ih =>
    rw [List.infix_cons_iff, not_or] at h
    obtain ⟨hstart, hinside⟩ := h
    have hnot : ∀ tail, c = '*' → body ++ '*' :: '/' :: rest = '/' :: tail → False := by
      rintro tail rfl heq
      cases body with
      | nil => simp at heq
      | cons d body =>
        simp only [List.cons_append, List.cons.injEq] at heq
        simp [heq.1] at hstart
    rw [List.cons_append, commentEnd?.eq_3 _ _ hnot, ih hinside]
    rfl

theorem exists_of_commentEnd? (h : commentEnd? cs = some (m, rest)) :
    ∃ body, ¬ ['*', '/'] <:+: body ∧ m = body ++ ['*', '/'] := by
  fun_induction commentEnd? cs generalizing m rest with
  | case1 => cases h
  | case2 cs =>
    cases h
    exact ⟨[], by simp, rfl⟩
  | case3 c cs hnot ih =>
    obtain ⟨⟨m, rest⟩, hinner, heq⟩ := Option.map_eq_some_iff.mp h
    cases heq
    obtain ⟨body, hbody, rfl⟩ := ih hinner
    refine ⟨c :: body, ?_, rfl⟩
    rw [List.infix_cons_iff, not_or]
    refine ⟨?_, hbody⟩
    -- A mark across the first character would have ended the comment there.
    intro hstart
    obtain ⟨tail, htail⟩ := hstart
    have happend := commentEnd?_eq_some hinner
    cases htail
    exact hnot _ rfl happend.symm

theorem bracketEnd?_append (h : ']' ∉ body) :
    bracketEnd? (body ++ ']' :: rest) = some (body ++ [']'], rest) := by
  induction body with
  | nil => rfl
  | cons c body ih =>
    simp only [List.mem_cons, not_or] at h
    simp [bracketEnd?, Ne.symm h.1, ih h.2]

theorem exists_of_bracketEnd? (h : bracketEnd? cs = some (m, rest)) :
    ∃ body, ']' ∉ body ∧ m = body ++ [']'] := by
  induction cs generalizing m rest with
  | nil => cases h
  | cons c cs ih =>
    unfold bracketEnd? at h
    split at h
    case isTrue hc =>
      cases h
      exact ⟨[], by simp, by rw [hc]; rfl⟩
    case isFalse hc =>
      obtain ⟨⟨m, rest⟩, hinner, heq⟩ := Option.map_eq_some_iff.mp h
      cases heq
      obtain ⟨body, hbody, rfl⟩ := ih hinner
      exact ⟨c :: body, by simp [Ne.symm hc, hbody], rfl⟩

theorem inLine (h : '\n' ∉ body) : ∀ c ∈ body, decide (c ≠ '\n') = true := by
  intro c hc
  simp only [ne_eq, decide_eq_true_eq]
  rintro rfl
  exact h hc

theorem ignorable?_line (h : '\n' ∉ body) :
    ignorable? ('/' :: '/' :: (body ++ '\n' :: rest)) = some ('/' :: '/' :: body, '\n' :: rest) := by
  simp only [ignorable?]
  rw [List.takeWhile_append_of_pos (inLine h), List.dropWhile_append_of_pos (inLine h)]
  simp

theorem ignorable?_lastLine (h : '\n' ∉ body) :
    ignorable? ('/' :: '/' :: body) = some ('/' :: '/' :: body, []) := by
  simp only [ignorable?]
  rw [List.takeWhile_eq_self_iff.mpr (inLine h), List.dropWhile_eq_nil_iff.mpr (inLine h)]

theorem ignorable?_blank (h : isBlank c = true) : ignorable? (c :: rest) = some ([c], rest) := by
  have hslash : c ≠ '/' := by rintro rfl; cases h
  have hhash : c ≠ '#' := by rintro rfl; cases h
  unfold ignorable?
  split <;> simp_all

/-- What is skipped at once is a piece, or a comment that stops before the end of its line. -/
theorem piece_of_ignorable? (h : ignorable? cs = some (m, rest)) :
    Piece m ∨ ∃ body, '\n' ∉ body ∧ m = '/' :: '/' :: body ∧ (rest = [] ∨ ∃ cs, rest = '\n' :: cs) := by
  unfold ignorable? at h
  split at h
  · rename_i cs
    cases h
    refine .inr ⟨_, fun hmem => ?_, rfl, ?_⟩
    · simpa using List.mem_takeWhile_imp hmem
    · cases hdrop : cs.dropWhile (· ≠ '\n') with
      | nil => exact .inl rfl
      | cons d ds =>
        have hhead := List.head?_dropWhile_not (fun x : Char => decide (x ≠ '\n')) cs
        rw [hdrop] at hhead
        have hhead : d = '\n' := by simpa using hhead
        exact .inr ⟨ds, by rw [hhead]⟩
  · obtain ⟨⟨m, rest⟩, hinner, heq⟩ := Option.map_eq_some_iff.mp h
    cases heq
    obtain ⟨body, hbody, rfl⟩ := exists_of_commentEnd? hinner
    exact .inl (.block hbody)
  · obtain ⟨⟨m, rest⟩, hinner, heq⟩ := Option.map_eq_some_iff.mp h
    cases heq
    obtain ⟨body, hbody, rfl⟩ := exists_of_bracketEnd? hinner
    exact .inl (.outer hbody)
  · obtain ⟨⟨m, rest⟩, hinner, heq⟩ := Option.map_eq_some_iff.mp h
    cases heq
    obtain ⟨body, hbody, rfl⟩ := exists_of_bracketEnd? hinner
    exact .inl (.inner hbody)
  · split at h
    case isTrue hblank =>
      cases h
      exact .inl (.blank hblank)
    case isFalse => cases h
  · cases h

/-- A gap that goes up to what cannot be skipped takes a newline along. -/
theorem newline_of_gap (hgap : Gap g) (heq : '\n' :: cs = g ++ rest) (hrest : ignorable? rest = none) :
    ∃ g', g = '\n' :: g' ∧ Gap g' := by
  cases hgap with
  | nil =>
    rw [List.nil_append] at heq
    rw [← heq] at hrest
    cases hrest
  | cons hpiece hgap =>
    cases hpiece <;> cases heq
    exact ⟨_, rfl, hgap⟩

theorem newline_of_trailing (h : Trailing ('\n' :: cs)) : Trailing cs := by
  generalize heq : '\n' :: cs = text at h
  cases h with
  | gap hgap =>
    rw [← List.append_nil text] at heq
    obtain ⟨g, rfl, hbehind⟩ := newline_of_gap hgap heq rfl
    have hcs : cs = g := by simpa using heq
    rw [hcs]
    exact .gap hbehind
  | @line g body hgap hbody =>
    cases hgap with
    | nil => cases heq
    | cons hpiece hgap =>
      cases hpiece <;> cases heq
      exact .line hgap hbody

/-! ## Skipping -/

namespace Cursor

theorem skip_of_none (h : ignorable? cur.rest = none) : cur.skip = cur := by
  rw [skip]
  split <;> simp_all

theorem skip_of_some (h : ignorable? cur.rest = some (m, rest)) : cur.skip = (cur.move m rest).skip := by
  rw [skip]
  split <;> simp_all

theorem ignorable?_skip (cur : Cursor) : ignorable? cur.skip.rest = none := by
  fun_induction skip cur with
  | case1 cur h => exact h
  | case2 cur m rest h _ ih => exact ih

/-- One piece in front is skipped, whatever is behind it. -/
theorem skip_piece {p : List Char} (hpiece : Piece p) (hrest : cur.rest = p ++ cs) :
    ∃ next : Cursor, next.rest = cs ∧ cur.skip = next.skip := by
  cases hpiece with
  | @blank c h =>
    have hskip : ignorable? cur.rest = some ([c], cs) := by rw [hrest]; exact ignorable?_blank h
    exact ⟨_, rfl, skip_of_some hskip⟩
  | @line body h =>
    -- The end of the line is a piece of its own to the lexer.
    have hskip : ignorable? cur.rest = some ('/' :: '/' :: body, '\n' :: cs) := by
      simpa [hrest] using ignorable?_line h
    have hend : ignorable? (cur.move ('/' :: '/' :: body) ('\n' :: cs)).rest = some (['\n'], cs) :=
      ignorable?_blank rfl
    exact ⟨_, rfl, (skip_of_some hskip).trans (skip_of_some hend)⟩
  | @block body h =>
    have hskip : ignorable? cur.rest = some ('/' :: '*' :: (body ++ ['*', '/']), cs) := by
      simp [hrest, ignorable?, commentEnd?_append h]
    exact ⟨_, rfl, skip_of_some hskip⟩
  | @outer body h =>
    have hskip : ignorable? cur.rest = some ('#' :: '[' :: (body ++ [']']), cs) := by
      simp [hrest, ignorable?, bracketEnd?_append h]
    exact ⟨_, rfl, skip_of_some hskip⟩
  | @inner body h =>
    have hskip : ignorable? cur.rest = some ('#' :: '!' :: '[' :: (body ++ [']']), cs) := by
      simp [hrest, ignorable?, bracketEnd?_append h]
    exact ⟨_, rfl, skip_of_some hskip⟩

theorem skip_gap (hgap : Gap g) (hrest : cur.rest = g ++ cs) :
    ∃ next : Cursor, next.rest = cs ∧ cur.skip = next.skip := by
  induction hgap generalizing cur with
  | nil => exact ⟨cur, hrest, rfl⟩
  | cons hpiece _ ih =>
    rw [List.append_assoc] at hrest
    obtain ⟨behind, hbehind, hskip⟩ := skip_piece hpiece hrest
    obtain ⟨next, hnext, hskips⟩ := ih hbehind
    exact ⟨next, hnext, hskip.trans hskips⟩

theorem skip_trailing (h : Trailing cur.rest) : cur.skip.rest = [] := by
  generalize hrest : cur.rest = text at h
  cases h with
  | gap hgap =>
    rw [← List.append_nil text] at hrest
    obtain ⟨next, hnext, hskip⟩ := skip_gap hgap hrest
    rw [hskip, skip_of_none (by rw [hnext]; rfl), hnext]
  | @line g body hgap hbody =>
    obtain ⟨next, hnext, hskip⟩ := skip_gap hgap hrest
    have hlast : ignorable? next.rest = some ('/' :: '/' :: body, []) := by
      rw [hnext]
      exact ignorable?_lastLine hbody
    rw [hskip, skip_of_some hlast, skip_of_none rfl]
    rfl

/-- What is skipped is a gap, or all of a text that ends in a comment. -/
theorem skip_cases (cur : Cursor) :
    (∃ g, Gap g ∧ cur.rest = g ++ cur.skip.rest) ∨ (Trailing cur.rest ∧ cur.skip.rest = []) := by
  fun_induction skip cur with
  | case1 cur h => exact .inl ⟨[], .nil, rfl⟩
  | case2 cur m rest h _ ih =>
    have hcur := (ignorable?_eq_some h).2
    rw [← hcur]
    simp only [move_rest] at ih
    obtain hpiece | ⟨body, hbody, rfl, rfl | ⟨cs, rfl⟩⟩ := piece_of_ignorable? h
    · obtain ⟨g, hgap, hrest⟩ | ⟨htrailing, hend⟩ := ih
      · exact .inl ⟨m ++ g, .cons hpiece hgap, by rw [List.append_assoc, ← hrest]⟩
      · exact .inr ⟨htrailing.append hpiece, hend⟩
    · refine .inr ⟨?_, by rw [skip_of_none rfl]; rfl⟩
      rw [List.append_nil]
      exact .line .nil hbody
    · -- The end of the line was skipped as a blank; it belongs to the comment.
      obtain ⟨g, hgap, hrest⟩ | ⟨htrailing, hend⟩ := ih
      · obtain ⟨g, rfl, hbehind⟩ := newline_of_gap hgap hrest (ignorable?_skip _)
        refine .inl ⟨_, .cons (.line hbody) hbehind, ?_⟩
        simp only [List.cons_append, List.cons.injEq, true_and] at hrest
        simp [← hrest]
      · refine .inr ⟨?_, hend⟩
        have hline := (newline_of_trailing htrailing).append (.line hbody)
        simpa using hline

end Cursor

/-! ## Words -/

/-- A token without its place in a text. -/
@[ext] structure Word where
  terminal : Terminal
  text : List Char

/-- The word of a keyword or a punctuation mark. -/
def Terminal.word (t : Terminal) : Word := ⟨t, t.spelling⟩

def Token.word (t : Token) : Word := ⟨t.terminal, t.text.toList⟩

/-- The word is spelled as its terminal asks for. -/
def Word.Valid (w : Word) : Prop :=
  match w.terminal with
  | .name => w.text.head?.any isNameStart = true ∧ ∀ c ∈ w.text, isNameChar c = true
  | .int => w.text ≠ [] ∧ ∀ c ∈ w.text, c.isDigit = true
  | t => w.text = t.spelling

instance : DecidablePred Word.Valid := fun ⟨t, text⟩ =>
  match t with
  -- Through the characters of the text: a search for an instance may go through all characters there are.
  | .name => decidable_of_iff (text.head?.any isNameStart = true ∧ text.all isNameChar = true)
      (and_congr_right' List.all_eq_true)
  | .int => decidable_of_iff (text ≠ [] ∧ text.all Char.isDigit = true) (and_congr_right' List.all_eq_true)
  | .struct | .enum | .mod | .comma | .colon | .semicolon | .lbrace | .rbrace | .lpar | .rpar | .lsqb
  | .rsqb | .less | .more => inferInstanceAs (Decidable (text = _))

namespace Terminal

/-- A token of the terminal may begin with the character. -/
def begins (t : Terminal) (c : Char) : Bool :=
  match t with
  | name => isNameStart c
  | int => c.isDigit
  | t => t.spelling.head? = some c

/-- A token of the terminal ends where the text goes on like this. -/
def Stops (t : Terminal) (cs : List Char) : Prop :=
  match t with
  | name => ∀ c ∈ cs.head?, isNameChar c = false
  | int => ∀ c ∈ cs.head?, c.isDigit = false
  | _ => True

theorem begins_of_valid {w : Word} (h : w.Valid) :
    ∃ c cs, w.text = c :: cs ∧ w.terminal.begins c = true := by
  obtain ⟨t, text⟩ := w
  cases t with
  | name =>
    obtain ⟨hstart, -⟩ := h
    cases text with
    | nil => cases hstart
    | cons c cs => exact ⟨c, cs, rfl, hstart⟩
  | int =>
    obtain ⟨hne, hall⟩ := h
    cases text with
    | nil => exact absurd rfl hne
    | cons c cs => exact ⟨c, cs, rfl, hall c List.mem_cons_self⟩
  | _ => exact ⟨_, _, h, rfl⟩

/-- No token begins like ignorable text. -/
theorem ignorable?_of_begins (h : t.begins c = true) : ignorable? (c :: cs) = none := by
  have hslash : c ≠ '/' := by rintro rfl; cases t <;> cases h
  have hhash : c ≠ '#' := by rintro rfl; cases t <;> cases h
  have hblank : isBlank c = false := by
    rw [← Bool.not_eq_true]
    intro hblank
    simp only [isBlank, Bool.or_eq_true, decide_eq_true_eq] at hblank
    obtain (((rfl | rfl) | rfl) | rfl) | rfl := hblank <;> cases t <;> cases h
  unfold ignorable?
  split <;> simp_all

theorem run?_append {p : Char → Bool} (hne : m ≠ []) (hall : ∀ c ∈ m, p c = true)
    (hstop : ∀ c ∈ rest.head?, p c = false) : run? p (m ++ rest) = some (m, rest) := by
  have htake : rest.takeWhile p = [] := by
    cases rest with
    | nil => rfl
    | cons c cs => simp [hstop c rfl]
  have hdrop : rest.dropWhile p = rest := by
    cases rest with
    | nil => rfl
    | cons c cs => simp [hstop c rfl]
  simp [run?, List.takeWhile_append_of_pos hall, List.dropWhile_append_of_pos hall, htake, hdrop]

theorem forall_of_run? {p : Char → Bool} (h : run? p cs = some (m, rest)) : ∀ c ∈ m, p c = true := by
  unfold run? at h
  split at h
  · cases h
  · cases h
    exact fun c hc => List.mem_takeWhile_imp hc

theorem isPrefixOf?_append (m rest : List Char) : m.isPrefixOf? (m ++ rest) = some rest := by
  induction m with
  | nil => rfl
  | cons c m ih => simp [List.isPrefixOf?, ih]

theorem lexeme?_spelling (hname : t ≠ name) (hint : t ≠ int) :
    t.lexeme? (t.spelling ++ rest) = some (t.spelling, rest) := by
  unfold lexeme?
  split
  · contradiction
  · contradiction
  · rw [isPrefixOf?_append]
    rfl

theorem lexeme?_append {w : Word} (hvalid : w.Valid) (hstops : w.terminal.Stops rest) :
    w.terminal.lexeme? (w.text ++ rest) = some (w.text, rest) := by
  obtain ⟨c, cs, htext, -⟩ := begins_of_valid hvalid
  have hne : w.text ≠ [] := by simp [htext]
  obtain ⟨t, text⟩ := w
  cases t with
  | name =>
    obtain ⟨hstart, hall⟩ := hvalid
    have hhead : (text ++ rest).head?.any isNameStart = true := by
      simp only at htext hstart
      simpa [htext] using hstart
    simp only [lexeme?, hhead, if_true]
    exact run?_append hne hall hstops
  | int => exact run?_append hne hvalid.2 hstops
  | _ =>
    cases hvalid
    exact lexeme?_spelling (by simp) (by simp)

theorem valid_of_lexeme? (h : t.lexeme? cs = some (m, rest)) : Word.Valid ⟨t, m⟩ := by
  obtain ⟨hne, happend⟩ := lexeme?_eq_some h
  cases t with
  | name =>
    simp only [lexeme?] at h
    split at h
    case isTrue hstart =>
      refine ⟨?_, forall_of_run? h⟩
      cases m with
      | nil => exact absurd rfl hne
      | cons c m => simpa [← happend] using hstart
    case isFalse => cases h
  | int => exact ⟨hne, forall_of_run? h⟩
  | _ =>
    obtain ⟨_, -, heq⟩ := Option.map_eq_some_iff.mp h
    cases heq
    rfl

/-- No two of the terminals have tokens that begin alike. -/
def Apart (ts : List Terminal) : Prop :=
  ∀ t ∈ ts, ∀ u ∈ ts, ∀ c, t.begins c = true → u.begins c = true → t = u

end Terminal

/-! ## Reading a word -/

namespace Cursor

open Terminal (Apart)

theorem token?_word {w : Word} (hapart : Apart ts) (hmem : w.terminal ∈ ts) (hvalid : w.Valid)
    (hstops : w.terminal.Stops rest) (hrest : cur.rest = w.text ++ rest) :
    cur.token? ts = some (cur.tokenAt w.terminal w.text, cur.move w.text rest) := by
  obtain ⟨c, cs, htext, hbegins⟩ := Terminal.begins_of_valid hvalid
  induction ts with
  | nil => cases hmem
  | cons t ts ih =>
    unfold token?
    by_cases ht : t = w.terminal
    · rw [ht, hrest, Terminal.lexeme?_append hvalid hstops]
    · -- A terminal that is tried before it has no token here.
      have hnone : t.lexeme? cur.rest = none := by
        rw [Option.eq_none_iff_forall_not_mem]
        rintro ⟨m, rest'⟩ hlexeme
        obtain ⟨d, ds, hm, hbegins'⟩ := Terminal.begins_of_valid (Terminal.valid_of_lexeme? hlexeme)
        have happend := (Terminal.lexeme?_eq_some hlexeme).2
        simp only at hm
        simp only [hrest, htext, hm, List.cons_append, List.cons.injEq] at happend
        rw [happend.1] at hbegins'
        exact ht (hapart t List.mem_cons_self _ hmem c hbegins' hbegins)
      have hmem : w.terminal ∈ ts := (List.mem_cons.mp hmem).resolve_left (Ne.symm ht)
      simp only [hnone]
      exact ih (fun t ht u hu => hapart t (List.mem_cons_of_mem _ ht) u (List.mem_cons_of_mem _ hu)) hmem

theorem token?_eq_some {tok : Token} (h : cur.token? ts = some (tok, next)) :
    tok.terminal ∈ ts ∧ tok.word.Valid ∧ cur.rest = tok.word.text ++ next.rest := by
  induction ts with
  | nil => cases h
  | cons t ts ih =>
    unfold token? at h
    split at h
    · rename_i m rest hlexeme
      cases h
      refine ⟨List.mem_cons_self, ?_, ?_⟩
      · simpa [Token.word, tokenAt] using Terminal.valid_of_lexeme? hlexeme
      · simpa [Token.word, tokenAt] using (Terminal.lexeme?_eq_some hlexeme).2.symm
    · obtain ⟨hmem, hvalid, hrest⟩ := ih h
      exact ⟨List.mem_cons_of_mem t hmem, hvalid, hrest⟩

theorem token?_nil (h : cur.rest = []) : cur.token? ts = none := by
  rw [Option.eq_none_iff_forall_not_mem]
  rintro ⟨tok, next⟩ htoken
  have hlength := token?_length_lt htoken
  simp [h] at hlength

/-- The word that stands behind a gap is read, wherever its terminal is expected. -/
theorem next_word {w : Word} (hvalid : w.Valid) (hgap : Gap g) (hrest : cur.rest = g ++ (w.text ++ rest)) :
    ∃ tok after, tok.word = w ∧ after.rest = rest ∧ (w.terminal.Stops rest → ∀ ts, Apart ts →
      w.terminal ∈ ts → cur.next ts = .token tok after) := by
  obtain ⟨here, hhere, hskip⟩ := skip_gap hgap hrest
  obtain ⟨c, cs, htext, hbegins⟩ := Terminal.begins_of_valid hvalid
  have hstay : here.skip = here := by
    apply skip_of_none
    rw [hhere, htext, List.cons_append]
    exact Terminal.ignorable?_of_begins hbegins
  refine ⟨here.tokenAt w.terminal w.text, here.move w.text rest, ?_, rfl, ?_⟩
  · simp [Token.word, tokenAt]
  · intro hstops ts hapart hmem
    simp only [Cursor.next, hskip, hstay, token?_word hapart hmem hvalid hstops hhere]

theorem next_eq_token {tok : Token} (h : cur.next ts = .token tok next) :
    tok.terminal ∈ ts ∧ tok.word.Valid ∧
      ∃ g, Gap g ∧ cur.rest = g ++ (tok.word.text ++ next.rest) := by
  unfold Cursor.next at h
  simp only at h
  split at h
  · rename_i htoken
    cases h
    obtain ⟨hmem, hvalid, hrest⟩ := token?_eq_some htoken
    refine ⟨hmem, hvalid, ?_⟩
    obtain ⟨g, hgap, hcur⟩ | ⟨-, hend⟩ := cur.skip_cases
    · exact ⟨g, hgap, by rw [hcur, hrest]⟩
    · rw [token?_nil hend] at htoken
      cases htoken
  · split at h
    · cases h
    · split at h <;> cases h

theorem next_eq_finished_iff : cur.next ts = .finished ↔ Trailing cur.rest := by
  constructor
  · intro h
    have hend : cur.skip.rest = [] := by
      unfold Cursor.next at h
      simp only at h
      split at h
      · cases h
      · split at h
        · cases h
        · split at h
          · assumption
          · cases h
    obtain ⟨g, hgap, hcur⟩ | ⟨htrailing, -⟩ := cur.skip_cases
    · rw [hcur, hend, List.append_nil]
      exact .gap hgap
    · exact htrailing
  · intro h
    have hend := skip_trailing h
    simp [Cursor.next, anyToken?, token?_nil hend, hend]

end Cursor

/-! ## Texts -/

/-- A text spells words if it consists of them, with a gap before each of them and ignorable text behind
the last one. -/
inductive Spells : List Word → List Char → Prop
  | done {cs : List Char} (htrailing : Trailing cs) : Spells [] cs
  | word {g cs : List Char} {w : Word} {ws : List Word} (hgap : Gap g) (hvalid : w.Valid)
      (hspells : Spells ws cs) : Spells (w :: ws) (g ++ (w.text ++ cs))

theorem Spells.valid {ws : List Word} (h : Spells ws cs) : ∀ w ∈ ws, w.Valid := by
  induction h with
  | done => simp
  | word _ hvalid _ ih => exact List.forall_mem_cons.mpr ⟨hvalid, ih⟩

theorem Spells.blank {ws : List Word} (h : Spells ws cs) (hc : isBlank c = true) : Spells ws (c :: cs) := by
  cases h with
  | done htrailing => exact .done (htrailing.append (.blank hc))
  | word hgap hvalid hspells => exact .word (.cons (.blank hc) hgap) hvalid hspells

/-- Words with blanks between them. -/
theorem spells_spaced {ws : List Word} (h : ∀ w ∈ ws, w.Valid) :
    Spells ws ([' '].intercalate (ws.map Word.text)) := by
  induction ws with
  | nil => exact .done (.gap .nil)
  | cons w ws ih =>
    rw [List.forall_mem_cons] at h
    obtain ⟨hw, hws⟩ := h
    cases ws with
    | nil => simpa using Spells.word .nil hw (.done (.gap .nil))
    | cons next ws =>
      rw [List.map_cons, List.map_cons, List.intercalate_cons_cons, List.append_assoc]
      exact .word .nil hw ((ih hws).blank rfl)

/-- The terminals of punctuation. -/
def Terminal.isMark : Terminal → Bool
  | name | int | struct | enum | mod => false
  | _ => true

theorem Terminal.not_isNameChar_of_begins (hmark : t.isMark = true) (h : t.begins c = true) :
    isNameChar c = false := by
  cases t <;> cases hmark <;> (simp only [begins, decide_eq_true_eq] at h; cases h; rfl)

/-- No name goes on with the text. -/
def EndsNames (cs : List Char) : Prop := ∀ c ∈ cs.head?, isNameChar c = false

theorem Piece.endsNames {p : List Char} (hpiece : Piece p) : EndsNames (p ++ cs) := by
  intro c hc
  cases hpiece with
  | blank h =>
    cases hc
    simp only [isBlank, Bool.or_eq_true, decide_eq_true_eq] at h
    obtain (((rfl | rfl) | rfl) | rfl) | rfl := h <;> rfl
  | _ =>
    cases hc
    rfl

theorem Gap.endsNames (hgap : Gap g) (h : EndsNames cs) : EndsNames (g ++ cs) := by
  cases hgap with
  | nil => exact h
  | cons hpiece hgap =>
    rw [List.append_assoc]
    exact hpiece.endsNames

theorem Spells.endsNames {ws : List Word} (h : Spells ws cs)
    (hmark : ∀ w ∈ ws.head?, w.terminal.isMark = true) : EndsNames cs := by
  cases h with
  | done htrailing =>
    cases htrailing with
    | gap hgap =>
      rw [← List.append_nil cs]
      exact hgap.endsNames (by simp [EndsNames])
    | line hgap hbody =>
      refine hgap.endsNames ?_
      intro c hc
      cases hc
      rfl
  | @word g cs w ws hgap hvalid hspells =>
    refine hgap.endsNames ?_
    obtain ⟨c, ds, htext, hbegins⟩ := Terminal.begins_of_valid hvalid
    intro d hd
    simp only [htext, List.cons_append, List.head?_cons, Option.mem_some_iff] at hd
    subst hd
    exact Terminal.not_isNameChar_of_begins (hmark w rfl) hbegins

theorem EndsNames.stops (h : EndsNames cs) (t : Terminal) : t.Stops cs := by
  cases t with
  | name => exact h
  | int =>
    intro c hc
    have hchar := h c hc
    simp only [isNameChar, Char.isAlphanum, Bool.or_eq_false_iff] at hchar
    exact hchar.1.2
  | _ => trivial

end PackedSchema.Source
