import PackedSchema.Source.Terminal
import PackedSchema.Span

/-!
# Tokens

The text of a schema is cut into tokens one at a time. Which terminals are tried depends on what can
stand at the place reached, so that `structA` is the keyword `struct` and a name where a declaration
may start, and one name where a name must follow. Before every token, ignorable text is skipped:
blanks, comments and attributes.

Main statements: what is skipped or read is a non-empty prefix of the text, so the rest is shorter.
-/

namespace PackedSchema.Source

/-! ## Character classes -/

def isNameStart (c : Char) : Bool := c.isAlpha || c = '_'

def isNameChar (c : Char) : Bool := c.isAlphanum || c = '_'

def isBlank (c : Char) : Bool :=
  c = ' ' || c = '\t' || c = '\x0c' || c = '\r' || c = '\n'

/-! ## Prefixes of a text -/

/-- The rest of a text after its longest non-empty run of characters in a class. -/
def run? (p : Char → Bool) (cs : List Char) : Option (List Char × List Char) :=
  match cs.takeWhile p with
  | [] => none
  | m => some (m, cs.dropWhile p)

/-- A text cut behind the first `*/`. -/
def commentEnd? : List Char → Option (List Char × List Char)
  | [] => none
  | '*' :: '/' :: cs => some (['*', '/'], cs)
  | c :: cs => (commentEnd? cs).map fun (m, rest) => (c :: m, rest)

/-- A text cut behind the first `]`. -/
def bracketEnd? : List Char → Option (List Char × List Char)
  | [] => none
  | c :: cs =>
    if c = ']' then some ([c], cs) else (bracketEnd? cs).map fun (m, rest) => (c :: m, rest)

/-- A piece of ignorable text at the start: a blank, a comment to the end of the line, a comment
between marks, or an attribute. -/
def ignorable? : List Char → Option (List Char × List Char)
  | '/' :: '/' :: cs => some ('/' :: '/' :: cs.takeWhile (· ≠ '\n'), cs.dropWhile (· ≠ '\n'))
  | '/' :: '*' :: cs => (commentEnd? cs).map fun (m, rest) => ('/' :: '*' :: m, rest)
  | '#' :: '[' :: cs => (bracketEnd? cs).map fun (m, rest) => ('#' :: '[' :: m, rest)
  | '#' :: '!' :: '[' :: cs => (bracketEnd? cs).map fun (m, rest) => ('#' :: '!' :: '[' :: m, rest)
  | c :: cs => if isBlank c then some ([c], cs) else none
  | [] => none

/-- The longest token of a terminal at the start of a text. -/
def Terminal.lexeme? (t : Terminal) (cs : List Char) : Option (List Char × List Char) :=
  match t with
  | .name => if cs.head?.any isNameStart then run? isNameChar cs else none
  | .int => run? Char.isDigit cs
  | t => (t.spelling.isPrefixOf? cs).map fun rest => (t.spelling, rest)

/-! ## Every piece is a non-empty prefix -/

theorem run?_eq_some {p : Char → Bool} {cs m rest : List Char} (h : run? p cs = some (m, rest)) :
    m ≠ [] ∧ m ++ rest = cs := by
  unfold run? at h
  split at h
  · simp at h
  · rename_i hm
    simp only [Option.some.injEq, Prod.mk.injEq] at h
    obtain ⟨rfl, rfl⟩ := h
    exact ⟨hm, List.takeWhile_append_dropWhile⟩

theorem commentEnd?_eq_some {cs m rest : List Char} (h : commentEnd? cs = some (m, rest)) :
    m ++ rest = cs := by
  fun_induction commentEnd? cs generalizing m rest with
  | case1 => simp at h
  | case2 cs =>
    simp only [Option.some.injEq, Prod.mk.injEq] at h
    obtain ⟨rfl, rfl⟩ := h
    rfl
  | case3 c cs _ ih =>
    obtain ⟨⟨m', rest'⟩, h', e⟩ := Option.map_eq_some_iff.1 h
    simp only [Prod.mk.injEq] at e
    obtain ⟨rfl, rfl⟩ := e
    simp [ih h']

theorem bracketEnd?_eq_some {cs m rest : List Char} (h : bracketEnd? cs = some (m, rest)) :
    m ++ rest = cs := by
  induction cs generalizing m rest with
  | nil => simp [bracketEnd?] at h
  | cons c cs ih =>
    unfold bracketEnd? at h
    split at h
    · simp only [Option.some.injEq, Prod.mk.injEq] at h
      obtain ⟨rfl, rfl⟩ := h
      rfl
    · obtain ⟨⟨m', rest'⟩, h', e⟩ := Option.map_eq_some_iff.1 h
      simp only [Prod.mk.injEq] at e
      obtain ⟨rfl, rfl⟩ := e
      simp [ih h']

theorem ignorable?_eq_some {cs m rest : List Char} (h : ignorable? cs = some (m, rest)) :
    m ≠ [] ∧ m ++ rest = cs := by
  unfold ignorable? at h
  split at h
  · simp only [Option.some.injEq, Prod.mk.injEq] at h
    obtain ⟨rfl, rfl⟩ := h
    simp [List.takeWhile_append_dropWhile]
  · obtain ⟨⟨m', rest'⟩, h', e⟩ := Option.map_eq_some_iff.1 h
    simp only [Prod.mk.injEq] at e
    obtain ⟨rfl, rfl⟩ := e
    simp [commentEnd?_eq_some h']
  · obtain ⟨⟨m', rest'⟩, h', e⟩ := Option.map_eq_some_iff.1 h
    simp only [Prod.mk.injEq] at e
    obtain ⟨rfl, rfl⟩ := e
    simp [bracketEnd?_eq_some h']
  · obtain ⟨⟨m', rest'⟩, h', e⟩ := Option.map_eq_some_iff.1 h
    simp only [Prod.mk.injEq] at e
    obtain ⟨rfl, rfl⟩ := e
    simp [bracketEnd?_eq_some h']
  · split at h
    · simp only [Option.some.injEq, Prod.mk.injEq] at h
      obtain ⟨rfl, rfl⟩ := h
      simp
    · simp at h
  · simp at h

theorem append_of_isPrefixOf? {p cs rest : List Char} (h : p.isPrefixOf? cs = some rest) :
    p ++ rest = cs := by
  induction p generalizing cs with
  | nil =>
    change some cs = some rest at h
    cases h
    rfl
  | cons a p ih =>
    cases cs with
    | nil => cases h
    | cons c cs =>
      change (if a == c then p.isPrefixOf? cs else none) = some rest at h
      split at h
      · rename_i e
        simp only [beq_iff_eq] at e
        simp [e, ih h]
      · simp at h

theorem Terminal.lexeme?_eq_some {t : Terminal} {cs m rest : List Char}
    (h : t.lexeme? cs = some (m, rest)) : m ≠ [] ∧ m ++ rest = cs := by
  unfold Terminal.lexeme? at h
  split at h
  · split at h
    · exact run?_eq_some h
    · simp at h
  · exact run?_eq_some h
  · rename_i hname hint
    obtain ⟨rest', h', e⟩ := Option.map_eq_some_iff.1 h
    simp only [Prod.mk.injEq] at e
    obtain ⟨rfl, rfl⟩ := e
    refine ⟨?_, append_of_isPrefixOf? h'⟩
    cases t <;> simp_all [Terminal.spelling]

theorem length_lt_of_piece {cs m rest : List Char} (h : m ≠ [] ∧ m ++ rest = cs) :
    rest.length < cs.length := by
  have : 0 < m.length := List.length_pos_iff.2 h.1
  rw [← h.2, List.length_append]
  omega

/-! ## Positions -/

structure Token where
  terminal : Terminal
  text : String
  span : Span
  deriving Repr, DecidableEq

/-- A place in a text: what is left of it, and the line and column of its first character. -/
structure Cursor where
  rest : List Char
  line : Nat := 1
  col : Nat := 1
  deriving Repr, DecidableEq

namespace Cursor

def ofText (s : String) : Cursor := { rest := s.toList }

/-- The line and column behind a piece of text. -/
def behind (line col : Nat) : List Char → Nat × Nat
  | [] => (line, col)
  | c :: cs => if c = '\n' then behind (line + 1) 1 cs else behind line (col + 1) cs

/-- Moves over the piece `m`, behind which `rest` is left. -/
def move (cur : Cursor) (m rest : List Char) : Cursor :=
  let (line, col) := behind cur.line cur.col m
  { rest, line, col }

@[simp] theorem move_rest (cur : Cursor) (m rest : List Char) : (cur.move m rest).rest = rest := rfl

/-- Moves over all ignorable text. -/
def skip (cur : Cursor) : Cursor :=
  match h : ignorable? cur.rest with
  | none => cur
  | some (m, rest) =>
    have : rest.length < cur.rest.length := length_lt_of_piece (ignorable?_eq_some h)
    (cur.move m rest).skip
termination_by cur.rest.length

/-- The token of that terminal, spelled `m`, at the cursor. -/
def tokenAt (cur : Cursor) (t : Terminal) (m : List Char) : Token :=
  let (line, col) := behind cur.line cur.col m
  { terminal := t, text := String.ofList m, span := ⟨cur.line, cur.col, line, col⟩ }

/-- The token of the first of the given terminals that has one here, and the cursor behind it. -/
def token? (cur : Cursor) : List Terminal → Option (Token × Cursor)
  | [] => none
  | t :: ts =>
    match t.lexeme? cur.rest with
    | some (m, rest) => some (cur.tokenAt t m, cur.move m rest)
    | none => cur.token? ts

/-- The keyword with that spelling, or else the plain name. -/
def wordTerminal (m : String) : Terminal :=
  ([.struct, .enum, .mod] : List Terminal).find? (fun t => String.ofList t.spelling == m)
    |>.getD .name

/-- The token here whatever the place expects: a name that spells a keyword is that keyword. -/
def anyToken? (cur : Cursor) : Option Token :=
  (cur.token? (Terminal.all.filter fun t => t ≠ .struct ∧ t ≠ .enum ∧ t ≠ .mod)).map fun (t, _) =>
    if t.terminal = .name then { t with terminal := wordTerminal t.text } else t

end Cursor

/-- What stands at a cursor behind ignorable text. -/
inductive Lexed
  /-- A token of one of the expected terminals, and the cursor behind it. -/
  | token (t : Token) (next : Cursor)
  /-- Nothing more. -/
  | finished
  /-- A token of another terminal. -/
  | unexpected (t : Token)
  /-- A character with which no token starts. -/
  | stray (c : Char) (line col : Nat)

/-- Reads the next token, trying the expected terminals first. -/
def Cursor.next (expected : List Terminal) (cur : Cursor) : Lexed :=
  let here := cur.skip
  match here.token? expected with
  | some (t, next) => .token t next
  | none =>
    match here.anyToken? with
    | some t => .unexpected t
    | none =>
      match here.rest with
      | [] => .finished
      | c :: _ => .stray c here.line here.col

/-! ## Reading a token leaves less -/

theorem Cursor.skip_length_le (cur : Cursor) : cur.skip.rest.length ≤ cur.rest.length := by
  fun_induction Cursor.skip cur with
  | case1 => exact Nat.le_refl _
  | case2 cur m rest h _ ih =>
    exact Nat.le_trans ih (Nat.le_of_lt (length_lt_of_piece (ignorable?_eq_some h)))

theorem Cursor.token?_length_lt {cur next : Cursor} {ts : List Terminal} {t : Token}
    (h : cur.token? ts = some (t, next)) : next.rest.length < cur.rest.length := by
  induction ts with
  | nil => simp [Cursor.token?] at h
  | cons a ts ih =>
    unfold Cursor.token? at h
    split at h
    · rename_i m rest hl
      simp only [Option.some.injEq, Prod.mk.injEq] at h
      obtain ⟨-, rfl⟩ := h
      exact length_lt_of_piece (Terminal.lexeme?_eq_some hl)
    · exact ih h

theorem Cursor.next_length_lt {cur next : Cursor} {ts : List Terminal} {t : Token}
    (h : cur.next ts = .token t next) : next.rest.length < cur.rest.length := by
  unfold Cursor.next at h
  simp only at h
  split at h
  · rename_i t' next' hn
    simp only [Lexed.token.injEq] at h
    obtain ⟨-, rfl⟩ := h
    exact Nat.lt_of_lt_of_le (Cursor.token?_length_lt hn) cur.skip_length_le
  · split at h
    · simp at h
    · split at h <;> simp at h

end PackedSchema.Source
