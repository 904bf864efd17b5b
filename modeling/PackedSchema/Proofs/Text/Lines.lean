import Mathlib.Data.List.Basic
import PackedSchema.Text.Lines

/-!
# Two ways to count lines

Places in a text count the lines that newlines end; a report cuts the text at every line break. Up to a line
the two agree exactly if none of the lines has a line break inside, apart from a carriage return at its end.
-/

namespace PackedSchema.Text

variable {line acc cs : List Char} {c : Char}

/-- A line without the carriage return at its end. -/
def chomp (line : List Char) : List Char := if line.getLast? = some '\r' then line.dropLast else line

/-- No line break is in the line, apart from a carriage return at its end. -/
def Unbroken (line : List Char) : Prop := ∀ c ∈ chomp line, isLineBreak c = false

/-- A text is one line, or a line ends in it and another text follows. -/
theorem exists_line (cs : List Char) :
    ('\n' ∉ cs ∧ cs.splitOn '\n' = [cs]) ∨
      ∃ line rest, '\n' ∉ line ∧ cs = line ++ '\n' :: rest ∧ cs.splitOn '\n' = line :: rest.splitOn '\n' := by
  induction cs with
  | nil => exact .inl ⟨List.not_mem_nil, rfl⟩
  | cons c cs ih =>
    rw [List.splitOn_cons_eq_if_modifyHead]
    by_cases hc : c = '\n'
    · subst hc
      exact .inr ⟨[], cs, List.not_mem_nil, rfl, if_pos (beq_self_eq_true _)⟩
    · rw [if_neg (by simpa using hc)]
      obtain ⟨hnone, hsplit⟩ | ⟨line, rest, hnone, rfl, hsplit⟩ := ih
      · exact .inl ⟨by simp [hnone, Ne.symm hc], by rw [hsplit, List.modifyHead_cons]⟩
      · exact .inr ⟨c :: line, rest, by simp [hnone, Ne.symm hc], rfl, by rw [hsplit, List.modifyHead_cons]⟩

theorem chomp_cases (line : List Char) : line = chomp line ∨ line = chomp line ++ ['\r'] := by
  by_cases hreturn : line.getLast? = some '\r'
  · rw [chomp, if_pos hreturn]
    exact .inr (List.dropLast_append_getLast? _ hreturn).symm
  · exact .inl (if_neg hreturn).symm

/-- Only a carriage return can be missing from the characters of a line. -/
theorem getElem?_chomp {k : Nat} (h : cs[k]? = some c) (hc : c ≠ '\r') : (chomp cs)[k]? = some c := by
  obtain hcs | hcs := chomp_cases cs
  · rwa [← hcs]
  · rw [hcs, List.getElem?_append] at h
    split at h
    · exact h
    · exact absurd (by simpa using List.mem_of_getElem? h) hc

/-! ## Lines of a report -/

theorem linesFrom_run (h : ∀ c ∈ line, isLineBreak c = false) :
    linesFrom acc (line ++ cs) = linesFrom (line.reverse ++ acc) cs := by
  induction line generalizing acc with
  | nil => rfl
  | cons c line ih =>
    rw [List.forall_mem_cons] at h
    have hc : c ≠ '\r' := by
      rintro rfl
      cases h.1
    rw [List.cons_append, linesFrom, h.1, if_neg Bool.false_ne_true, ih h.2]
    · simp
    · rintro rest rfl
      exact absurd rfl hc

theorem linesFrom_chomp (h : Unbroken line) (cs : List Char) :
    linesFrom [] (chomp line ++ cs) = linesFrom (chomp line).reverse cs := by
  rw [linesFrom_run h, List.append_nil]

theorem linesFrom_newline (h : Unbroken line) (rest : List Char) :
    linesFrom [] (line ++ '\n' :: rest) = chomp line :: linesFrom [] rest := by
  have hrun := linesFrom_chomp h
  obtain hline | hline := chomp_cases line
  · rw [← hline] at hrun ⊢
    rw [hrun]
    simp [linesFrom, isLineBreak]
  · rw [hline, List.append_assoc, hrun, ← hline]
    simp [linesFrom]

/-- A line at the end of a text is shown if it is not empty. -/
theorem linesFrom_last (h : Unbroken line) : linesFrom [] line = if line.isEmpty then [] else [chomp line] := by
  have hrun := linesFrom_chomp h
  obtain hline | hline := chomp_cases line
  · rw [← hline] at hrun ⊢
    have hlast := hrun []
    rw [List.append_nil] at hlast
    rw [hlast]
    simp [linesFrom]
  · have hlast := hrun ['\r']
    rw [← hline] at hlast
    rw [hlast, if_neg (by rw [hline]; simp)]
    simp [linesFrom, isLineBreak]

/-- No line of a report has a line break in it. -/
theorem not_isLineBreak_of_mem_linesFrom (hacc : ∀ c ∈ acc, isLineBreak c = false) :
    ∀ line ∈ linesFrom acc cs, ∀ c ∈ line, isLineBreak c = false := by
  fun_induction linesFrom acc cs with
  | case1 => simp
  | case2 => simpa using hacc
  | case3 acc cs ih => exact List.forall_mem_cons.mpr ⟨by simpa using hacc, ih (List.forall_mem_nil _)⟩
  | case4 acc c cs _ _ ih => exact List.forall_mem_cons.mpr ⟨by simpa using hacc, ih (List.forall_mem_nil _)⟩
  | case5 acc c cs _ hbreak ih => exact ih (List.forall_mem_cons.mpr ⟨by simpa using hbreak, hacc⟩)

/-! ## Where the two agree -/

/-- The line of that number that newlines end, counted from zero. -/
def numbered (cs : List Char) (n : Nat) : List Char := (cs.splitOn '\n').getD n []

theorem linesFrom_getD {n : Nat} (h : ∀ m ≤ n, Unbroken (numbered cs m)) :
    (linesFrom [] cs).getD n [] = chomp (numbered cs n) := by
  induction n generalizing cs with
  | zero =>
    have hfirst := h 0 (Nat.le_refl 0)
    obtain ⟨-, hsplit⟩ | ⟨line, rest, -, rfl, hsplit⟩ := exists_line cs
    · simp only [numbered, hsplit, List.getD_cons_zero] at hfirst ⊢
      rw [linesFrom_last hfirst]
      cases cs <;> rfl
    · simp only [numbered, hsplit, List.getD_cons_zero] at hfirst ⊢
      rw [linesFrom_newline hfirst, List.getD_cons_zero]
  | succ n ih =>
    have hfirst := h 0 (Nat.zero_le _)
    obtain ⟨-, hsplit⟩ | ⟨line, rest, -, rfl, hsplit⟩ := exists_line cs
    · simp only [numbered, hsplit, List.getD_cons_zero] at hfirst ⊢
      rw [linesFrom_last hfirst]
      cases cs <;> rfl
    · have hlater (m : Nat) : numbered (line ++ '\n' :: rest) (m + 1) = numbered rest m := by
        rw [numbered, hsplit, List.getD_cons_succ, numbered]
      simp only [numbered, hsplit, List.getD_cons_zero] at hfirst
      rw [linesFrom_newline hfirst, List.getD_cons_succ, hlater]
      refine ih fun m hm => ?_
      rw [← hlater]
      exact h (m + 1) (Nat.succ_le_succ hm)

/-- A report shows the numbered lines, up to one of them, exactly if no line break is in them. -/
theorem linesFrom_eq_numbered_iff {n : Nat} :
    (∀ m ≤ n, (linesFrom [] cs).getD m [] = chomp (numbered cs m)) ↔ ∀ m ≤ n, Unbroken (numbered cs m) := by
  refine ⟨fun h m hm => ?_, fun h m hm => linesFrom_getD fun k hk => h k (Nat.le_trans hk hm)⟩
  unfold Unbroken
  rw [← h m hm, List.getD_eq_getElem?_getD]
  cases hline : (linesFrom [] cs)[m]? with
  | none => exact List.forall_mem_nil _
  | some line => exact not_isLineBreak_of_mem_linesFrom (List.forall_mem_nil _) line (List.mem_of_getElem? hline)

end PackedSchema.Text
