import PackedSchema.Proofs.Decimal.Numeral
import PackedSchema.Proofs.Source.Grammar
import PackedSchema.Proofs.Source.Spelling

/-!
# Reading a text

The terminals that are expected at a place begin differently, so that the lexer and the parser together read
a file from a text exactly if the text spells tokens from which the grammar makes the file.
-/

namespace PackedSchema.Source

variable {f : File} {p q : Place} {t : Token} {cur : Cursor} {last : Option Token}

/-! ## Expected terminals -/

namespace Terminal

variable {c : Char} {ts : List Terminal}

theorem mem_all (t : Terminal) : t ∈ all := by cases t <;> decide

theorem eq_of_spelling_head : ∀ t ∈ all, ∀ u ∈ all, t.spelling.head? ≠ none →
    t.spelling.head? = u.spelling.head? → t = u := by decide

theorem spelling_of_begins {t : Terminal} (hname : t ≠ name) (hint : t ≠ int) (h : t.begins c = true) :
    t.spelling.head? = some c := by
  cases t with
  | name => exact absurd rfl hname
  | int => exact absurd rfl hint
  | _ => exact of_decide_eq_true h

theorem eq_of_begins {t u : Terminal} (htname : t ≠ name) (htint : t ≠ int) (huname : u ≠ name)
    (huint : u ≠ int) (ht : t.begins c = true) (hu : u.begins c = true) : t = u := by
  have ht := spelling_of_begins htname htint ht
  have hu := spelling_of_begins huname huint hu
  exact eq_of_spelling_head t (mem_all t) u (mem_all u) (by simp [ht]) (ht.trans hu.symm)

/-- Keywords and marks begin differently. -/
theorem apart_of_fixed (h : ∀ t ∈ ts, t ≠ name ∧ t ≠ int) : Apart ts := by
  intro t ht u hu c htc huc
  exact eq_of_begins (h t ht).1 (h t ht).2 (h u hu).1 (h u hu).2 htc huc

theorem isNameChar_of_isNameStart (h : isNameStart c = true) : isNameChar c = true := by
  simp only [isNameStart, isNameChar, Char.isAlphanum, Bool.or_eq_true] at h ⊢
  tauto

theorem isNameChar_of_isDigit (h : c.isDigit = true) : isNameChar c = true := by
  simp [isNameChar, Char.isAlphanum, h]

theorem not_isDigit_of_isNameStart (h : isNameStart c = true) : c.isDigit = false := by
  by_contra hdigit
  rw [Bool.not_eq_false] at hdigit
  obtain ⟨hlow, hhigh⟩ := Numeral.toNat_of_isDigit hdigit
  have hdigits : ∀ n < 58, 48 ≤ n → isNameStart (Char.ofNat n) = false := by decide
  have hc := hdigits c.toNat (by omega) hlow
  rw [Char.ofNat_toNat, h] at hc
  contradiction

theorem not_begins_mark {t u : Terminal} (ht : t = name ∨ t = int) (hu : u.isMark = true)
    (htc : t.begins c = true) (huc : u.begins c = true) : False := by
  have hchar : isNameChar c = true := by
    obtain rfl | rfl := ht
    · exact isNameChar_of_isNameStart htc
    · exact isNameChar_of_isDigit htc
  rw [not_isNameChar_of_begins hu huc] at hchar
  cases hchar

/-- Names, numbers and marks begin differently. -/
theorem apart_of_plain (h : ∀ t ∈ ts, (t = name ∨ t = int) ∨ t.isMark = true) : Apart ts := by
  intro t ht u hu c htc huc
  obtain ht | ht := h t ht <;> obtain hu | hu := h u hu
  · obtain rfl | rfl := ht <;> obtain rfl | rfl := hu
    · rfl
    · simp_all [begins, not_isDigit_of_isNameStart]
    · simp_all [begins, not_isDigit_of_isNameStart]
    · rfl
  · exact (not_begins_mark ht hu htc huc).elim
  · exact (not_begins_mark hu ht huc htc).elim
  · refine eq_of_begins ?_ ?_ ?_ ?_ htc huc
    all_goals rintro rfl
    all_goals contradiction

end Terminal

theorem apart_expected (p : Place) : Terminal.Apart p.expected := by
  have h : (∀ t ∈ p.expected, t ≠ .name ∧ t ≠ .int) ∨
      ∀ t ∈ p.expected, (t = .name ∨ t = .int) ∨ t.isMark = true := by
    unfold Place.expected
    split <;> simp [Terminal.isMark, afterType]
  obtain h | h := h
  · exact Terminal.apart_of_fixed h
  · exact Terminal.apart_of_plain h

theorem mem_expected {ts : List Token} (h : p.Rest f (t :: ts)) : t.terminal ∈ p.expected := by
  cases p with
  | items scope =>
    obtain ⟨block, decls⟩ := scope
    simp only [Place.Rest, scopeRest_cons_iff, begin_decl_iff, next_cons] at h
    obtain ⟨keyword, n, rfl, ht, -⟩ | ⟨hscope, ht, -⟩ | ⟨ht | ht, -⟩ := h
    · simp [Place.expected, ht.eq]
    · cases hscope
      simp [Place.expected, ht.eq]
    · cases block <;> cases decls <;> simp [Place.expected, ht.eq]
    · cases block <;> cases decls <;> simp [Place.expected, ht.eq]
  | closed file => simp [Place.Rest] at h
  | fields head done =>
    simp only [Place.Rest] at h
    rw [listRest_iff, begin_field_iff, begin_type_iff] at h
    simp only [next_cons, Token.Is] at h
    simp only [Place.expected, List.mem_cons]
    tauto
  | fieldName head done n =>
    obtain ⟨ht, -⟩ | (⟨ht, -⟩ | ⟨ht, -⟩) | ⟨ht, -⟩ := h <;> simp [Place.expected, ht.eq]
  | variants head done =>
    simp only [Place.Rest] at h
    rw [listRest_iff, begin_variant_iff] at h
    simp only [next_cons, Token.Is] at h
    simp only [Place.expected, List.mem_cons]
    tauto
  | variantName head done n =>
    obtain (⟨ht, -⟩ | ⟨ht, -⟩) | ⟨ht, -⟩ := h <;> simp [Place.expected, ht.eq]
  | variantEnd head done => obtain ⟨ht, -⟩ | ⟨ht, -⟩ := h <;> simp [Place.expected, ht.eq]
  | type site frames =>
    obtain ⟨ht, -⟩ | ⟨ht, -⟩ | ⟨ht, head, done, n, opening, types, rfl, rfl, -⟩ := rest_type_iff.mp h
    · cases site <;> cases frames <;> simp [Place.expected, ht.eq]
    · cases site <;> cases frames <;> simp [Place.expected, ht.eq]
    · simp [Place.expected, ht.eq]
  | typeName site frames n =>
    obtain h | ⟨ht, -⟩ := h
    · exact List.mem_cons_of_mem _ (mem_afterType h)
    · simp [Place.expected, ht.eq]
  | typeEnd site frames ty => exact mem_afterType h
  | length site frames opening elem => obtain ⟨ht | ht, -⟩ := h <;> simp [Place.expected, ht.eq]
  | _ => simp [Place.expected, h.1.eq]

/-- Behind a name or a number only punctuation is expected. -/
theorem isMark_of_step {ts : List Token} (hrest : p.Rest f (t :: ts)) (hstep : p.step t = .ok q)
    (ht : t.Is .name ∨ t.Is .int) : ∀ u ∈ q.expected, u.isMark = true := by
  have hmem := mem_expected hrest
  cases p with
  | items scope =>
    obtain ⟨block, decls⟩ := scope
    obtain ht | ht := ht <;> cases block <;> cases decls <;> simp [Place.expected, ht.eq] at hmem
  | type site frames =>
    obtain ht | ht := ht
    · simp only [Place.step, ht.eq] at hstep
      cases hstep
      simp [Place.expected, afterType, Terminal.isMark]
    · cases site <;> cases frames <;> simp [Place.expected, ht.eq] at hmem
  | _ =>
    obtain ht | ht := ht <;> simp [Place.expected, afterType, ht.eq] at hmem <;>
      simp only [Place.step, ht.eq] at hstep <;> cases hstep <;>
      simp [Place.expected, Terminal.isMark]

/-! ## Texts and tokens -/

theorem spells_of_read (h : p.read last cur = .ok f) :
    ∃ ts, p.run ts = .ok f ∧ Spells (ts.map Token.word) cur.rest := by
  fun_induction Place.read p last cur with
  | case1 p last cur hnext =>
    refine ⟨[], mapError_eq_ok_iff.mp h, .done (Cursor.next_eq_finished_iff.mp hnext)⟩
  | case2 => cases h
  | case3 => cases h
  | case4 => cases h
  | case5 p last cur t next hnext _ q hstep ih =>
    obtain ⟨ts, hrun, hspells⟩ := ih h
    obtain ⟨-, hvalid, g, hgap, hrest⟩ := Cursor.next_eq_token hnext
    refine ⟨t :: ts, bind_eq_ok_iff.mpr ⟨q, hstep, hrun⟩, ?_⟩
    rw [hrest]
    exact .word hgap hvalid hspells

/-- A word ends where the parser reads the next one from the text behind it. -/
theorem stops_of_run {ts : List Token} {cs : List Char} (hspells : Spells (ts.map Token.word) cs)
    (hrun : p.run (t :: ts) = .ok f) : t.terminal.Stops cs := by
  obtain ⟨q, hstep, hnext⟩ := bind_eq_ok_iff.mp hrun
  by_cases ht : t.Is .name ∨ t.Is .int
  · refine (hspells.endsNames ?_).stops _
    intro w hw
    cases ts with
    | nil => cases hw
    | cons u ts =>
      cases hw
      exact isMark_of_step (run_eq_ok_iff.mp hrun) hstep ht _ (mem_expected (run_eq_ok_iff.mp hnext))
  · unfold Terminal.Stops
    split
    · exact absurd (.inl ‹_›) ht
    · exact absurd (.inr ‹_›) ht
    · trivial

theorem read_of_spells {ws : List Word} (h : Spells ws cur.rest) :
    ∃ ts, ts.map Token.word = ws ∧ ∀ p last f, Place.run p ts = .ok f → p.read last cur = .ok f := by
  generalize htext : cur.rest = text at h
  induction h generalizing cur with
  | done htrailing =>
    refine ⟨[], rfl, fun p last f hrun => ?_⟩
    rw [← htext] at htrailing
    have hnext : cur.next p.expected = .finished := Cursor.next_eq_finished_iff.mpr htrailing
    rw [Place.read]
    split <;> simp_all
    exact mapError_eq_ok_iff.mpr hrun
  | word hgap hvalid hspells ih =>
    obtain ⟨t, after, rfl, hafter, hnext⟩ := Cursor.next_word hvalid hgap htext
    obtain ⟨ts, rfl, hread⟩ := ih hafter
    refine ⟨t :: ts, rfl, fun p last f hrun => ?_⟩
    have hmem := mem_expected (run_eq_ok_iff.mp hrun)
    have hnext := hnext (stops_of_run hspells hrun) p.expected (apart_expected p) hmem
    obtain ⟨q, hstep, hrun⟩ := bind_eq_ok_iff.mp hrun
    have hread := hread q (some t) f hrun
    rw [Place.read]
    split <;> simp_all

/-- A file is read only from a text that spells tokens which the grammar allows for it. -/
theorem written_of_read {s : String} (h : File.read s = .ok f) :
    ∃ ts, f.Written ts ∧ Spells (ts.map Token.word) s.toList := by
  obtain ⟨ts, hrun, hspells⟩ := spells_of_read h
  exact ⟨ts, run_start_eq_ok_iff.mp hrun, hspells⟩

/-- The tokens of a text are those of the words that it spells, and a file that the grammar allows for them
is read from it. -/
theorem read_of_written {s : String} {ws : List Word} (h : Spells ws s.toList) :
    ∃ ts, ts.map Token.word = ws ∧ ∀ f : File, f.Written ts → File.read s = .ok f := by
  have h : Spells ws (Cursor.ofText s).rest := h
  obtain ⟨ts, hts, hread⟩ := read_of_spells h
  exact ⟨ts, hts, fun f hf => hread .start none f (run_start_eq_ok_iff.mpr hf)⟩

end PackedSchema.Source
