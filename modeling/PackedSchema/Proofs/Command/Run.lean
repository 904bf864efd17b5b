import PackedSchema.Command.Run
import PackedSchema.Proofs.Outcome

/-!
# Parts of runs

What a part of a run gives and the world it leaves, and rules for parts behind each other. The rules speak of
directories alone, since what was printed before does not change what is done next.
-/

namespace PackedSchema.Command

namespace Run

/-! ## Parts of a run, by their directories -/

section Leads

variable {α β : Type} {d d' : Directory} {m : Run α} {k : α → Run β} {P : Except Ending β → Directory → Prop}

/-- What a part of a run gives, and the world after it. -/
def exec (m : Run α) (w : World) : Except Ending α × World := m.run.run w

/-- In every world with that directory, the part gives a result and leaves a directory as told. -/
def Leads (d : Directory) (m : Run α) (P : Except Ending α → Directory → Prop) : Prop :=
  ∀ w, w.directory = d → P (exec m w).1 (exec m w).2.directory

/-- The part gives a certain result and leaves a certain directory. -/
abbrev Gives (d : Directory) (m : Run α) (r : Except Ending α) (d' : Directory) : Prop :=
  Leads d m fun r' d'' => r' = r ∧ d'' = d'

theorem exec_bind_ok {w w' : World} {a : α} (h : exec m w = (.ok a, w')) :
    exec (m >>= k) w = exec (k a) w' := run_bind_ok h

theorem exec_bind_error {w w' : World} {e : Ending} (h : exec m w = (.error e, w')) :
    exec (m >>= k) w = (.error e, w') := run_bind_error h

theorem exec_print (s : String) (w : World) :
    exec (print s) w = (.ok (), { w with stdout := w.stdout ++ s }) := rfl

theorem exec_complain (s : String) (w : World) :
    exec (complain s) w = (.ok (), { w with stderr := w.stderr ++ s }) := rfl

theorem Leads.of_gives {r : Except Ending β} {m : Run β} (hm : Gives d m r d') (h : P r d') : Leads d m P := by
  intro w hw
  obtain ⟨hresult, hleft⟩ := hm w hw
  rw [hresult, hleft]
  exact h

theorem Leads.bind_ok {a : α} (hm : Gives d m (.ok a) d') (hk : Leads d' (k a) P) :
    Leads d (m >>= k) P := by
  intro w hw
  obtain ⟨hresult, hleft⟩ := hm w hw
  rw [exec_bind_ok (Prod.ext hresult rfl)]
  exact hk _ hleft

theorem Leads.bind_error {e : Ending} (hm : Gives d m (.error e) d') (h : P (.error e) d') :
    Leads d (m >>= k) P := by
  intro w hw
  obtain ⟨hresult, hleft⟩ := hm w hw
  rw [exec_bind_error (Prod.ext hresult rfl), hleft]
  exact h

theorem Leads.get_bind {k : World → Run β} (h : ∀ w, w.directory = d → Leads d (k w) P) :
    Leads d (get >>= k) P :=
  fun w hw => h w hw w hw

theorem Leads.ite {c : Prop} [Decidable c] {m m' : Run β} (h : c → Leads d m P) (h' : ¬ c → Leads d m' P) :
    Leads d (if c then m else m') P := by
  split
  case isTrue hc => exact h hc
  case isFalse hc => exact h' hc

/-- A part that a condition asks for, with the same continuation behind it in both cases. -/
theorem Leads.ite_bind {c : Prop} [Decidable c] {m : Run Unit} {k : Unit → Run β}
    (hm : c → Gives d m (.ok ()) d) (hk : Leads d (k ()) P) : Leads d (if c then m >>= k else k ()) P :=
  .ite (fun hc => .bind_ok (hm hc) hk) fun _ => hk

theorem gives_print (d : Directory) (s : String) : Gives d (print s) (.ok ()) d := fun _ hw => ⟨rfl, hw⟩

theorem gives_complain (d : Directory) (s : String) : Gives d (complain s) (.ok ()) d := fun _ hw => ⟨rfl, hw⟩

theorem gives_finish (d : Directory) (code : Nat) : Gives d (finish code : Run α) (.error (.returned code)) d :=
  fun _ hw => ⟨rfl, hw⟩

theorem gives_crash (d : Directory) (c : Crash) : Gives d (crash c : Run α) (.error (.crashed c)) d :=
  fun _ hw => ⟨rfl, hw⟩

theorem gives_pure (d : Directory) (a : α) : Gives d (pure a : Run α) (.ok a) d := fun _ hw => ⟨rfl, hw⟩

theorem gives_printLines (d : Directory) {lines : List (Except Manifest.SummaryFault String)}
    (h : (Manifest.printed lines).2 = none) : Gives d (printLines lines) (.ok ()) d := by
  unfold printLines
  refine .bind_ok (gives_print d _) ?_
  rw [h]
  exact gives_pure d ()

theorem gives_printLines_fault (d : Directory) {lines : List (Except Manifest.SummaryFault String)}
    {f : Manifest.SummaryFault} (h : (Manifest.printed lines).2 = some f) :
    Gives d (printLines lines) (.error (.crashed (.summary f))) d := by
  unfold printLines
  refine .bind_ok (gives_print d _) ?_
  rw [h]
  exact gives_crash d _

theorem gives_writeFile {path : String} {bytes : List UInt8} (h : d.write (Path.ofText path) bytes = .ok d') :
    Gives d (writeFile path bytes) (.ok ()) d' := by
  refine .get_bind fun w hw => ?_
  rw [hw, h]
  exact .bind_ok (gives_pure d d') fun _ _ => ⟨rfl, rfl⟩

theorem gives_writeFile_fault {path : String} {bytes : List UInt8} {f : FileFault}
    (h : d.write (Path.ofText path) bytes = .error f) :
    Gives d (writeFile path bytes) (.error (.crashed (.file f))) d := by
  refine .get_bind fun w hw => ?_
  rw [hw, h]
  exact .bind_error (gives_crash d _) ⟨rfl, rfl⟩

end Leads

end Run

open Run

/-! ## Whole runs -/

/-- The ending that a run has after its options were performed. -/
def endingOf : Except Ending Unit → Ending
  | .ok () => .returned 0
  | .error e => e

theorem run_eq {args : List String} {o : Options} (env : Environment) (d : Directory)
    (hargs : parse args = .run o) {r : Except Ending Unit} {w : World}
    (h : exec (perform env o) { directory := d } = (r, w)) :
    run env args d = { ending := endingOf r, world := w } := by
  have hperform : (perform env o).run.run { directory := d } = (r, w) := h
  unfold run
  rw [hargs]
  simp only [hperform]
  cases r <;> rfl

end PackedSchema.Command
