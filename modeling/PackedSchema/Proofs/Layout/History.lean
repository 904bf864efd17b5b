import PackedSchema.Proofs.Layout.Session

/-!
# Histories of questions

A session that was asked any questions before, some of which may have failed, answers a question exactly
if an empty session does, and with the same answer.
-/

namespace PackedSchema.Layout

variable {t : TypeTable} {r : Nat} {s : Session} {α : Type}

/-! ## Questions -/

/-- A question that a session can be asked. -/
inductive Question
  | size (ty : FieldType) (site : Site)
  | alignment (ty : FieldType) (site : Site)
  | resolve (name : String) (site : Site)
  | structOffsets (name : String)
  | structSize (name : String)
  | structAlignment (name : String)
  | enumExtent (name : String)
  | enumBodyWords (name : String)
  | enumSize (name : String)
  | layoutOf (name : String)

inductive Answer
  | number (n : Int)
  | decl (d : Decl)
  | fields (fs : List FieldLayout)
  | layout (l : TypeLayout)
  deriving DecidableEq

namespace Question

def query (t : TypeTable) : Question → Query Answer
  | size ty site => return .number (← Layout.size t ty site)
  | alignment ty site => return .number (← Layout.alignment t ty site)
  | resolve name site => return .decl (← Layout.resolve t name site)
  | structOffsets name => return .fields (← Layout.structOffsets t name)
  | structSize name => return .number (← Layout.structSize t name)
  | structAlignment name => return .number (← Layout.structAlignment t name)
  | enumExtent name => return .number (← Layout.enumExtent t name)
  | enumBodyWords name => return .number (← Layout.enumBodyWords t name)
  | enumSize name => return .number (← Layout.enumSize t name)
  | layoutOf name => return .layout (← Layout.layoutOf t name)

/-- What a question comes to without a session. -/
def direct (t : TypeTable) : Question → Except Failure Answer
  | size ty site => return .number (← (Layout.direct t).sizeOf t site ty)
  | alignment ty site => return .number (← (Layout.direct t).alignmentOf t site ty)
  | resolve name site => return .decl (← Layout.resolve t name site)
  | structOffsets name => return .fields (← (Layout.direct t).structOffsets name)
  | structSize name => return .number (← (Layout.direct t).structSize name)
  | structAlignment name => return .number (← (Layout.direct t).alignment name)
  | enumExtent name => return .number (← (Layout.direct t).extent name)
  | enumBodyWords name => return .number (← (Layout.direct t).bodyWords name)
  | enumSize name => return .number (← (Layout.direct t).enumSize name)
  | layoutOf name => return .layout (← (Layout.direct t).layoutOf t name)

/-- Every question follows its direct computation. -/
theorem query_follows (hw : t.WellFormed) (hc : Counted t.decls) (q : Question) :
    Follows t (t.decls.length + 1) (q.query t) (q.direct t) := by
  have hparts := deep_follow hw hc
  have hagree (name : String) := agree_of_follow fun _ => hparts name
  cases q with
  | size ty site =>
    exact ((following t _).rel_sizeOf (fun n _ => hagree n) site).bind fun _ => follows_pure _
  | alignment ty site =>
    exact ((following t _).rel_alignmentOf (fun n _ => hagree n) site).bind fun _ => follows_pure _
  | resolve name site => exact (following t _).rel_lift_bind fun _ _ => follows_pure _
  | structOffsets name =>
    exact ((following t _).rel_structOffsets (hparts name).shape).bind fun _ => follows_pure _
  | structSize name =>
    exact ((following t _).rel_structSize (hparts name).shape).bind fun _ => follows_pure _
  | structAlignment name => exact (hparts name).alignment.bind fun _ => follows_pure _
  | enumExtent name => exact (hparts name).extent.bind fun _ => follows_pure _
  | enumBodyWords name =>
    exact ((following t _).rel_bodyWords (hparts name).extent).bind fun _ => follows_pure _
  | enumSize name =>
    exact ((following t _).rel_enumSize (hparts name).extent).bind fun _ => follows_pure _
  | layoutOf name =>
    exact ((following t _).rel_layoutOf rfl (hagree name)).bind fun _ => follows_pure _

end Question

/-! ## Histories -/

/-- The outcomes of questions that are asked one after the other, and the session after them. -/
def interview (t : TypeTable) (s : Session) : List Question → List (Except Failure Answer) × Session
  | [] => ([], s)
  | q :: rest =>
    let first := ask (q.query t) s
    let later := interview t first.2 rest
    (first.1 :: later.1, later.2)

theorem interview_ready (hw : t.WellFormed) (hc : Counted t.decls) (history : List Question)
    (hs : Ready t (t.decls.length + 1) s) :
    Ready t (t.decls.length + 1) (interview t s history).2 := by
  induction history generalizing s with
  | nil => exact hs
  | cons q rest ih => exact ih ((q.query_follows hw hc).ready hs)

/-- Questions that are all answered leave nothing in progress. -/
theorem interview_inProgress (hw : t.WellFormed) (hc : Counted t.decls) (history : List Question)
    (hs : Ready t (t.decls.length + 1) s) (hok : ∀ o ∈ (interview t s history).1, Succeeds o) :
    (interview t s history).2.inProgress = s.inProgress := by
  induction history generalizing s with
  | nil => rfl
  | cons q rest ih =>
    have hfollows := q.query_follows hw hc
    obtain ⟨hfirst, hlater⟩ := List.forall_mem_cons.mp hok
    exact (ih (hfollows.ready hs) hlater).trans (hfollows.inProgress hs hfirst)

/-- Whatever a session was asked before, it answers a question as an empty session does. Where an empty
session fails it fails too: in the same way if all earlier questions were answered, and otherwise in the
same way or by refusing a declaration that an earlier failure left in progress. -/
theorem interview_transparent {schema : Schema} (htable : TypeTable.ofSchema schema = .ok t)
    (hcounted : Counted schema.decls) (history : List Question) (q : Question) :
    let (earlier, session) := interview t {} history
    let alone := (ask (q.query t) {}).1
    let here := (ask (q.query t) session).1
    (∀ a, here = .ok a ↔ alone = .ok a) ∧
      ∀ e, alone = .error e →
        ((∀ o ∈ earlier, Succeeds o) → here = .error e) ∧
        (here = .error e ∨ ∃ d ∈ t.decls, d.name ∈ session.inProgress ∧
          here = .error (.schema (refusal d)) ∧
          (refusal d).text = "CE0201: recursive type layout: " ++ d.name ++ " -> " ++ d.name) := by
  obtain ⟨ht, hw⟩ := TypeTable.ofSchema_eq_ok htable
  have hc : Counted t.decls := by
    rw [ht]
    exact hcounted
  have hempty := ready_empty t (t.decls.length + 1)
  have hready := interview_ready hw hc history hempty
  have hfollows := q.query_follows hw hc
  refine ⟨?_, ?_⟩
  · intro a
    rw [hfollows.ok_iff hready, hfollows.ok_iff hempty]
  · intro e he
    rw [hfollows.fresh] at he
    rw [he] at hfollows
    refine ⟨?_, ?_⟩
    · intro hok
      -- Nothing is in progress, so no declaration can be refused.
      have hnone := interview_inProgress hw hc history hempty hok
      rcases hfollows.error hready with h | ⟨d, -, hmem, -⟩
      · exact h
      · rw [hnone] at hmem
        cases hmem
    · rcases hfollows.error hready with h | ⟨d, hd, hmem, h⟩
      · exact Or.inl h
      · exact Or.inr ⟨d, hd, hmem, h, refusal_text d⟩

/-- Two structs without a layout, one inside the other, and a struct that has one. -/
def danglingSchema : Schema where
  decls :=
    [.struct { name := "Outer", fields := [{ name := "inner", ty := .named "Inner" }] },
      .struct { name := "Inner", fields := [{ name := "gone", ty := .named "Gone" }] },
      .struct { name := "Point", fields := [{ name := "at", ty := .vector .f32 2 }] }]

def danglingTable : TypeTable where
  schemaName := none
  decls := danglingSchema.decls
  tagged := []

/-- A failure leaves both structs in progress. The third struct is laid out all the same, and one of the
two is refused where an empty session names the missing type. -/
theorem interview_transparent_dangling :
    let session := (interview danglingTable {} [.layoutOf "Outer"]).2
    let inner := Question.structAlignment "Inner"
    let point := Question.structSize "Point"
    session.inProgress = ["Inner", "Outer"] ∧
      (ask (point.query danglingTable) session).1 = .ok (.number 8) ∧
      (ask (inner.query danglingTable) {}).1 =
        .error (.of (.unresolvedType "Gone" (.field "gone" "Inner")) none) ∧
      ∃ d ∈ danglingTable.decls, d.name ∈ session.inProgress ∧
        (ask (inner.query danglingTable) session).1 = .error (.schema (refusal d)) := by
  have htable : TypeTable.ofSchema danglingSchema = .ok danglingTable := rfl
  have hcounted : Counted danglingSchema.decls := by
    simp [Counted, danglingSchema, Decl.contents, FieldType.Counted]
  have htransparent := interview_transparent htable hcounted [.layoutOf "Outer"]
  refine ⟨rfl, ((htransparent (.structSize "Point")).1 _).mpr rfl, rfl, ?_⟩
  rcases ((htransparent (.structAlignment "Inner")).2 _ rfl).2 with h | ⟨d, hd, hmem, h, -⟩
  · cases h
  · exact ⟨d, hd, hmem, h⟩

end PackedSchema.Layout
