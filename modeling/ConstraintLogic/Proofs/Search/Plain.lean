import ConstraintLogic.Proofs.Series.Interleaving

/-!
# Goals that do not look ahead

Most goals answer without looking at the answers of another goal, and without branches that are
worked on elsewhere. A search for such a goal never waits: whatever its substitutions are, its
series has suspensions only.

Results:
* `Goal.Plain`, `Program.Plain`: the goals that do not look ahead.
* `Solver.honoredBy_search`, `Subst.honoredBy_label`, `Subst.honoredBy_labelAll`: what labeling
  puts off.
* `plainPromise`, `Goal.Plain.honored`, `Context.keeps_plain`: what the tasks of a search for plain
  goals keep to.
-/

namespace ConstraintLogic

open Series

/-! ## Goals that do not look ahead -/

namespace Goal

/-- No operator in the goal looks at the answers of another goal, and no branch is
    worked on elsewhere. -/
def Plain : Goal → Prop
  | conj g h => g.Plain ∧ h.Plain
  | disj g h => g.Plain ∧ h.Plain
  | suspend g => g.Plain
  | fresh _ body => ∀ vs, (body vs).Plain
  | reserve _ body => ∀ k, (body k).Plain
  | not _ => False
  | ifte _ _ _ => False
  | once _ => False
  | par _ _ _ => False
  | _ => True

theorem plain_conjAll {gs : List Goal} (h : ∀ g ∈ gs, g.Plain) : (conjAll gs).Plain :=
  conjAll_of_forall (Q := Plain) trivial (fun first second => ⟨first, second⟩) h

theorem plain_disjAll {gs : List Goal} (h : ∀ g ∈ gs, g.Plain) : (disjAll gs).Plain :=
  disjAll_of_forall (Q := Plain) trivial (fun first second => ⟨first, second⟩) h

theorem plain_conde {clauses : List (List Goal)} (h : ∀ clause ∈ clauses, ∀ g ∈ clause, g.Plain) :
    (conde clauses).Plain :=
  conde_of_forall (Q := Plain) plain_conjAll plain_disjAll h

theorem plain_appendBody (l s out : Term) : (appendBody l s out).Plain := by
  refine plain_conde ?_
  simp only [List.forall_mem_cons]
  refine ⟨⟨trivial, trivial, by simp⟩, ⟨fun vs => ?_, by simp⟩, by simp⟩
  dsimp only
  split
  · exact ⟨trivial, trivial, trivial⟩
  · trivial

theorem plain_memberBody (x l : Term) : (memberBody x l).Plain := by
  have plain_first : (first l x).Plain := by
    intro vs
    dsimp only
    split <;> trivial
  have plain_rest (tail : Var) : (rest l (.var tail)).Plain := by
    intro vs
    dsimp only
    split <;> trivial
  refine plain_conde ?_
  simp only [List.forall_mem_cons]
  refine ⟨⟨plain_first, by simp⟩, ⟨fun vs => ?_, by simp⟩, by simp⟩
  dsimp only
  split
  · exact ⟨plain_rest _, trivial⟩
  · trivial

end Goal

/-- The relations of a program mean goals that do not look ahead. -/
def Program.Plain (program : Program) : Prop := ∀ name args, (program name args).Plain

theorem RelName.plain_body {program : Program} (plain : program.Plain) (r : RelName) (args : List Term) :
    (r.body program args).Plain := by
  unfold RelName.body
  split
  · exact Goal.plain_appendBody _ _ _
  · exact Goal.plain_memberBody _ _
  · exact plain _ _
  · trivial

/-! ## Labeling -/

section Labelings

variable {p : Promise Task Goal Subst} {P : Subst → Prop}

/-- The answer of an attempt honors a promise, or the attempt stops for a reason that it allows. -/
theorem honoredBy_ofAttempt {r : Attempt Subst} (good : ∀ t, r = .ok t → P t)
    (allowed : ∀ why, r = .error (.stop why) → p.stops why) : p.HonoredBy P (Answers.ofAttempt r) := by
  match r with
  | .ok t => exact ⟨good t rfl, trivial⟩
  | .error .conflict => trivial
  | .error (.stop why) => exact allowed why rfl

variable (task : ∀ solver v half vs, p.task (.explore solver v half vs) P) (all : ∀ t, P t)
variable (stops : ∀ why, p.stops why)

include task all stops

/-- A tree of splits puts off nothing but exploring. -/
theorem Solver.honoredBy_search (s : Solver) (vs : List Var) : p.HonoredBy P (s.search vs) := by
  unfold Solver.search
  split
  · exact honoredBy_ofAttempt (fun t _ => all t) fun why _ => stops why
  · rename_i v s' _
    dsimp only
    split
    · exact stops _
    · have half (d : Domain) :
          Series.Honors p P (.suspend (.start (.explore (s'.domain v).2 v d vs))) := task _ v d vs
      exact (half _).append (half _)

theorem Solver.honoredBy_explore (s : Solver) (v : Var) (half : Domain) (vs : List Var) :
    p.HonoredBy P (s.explore v half vs) := by
  rw [explore_eq]
  split
  · exact honoredBy_search task all stops _ vs
  · trivial
  · exact stops _

theorem Subst.honoredBy_label (s : Subst) (vs : List Var) : p.HonoredBy P (s.label vs) := by
  rw [label_eq]
  split
  · exact Solver.honoredBy_search task all stops _ vs
  · trivial
  · exact stops _

theorem Subst.honoredBy_labelAll (s : Subst) : p.HonoredBy P s.labelAll := by
  unfold labelAll
  split
  · exact ⟨all _, trivial⟩
  · exact honoredBy_label task all stops s _

end Labelings

/-! ## Plain searches -/

/-- The promise of a search for plain goals, whatever its substitutions are: no branch
    is waited for. -/
def plainPromise : Promise Task Goal Subst where
  waits := False
  task k P := (∀ t, P t) ∧
    match k with
    | .apply g _ => g.Plain
    | .branch _ _ => False
    | .explore _ _ _ _ => True
  step g _ P := (∀ t, P t) ∧ g.Plain
  stops _ := True

theorem plainPromise_task {P : Subst → Prop} (all : ∀ t, P t) (solver : Solver) (v : Var) (half : Domain)
    (vs : List Var) : plainPromise.task (.explore solver v half vs) P := ⟨all, trivial⟩

/-- The answers of a plain goal keep the promise. -/
theorem Goal.Plain.honored {c : Context} (plain : c.program.Plain) {g : Goal} :
    ∀ {s : Subst} {P : Subst → Prop}, g.Plain → (∀ t, P t) → plainPromise.HonoredBy P (g.apply c s) := by
  have attempt {P : Subst → Prop} (r : Attempt Subst) (all : ∀ t, P t) :
      plainPromise.HonoredBy P (Answers.ofAttempt r) := honoredBy_ofAttempt (fun t _ => all t) fun _ _ => trivial
  induction g with
  | succeed => exact fun _ all => ⟨all _, trivial⟩
  | eq a b => exact fun _ all => attempt _ all
  | conj g h ihg ihh =>
    intro s P plain_gh all
    refine (ihg (P := fun _ => True) plain_gh.1 fun _ => trivial).bind fun found honors => ?_
    exact honors.bindWith (fun _ _ => ihh plain_gh.2 all) ⟨all, plain_gh.2⟩
  | disj g h ihg ihh =>
    intro s P plain_gh all
    refine (ihg plain_gh.1 all).bind fun left honors => ?_
    exact (ihh plain_gh.2 all).bind fun right honors' => honors.append honors'
  | suspend g _ => exact fun plain_g all => ⟨all, plain_g⟩
  | fresh n body ih => exact fun plain_b all => ih _ (plain_b _) all
  | call r args => exact fun _ all => ⟨all, r.plain_body plain args⟩
  | never => exact fun _ all => ⟨all, trivial⟩
  | always => exact fun _ all => ⟨all _, all, trivial⟩
  | post r => exact fun _ all => attempt _ all
  | posted p => exact fun _ all => attempt _ all
  | narrow v d => exact fun _ all => attempt _ all
  | label vs => exact fun _ all => Subst.honoredBy_label (plainPromise_task all) all (fun _ => trivial) _ vs
  | labelAll => exact fun _ all => Subst.honoredBy_labelAll (plainPromise_task all) all (fun _ => trivial) _
  | reserve n body ih => exact fun plain_b all => ih _ (plain_b _) all
  | fail => exact fun _ _ => trivial
  | _ => exact fun plain_g => plain_g.elim

theorem Context.keeps_plain {c : Context} (plain : c.program.Plain) : c.interp.Keeps plainPromise where
  task := by
    rintro (⟨g, s⟩ | ⟨g, s⟩ | ⟨solver, v, half, vs⟩) P ⟨all, fine⟩
    · exact Goal.Plain.honored plain fine all
    · exact fine.elim
    · exact Solver.honoredBy_explore (plainPromise_task all) all (fun _ => trivial) solver v half vs
  step g Q P s made _ := Goal.Plain.honored plain made.2 made.1

end ConstraintLogic
