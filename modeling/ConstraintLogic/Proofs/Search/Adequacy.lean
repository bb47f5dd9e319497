import ConstraintLogic.Proofs.Search.Stops
import ConstraintLogic.Search.Derivation

/-!
# Searching

The search for a goal that does not look at the answers of other goals reaches just
the substitutions that are derived from the goal, whatever other branches do, as long
as nothing stops it.

Results:
* `Answers.reaches_of_labeling`: a labeling does not depend on the rest of a search.
* `Goal.derives_of_reachesIn`: what is reached is derived.
* `Goal.meets_of_derives`: what is derived is reached, unless the search breaks.
* `Goal.reaches_iff_derives`: a search reaches just what is derived.
-/

namespace ConstraintLogic

open Series

/-! ## Labeling alone -/

/-- The promise of a labeling: nothing is put off but exploring. -/
def labelingPromise : Promise Task Goal Subst where
  waits := False
  task k P := (∃ solver v half vs, k = .explore solver v half vs) ∧ ∀ t, P t
  step _ _ _ := False
  stops _ := True

theorem labelingPromise_task (solver : Solver) (v : Var) (half : Domain) (vs : List Var) :
    labelingPromise.task (.explore solver v half vs) fun _ => True :=
  ⟨⟨solver, v, half, vs, rfl⟩, fun _ => trivial⟩

theorem Context.keeps_labeling (c : Context) : c.interp.Keeps labelingPromise where
  task := by
    rintro k P ⟨⟨solver, v, half, vs, rfl⟩, all⟩
    have task (solver : Solver) (v : Var) (half : Domain) (vs : List Var) :
        labelingPromise.task (.explore solver v half vs) P := ⟨⟨solver, v, half, vs, rfl⟩, all⟩
    exact Solver.honoredBy_explore task all (fun _ => trivial) solver v half vs
  step _ _ _ _ made := made.elim

/-- What a labeling reaches does not depend on the rest of the search. -/
theorem Answers.reaches_of_labeling {c c' : Context} {answers : Answers} {t : Subst}
    (honored : labelingPromise.HonoredBy (fun _ => True) (.ok answers)) (reached : answers.Reaches c.interp t) :
    answers.Reaches c'.interp t := by
  refine reached.congr c.keeps_labeling ?_ (fun _ _ _ made => made.elim) honored
  rintro k P ⟨⟨solver, v, half, vs, rfl⟩, _⟩
  rfl

theorem Subst.honoredBy_labeling (s : Subst) (vs : List Var) :
    labelingPromise.HonoredBy (fun _ => True) (s.label vs) :=
  honoredBy_label labelingPromise_task (fun _ => trivial) (fun _ => trivial) s vs

theorem Subst.honoredBy_labelingAll (s : Subst) :
    labelingPromise.HonoredBy (fun _ => True) s.labelAll :=
  honoredBy_labelAll labelingPromise_task (fun _ => trivial) (fun _ => trivial) s

/-! ## What is reached is derived -/

section Derivations

variable {program : Program} {n : Nat}

theorem ofAttempt_eq_ok {I : Interp Task Goal Subst} {r : Attempt Subst} {answers : Answers} {t : Subst}
    {k : Nat} (run : Answers.ofAttempt r = .ok answers) (reached : ReachesIn I k answers t) : r = .ok t := by
  cases k with
  | zero => exact reached.elim
  | succ k =>
    unfold Answers.ofAttempt at run
    split at run
    · cases run
      rcases reached with rfl | later
      · rfl
      · cases k <;> exact later.elim
    · cases run
      exact reached.elim
    · cases run

/-- Of a goal that does not look ahead only what is derived is reached. The induction
    is on the steps, for a goal that is put off, and on the goal. -/
theorem Goal.derives_of_reachesIn (plain : program.Plain) (k : Nat) : ∀ (g : Goal) {s t : Subst}
    {answers : Answers}, g.Plain → g.apply (program.context n) s = .ok answers →
      ReachesIn (program.context n).interp k answers t → g.Derives program s t := by
  induction k with
  | zero => exact fun _ _ _ _ _ _ reached => reached.elim
  | succ k ih =>
    intro g
    induction g with
    | succeed =>
      intro s t answers _ run reached
      cases ofAttempt_eq_ok (r := .ok s) run reached
      exact .succeed
    | fail =>
      intro s t answers _ run reached
      cases run
      exact reached.elim
    | eq a b => exact fun _ run reached => .eq (ofAttempt_eq_ok run reached)
    | conj g h ihg ihh =>
      intro s t answers plain_gh run reached
      obtain ⟨found, first, bound⟩ := exists_of_bind_ok run
      obtain ⟨m, u, reached_m, second, reached_t⟩ := reachesIn_bindWith (k + 1) bound reached
      exact .conj (ihg plain_gh.1 first reached_m) (ihh plain_gh.2 second reached_t)
    | disj g h ihg ihh =>
      intro s t answers plain_gh run reached
      obtain ⟨left, first, rest⟩ := exists_of_bind_ok run
      obtain ⟨right, second, same⟩ := exists_of_bind_ok rest
      cases same
      rcases reachesIn_append (k + 1) reached with here | there
      · exact .disjLeft (ihg plain_gh.1 first here)
      · exact .disjRight (ihh plain_gh.2 second there)
    | suspend g _ =>
      intro s t answers plain_g run reached
      cases run
      obtain ⟨u, run, next⟩ := reached
      exact .suspend (ih g plain_g run next)
    | fresh _ body ihb => exact fun plain_b run reached => .fresh (ihb _ (plain_b _) run reached)
    | call r args =>
      intro s t answers _ run reached
      cases run
      obtain ⟨u, run, next⟩ := reached
      rw [program.program_context n] at run
      exact .call (ih _ (r.plain_body plain args) run next)
    | never =>
      intro s t answers _ run reached
      cases run
      obtain ⟨u, run, next⟩ := reached
      exact ih .never trivial run next
    | always =>
      intro s t answers _ run reached
      cases run
      rcases reached with rfl | later
      · exact .always
      · obtain ⟨u, run, next⟩ := later.of_suspend
        exact ih .always trivial run next
    | post r => exact fun _ run reached => .post (ofAttempt_eq_ok run reached)
    | posted p => exact fun _ run reached => .posted (ofAttempt_eq_ok run reached)
    | narrow v d => exact fun _ run reached => .narrow (ofAttempt_eq_ok run reached)
    | label vs =>
      intro s t answers _ run reached
      refine .label run (Answers.reaches_of_labeling (c := program.context n) ?_ (reaches_iff.mpr ⟨_, reached⟩))
      exact run ▸ s.honoredBy_labeling vs
    | labelAll =>
      intro s t answers _ run reached
      refine .labelAll run (Answers.reaches_of_labeling (c := program.context n) ?_ (reaches_iff.mpr ⟨_, reached⟩))
      exact run ▸ s.honoredBy_labelingAll
    | reserve _ body ihb => exact fun plain_b run reached => .reserve (ihb _ (plain_b _) run reached)
    | _ => exact fun plain_g => plain_g.elim

/-! ## What is derived is reached -/

theorem meetsOut_ofAttempt {I : Interp Task Goal Subst} {r : Attempt Subst} {t : Subst} (run : r = .ok t) :
    MeetsOut I (· = t) (Answers.ofAttempt r) := by
  rintro answers applied
  rw [run] at applied
  cases applied
  exact .here rfl

/-- What is derived from a goal the search comes to, unless it breaks before. -/
theorem Goal.meets_of_derives {g : Goal} {s t : Subst} (h : g.Derives program s t) :
    MeetsOut (program.context n).interp (· = t) (g.apply (program.context n) s) := by
  induction h with
  | succeed => exact meetsOut_ofAttempt (r := .ok _) rfl
  | eq unified => exact meetsOut_ofAttempt unified
  | conj _ _ ihg ihh =>
    refine ihg.bindWith (I := (program.context n).interp) fun m same => ?_
    rw [same]
    exact ihh
  | disjLeft _ ih =>
    intro answers run
    obtain ⟨left, first, rest⟩ := exists_of_bind_ok run
    obtain ⟨right, _, same⟩ := exists_of_bind_ok rest
    cases same
    exact (ih left first).append_left right
  | disjRight _ ih =>
    intro answers run
    obtain ⟨left, _, rest⟩ := exists_of_bind_ok run
    obtain ⟨right, second, same⟩ := exists_of_bind_ok rest
    cases same
    exact (ih right second).append_right left
  | suspend _ ih =>
    intro answers run
    cases run
    exact MeetsOut.suspend ih
  | fresh _ ih => exact ih
  | call _ ih =>
    intro answers run
    cases run
    refine MeetsOut.suspend ?_
    rw [program.program_context n]
    exact ih
  | always =>
    intro answers run
    cases run
    exact .here rfl
  | post solved => exact meetsOut_ofAttempt solved
  | posted solved => exact meetsOut_ofAttempt solved
  | narrow solved => exact meetsOut_ofAttempt solved
  | @label vs s t found applied reached =>
    intro answers run
    cases applied.symm.trans run
    have honored : labelingPromise.HonoredBy (fun _ => True) (.ok found) :=
      applied ▸ s.honoredBy_labeling vs
    exact (Answers.reaches_of_labeling honored reached).meets rfl
  | @labelAll s t found applied reached =>
    intro answers run
    cases applied.symm.trans run
    have honored : labelingPromise.HonoredBy (fun _ => True) (.ok found) :=
      applied ▸ s.honoredBy_labelingAll
    exact (Answers.reaches_of_labeling honored reached).meets rfl
  | reserve _ ih => exact ih

/-- The search for a goal that does not look ahead reaches just the substitutions that
    are derived from the goal, if nothing stops it; and nothing but an overflow stops a
    search from a substitution in order for a goal that can be stated. -/
theorem Goal.reaches_iff_derives (plain : program.Plain) {g : Goal} (plain_g : g.Plain) (s : Subst) (n : Nat) :
    ((∀ why, ¬StopsOut (program.context n).interp (g.apply (program.context n) s) why) →
      ∀ t, ReachesOut (program.context n).interp (g.apply (program.context n) s) t ↔ g.Derives program s t) ∧
    ∀ known why, program.Fair → g.Fair known → s.Orderly (.ints known) →
      StopsOut (program.context n).interp (g.apply (program.context n) s) why → why.IsOverflow := by
  refine ⟨fun unstopped t => ⟨fun reached => ?_, fun derives => ?_⟩, fun known why fair stated orderly stops => ?_⟩
  · obtain ⟨answers, applied, reached⟩ := reached
    obtain ⟨k, steps⟩ := reaches_iff.mp reached
    exact derives_of_reachesIn plain k g plain_g applied steps
  · have plain' : (program.context n).program.Plain := by rwa [program.program_context]
    have honored := plain_g.honored plain' (s := s) (P := fun _ => True) fun _ => trivial
    have meets := meets_of_derives (n := n) derives
    rcases meets.reaches (Context.keeps_plain plain') id honored with ⟨u, rfl, reached⟩ | ⟨why, stops⟩
    · exact reached
    · exact absurd stops (unstopped why)
  · exact plain_g.overflow_of_stopsOut plain fair stated orderly stops

end Derivations

/-- The promise of an endless search: nothing else is put off. -/
def neverPromise : Promise Task Goal Subst where
  waits := False
  task k _ := ∃ s, k = .apply .never s
  step _ _ _ := False
  stops _ := False

theorem Context.keeps_never (c : Context) : c.interp.Keeps neverPromise where
  task := by
    rintro k P ⟨s, rfl⟩
    exact ⟨s, rfl⟩
  step _ _ _ _ made := made.elim

/-- Beside an endless search the equation of `_0` and the empty list has its answer. -/
theorem Goal.reaches_iff_derives_never :
    let program : Program := fun _ _ => .fail
    let s : Subst := (Subst.empty.freshMany 1).2
    let g : Goal := .disj .never (.eq (.var ⟨0⟩) .nil)
    let c := program.context 0
    program.Plain ∧ g.Plain ∧ (∀ why, ¬StopsOut c.interp (g.apply c s) why) ∧
      (∀ t, ReachesOut c.interp (g.apply c s) t ↔ g.Derives program s t) ∧
      ReachesOut c.interp (g.apply c s) (s.bind ⟨0⟩ .nil) := by
  intro program s g c
  have plain : program.Plain := fun _ _ => trivial
  have plain_g : g.Plain := ⟨trivial, trivial⟩
  have applied : g.apply c s = .ok (.suspend (.ontoAppend (.unit (s.bind ⟨0⟩ .nil)) (.start (.apply .never s)))) := rfl
  have unstopped (why : Stop) : ¬StopsOut c.interp (g.apply c s) why := fun stops =>
    stops.allowed (P := fun _ => True) c.keeps_never (applied ▸ ⟨⟨trivial, trivial⟩, s, rfl⟩)
  have same := (reaches_iff_derives plain plain_g s 0).1 unstopped
  exact ⟨plain, plain_g, unstopped, same, (same _).mpr (.disjRight (.eq rfl))⟩

end ConstraintLogic
