import ConstraintLogic.Proofs.Goal.Safety
import ConstraintLogic.Proofs.Search.Stops

/-!
# Searches without overflows

A search for a goal that can be stated, from a substitution that goals produce, stops for an
overflow only at a part of the goal that comes to one, for a lost branch only where the job of
that branch has come to a fault, and for the end of an allowance only where it looks ahead. The
first two need a constraint that is not safe with the domains: one that adds the least integer
to a variable, a sum of variables one of which can be the least integer, or variables and
constants that have to differ and two of which can be the greatest integer. Where each
constraint is safe, no search stops for a fault.

Results:
* `Goal.Faults.not_safe`: a job that comes to a fault is for a goal that is not safe.
* `Subst.Produced.stops_at_edges`: why a search stops.
* `Goal.Posts.not_stopsOut`: searches for constraints that are safe with all values do not stop.
-/

namespace ConstraintLogic

open Series

variable {program : Program} {n : Nat} {g : Goal} {s : Subst} {known : Propagator → Prop} {why : Stop}

/-- Where a goal posts safe constraints only, no job for it comes to a fault. -/
theorem Goal.Faults.not_safe (fair : program.Fair) (faults : g.Faults program n s) :
    ∀ {known}, g.Fair known → s.Orderly (.ints known) → ¬g.SafeFrom program s := by
  induction faults with
  | broken _ passes breaks =>
    intro known stated good safe
    obtain ⟨more, stated', good'⟩ := passes.orderly fair stated good
    exact breaks.not_overflow stated' good' (passes.safe fair stated good safe) (breaks.overflow stated' good')
  | lost _ passes _ ih =>
    intro known stated good safe
    have branch := Passes.trans (.parRight .here) passes
    obtain ⟨more, stated', good'⟩ := branch.orderly fair stated good
    exact ih stated' good' (branch.safe fair stated good safe)

/-- Either something looks ahead, or the program and the goal are plain. -/
theorem Goal.looks_or_plain (program : Program) (g : Goal) :
    (¬(program.Plain ∧ g.Plain) ∨ program.Plain) ∧ (¬(program.Plain ∧ g.Plain) ∨ g.Plain) := by
  by_cases plain : program.Plain ∧ g.Plain
  · exact ⟨.inr plain.1, .inr plain.2⟩
  · exact ⟨.inl plain, .inl plain⟩

/-- Where a goal posts safe constraints only, a search for it stops for nothing but the end of an
    allowance for looking ahead. -/
theorem Goal.SafeFrom.exhausted_of_stopsOut (safe : g.SafeFrom program s) (fair : program.Fair) (stated : g.Fair known)
    (good : s.Orderly (.ints known))
    (stopped : StopsOut (program.context n).interp (g.apply (program.context n) s) why) :
    why = .exhausted ∧ ¬(program.Plain ∧ g.Plain) := by
  obtain ⟨plain, plain_g⟩ := Goal.looks_or_plain program g
  obtain ⟨looking, rfl⟩ | ⟨h, t, passes, breaks⟩ | ⟨_, _, workers, g', h, t, passes, faults⟩ :=
    Goal.blamed_of_stopsOut plain plain_g stopped
  · exact ⟨rfl, looking⟩
  · obtain ⟨more, stated', good'⟩ := passes.orderly fair stated good
    exact absurd (breaks.overflow stated' good') (breaks.not_overflow stated' good' (passes.safe fair stated good safe))
  · have branch := Passes.trans (.parRight .here) passes
    obtain ⟨more, stated', good'⟩ := branch.orderly fair stated good
    exact absurd (branch.safe fair stated good safe) (faults.not_safe fair stated' good')

/-- From variables that have just been allocated, a search for a plain goal whose constraints are safe
    with all values does not stop at all: it answers, or it goes on. -/
theorem Goal.Posts.not_stopsOut (posts : g.Posts (Relation.Safe fun _ _ => True))
    (all : program.Posts (Relation.Safe fun _ _ => True)) (plain : program.Plain) (plain_g : g.Plain) (fair : program.Fair)
    (stated : g.Fair fun _ => False) (k n : Nat) (why : Stop) :
    ¬StopsOut (program.context n).interp (g.apply (program.context n) (Subst.empty.freshMany k).2) why := by
  intro stopped
  have safe : g.SafeFrom program (Subst.empty.freshMany k).2 := .of_posts all posts (Subst.safe_empty.congr rfl rfl)
  exact (safe.exhausted_of_stopsOut fair stated (Subst.produced_freshMany k).orderly stopped).2 ⟨plain, plain_g⟩

/-- A search stops for an overflow only where a part of its goal comes to one, for a lost branch
    only where the job of the branch comes to a fault, and both only if some constraint is not safe
    with the domains; else it stops at the end of an allowance for looking ahead. -/
theorem Subst.Produced.stops_at_edges (h : s.Produced) (fair : program.Fair) (stated : g.Fair fun _ => False)
    (stopped : StopsOut (program.context n).interp (g.apply (program.context n) s) why) :
    why = .exhausted ∧ ¬(program.Plain ∧ g.Plain) ∨ ¬g.SafeFrom program s ∧
      (why.IsOverflow ∧ (∃ h t, Goal.Passes program h t g s ∧ h.Breaks t why) ∨
        why = .fault .lostBranch ∧ ∃ workers g' h t, Goal.Passes program (.par workers g' h) t g s ∧ h.Faults program n t) := by
  obtain ⟨plain, plain_g⟩ := Goal.looks_or_plain program g
  have not_safe (other : why ≠ .exhausted) : ¬g.SafeFrom program s := fun safe =>
    other (safe.exhausted_of_stopsOut fair stated h.orderly stopped).1
  obtain ⟨looking, rfl⟩ | ⟨h', t, passes, breaks⟩ | ⟨_, rfl, branch⟩ := Goal.blamed_of_stopsOut plain plain_g stopped
  · exact .inl ⟨rfl, looking⟩
  · obtain ⟨more, stated', good⟩ := passes.orderly fair stated h.orderly
    have overflow := breaks.overflow stated' good
    refine .inr ⟨not_safe ?_, .inl ⟨overflow, h', t, passes, breaks⟩⟩
    rintro rfl
    exact overflow
  · exact .inr ⟨not_safe nofun, .inr ⟨rfl, branch⟩⟩

/-- The sum of `_0` and the least integer stops a search, where the constraint that is posted is not
    safe. -/
theorem Subst.Produced.stops_at_minimum :
    let program : Program := fun _ _ => .fail
    let s : Subst := (Subst.empty.freshMany 2).2
    let g : Goal := .plus (.var ⟨0⟩) (.const minValue) (.var ⟨1⟩)
    s.Produced ∧ program.Fair ∧ g.Fair (fun _ => False) ∧
      StopsOut (program.context 0).interp (g.apply (program.context 0) s) (.fault .negateOverflow) ∧
      ¬g.SafeFrom program s ∧ ∃ h t, Goal.Passes program h t g s ∧ h.Breaks t (.fault .negateOverflow) := by
  intro program s g
  have fair : program.Fair := fun _ _ _ => trivial
  have produced : s.Produced := Subst.produced_freshMany 2
  have stopped : StopsOut (program.context 0).interp (g.apply (program.context 0) s) (.fault .negateOverflow) :=
    .inl apply_plus_minimum
  obtain ⟨out, _⟩ | ⟨not_safe, ⟨_, breaks⟩ | ⟨lost, _⟩⟩ := produced.stops_at_edges fair Goal.fair_plus_minimum stopped
  · cases out
  · exact ⟨produced, fair, Goal.fair_plus_minimum, stopped, not_safe, breaks⟩
  · cases lost

end ConstraintLogic
