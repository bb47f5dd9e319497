import ConstraintLogic.Goal.Lists
import ConstraintLogic.Series.Basic
import ConstraintLogic.Unification.Unify

/-!
# Answers of goals

The answers of a goal are a series of substitutions. What a search puts off is a
goal to apply, a branch to run elsewhere, or one half of a domain to explore.

Contents:
* `Task`: the codes for computations that are put off.
* `Answers`: the series of substitutions of a search.
-/

namespace ConstraintLogic

/-- The computations that a search puts off. -/
inductive Task where
  /-- Applies the goal to the substitution. -/
  | apply (g : Goal) (s : Subst)
  /-- Applies the goal as a branch of its own, up to its first ready node. -/
  | branch (g : Goal) (s : Subst)
  /-- Explores the values of `half` for the variable `v`, then those of `vs`. -/
  | explore (solver : Solver) (v : Var) (half : Domain) (vs : List Var)

/-- The series of substitutions of a search. -/
abbrev Answers := Series Task Goal Subst

namespace Answers

/-- The one answer of an attempt; none after a conflict. -/
def ofAttempt : Attempt Subst → Except Stop Answers
  | .ok s => .ok (.unit s)
  | .error .conflict => .ok .empty
  | .error (.stop why) => .error why

end Answers

end ConstraintLogic
