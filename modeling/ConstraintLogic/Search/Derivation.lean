import ConstraintLogic.Search.Apply
import ConstraintLogic.Series.Elements

/-!
# Derivations

What it means that a goal holds, said without any order of search: an equation
gives its unifier, a conjunction passes a substitution on, a disjunction has the
derivations of either side, and a call is what its relation means. Labeling is
taken as it is, as the answers of its own tree of splits.

Contents:
* `Goal.Derives`: the substitutions that are derived from a goal.
-/

namespace ConstraintLogic.Goal

/-- The substitution `t` is derived from the goal at the substitution `s`, in a
    program and without looking at the answers of other goals. -/
inductive Derives (program : Program) : Goal → Subst → Subst → Prop
  | succeed {s : Subst} : Derives program .succeed s s
  | eq {a b : Term} {s t : Subst} (unified : s.unify a b = .ok t) :
      Derives program (.eq a b) s t
  | conj {g h : Goal} {s m t : Subst} (first : Derives program g s m)
      (second : Derives program h m t) : Derives program (.conj g h) s t
  | disjLeft {g h : Goal} {s t : Subst} (left : Derives program g s t) :
      Derives program (.disj g h) s t
  | disjRight {g h : Goal} {s t : Subst} (right : Derives program h s t) :
      Derives program (.disj g h) s t
  | suspend {g : Goal} {s t : Subst} (body : Derives program g s t) :
      Derives program (.suspend g) s t
  | fresh {n : Nat} {body : List Var → Goal} {s t : Subst}
      (holds : Derives program (body (s.freshMany n).1) (s.freshMany n).2 t) :
      Derives program (.fresh n body) s t
  | call {r : RelName} {args : List Term} {s t : Subst}
      (body : Derives program (r.body program args) s t) : Derives program (.call r args) s t
  | always {s : Subst} : Derives program .always s s
  | post {r : Relation} {s t : Subst}
      (solved : (s.stamped r).2.solveWith [(s.stamped r).1] = .ok t) :
      Derives program (.post r) s t
  | posted {p : Propagator} {s t : Subst} (solved : s.solveWith [p] = .ok t) :
      Derives program (.posted p) s t
  | narrow {v : Var} {d : Domain} {s t : Subst} (solved : s.solveReduced v d = .ok t) :
      Derives program (.narrow v d) s t
  | label {vs : List Var} {s t : Subst} {answers : Answers} (applied : s.label vs = .ok answers)
      (reached : answers.Reaches (program.context 0).interp t) : Derives program (.label vs) s t
  | labelAll {s t : Subst} {answers : Answers} (applied : s.labelAll = .ok answers)
      (reached : answers.Reaches (program.context 0).interp t) : Derives program .labelAll s t
  | reserve {n : Nat} {body : Nat → Goal} {s t : Subst}
      (holds : Derives program (body s.supply) { s with supply := s.supply + n } t) :
      Derives program (.reserve n body) s t

end ConstraintLogic.Goal
