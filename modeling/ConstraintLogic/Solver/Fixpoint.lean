import ConstraintLogic.Solver.Propagate

/-!
# Running to a fixpoint and writing back

The waiting propagators are run, lightest first, until none waits. The narrowed
state then becomes a substitution again: a variable with one value is bound to
it, a finite domain and the propagators at work become attributes.

Contents:
* `Narrow.fixpoint`: the propagation loop.
* `Subst.assign`: binding a solved variable.
* `Solver.toSubst?`, `Solver.solve?`: the substitution that a solver stands for.
-/

namespace ConstraintLogic

namespace Solver

/-- A bound on the propagators that can be at work, and on the variables that
    they name. -/
def mentions (s : Solver) : Nat :=
  s.props.foldl (fun n p => n + (p.val.vars.length + 1)) s.subst.watchCount

/-- A bound on the runs before a fixpoint: what waits already, and the propagators
    that can be put on the agenda by each change of each domain. -/
def runBudget (s : Solver) : Nat :=
  s.agenda.length + s.mentions * s.mentions * Domain.maxChanges + 1

end Solver

namespace Narrow

/-- Takes the first propagator off the agenda. -/
def nextWaiting : Narrow (Option PropId) :=
  modifyGet fun s =>
    match s.agenda.pop? with
    | some (id, agenda) => (some id, { s with agenda })
    | none => (none, s)

/-- Runs a propagator, which gives up its subscriptions first. -/
def runNumbered (id : PropId) : Narrow Unit := do
  match (← get).prop? id with
  | none => pure ()
  | some p =>
    modify (·.unsubscribe id)
    propagate id p.val

/-- Runs waiting propagators until none waits, at most `n` of them. -/
def runWaiting : Nat → Narrow Unit
  | 0 => throw .exhausted
  | n + 1 => do
    match ← nextWaiting with
    | none => pure ()
    | some id =>
      runNumbered id
      runWaiting n

/-- Runs waiting propagators until none waits (`fixpoint`). -/
def fixpoint : Narrow Unit := do runWaiting (← get).runBudget

end Narrow

namespace Subst

/-- Binds the variable to an integer that its finite domain has been narrowed to.
    The attributes that are left on it are consulted: a placeholder for zero takes
    zero alone and binds the string that stands for it, and a list of allowed
    integers must have the integer. -/
def assign (s : Subst) (v : Var) (n : Int) : Except Halt Subst :=
  let m := s.attributes v
  if m.zero.isSome then
    if n = 0 then .ok ((s.dropAttrs v).bind v (.str "zero")) else .error .conflict
  else if m.allowed.all fun a => a.val.contains n then .ok ((s.dropAttrs v).bind v (.int n))
  else .error .conflict

end Subst

namespace Solver

/-- Attaches what the solver knows of an unbound variable without value: its
    domain if that is finite, and the propagators that subscribe to it. -/
def writeBack (s : Solver) (subst : Subst) (v : Var) (d : Domain) : Subst :=
  let subst :=
    if d.isUnbounded then subst
    else
      let (a, subst) := subst.stamped (DomainFact.mk v d)
      subst.setAttr v (.domain a)
  let watchers := (s.subscribersOf v).filterMap s.prop?
  if watchers.isEmpty then subst
  else
    let (a, subst) := subst.stamped watchers
    subst.setAttr v (.watchers a)

/-- The substitution that the solver stands for (`into_subst`): the loaded variables lose their
    domains and propagators, get the present ones, and are bound if they have one value left. -/
def toSubst? (s : Solver) : Except Halt Subst :=
  let loaded := s.domains.toList
  let cleared := loaded.foldl
    (fun subst (v, _) => (subst.removeAttr v .domain).removeAttr v .watchers) s.subst
  let attached := loaded.foldl
    (fun subst (v, d) => if d.hasSolution then subst else s.writeBack subst v d) cleared
  loaded.foldlM
    (fun subst (v, d) =>
      match d.solution with
      | some n => subst.assign v n
      | none => .ok subst) attached

/-- Runs a narrowing and answers the substitution of the solver it leaves. -/
def runToSubst (s : Solver) (narrowing : Narrow Unit) : Except Halt Subst :=
  match EStateM.run narrowing s with
  | .ok _ s => s.toSubst?
  | .error why _ => .error why

/-- The substitution at the fixpoint (`solve`). -/
def solve? (s : Solver) : Except Halt Subst := s.runToSubst Narrow.fixpoint

end Solver

end ConstraintLogic
