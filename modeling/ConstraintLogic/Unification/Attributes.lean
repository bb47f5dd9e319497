import ConstraintLogic.Solver.Fixpoint

/-!
# Attributes in unification

When an attributed variable takes a value, its attributes are consulted on the
value; when two attributed variables become one, attributes of one kind are
combined and an attribute that is new on the survivor may have to be checked
against its neighbours. Domains and propagators answer by running a solver.

Contents:
* `Subst.validate`: an attribute on the value of its variable.
* `Subst.combine`: the attribute that two of one kind become.
* `Subst.settle`: an attribute next to others that it has not met before.
-/

namespace ConstraintLogic

/-- A result that may instead be a conflict or a fault. -/
abbrev Attempt := Except Halt

namespace Subst

/-- Runs a solver in which all of the propagators are posted (`ConstraintsAttr::solve_with`). -/
def solveWith (s : Subst) (ps : List Propagator) : Attempt Subst :=
  (ps.foldl (fun solver p => (solver.post p).2) (Solver.new s)).solve?

/-- Runs a solver in which `v` is left with the values of `d`. -/
def solveReduced (s : Subst) (v : Var) (d : Domain) : Attempt Subst :=
  (Solver.new s).runToSubst do
    Narrow.reduce v d
    Narrow.fixpoint

/-- Consults an attribute of `v` on the value that `v` takes (`Attribute::validate`). A domain
    narrows to the value and thereby binds the variable; propagators want an integer and are run;
    the placeholder for zero binds its variable to a string instead, which a variable that is bound
    to zero already contradicts. -/
def validate (s : Subst) (v : Var) (value : Term) : Attribute → Attempt Subst
  | .allowed a =>
    match value.asInt? with
    | some n => if a.val.contains n then .ok s else .error .conflict
    | none => .error .conflict
  | .domain a =>
    match value.asInt? with
    | some n =>
      if a.val.domain.contains n then s.solveReduced v (.singleton n) else .error .conflict
    | none => .error .conflict
  | .watchers a =>
    match value.asInt? with
    | some _ => s.solveWith a.val
    | none => .error .conflict
  | .tag _ => .ok s
  | .zero _ =>
    if value.asInt? = some 0 && !s.isBound v then .ok ((s.dropAttrs v).bind v (.str "zero"))
    else .error .conflict

/-- The propagators of both lists, each object once. -/
def unionWatchers (ps qs : List Propagator) : List Propagator :=
  qs.foldl (fun union q => if union.any q.isSame then union else union ++ [q]) ps

/-- What an attribute of `v` and another one of its kind become, if anything, and the substitution
    that this leads to (`Attribute::combine`). -/
def combine (s : Subst) (v : Var) : Attribute → Attribute → Attempt (Option Attribute × Subst)
  | .allowed a, .allowed b =>
    let both := a.val.filter b.val.contains
    if both.isEmpty then .error .conflict
    else
      let (c, s) := s.stamped both
      .ok (some (.allowed c), s)
  | .domain _, .domain b => do
    let s ← s.solveReduced v b.val.domain
    return (s.getAttr v .domain, s)
  | .watchers a, .watchers b => do
    let union := unionWatchers a.val b.val
    let (c, s) := s.stamped union
    let s ← (s.setAttr v (.watchers c)).solveWith union
    return (s.getAttr v .watchers, s)
  | .tag _, .tag _ => .ok (none, s)
  | .zero _, .zero _ =>
    let (c, s) := s.stamped ()
    .ok (some (.zero c), s)
  | _, _ => .error .conflict

/-- Runs the propagators of `v` again if `v` also has a domain (`recheck`). -/
def recheck (s : Subst) (v : Var) : Attempt Subst :=
  match (s.attributes v).domain, (s.attributes v).watchers with
  | some _, some a => s.solveWith a.val
  | _, _ => .ok s

/-- Checks an attribute that has been copied to `v` against the others there (`Attribute::settle`). -/
def settle (s : Subst) (v : Var) : Attribute → Attempt Subst
  | .domain _ => s.recheck v
  | .watchers _ => s.recheck v
  | _ => .ok s

end Subst

end ConstraintLogic
