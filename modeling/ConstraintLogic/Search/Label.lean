import ConstraintLogic.Search.Answers

/-!
# Labeling

Labeling makes variables take values: the domain of one variable is split, both
halves are propagated and explored, and so on until every variable has a value or
no finite domain. The variable with the smallest domain is split first; among
those the one with the most subscribers, and then the lowest number.

Contents:
* `Solver.choose`: the variable to split.
* `Solver.search`, `Solver.explore`: the tree of splits.
* `Subst.label`, `Subst.labelAll`: labeling under a substitution.
-/

namespace ConstraintLogic

/-- How urgent it is to split a variable. -/
structure Urgency where
  /-- The number of values left. -/
  size : Nat
  /-- The number of subscribers. -/
  subscribers : Nat
  /-- The unbound variable itself. -/
  var : Var
deriving DecidableEq, Repr

/-- `a` is to be split before `b`. -/
def Urgency.before (a b : Urgency) : Bool :=
  a.size < b.size ||
    (a.size = b.size &&
      (b.subscribers < a.subscribers ||
        (a.subscribers = b.subscribers && a.var.index < b.var.index)))

namespace Solver

/-- The better of the choice so far and `v`, which counts if it is unbound and
    has at least two values. -/
def chooseOver (state : Option Urgency × Solver) (v : Var) : Option Urgency × Solver :=
  let (best, s) := state
  match s.resolve v with
  | .free r =>
    let (d, s) := s.domain r
    match d.size with
    | some size =>
      if size < 2 then (best, s)
      else
        let u : Urgency := ⟨size, s.subscriberCount r, r⟩
        match best with
        | none => (some u, s)
        | some b => (some (if u.before b then u else b), s)
    | none => (best, s)
  | _ => (best, s)

/-- The variable to split next, if any of them has at least two values (`choose`). -/
def choose (s : Solver) (vs : List Var) : Option Var × Solver :=
  let (best, s) := vs.foldl chooseOver (none, s)
  (best.map Urgency.var, s)

/-- The answers that labeling the variables leads to (`search`): that of the solver itself if
    nothing is left to split, and otherwise those of both halves. -/
def search (s : Solver) (vs : List Var) : Except Stop Answers :=
  match s.choose vs with
  | (none, s) => Answers.ofAttempt s.toSubst?
  | (some v, s) =>
    let (d, s) := s.domain v
    match d.bisect with
    | .error f => .error (.fault f)
    | .ok (left, right) =>
      .ok (Series.append (.suspend (.start (.explore s v left vs)))
        (.suspend (.start (.explore s v right vs))))

/-- The answers with the variable in `half` (`branch`). -/
def explore (s : Solver) (v : Var) (half : Domain) (vs : List Var) : Except Stop Answers :=
  let narrowing : Narrow Unit := do
    Narrow.reduce v half
    Narrow.fixpoint
  match EStateM.run narrowing s with
  | .ok _ s => s.search vs
  | .error .conflict _ => .ok .empty
  | .error (.stop why) _ => .error why

/-- The domains of the variables are loaded, up to the first empty one, which is a
    conflict. -/
def requireNonempty (vs : List Var) : Narrow Unit :=
  vs.forM fun v => do Narrow.require !(← Narrow.domain v).isEmpty

end Solver

namespace Subst

/-- The answers of labeling the variables (`label`): everything loaded is propagated, and then the
    tree of splits is searched. -/
def label (s : Subst) (vs : List Var) : Except Stop Answers :=
  let narrowing : Narrow Unit := do
    Solver.requireNonempty vs
    modify Solver.wakeAll
    Narrow.fixpoint
  match EStateM.run narrowing (Solver.new s) with
  | .ok _ solver => solver.search vs
  | .error .conflict _ => .ok .empty
  | .error (.stop why) _ => .error why

/-- The variables that have a finite domain. -/
def finiteVars (s : Subst) : List Var :=
  s.attributedVars.filter fun v => !(s.storedDomain v).isUnbounded

/-- The answers of labeling every variable that has a finite domain (`label_all`). -/
def labelAll (s : Subst) : Except Stop Answers :=
  if s.finiteVars.isEmpty then .ok (.unit s) else s.label s.finiteVars

end Subst

end ConstraintLogic
