import ConstraintLogic.Agenda
import ConstraintLogic.Domain.Arithmetic
import ConstraintLogic.Subst.Basic

/-!
# The solver's state

A solver narrows domains on top of a substitution that it does not bind. It
loads the domain of a variable when the variable is first asked for, together
with every variable that shares a stored propagator with it, directly or not. A
posted propagator has a number and subscribes to variables; when a domain
shrinks, the subscribers of its variable go on the agenda.

Contents:
* `Solver.load`: closing over the variables that share propagators.
* `Solver.domain`, `Solver.value`, `Solver.resolve`: what is known of a variable.
* `Solver.post`, `Solver.replace`, `Solver.subscribe`: the propagators at work.
* `Narrow.reduce`: narrowing a domain, which may end in a conflict.
-/

namespace ConstraintLogic

/-- What a variable stands for under a substitution. -/
inductive Resolved where
  /-- An unbound variable. -/
  | free (v : Var)
  /-- An integer. -/
  | value (n : Int)
  /-- A term that is neither. -/
  | other
deriving DecidableEq, Repr

namespace Resolved

/-- What the variable stands for, with its kind. -/
def describe : Resolved → String
  | free v => "Free(" ++ v.describe ++ ")"
  | value n => "Value(" ++ toString n ++ ")"
  | other => "Other"

end Resolved

/-- A substitution with the loaded domains, the propagators at work, their subscriptions and the
    agenda. -/
structure Solver where
  /-- The substitution that the solver was opened on. -/
  subst : Subst
  /-- The domains of the loaded variables. -/
  domains : Std.ExtTreeMap Var Domain := ∅
  /-- The subscribers of the variables, in the order of subscription. -/
  subscribers : Std.ExtTreeMap Var (List PropId) := ∅
  /-- The propagators by number. -/
  props : Array Propagator := #[]
  /-- The numbers of the propagators by stamp. -/
  interned : Std.ExtTreeMap Nat PropId := ∅
  /-- The propagators that wait to be run. -/
  agenda : Agenda := {}

/-- A computation on a solver that may end in a conflict or a fault. -/
abbrev Narrow := EStateM Halt Solver

namespace Solver

/-- A solver over `s` that has loaded nothing (`Solver::new`). -/
def new (s : Subst) : Solver := { subst := s }

/-! ## Variables -/

/-- What the variable stands for (`Solver::resolve`). -/
def resolve (s : Solver) (v : Var) : Resolved :=
  match s.subst.walk (.var v) with
  | .var w => .free w
  | .atom (.int n) => .value n
  | _ => .other

/-- Both variables stand for one unbound variable (`same_var`). -/
def sameVar (s : Solver) (v w : Var) : Bool :=
  match s.resolve v, s.resolve w with
  | .free a, .free b => a = b
  | _, _ => false

/-- The propagator with that number. -/
def prop? (s : Solver) (id : PropId) : Option Propagator := s.props[id.index]?

/-- The subscribers of the unbound variable `v`. -/
def subscribersOf (s : Solver) (v : Var) : List PropId := s.subscribers[v]?.getD []

/-- The number of subscribers of what `v` stands for (`subscriber_count`). -/
def subscriberCount (s : Solver) (v : Var) : Nat :=
  match s.resolve v with
  | .free w => (s.subscribersOf w).length
  | _ => 0

/-! ## Loading -/

/-- The number of a propagator, and whether it is a new one (`intern`). -/
def intern (s : Solver) (p : Propagator) : PropId × Bool × Solver :=
  match s.interned[p.stamp]? with
  | some id => (id, false, s)
  | none =>
    let id : PropId := ⟨s.props.size⟩
    (id, true, { s with props := s.props.push p, interned := s.interned.insert p.stamp id })

/-- Subscribes a propagator to an unbound variable, once (`add_subscriber`). -/
def addSubscriber (s : Solver) (id : PropId) (v : Var) : Solver :=
  let subs := s.subscribersOf v
  if subs.contains id then s
  else { s with subscribers := s.subscribers.insert v (subs ++ [id]) }

/-- Takes a stored propagator up: its unbound variables are subscribed to it and
    put on the stack of variables to load. One met before is passed over. -/
def adopt (state : List Var × Solver) (p : Propagator) : List Var × Solver :=
  let (pending, s) := state
  match s.intern p with
  | (_, false, s) => (pending, s)
  | (id, true, s) =>
    p.val.vars.foldl (fun (pending, s) w =>
      match s.resolve w with
      | .free w => (w :: pending, s.addSubscriber id w)
      | _ => (pending, s)) (pending, s)

/-- Loads the variables of the stack and all that they lead to, in at most `n`
    rounds. -/
def loadAll : Nat → List Var → Solver → Solver
  | n + 1, v :: pending, s =>
    if s.domains.contains v then loadAll n pending s
    else
      let s := { s with domains := s.domains.insert v (s.subst.storedDomain v) }
      let (pending, s) := (s.subst.storedWatchers v).foldl adopt (pending, s)
      loadAll n pending s
  | _, _, s => s

/-- Loads the unbound variable `v` and every variable that shares stored propagators with it
    (`ensure_loaded`). A round takes one variable off the stack, and a variable gets there once for
    each mention by a stored propagator. -/
def load (s : Solver) (v : Var) : Solver :=
  if s.domains.contains v then s else loadAll (s.subst.watchCount + 1) [v] s

/-- The domain of what `v` stands for (`Solver::domain`); a term that is no integer has none. -/
def domain (s : Solver) (v : Var) : Domain × Solver :=
  match s.resolve v with
  | .free w =>
    let s := s.load w
    (s.domains[w]?.getD .unbounded, s)
  | .value n => (.singleton n, s)
  | .other => (.empty, s)

/-- The only value left to `v` (`Solver::value`). -/
def value (s : Solver) (v : Var) : Option Int × Solver :=
  let (d, s) := s.domain v
  (d.solution, s)

/-! ## Propagators at work -/

/-- Puts the propagator on the agenda at its weight (`enqueue`). -/
def enqueue (s : Solver) (id : PropId) : Solver :=
  match s.prop? id with
  | some p => { s with agenda := s.agenda.push id p.val.priority }
  | none => s

/-- Puts every propagator on the agenda (`wake_all`). -/
def wakeAll (s : Solver) : Solver :=
  (List.range s.props.size).foldl (fun s i => s.enqueue ⟨i⟩) s

/-- Subscribes a propagator to what `v` stands for, if that is unbound (`subscribe`). -/
def subscribe (s : Solver) (id : PropId) (v : Var) : Solver :=
  match s.resolve v with
  | .free w => (s.load w).addSubscriber id w
  | _ => s

/-- Subscribes a propagator to those of the variables that have no value yet (`resubscribe`). -/
def resubscribe (s : Solver) (id : PropId) (vs : List Var) : Solver :=
  vs.foldl (fun s v =>
    let (d, s) := s.domain v
    if d.hasSolution then s else s.subscribe id v) s

/-- Takes a propagator off the subscriptions of its variables (`unsubscribe`). -/
def unsubscribe (s : Solver) (id : PropId) : Solver :=
  match s.prop? id with
  | none => s
  | some p =>
    p.val.vars.foldl (fun s v =>
      match s.resolve v with
      | .free w =>
        match s.subscribers[w]? with
        | some subs =>
          { s with subscribers := s.subscribers.insert w (subs.filter (· ≠ id)) }
        | none => s
      | _ => s) s

/-- Posts a propagator (`Solver::post`): it is numbered, subscribed and put on the agenda. -/
def post (s : Solver) (p : Propagator) : PropId × Solver :=
  let (id, _, s) := s.intern p
  let s := p.val.vars.foldl (fun s v => s.subscribe id v) s
  (id, s.enqueue id)

/-- Puts `p` in the place of the propagator with that number (`replace`). -/
def replace (s : Solver) (id : PropId) (p : Propagator) : Solver :=
  match s.prop? id with
  | none => s
  | some old =>
    { s with
      interned := (s.interned.erase old.stamp).insert p.stamp id
      props := s.props.setIfInBounds id.index p }

/-- Nothing is left to run (`is_quiescent`). -/
def isQuiescent (s : Solver) : Bool := s.agenda.isEmpty

/-- Puts the subscribers of the unbound variable `v` on the agenda (`excite`). -/
def excite (s : Solver) (v : Var) : Solver := (s.subscribersOf v).foldl enqueue s

end Solver

/-! ## Narrowing -/

namespace Narrow

/-- Ends in a conflict. -/
def conflict {α : Type} : Narrow α := throw .conflict

/-- Goes on only if the condition holds. -/
def require (holds : Bool) : Narrow Unit := if holds then pure () else conflict

/-- The domain of what `v` stands for. -/
def domain (v : Var) : Narrow Domain := modifyGet fun s => s.domain v

/-- Both variables stand for one unbound variable. -/
def sameVar (v w : Var) : Narrow Bool := return (← get).sameVar v w

/-- What the variable stands for. -/
def resolve (v : Var) : Narrow Resolved := return (← get).resolve v

/-- A result that may be a fault. -/
def orFault {α : Type} : Except Fault α → Narrow α
  | .ok a => pure a
  | .error f => throw (.fault f)

/-- Leaves to `v` the values of `d` only (`reduce_domain`). If none is left, or `v` stands for
    something outside `d`, this is a conflict and no domain changes. -/
def reduce (v : Var) (d : Domain) : Narrow Unit := do
  match ← resolve v with
  | .value n => require (d.contains n)
  | .other => conflict
  | .free w =>
    let current ← domain w
    let next := current.intersect d
    if next.isEmpty then conflict
    else if next = current then pure ()
    else modify fun s => { s with domains := s.domains.insert w next }.excite w

/-- Subscribes a propagator to those of the variables that have no value yet. -/
def resubscribe (id : PropId) (vs : List Var) : Narrow Unit := modify (·.resubscribe id vs)

/-- Puts a new propagator for `r` in the place of the one with that number (`specialize`). -/
def replaceWith (id : PropId) (r : Relation) : Narrow Unit :=
  modify fun s =>
    let (p, subst) := s.subst.stamped r
    { s with subst }.replace id p

end Narrow

end ConstraintLogic
