import ConstraintLogic.Engine
import ConstraintLogic.Goal.FiniteDomain

/-!
# The workbench

A workbench holds a current substitution, snapshots of it under names, the
propagators made so far, and at most one open solver with earlier copies of it.
Commands work on these one after another, and each has a reply. Propagators and
attributes made at the workbench get numbers that nothing there has used before,
so that snapshots that have gone different ways never share an identity by
accident.

Contents:
* `Command`, `Reply`: what can be asked, and the answers.
* `Workbench.perform`: one command.
-/

namespace ConstraintLogic

/-- A propagator to be made, or one made before. -/
inductive PropSpec where
  /-- A new propagator for the relation. -/
  | make (r : Relation)
  /-- The propagator that was made as number `k`. -/
  | known (k : Nat)
deriving DecidableEq, Repr

/-- An attribute to be made. -/
inductive AttrSpec where
  | allowed (ns : List Int)
  | domain (d : Domain)
  | watchers (ps : List PropSpec)
  | tag
  | zero
deriving DecidableEq, Repr

/-- What can be asked of a workbench. -/
inductive Command where
  | fresh (k : Nat)
  | unify (a b : Term)
  | walk (t : Term)
  | walkDeep (t : Term)
  | walkLength (t : Term)
  | walkVar (v : Var)
  | occurs (v : Var) (t : Term)
  | get (v : Var)
  | isBound (v : Var)
  | counts
  | setAttr (v : Var) (a : AttrSpec)
  | removeAttr (v : Var) (name : Option AttrName)
  | takeAttrs (v : Var)
  | attrs (v : Var)
  | getAttr (v : Var) (name : Option AttrName)
  | hasAttrs (v : Var)
  | attributed
  | constraints (v : Var)
  | dump
  | describe
  | save (name : String)
  | load (name : String)
  | compare (name : String)
  | goal (g : Goal) (n : Nat)
  | openSolver
  | post (p : PropSpec)
  | reduce (v : Var) (d : Domain)
  | fixpoint
  | quiescent
  | sameVar (v w : Var)
  | replace (k : Nat) (p : PropSpec)
  | subscribe (k : Nat) (v : Var)
  | resubscribe (k : Nat) (vs : List Var)
  | wakeAll
  | domain (v : Var)
  | domains (vs : List Var)
  | value (v : Var)
  | resolve (v : Var)
  | subscribers (vs : List Var)
  | base
  | fork
  | back
  | toSubst
  | solve

/-- The replies of a workbench. -/
inductive Reply where
  | flag (b : Bool)
  | number (n : Nat)
  | numbers (ns : List Nat)
  | text (s : String)
  | var (v : Option Var)
  | vars (vs : List Var)
  | term (t : Option Term)
  | length (n : Option Nat)
  | integer (n : Option Int)
  | counts (bindings : Nat) (isEmpty : Bool) (vars : Nat)
  | subst (s : Subst)
  | substs (ss : List Subst)
  | adopted (s : Option Subst)
  | attr (a : Option Attribute)
  | attrs (as : List Attribute)
  | taken (as : List Attribute) (s : Subst)
  | constraints (cs : List (AttrName × Term × List Var))
  | domain (d : Domain)
  | domains (ds : List Domain)
  /-- No solver is open. -/
  | noSolver
  /-- The command stopped before it had a result. -/
  | stopped (why : Stop)

/-- The state of a workbench. -/
structure Workbench where
  /-- The current substitution. -/
  subst : Subst
  /-- Snapshots by name, the latest first. -/
  snapshots : List (String × Subst) := []
  /-- The propagators made so far. -/
  made : Array Propagator := #[]
  /-- The open solver. -/
  solver : Option Solver := none
  /-- The numbers of the propagators posted to the open solver. -/
  posted : Array PropId := #[]
  /-- Earlier copies of the open solver, the latest first. -/
  forks : List Solver := []
  /-- A number above every stamp at the workbench. -/
  supply : Nat := 0
  /-- The allowance of steps for a search. -/
  allowance : Nat

namespace Workbench

/-- A workbench with `n` variables allocated. -/
def new (n allowance : Nat) : Workbench := { subst := { Subst.empty with next := n }, allowance }

/-- A computation at a workbench. -/
abbrev Session := StateM Workbench

/-! ## Identities -/

/-- Gives a value an identity of its own. -/
def stamped {α : Type} (a : α) : Session (Stamped α) :=
  modifyGet fun w => (⟨w.supply, a⟩, { w with supply := w.supply + 1 })

/-- The propagator that is meant; an unknown number means a new table without
    variables. -/
def makePropagator : PropSpec → Session Propagator
  | .make r => do
    let p ← stamped r
    modify fun w => { w with made := w.made.push p }
    return p
  | .known k => do
    match (← get).made[k]? with
    | some p => return p
    | none => stamped (.table [] [] .nil)

/-- The attribute that is meant, for the variable `v`. -/
def makeAttribute (v : Var) : AttrSpec → Session Attribute
  | .allowed ns => return .allowed (← stamped ns)
  | .domain d => return .domain (← stamped ⟨v, d⟩)
  | .watchers ps => do
    let ps ← ps.mapM makePropagator
    return .watchers (← stamped ps)
  | .tag => return .tag (← stamped ())
  | .zero => return .zero (← stamped ())

/-- Lets substitution and solver continue with numbers not used before. -/
def raise : Session Unit :=
  modify fun w =>
    { w with
      subst := w.subst.raiseSupply w.supply
      solver := w.solver.map fun s => { s with subst := s.subst.raiseSupply w.supply } }

/-- Keeps the number above all that substitution and solver have used. -/
def settleSupply : Session Unit :=
  modify fun w =>
    let used := (w.solver.map fun s => s.subst.supply).getD 0
    { w with supply := max w.supply (max w.subst.supply used) }

/-! ## Working on the substitution -/

/-- Makes a substitution the current one. -/
def setSubst (s : Subst) : Session Unit := modify fun w => { w with subst := s }

/-- The result of an attempt becomes current; a conflict changes nothing. -/
def adopt : Attempt Subst → Session Reply
  | .ok s => do
    setSubst s
    return .adopted (some s)
  | .error .conflict => return .adopted none
  | .error (.stop why) => return .stopped why

/-- The first answers of a goal; the first of them becomes current. -/
def answers (g : Goal) (n : Nat) : Session Reply := do
  let w ← get
  let context := Program.context (fun _ _ => .fail) w.allowance
  match g.apply context w.subst >>= Series.take context.interp w.allowance n with
  | .error why => return .stopped why
  | .ok ss =>
    match ss with
    | s :: _ => setSubst s
    | [] => pure ()
    return .substs ss

/-- The constraints of the attributes of a variable, each with the kind of its
    attribute. -/
def constraintsOf (s : Subst) (v : Var) : List (AttrName × Term × List Var) :=
  (s.attributes v).toList.flatMap fun a => a.constraints.map fun c => (a.name, c)

/-! ## Working on the solver -/

/-- Closes the solver. -/
def close : Session Unit := modify fun w => { w with solver := none }

/-- Makes a solver the open one. -/
def setSolver (s : Solver) : Session Unit := modify fun w => { w with solver := some s }

/-- Works on the open solver, if there is one. -/
def withSolver (work : Solver → Session Reply) : Session Reply := do
  match (← get).solver with
  | some s => work s
  | none => return .noSolver

/-- Asks the open solver for something; it may load variables for that. -/
def asked (question : Solver → Reply × Solver) : Session Reply :=
  withSolver fun s => do
    let (reply, s) := question s
    setSolver s
    return reply

/-- Narrows the open solver and tells whether it went without a conflict; a fault
    closes the solver. -/
def narrowed (narrowing : Narrow Unit) : Session Reply :=
  withSolver fun s => do
    match EStateM.run narrowing s with
    | .ok _ s =>
      setSolver s
      return .flag true
    | .error .conflict s =>
      setSolver s
      return .flag false
    | .error (.stop why) _ =>
      close
      return .stopped why

/-- Changes the open solver. -/
def changed (change : Solver → Solver) : Session Reply := asked fun s => (.flag true, change s)

/-- Closes the solver and adopts what it leads to. -/
def finished (result : Solver → Attempt Subst) : Session Reply :=
  withSolver fun s => do
    close
    adopt (result s)

/-- The number that was posted at position `k`. -/
def postedAt (k : Nat) : Session PropId := return (← get).posted[k]?.getD ⟨k⟩

/-- The domains of the variables. -/
def domainsOf (s : Solver) (vs : List Var) : List Domain × Solver :=
  vs.foldl (fun (ds, s) v =>
    let (d, s) := s.domain v
    (ds ++ [d], s)) ([], s)

/-! ## Commands -/

/-- Performs a command on the current substitution. -/
def performSubst (s : Subst) : Command → Session Reply
  | .fresh k => do
    let (vs, s) := s.freshMany k
    setSubst s
    return .vars vs
  | .unify a b => adopt (s.unify a b)
  | .walk t => return .term (some (s.walk t))
  | .walkDeep t => return .term (some (s.walkDeep t))
  | .walkLength t =>
    match (s.walkDeep t).toList? with
    | .ok items => return .length (some items.length)
    | .error _ => return .length none
  | .walkVar v => return .var (s.walkVar v)
  | .occurs v t => return .flag (s.occurs v t)
  | .get v => return .term (s.get? v)
  | .isBound v => return .flag (s.isBound v)
  | .counts => return .counts s.size (s.size = 0) s.next
  | .removeAttr v name => do
    let s := match name with
      | some name => s.removeAttr v name
      | none => s
    setSubst s
    return .subst s
  | .takeAttrs v => do
    let taken := (s.attributes v).toList
    let s := s.dropAttrs v
    setSubst s
    return .taken taken s
  | .attrs v => return .attrs (s.attributes v).toList
  | .getAttr v name => return .attr (name.bind fun name => s.getAttr v name)
  | .hasAttrs v => return .flag (s.hasAttrs v)
  | .attributed => return .vars s.attributedVars
  | .constraints v => return .constraints (constraintsOf s v)
  | .describe => return .text s.describe
  | .save name => do
    modify fun w => { w with snapshots := (name, s) :: w.snapshots }
    return .flag true
  | .load name => do
    let s := ((← get).snapshots.lookup name).getD s
    setSubst s
    return .subst s
  | .compare name => return .flag (((← get).snapshots.lookup name).any s.isSame)
  | .goal g n => answers g n
  | _ => return .subst s

/-- Performs a command. -/
def performRaw : Command → Session Reply
  | .setAttr v spec => do
    let a ← makeAttribute v spec
    raise
    let s := (← get).subst.setAttr v a
    setSubst s
    return .subst s
  | .openSolver => do
    modify fun w => { w with solver := some (.new w.subst), posted := #[], forks := [] }
    return .flag true
  | .post spec =>
    withSolver fun _ => do
      let p ← makePropagator spec
      raise
      withSolver fun s => do
        let (id, s) := s.post p
        setSolver s
        modify fun w => { w with posted := w.posted.push id }
        return .text id.describe
  | .reduce v d => narrowed (.reduce v d)
  | .fixpoint => narrowed .fixpoint
  | .quiescent => asked fun s => (.flag s.isQuiescent, s)
  | .sameVar v w => asked fun s => (.flag (s.sameVar v w), s)
  | .replace k spec =>
    withSolver fun _ => do
      let p ← makePropagator spec
      raise
      let id ← postedAt k
      changed fun s => s.replace id p
  | .subscribe k v => do
    let id ← postedAt k
    changed fun s => s.subscribe id v
  | .resubscribe k vs => do
    let id ← postedAt k
    changed fun s => s.resubscribe id vs
  | .wakeAll => changed Solver.wakeAll
  | .domain v => asked fun s =>
    let (d, s) := s.domain v
    (.domain d, s)
  | .domains vs => asked fun s =>
    let (ds, s) := domainsOf s vs
    (.domains ds, s)
  | .value v => asked fun s =>
    let (n, s) := s.value v
    (.integer n, s)
  | .resolve v => asked fun s => (.text (s.resolve v).describe, s)
  | .subscribers vs => asked fun s => (.numbers (vs.map s.subscriberCount), s)
  | .base => asked fun s => (.subst s.subst, s)
  | .fork =>
    withSolver fun s => do
      modify fun w => { w with forks := s :: w.forks }
      return .number (← get).forks.length
  | .back =>
    withSolver fun _ => do
      match (← get).forks with
      | s :: forks =>
        modify fun w => { w with solver := some s, forks }
        return .number forks.length
      | [] => return .number 0
  | .toSubst => finished Solver.toSubst?
  | .solve => finished Solver.solve?
  | command => do performSubst (← get).subst command

/-- Performs a command with identities that nothing at the workbench has used. -/
def perform (command : Command) : Session Reply := do
  raise
  let reply ← performRaw command
  settleSupply
  return reply

end Workbench

end ConstraintLogic
