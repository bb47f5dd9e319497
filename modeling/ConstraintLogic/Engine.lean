import ConstraintLogic.Search.Apply
import ConstraintLogic.Term.Equality

/-!
# Queries

An engine answers a query about one variable: it owns the answers of the goal and
steps through them. With labeling, every variable with a finite domain takes its
values before an answer is reported; without, the constraints that are left can be
reported beside the answer.

Contents:
* `Engine.start`, `Engine.step`: a query and one step of it.
* `Engine.next`, `Engine.collect`, `Engine.count`: reading answers.
* `Subst.residual`: the constraints that an answer leaves.
* `Query.run`, `Query.first`, `Query.answers`: whole queries.
-/

namespace ConstraintLogic

/-! ## Constraints that are left -/

/-- The statements of the constraints that are left, by kind of attribute; nothing
    for a kind that was not met. -/
abbrev Groups := AttrName → Option (List Term)

namespace Groups

/-- No kind was met. -/
def none : Groups := fun _ => Option.none

/-- The kind has been met. -/
def meet (g : Groups) (name : AttrName) : Groups := fun other =>
  if other = name then some ((g name).getD []) else g other

/-- The statement belongs to the kind. -/
def insert (g : Groups) (name : AttrName) (t : Term) : Groups := fun other =>
  if other = name then
    let group := (g name).getD []
    some (if group.any t.agree then group else group ++ [t])
  else g other

end Groups

namespace Subst

/-- How often the constraints of the attributes name a variable, over all
    variables. -/
def constraintCount (s : Subst) : Nat :=
  s.attrs.foldl (fun n _ m =>
    m.toList.foldl (fun n a => a.constraints.foldl (fun n c => n + c.2.length) n) n) 0

/-- Adds the constraints of an attribute to the groups, and lists the variables
    that they name. -/
def report (s : Subst) (state : Groups × List Var) (a : Attribute) : Groups × List Var :=
  let (groups, named) := state
  a.constraints.foldl (fun (groups, named) (statement, vs) =>
    (groups.insert a.name (s.walkDeep statement), named ++ vs)) (groups.meet a.name, named)

/-- Collects the constraints of the variables of the queue and of those they lead
    to, in at most `n` rounds; `seen` are the variables done. -/
def residualFrom (s : Subst) : Nat → List Var → List Var → Groups → Groups
  | n + 1, v :: queue, seen, groups =>
    match s.walkVar v with
    | none => s.residualFrom n queue seen groups
    | some v =>
      if seen.contains v then s.residualFrom n queue seen groups
      else
        let (groups, named) := (s.attributes v).toList.foldl s.report (groups, [])
        s.residualFrom n (queue ++ named) (v :: seen) groups
  | _, _, _, groups => groups

/-- The constraints left on the variables of a term, and on all variables that share constraints
    with them, directly or not (`residual_constraints`). A round takes one variable off the queue,
    and a variable gets there as part of the term or once for each mention by a constraint. -/
def residual (s : Subst) (t : Term) : Groups :=
  s.residualFrom (t.vars.length + s.constraintCount) t.vars [] Groups.none

end Subst

/-! ## Engines -/

/-- An answer and the constraints that it leaves. -/
structure Answer where
  /-- The term of the query variable. -/
  term : Term
  /-- The constraints that are left. -/
  constraints : Groups

/-- How a query is answered. -/
structure QueryConfig where
  /-- Variables with finite domains are labeled. -/
  labelAnswers : Bool := true
  /-- The greatest number of answers. -/
  limit : Option Nat := none
deriving DecidableEq, Repr

/-- A query in progress. -/
structure Engine where
  /-- What the tasks of the search mean. -/
  interp : Interp Task Goal Subst
  /-- The allowance of steps for each answer and of answers for each collection. -/
  allowance : Nat
  /-- The answers to come. -/
  stream : Answers
  /-- The variable that is asked for. -/
  query : Var
  /-- The greatest number of answers. -/
  limit : Option Nat
  /-- The number of answers given. -/
  emitted : Nat := 0

/-- The outcome of one step. -/
inductive StepResult where
  /-- An answer. -/
  | emit (s : Subst)
  /-- There are no more answers. -/
  | finished
  /-- Another step is needed. -/
  | again

namespace Engine

/-- Starts a query (`Engine::with_config`): the goal is applied to the substitution that holds the
    query variable alone. -/
def start (program : Program) (allowance : Nat) (config : QueryConfig) (goal : Var → Goal) :
    Except Stop Engine := do
  let context := program.context allowance
  let (query, s) := Subst.empty.fresh
  let goal := if config.labelAnswers then .conj (goal query) .labelAll else goal query
  let stream ← goal.apply context s
  return { interp := context.interp, allowance, stream, query, limit := config.limit }

/-- The limit has been reached. -/
def limitReached (e : Engine) : Bool := e.limit.any (· ≤ e.emitted)

/-- Looks at one node (`Engine::step`). After the limit the rest is dropped without being forced,
    and a fault leaves no rest. -/
def step (e : Engine) : Except Stop StepResult × Engine :=
  if e.limitReached then (.ok .finished, { e with stream := .empty })
  else
    match e.stream with
    | .empty => (.ok .finished, e)
    | .cons s rest => (.ok (.emit s), { e with stream := rest, emitted := e.emitted + 1 })
    | .suspend w | .pending w =>
      match w.run e.interp with
      | .ok stream => (.ok .again, { e with stream })
      | .error why => (.error why, { e with stream := .empty })

/-- Steps to the next answer in at most `n` steps. -/
def nextWithin : Nat → Engine → Except Stop (Option Subst) × Engine
  | 0, e => (.error .exhausted, e)
  | n + 1, e =>
    match e.step with
    | (.ok (.emit s), e) => (.ok (some s), e)
    | (.ok .finished, e) => (.ok none, e)
    | (.ok .again, e) => nextWithin n e
    | (.error why, e) => (.error why, e)

/-- The substitution of the next answer (`next_subst`). -/
def nextSubst (e : Engine) : Except Stop (Option Subst) × Engine := nextWithin e.allowance e

/-- The term that an answer gives to the query variable. -/
def answerTerm (e : Engine) (s : Subst) : Term := s.walkDeep (.var e.query)

/-- The term of the next answer (`Engine::next`). -/
def next (e : Engine) : Except Stop (Option Term) × Engine :=
  let (result, e') := e.nextSubst
  (result.map fun s => s.map e.answerTerm, e')

/-- The next answer with the constraints that it leaves (`next_with_constraints`). -/
def nextAnswer (e : Engine) : Except Stop (Option Answer) × Engine :=
  let (result, e') := e.nextSubst
  (result.map fun s => s.map fun s => ⟨e.answerTerm s, s.residual (e.answerTerm s)⟩, e')

/-- Nothing is left of the answers (`is_exhausted`). -/
def isExhausted (e : Engine) : Bool := e.stream.isEmpty

/-- Reads answers until `read` finds no more, at most `n` of them; `taken` holds
    the answers so far, last first. -/
def collectWith {α : Type} (read : Engine → Except Stop (Option α) × Engine) :
    Nat → Engine → List α → Except Stop (List α) × Engine
  | 0, e, _ => (.error .exhausted, e)
  | n + 1, e, taken =>
    match read e with
    | (.ok (some a), e) => collectWith read n e (a :: taken)
    | (.ok none, e) => (.ok taken.reverse, e)
    | (.error why, e) => (.error why, e)

/-- The terms of all answers that are left (`collect_answers`). -/
def collect (e : Engine) : Except Stop (List Term) × Engine := collectWith next e.allowance e []

/-- The number of answers that are left (`count_answers`). -/
def count (e : Engine) : Except Stop Nat × Engine :=
  let (result, e) := e.collect
  (result.map List.length, e)

/-- All answers that are left, with the constraints that they leave. -/
def collectAnswers (e : Engine) : Except Stop (List Answer) × Engine :=
  collectWith nextAnswer e.allowance e []

end Engine

/-! ## Whole queries -/

namespace Query

/-- The terms of all answers, or of the first `limit` ones (`run` and `run_n`). -/
def run (program : Program) (allowance : Nat) (limit : Option Nat) (goal : Var → Goal) :
    Except Stop (List Term) := do
  (← Engine.start program allowance { limit } goal).collect.1

/-- The term of the first answer (`run_first`). -/
def first (program : Program) (allowance : Nat) (goal : Var → Goal) :
    Except Stop (Option Term) := do
  (← Engine.start program allowance {} goal).next.1

/-- The first `limit` answers without labeling, with the constraints they leave
    (`run_with_constraints`). -/
def answers (program : Program) (allowance : Nat) (limit : Nat) (goal : Var → Goal) :
    Except Stop (List Answer) := do
  let config : QueryConfig := { labelAnswers := false, limit := some limit }
  (← Engine.start program allowance config goal).collectAnswers.1

/-- The nodes of the search for a goal without labeling, at most `count` of them;
    an answer shows as the term of the query variable. -/
def trace (program : Program) (allowance : Nat) (count : Nat) (goal : Var → Goal) :
    Except Stop (List (Series.Mark Term)) := do
  let context := program.context allowance
  let (query, s) := Subst.empty.fresh
  let marks ← (← (goal query).apply context s).trace context.interp count
  return marks.map (Series.Mark.map fun s => s.walkDeep (.var query))

end Query

end ConstraintLogic
