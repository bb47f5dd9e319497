import ConstraintLogic.Search.Label

/-!
# Applying goals

Applying a goal to a substitution gives the series of substitutions under which
the goal holds. Applying ends at once: calls, suspended goals and the halves of a
labeling are put off. Only the operators that look at the answers of another goal,
and the branches that are worked on at once, search while they are applied, and that
search has an allowance of steps.

Contents:
* `Context`: the program and the ways to search during an application.
* `Task.settled`: what is left of a branch that was worked on at once.
* `Goal.apply`: the answers of a goal.
* `Context.interp`: what the tasks of a search mean.
* `Program.context`: the context with an allowance of steps.
-/

namespace ConstraintLogic

/-- What a goal needs to know to be applied. -/
structure Context where
  /-- The relations that can be called. -/
  program : Program
  /-- Forces a series up to a node that is no suspension. -/
  forceReady : Answers → Except Stop Answers
  /-- Forces a series up to an answer or its end. -/
  forceDeep : Answers → Except Stop Answers

/-- What is left to wait for of a branch that was worked on at once: what it found, or
    its loss, which is seen by whoever waits for it. -/
def Task.settled (g : Goal) (s : Subst) : Except Stop Answers → Except Stop (Work Task Goal Subst)
  | .ok found => .ok (.done found)
  | .error (.fault _) => .ok (.start (.branch g s))
  | .error .exhausted => .error .exhausted

namespace Goal

/-- The answers of the goal under the substitution (`Goal::apply`). -/
def apply (c : Context) : Goal → Subst → Except Stop Answers
  | succeed, s => .ok (.unit s)
  | fail, _ => .ok .empty
  | eq a b, s => Answers.ofAttempt (s.unify a b)
  | conj g h, s => do (← g.apply c s).bindWith (fun s => h.apply c s) h
  | disj g h, s => do
    let left ← g.apply c s
    return left.append (← h.apply c s)
  | suspend g, s => .ok (.suspend (.start (.apply g s)))
  | fresh n body, s =>
    let (vs, s) := s.freshMany n
    (body vs).apply c s
  | call r args, s => .ok (.suspend (.start (.apply (r.body c.program args) s)))
  | not g, s => do
    match ← c.forceDeep (← g.apply c s) with
    | .empty => return .unit s
    | _ => return .empty
  | ifte cond yes no, s => do
    match ← c.forceDeep (← cond.apply c s) with
    | .empty => no.apply c s
    | found => found.bindWith (fun s => yes.apply c s) yes
  | once g, s => do
    match ← c.forceDeep (← g.apply c s) with
    | .cons first _ => return .unit first
    | _ => return .empty
  | par workers g h, s => do
    let branch ← (if 0 < workers then .ok (.start (.branch h s))
      else Task.settled h s (h.apply c s >>= c.forceReady))
    return (← g.apply c s).append (.pending branch)
  | never, s => .ok (.suspend (.start (.apply never s)))
  | always, s => .ok (.cons s (.suspend (.start (.apply always s))))
  | post r, s =>
    let (p, s) := s.stamped r
    Answers.ofAttempt (s.solveWith [p])
  | posted p, s => Answers.ofAttempt (s.solveWith [p])
  | narrow v d, s => Answers.ofAttempt (s.solveReduced v d)
  | label vs, s => s.label vs
  | labelAll, s => s.labelAll
  | reserve n body, s => (body s.supply).apply c { s with supply := s.supply + n }

end Goal

namespace Context

/-- The series that a branch of its own delivers (`par_disj_with`). A fault in the branch is seen by
    whoever waits for it, as the loss of the branch. -/
def branch (c : Context) (g : Goal) (s : Subst) : Except Stop Answers :=
  match g.apply c s >>= c.forceReady with
  | .error (.fault _) => .error (.fault .lostBranch)
  | result => result

/-- What the tasks of a search mean. -/
def interp (c : Context) : Interp Task Goal Subst where
  start
    | .apply g s => g.apply c s
    | .branch g s => c.branch g s
    | .explore solver v half vs => solver.explore v half vs
  bind g s := g.apply c s

end Context

/-- The context of a program in which an operator that looks at the answers of
    another goal may force `n` nodes on `n` levels of nesting. -/
def Program.context (program : Program) : Nat → Context
  | 0 =>
    { program
      forceReady := fun _ => .error .exhausted
      forceDeep := fun _ => .error .exhausted }
  | n + 1 =>
    { program
      forceReady := fun answers => answers.forceReady (program.context n).interp n
      forceDeep := fun answers => answers.forceDeep (program.context n).interp n }

end ConstraintLogic
