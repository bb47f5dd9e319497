import ConstraintLogic.Propagator.Basic

/-!
# Goals

A goal says what a substitution has to be extended to. Goals are data: equations,
constraints, conjunctions and disjunctions, fresh variables, calls of relations
and a few operators that look at the answers of another goal. Recursion goes
through calls only, and what a call means is left to a program.

Contents:
* `Goal`: the goals, `RelName`: the relations that can be called.
* `Goal.conjAll`, `Goal.disjAll`, `Goal.conde`: combinations of many goals, and
  what they keep.
* `Goal.identified`: a goal whose constraints have an identity already.
* `Goal.share`: one goal, constraints included, stated several times.
-/

namespace ConstraintLogic

/-- The relations that can be called. -/
inductive RelName where
  /-- One list appended to another. -/
  | append
  /-- An element of a list. -/
  | member
  /-- A relation that the program defines. -/
  | defined (name : String)
deriving DecidableEq, Repr

/-- Goals. -/
inductive Goal where
  /-- Holds as it is (`succeed`). -/
  | succeed
  /-- Never holds (`fail`). -/
  | fail
  /-- Both terms are equal (`eq`). -/
  | eq (a b : Term)
  /-- Both goals hold (`conj`). -/
  | conj (g h : Goal)
  /-- One of the goals holds (`disj`). -/
  | disj (g h : Goal)
  /-- The goal holds, and its search is put off (`suspended`). -/
  | suspend (g : Goal)
  /-- The goal holds of `n` new variables (`fresh_n`). -/
  | fresh (n : Nat) (body : List Var → Goal)
  /-- The relation holds of the arguments; its search is put off. -/
  | call (r : RelName) (args : List Term)
  /-- The goal has no answer (`not`). -/
  | not (g : Goal)
  /-- The second goal holds of every answer of the first, or the third holds if
      the first has none (`ifte`). -/
  | ifte (cond yes no : Goal)
  /-- The first answer of the goal (`once`). -/
  | once (g : Goal)
  /-- One of the goals holds (`par_disj_with`); the second one is worked on elsewhere, by a
      pool of so many workers, or at once if the pool has none. -/
  | par (workers : Nat) (g h : Goal)
  /-- Searches for ever without an answer (`nevero`). -/
  | never
  /-- Holds again and again (`alwayso`). -/
  | always
  /-- A new constraint for the relation is posted (`post`). -/
  | post (r : Relation)
  /-- A constraint with an identity of its own is posted. -/
  | posted (p : Propagator)
  /-- The variable takes a value of the domain. -/
  | narrow (v : Var) (d : Domain)
  /-- The variables take values one by one (`label`). -/
  | label (vs : List Var)
  /-- All variables with a finite domain take values one by one (`label_all`). -/
  | labelAll
  /-- The goal holds for `n` new identities from a number on. -/
  | reserve (n : Nat) (body : Nat → Goal)

/-- What the relations of a program mean. -/
abbrev Program := String → List Term → Goal

namespace Goal

/-- The goal that holds if the condition does (`check`). -/
def check (holds : Bool) : Goal := if holds then succeed else fail

/-- All of the goals hold (`conj_all`). -/
def conjAll : List Goal → Goal
  | [] => succeed
  | [g] => g
  | g :: rest => conj g (conjAll rest)

/-- One of the goals holds (`disj_all`). -/
def disjAll : List Goal → Goal
  | [] => fail
  | [g] => g
  | g :: rest => disj g (disjAll rest)

/-- All goals of one of the clauses hold (`conde`); the search of each clause is put off. -/
def conde (clauses : List (List Goal)) : Goal :=
  disjAll (clauses.map fun clause => suspend (conjAll clause))

section Many

variable {Q : Goal → Prop}

/-- What conjunctions keep, the conjunction of many goals keeps. -/
theorem conjAll_of_forall (succeeds : Q succeed) (both : ∀ {g h}, Q g → Q h → Q (conj g h)) :
    ∀ {gs : List Goal}, (∀ g ∈ gs, Q g) → Q (conjAll gs)
  | [], _ => succeeds
  | [g], all => all g (by simp)
  | g :: h :: gs, all =>
    both (all g (by simp)) (conjAll_of_forall succeeds both fun k mem => all k (List.mem_cons_of_mem g mem))

/-- What disjunctions keep, the disjunction of many goals keeps. -/
theorem disjAll_of_forall (fails : Q fail) (either : ∀ {g h}, Q g → Q h → Q (disj g h)) :
    ∀ {gs : List Goal}, (∀ g ∈ gs, Q g) → Q (disjAll gs)
  | [], _ => fails
  | [g], all => all g (by simp)
  | g :: h :: gs, all =>
    either (all g (by simp)) (disjAll_of_forall fails either fun k mem => all k (List.mem_cons_of_mem g mem))

/-- What clauses and disjunctions keep, the goal of many clauses keeps. -/
theorem conde_of_forall (clauses : ∀ {gs}, (∀ g ∈ gs, Q g) → Q (suspend (conjAll gs)))
    (disjunction : ∀ {gs}, (∀ g ∈ gs, Q g) → Q (disjAll gs)) {cs : List (List Goal)}
    (all : ∀ gs ∈ cs, ∀ g ∈ gs, Q g) : Q (conde cs) := by
  refine disjunction fun g mem => ?_
  obtain ⟨gs, among, rfl⟩ := List.mem_map.mp mem
  exact clauses (all gs among)

end Many

/-- The goal holds (`delay`); it is made anew, with constraints of its own, each time it is reached,
    and its search is put off. -/
def delay (g : Goal) : Goal := fresh 0 fun _ => suspend g

/-- The goal with an identity, from `n` on, for each constraint that is posted
    outside of the bodies of fresh variables and calls, and the next identity. A
    goal that reserves identities is given the next ones. -/
def identified : Goal → Nat → Goal × Nat
  | post r, n => (posted ⟨n, r⟩, n + 1)
  | conj g h, n =>
    let (g, n) := g.identified n
    let (h, n) := h.identified n
    (conj g h, n)
  | disj g h, n =>
    let (g, n) := g.identified n
    let (h, n) := h.identified n
    (disj g h, n)
  | par workers g h, n =>
    let (g, n) := g.identified n
    let (h, n) := h.identified n
    (par workers g h, n)
  | ifte cond yes no, n =>
    let (cond, n) := cond.identified n
    let (yes, n) := yes.identified n
    let (no, n) := no.identified n
    (ifte cond yes no, n)
  | suspend g, n =>
    let (g, n) := g.identified n
    (suspend g, n)
  | not g, n =>
    let (g, n) := g.identified n
    (not g, n)
  | once g, n =>
    let (g, n) := g.identified n
    (once g, n)
  | reserve k body, n => (body n, n + k)
  | g, n => (g, n)

/-- The goal holds `n` times over, with one and the same constraints. -/
def share (n : Nat) (g : Goal) : Goal :=
  reserve (g.identified 0).2 fun k => conjAll (List.replicate n (g.identified k).1)

end Goal

end ConstraintLogic
