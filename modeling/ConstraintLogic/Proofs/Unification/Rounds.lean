import ConstraintLogic.Proofs.Solver.AllowedIntegers
import ConstraintLogic.Proofs.Unification.Symmetry
import ConstraintLogic.Term.Equality

/-!
# Unification as loops

Unification takes pairs of terms off a list, walks along bindings, looks for a variable with
a stack of terms, and runs solvers; a solver that is written back unifies its solved variables
with their values in turn. Here all of this is done in rounds, of which only so many are
allowed: a loop, a run to a fixpoint or a nested unification that would take more is exhausted,
and so is what has called it.

Results:
* `Subst.walkWithin`, `Subst.occursWithin`: reading in rounds.
* `Subst.unifyWithin`: unification in rounds, with all that it calls.
* `Attempt.Finishes`: a computation in rounds comes to an attempt, and is never exhausted.
* `Subst.Acyclic.walkWithin`, `Subst.Acyclic.occursWithin`: walks and occurs checks end.
-/

namespace ConstraintLogic

namespace Subst

/-! ## Reading -/

/-- Follows bindings until there is no bound variable, in less than `n` rounds. -/
def walkWithin (s : Subst) : Nat → Term → Attempt Term
  | 0, _ => .error .exhausted
  | n + 1, .var v =>
    match s.get? v with
    | some t => s.walkWithin n t
    | none => .ok (.var v)
  | _ + 1, t => .ok t

/-- Looks for `x` in the terms of a stack as they are read. The parts of a pair are put on the
    stack. -/
def occursWithin (s : Subst) (x : Var) : Nat → List Term → Attempt Bool
  | 0, _ => .error .exhausted
  | _ + 1, [] => .ok false
  | n + 1, t :: stack => do
    match ← s.walkWithin n t with
    | .var v => if v = x then return true else s.occursWithin x n stack
    | .pair h t => s.occursWithin x n (h :: t :: stack)
    | _ => s.occursWithin x n stack

end Subst

/-- Unification, as it is called when a solver is written back. -/
abbrev Unifier := Term → Term → Subst → Attempt Subst

section Nested

variable (n : Nat) (call : Unifier)

/-! ## Runs of a solver -/

namespace Solver

/-- The substitution in which the loaded variables have their present attributes. Those that
    have one value left have neither a domain nor propagators. -/
def refiled (s : Solver) : Subst :=
  s.domains.toList.foldl (fun subst (v, d) => if d.hasSolution then subst else s.writeBack subst v d)
    (s.domains.toList.foldl (fun subst (v, _) => (subst.removeAttr v .domain).removeAttr v .watchers) s.subst)

/-- The substitution that the solver stands for: the variables with one value left are unified
    with it one after another. -/
def toSubstBy (s : Solver) : Attempt Subst :=
  s.domains.toList.foldlM (fun subst (v, d) =>
    match d.solution with
    | some k => call (.var v) (.int k) subst
    | none => .ok subst) s.refiled

/-- Runs a narrowing and at most `n` waiting propagators, and answers the substitution of the
    solver that is left. -/
def solveBy (s : Solver) (narrowing : Narrow Unit) : Attempt Subst :=
  match EStateM.run (do narrowing; Narrow.runWaiting n) s with
  | .ok _ s => s.toSubstBy call
  | .error why _ => .error why

end Solver

namespace Subst

/-- Runs a solver in which all of the propagators are posted. -/
def solveWithBy (s : Subst) (ps : List Propagator) : Attempt Subst :=
  (ps.foldl (fun solver p => (solver.post p).2) (Solver.new s)).solveBy n call (pure ())

/-- Runs a solver in which `v` is left with the values of `d`. -/
def solveReducedBy (s : Subst) (v : Var) (d : Domain) : Attempt Subst :=
  (Solver.new s).solveBy n call (Narrow.reduce v d)

/-! ## Attributes -/

/-- Consults an attribute of `v` on the value that `v` takes. -/
def validateBy (s : Subst) (v : Var) (value : Term) : Attribute → Attempt Subst
  | .domain a =>
    match value.asInt? with
    | some k => if a.val.domain.contains k then s.solveReducedBy n call v (.singleton k) else .error .conflict
    | none => .error .conflict
  | .watchers a =>
    match value.asInt? with
    | some _ => s.solveWithBy n call a.val
    | none => .error .conflict
  | a => s.validate v value a

/-- What an attribute of `v` and another one of its kind become. -/
def combineBy (s : Subst) (v : Var) : Attribute → Attribute → Attempt (Option Attribute × Subst)
  | .domain _, .domain b => do
    let s ← s.solveReducedBy n call v b.val.domain
    return (s.getAttr v .domain, s)
  | .watchers a, .watchers b => do
    let union := unionWatchers a.val b.val
    let (c, s) := s.stamped union
    let s ← (s.setAttr v (.watchers c)).solveWithBy n call union
    return (s.getAttr v .watchers, s)
  | a, b => s.combine v a b

/-- Runs the propagators of `v` again if `v` also has a domain. -/
def recheckBy (s : Subst) (v : Var) : Attempt Subst :=
  match (s.attributes v).domain, (s.attributes v).watchers with
  | some _, some a => s.solveWithBy n call a.val
  | _, _ => .ok s

/-- Checks an attribute that has been copied to `v` against the others there. -/
def settleBy (s : Subst) (v : Var) : Attribute → Attempt Subst
  | .domain _ => s.recheckBy n call v
  | .watchers _ => s.recheckBy n call v
  | _ => .ok s

/-! ## Bindings -/

/-- Binds an unbound variable to a term that is no variable. -/
def instantiateBy (s : Subst) (v : Var) (value : Term) : Attempt Subst := do
  if ← s.occursWithin v n [value] then .error .conflict
  else
    let attrs := (s.attributes v).toList
    match attrs.find? Attribute.delegating with
    | some a => s.validateBy n call v value a
    | none => attrs.foldlM (fun s a => s.validateBy n call v value a) ((s.dropAttrs v).bind v value)

/-- Moves one attribute to what `keep` stands for. -/
def moveAttrBy (keep : Var) (state : Subst × List Attribute) (a : Attribute) : Attempt (Subst × List Attribute) := do
  let (s, joined) := state
  match ← s.walkWithin n (.var keep) with
  | .var rep =>
    match s.getAttr rep a.name with
    | none => return (s.setAttr rep a, if s.hasAttrs rep then joined ++ [a] else joined)
    | some existing =>
      let (merged, s) ← s.combineBy n call rep existing a
      if (← s.walkWithin n (.var rep)) = .var rep then
        match merged with
        | some m => return (s.setAttr rep m, joined)
        | none => return (s.removeAttr rep a.name, joined)
      else return (s, joined)
  | value => return (← s.validateBy n call keep value a, joined)

/-- Checks an attribute that has moved next to others, if its variable is still unbound. -/
def settleAtBy (keep : Var) (s : Subst) (a : Attribute) : Attempt Subst := do
  match ← s.walkWithin n (.var keep) with
  | .var rep => s.settleBy n call rep a
  | _ => .ok s

/-- Makes two unbound variables one. -/
def identifyBy (s : Subst) (v w : Var) : Attempt Subst := do
  let keep := if v.index < w.index then v else w
  let retire := if v.index < w.index then w else v
  let moved := (s.attributes retire).toList
  let (s, joined) ← moved.foldlM (moveAttrBy n call keep) ((s.dropAttrs retire).bind retire (.var keep), [])
  joined.foldlM (settleAtBy n call keep) s

/-- Unifies two different terms that are not both pairs and not bound variables. -/
def unifyEndsBy (s : Subst) : Term → Term → Attempt Subst
  | .var v, .var w => s.identifyBy n call v w
  | .var v, b => s.instantiateBy n call v b
  | a, .var w => s.instantiateBy n call w a
  | _, _ => .error .conflict

end Subst

end Nested

namespace Subst

/-- Unifies the pairs of a list one after another, in less than `n` rounds. Equal pairs are
    passed over where they are one cell, as `cell` tells for each round, and are taken apart
    otherwise. -/
def unifyWithin (cell : Nat → Bool) : Nat → List (Term × Term) → Subst → Attempt Subst
  | 0, _, _ => .error .exhausted
  | _ + 1, [], s => .ok s
  | n + 1, (a, b) :: work, s => do
    let a ← s.walkWithin n a
    let b ← s.walkWithin n b
    if a.same (cell n && a = b) b then unifyWithin cell n work s
    else
      match a, b with
      | .pair h t, .pair h' t' => unifyWithin cell n ((h, h') :: (t, t') :: work) s
      | a, b => do
        let s ← s.unifyEndsBy n (fun a b => unifyWithin cell n [(a, b)]) a b
        unifyWithin cell n work s

end Subst

/-! ## Computations in rounds -/

namespace Attempt

variable {ι α β : Type} {Q Q' : α → Prop} {R : β → Prop}

/-- The attempt succeeds with a result that has the property, or ends in a conflict or an
    overflow. -/
def Ends (Q : α → Prop) : Attempt α → Prop
  | .ok a => Q a
  | .error .conflict => True
  | .error (.stop (.fault f)) => f.IsOverflow
  | .error (.stop .exhausted) => False

/-- From some number of rounds on, the computation comes to the attempt, whichever cells are
    told apart, and the attempt ends. -/
structure Finishes (Q : α → Prop) (f : ι → Nat → Attempt α) (r : Attempt α) : Prop where
  comes : ∃ n₀, ∀ i n, n₀ ≤ n → f i n = r
  ends : Ends Q r

theorem Ends.mono {r : Attempt α} (h : Ends Q r) (sub : ∀ a, Q a → Q' a) : Ends Q' r := by
  match r, h with
  | .ok a, good => exact sub a good
  | .error .conflict, _ => trivial
  | .error (.stop (.fault f)), overflow => exact overflow

namespace Finishes

variable {f f' : ι → Nat → Attempt α} {g : ι → Nat → α → Attempt β} {r : Attempt α} {k : α → Attempt β}

theorem of_ends {r : Attempt α} (h : Ends Q r) : Finishes Q (fun (_ : ι) _ => r) r := ⟨⟨0, fun _ _ _ => rfl⟩, h⟩

theorem ok {a : α} (good : Q a) : Finishes Q (fun (_ : ι) _ => .ok a) (.ok a) := of_ends good

theorem conflict : Finishes Q (fun (_ : ι) _ => .error .conflict) (.error .conflict) := of_ends trivial

/-- What is known of the result is the result itself. -/
theorem exactly (h : Finishes Q f r) : Finishes (fun a => r = .ok a) f r :=
  ⟨h.comes, match r, h.ends with
    | .ok _, _ => rfl
    | .error .conflict, _ => trivial
    | .error (.stop (.fault _)), overflow => overflow⟩

theorem mono (h : Finishes Q f r) (sub : ∀ a, Q a → Q' a) : Finishes Q' f r := ⟨h.comes, h.ends.mono sub⟩

/-- A computation that goes on where another one succeeds. -/
theorem bind (h : Finishes Q f r) (next : ∀ a, Q a → Finishes R (fun i n => g i n a) (k a)) :
    Finishes R (fun i n => f i n >>= g i n) (r >>= k) := by
  obtain ⟨⟨n₁, comes⟩, ends⟩ := h
  match r, ends with
  | .ok a, good =>
    obtain ⟨⟨n₂, comes'⟩, ends'⟩ := next a good
    refine ⟨⟨max n₁ n₂, fun i n le => ?_⟩, ends'⟩
    rw [comes i n (Nat.le_trans (Nat.le_max_left n₁ n₂) le)]
    exact comes' i n (Nat.le_trans (Nat.le_max_right n₁ n₂) le)
  | .error .conflict, _ => exact ⟨⟨n₁, fun i n le => by rw [comes i n le]; rfl⟩, trivial⟩
  | .error (.stop (.fault x)), overflow => exact ⟨⟨n₁, fun i n le => by rw [comes i n le]; rfl⟩, overflow⟩

/-- A loop over a list, of which each step keeps the property. -/
theorem foldlM {γ : Type} {g : ι → Nat → α → γ → Attempt α} {k : α → γ → Attempt α} (l : List γ)
    (step : ∀ c ∈ l, ∀ a, Q a → Finishes Q (fun i n => g i n a c) (k a c)) :
    ∀ a, Q a → Finishes Q (fun i n => l.foldlM (g i n) a) (l.foldlM k a) := by
  induction l with
  | nil => exact fun a good => .ok good
  | cons c l ih =>
    intro a good
    simp only [List.foldlM_cons]
    exact (step c (by simp) a good).bind (ih fun c' mem => step c' (List.mem_cons_of_mem c mem))

/-- A first round that leaves the rest to the others. -/
theorem succ (h : Finishes Q f r) (round : ∀ i n, f' i (n + 1) = f i n) : Finishes Q f' r := by
  obtain ⟨⟨n₀, comes⟩, ends⟩ := h
  refine ⟨⟨n₀ + 1, fun i n le => ?_⟩, ends⟩
  obtain ⟨m, rfl⟩ : ∃ m, n = m + 1 := ⟨n - 1, by omega⟩
  rw [round, comes i m (by omega)]

/-- It makes no difference which of two ways a round goes. -/
theorem ite {c : ι → Nat → Bool} (yes : Finishes Q f r) (no : Finishes Q f' r) :
    Finishes Q (fun i n => if c i n then f i n else f' i n) r := by
  obtain ⟨⟨n₁, comes⟩, ends⟩ := yes
  obtain ⟨⟨n₂, comes'⟩, _⟩ := no
  refine ⟨⟨max n₁ n₂, fun i n le => ?_⟩, ends⟩
  split
  · exact comes i n (Nat.le_trans (Nat.le_max_left n₁ n₂) le)
  · exact comes' i n (Nat.le_trans (Nat.le_max_right n₁ n₂) le)

end Finishes

end Attempt

/-! ## Reading ends -/

namespace Subst

open Attempt (Finishes)

variable {ι α : Type} {R : α → Prop} {s : Subst} {r : Attempt α}

/-- A walk goes on along falling ranks, and then it ends. -/
theorem Acyclic.walkWithin (h : s.Acyclic) (a : Term) :
    Finishes (· = s.walk a) (fun (_ : ι) n => s.walkWithin n a) (.ok (s.walk a)) := by
  obtain ⟨rank, falls⟩ := id h
  have leaf (a : Term) (not_var : ∀ v, a ≠ .var v) (n : Nat) : s.walkWithin (n + 1) a = .ok (s.walk a) := by
    rw [walk_of_not_var not_var]
    cases a with
    | var v => exact absurd rfl (not_var v)
    | _ => rfl
  have chain (k : Nat) : ∀ v n, rank v < k → k < n → s.walkWithin n (.var v) = .ok (s.walk (.var v)) := by
    induction k with
    | zero => exact fun v n less => absurd less (Nat.not_lt_zero _)
    | succ k ih =>
      intro v n less enough
      obtain ⟨n, rfl⟩ : ∃ m, n = m + 1 := ⟨n - 1, by omega⟩
      rw [Subst.walkWithin]
      cases bound : s.get? v with
      | none => rw [walk_of_unbound (by simpa using bound)]
      | some b =>
        rw [h.walk_of_bound bound]
        by_cases var : ∃ w, b = .var w
        · obtain ⟨w, rfl⟩ := var
          have := falls v w ⟨_, bound, by simp⟩
          exact ih w n (by omega) (by omega)
        · obtain ⟨m, rfl⟩ : ∃ m, n = m + 1 := ⟨n - 1, by omega⟩
          exact leaf b (fun w same => var ⟨w, same⟩) m
  refine ⟨?_, rfl⟩
  by_cases var : ∃ v, a = .var v
  · obtain ⟨v, rfl⟩ := var
    exact ⟨rank v + 2, fun _ n le => chain (rank v + 1) v n (by omega) (by omega)⟩
  · refine ⟨1, fun _ n le => ?_⟩
    obtain ⟨m, rfl⟩ : ∃ m, n = m + 1 := ⟨n - 1, by omega⟩
    exact leaf a (fun v same => var ⟨v, same⟩) m

/-- A computation that walks first. -/
theorem Acyclic.finishes_walk (h : s.Acyclic) {a : Term} {g : ι → Nat → Term → Attempt α}
    (rest : Finishes R (fun i n => g i n (s.walk a)) r) :
    Finishes R (fun i n => s.walkWithin n a >>= g i n) r :=
  Finishes.bind (k := fun _ => r) (h.walkWithin a) fun _ same => same ▸ rest

/-- A walk may go first in what an occurs check looks at. -/
theorem Acyclic.occurs_walk (h : s.Acyclic) (x : Var) (a : Term) : s.occurs x (s.walk a) = s.occurs x a := by
  rw [Bool.eq_iff_iff, occurs_iff, occurs_iff, h.walkDeep_walk]

/-- An occurs check is done in one round with a term that is walked to no pair. -/
theorem Acyclic.occursWithin_leaf (h : s.Acyclic) (x : Var) {a : Term} {stack : List Term}
    (not_pair : ∀ d e, s.walk a ≠ .pair d e)
    (rest : Finishes (fun _ => True) (fun (_ : ι) n => s.occursWithin x n stack) (.ok (stack.any (s.occurs x)))) :
    Finishes (fun _ => True) (fun (_ : ι) n => s.occursWithin x n (a :: stack))
      (.ok ((a :: stack).any (s.occurs x))) := by
  rw [List.any_cons, ← h.occurs_walk]
  refine Finishes.succ (h.finishes_walk ?_) fun _ _ => rfl
  cases walked : s.walk a with
  | var v =>
    have unbound := h.get?_of_walk walked
    by_cases same : v = x
    · have found : s.occurs x (.var v) = true := by
        rw [occurs_iff, walkDeep_eq_of_unbound (by simpa using unbound), same]
        exact List.mem_singleton_self x
      simp only [if_pos same, found, Bool.true_or]
      exact .ok trivial
    · simp only [if_neg same, occurs_var_of_ne unbound (Ne.symm same), Bool.false_or]
      exact rest
  | pair d e => exact absurd walked (not_pair d e)
  | _ => exact rest

/-- An occurs check gets done with the term on top of the stack, and goes on with the others. -/
theorem Acyclic.occursWithin_cons (h : s.Acyclic) (x : Var) (read : Term) : ∀ (a : Term) (stack : List Term),
    s.walkDeep a = read →
    Finishes (fun _ => True) (fun (_ : ι) n => s.occursWithin x n stack) (.ok (stack.any (s.occurs x))) →
    Finishes (fun _ => True) (fun (_ : ι) n => s.occursWithin x n (a :: stack))
      (.ok ((a :: stack).any (s.occurs x))) := by
  induction read with
  | pair d e ih_d ih_e =>
    intro a stack reads rest
    by_cases pair : ∃ b c, s.walk a = .pair b c
    · obtain ⟨b, c, walked⟩ := pair
      rw [← h.walkDeep_walk, walked] at reads
      obtain ⟨reads_b, reads_c⟩ : s.walkDeep b = d ∧ s.walkDeep c = e := Term.pair.inj reads
      have parts : s.occurs x (.pair b c) = (s.occurs x b || s.occurs x c) := rfl
      rw [List.any_cons, ← h.occurs_walk, walked, parts, Bool.or_assoc]
      refine Finishes.succ (h.finishes_walk ?_) fun _ _ => rfl
      simp only [walked]
      exact ih_d b (c :: stack) reads_b (ih_e c stack reads_c rest)
    · exact h.occursWithin_leaf x (fun b c walked => pair ⟨b, c, walked⟩) rest
  | _ =>
    intro a stack reads rest
    refine h.occursWithin_leaf x (fun b c walked => ?_) rest
    rw [← h.walkDeep_walk, walked] at reads
    cases reads

/-- An occurs check ends, whatever is on the stack. -/
theorem Acyclic.occursWithin (h : s.Acyclic) (x : Var) (stack : List Term) :
    Finishes (fun _ => True) (fun (_ : ι) n => s.occursWithin x n stack) (.ok (stack.any (s.occurs x))) := by
  induction stack with
  | nil => exact Finishes.succ (.ok trivial) fun _ _ => rfl
  | cons a stack ih => exact h.occursWithin_cons x _ a stack rfl ih

end Subst

end ConstraintLogic
