import ConstraintLogic.Proofs.Goal.Yields
import ConstraintLogic.Proofs.Propagator.Rules
import ConstraintLogic.Proofs.Solver.Requests

/-!
# Invariants of a run

A run of a solver is made of few kinds of steps: asking for a domain, narrowing one,
subscribing, replacing a propagator and waking others. A property of solvers that each
of these steps keeps is kept by every propagator, by the loop that runs them, and by
labeling.

Results:
* `Narrow.Keeps`, `Narrow.Gives`: a narrowing keeps a property of the solver.
* `Solver.Invariant`: the steps of a run keep it, as long as they are about known variables.
* `Solver.Invariant.propagate`, `Solver.Invariant.fixpoint`: so does a run.
* `Solver.Invariant.leaf`: it holds where a leaf of a labeling is written back.
-/

namespace ConstraintLogic

namespace Narrow

variable {α β : Type} {I : Solver → Prop} {m : Narrow α} {f : α → Narrow β} {Q : α → Prop} {R : β → Prop}

/-- Where the narrowing succeeds, the property still holds. -/
def Keeps (I : Solver → Prop) (m : Narrow α) : Prop := ∀ s, I s → Leaves s m fun _ t => I t

theorem Keeps.pure (a : α) : Keeps I (Pure.pure a) := fun _ holds => Leaves.pure holds

theorem keeps_throw (why : Halt) : Keeps I (throw why : Narrow α) := fun _ _ => leaves_throw

theorem Keeps.bind (h : Keeps I m) (next : ∀ a, Keeps I (f a)) : Keeps I (m >>= f) :=
  fun s holds => (h s holds).bind fun a t => next a t

theorem Keeps.ite {c : Prop} [Decidable c] {m n : Narrow α} (yes : c → Keeps I m) (no : ¬c → Keeps I n) :
    Keeps I (if c then m else n) := by
  split
  · exact yes ‹c›
  · exact no ‹¬c›

/-- Looking at the state changes nothing. -/
theorem keeps_get : Keeps I get := fun _ holds => fun _ _ run => by
  cases run
  exact holds

theorem keeps_modify {g : Solver → Solver} (step : ∀ s, I s → I (g s)) : Keeps I (modify g) :=
  fun s holds => fun _ _ run => by
    cases run
    exact step s holds

theorem keeps_require (holds : Bool) : Keeps I (require holds) :=
  Keeps.ite (fun _ => Keeps.pure ()) fun _ => keeps_throw _

theorem keeps_sameVar (v w : Var) : Keeps I (sameVar v w) := keeps_get.bind fun _ => Keeps.pure _

theorem keeps_forM {g : α → Narrow Unit} : ∀ l : List α, (∀ a ∈ l, Keeps I (g a)) → Keeps I (l.forM g)
  | [], _ => Keeps.pure ()
  | a :: l, each => (each a (by simp)).bind fun _ => keeps_forM l fun x mem => each x (List.mem_cons_of_mem a mem)

/-! ## With a result -/

/-- Where the narrowing succeeds, the property still holds, and so does `Q` of the result. -/
def Gives (I : Solver → Prop) (m : Narrow α) (Q : α → Prop) : Prop := ∀ s, I s → Leaves s m fun a t => I t ∧ Q a

theorem Gives.pure {a : α} (good : Q a) : Gives I (Pure.pure a) Q := fun _ holds => Leaves.pure ⟨holds, good⟩

theorem gives_throw (why : Halt) : Gives I (throw why : Narrow α) Q := fun _ _ => leaves_throw

theorem Gives.bind (h : Gives I m Q) (next : ∀ a, Q a → Gives I (f a) R) : Gives I (m >>= f) R :=
  fun s holds => (h s holds).bind fun a t ⟨kept, good⟩ => next a good t kept

/-- Nothing is asked of the result that is not so of any. -/
theorem Keeps.gives (h : Keeps I m) (good : ∀ a, Q a) : Gives I m Q := fun s holds =>
  (h s holds).mono fun a _ kept => ⟨kept, good a⟩

end Narrow

namespace Solver

open Narrow

/-- Every step that a run is made of keeps the property, as long as it is about variables in
    `P`: asking for a domain, narrowing it, subscribing, giving up subscriptions, numbering or
    replacing a propagator, and changing what waits. While the property holds, what stands for
    variables in `P` and what is named by the propagators is in `P`. -/
structure Invariant (P : Var → Prop) (I : Solver → Prop) : Prop where
  root : ∀ s v w, I s → P v → s.resolve v = .free w → P w
  known : ∀ s id p, I s → s.prop? id = some p → ∀ v ∈ p.val.names, P v
  domain : ∀ s v, P v → I s → I (s.domain v).2
  narrow : ∀ s v w d, P v → I s → s.resolve v = .free w → ((s.domain w).1.intersect d).isEmpty = false →
    I { (s.domain w).2 with domains := (s.domain w).2.domains.insert w ((s.domain w).1.intersect d) }
  subscribe : ∀ s id v, P v → I s → I (s.subscribe id v)
  unsubscribe : ∀ s id, I s → I (s.unsubscribe id)
  intern : ∀ s p, (∀ v ∈ p.val.names, P v) → I s → I (s.intern p).2.2
  replaceWith : ∀ id r, (∀ v ∈ r.names, P v) → Keeps I (Narrow.replaceWith id r)
  agenda : ∀ (s : Solver) (a : Agenda), I s → I { s with agenda := a }

namespace Invariant

variable {P : Var → Prop} {I : Solver → Prop} (inv : Invariant P I)

include inv

/-! ## Steps -/

theorem enqueue (s : Solver) (id : PropId) (holds : I s) : I (s.enqueue id) := by
  unfold Solver.enqueue
  split
  · exact inv.agenda s _ holds
  · exact holds

theorem enqueueAll (ids : List PropId) : ∀ s, I s → I (ids.foldl Solver.enqueue s) := by
  induction ids with
  | nil => exact fun _ holds => holds
  | cons id ids ih => exact fun s holds => ih _ (inv.enqueue s id holds)

theorem reduce {v : Var} (mem : P v) (d : Domain) : Keeps I (Narrow.reduce v d) := by
  intro s holds
  unfold Leaves
  rw [reduce_eq]
  cases found : s.resolve v with
  | value n => exact keeps_require _ s holds
  | other => exact leaves_throw
  | free w =>
    dsimp only
    split
    · exact leaves_throw
    rename_i nonempty
    split
    · exact Leaves.pure (inv.domain s w (inv.root s v w holds mem found) holds)
    · intro _ _ run
      cases run
      exact inv.enqueueAll _ _ (inv.narrow s v w d mem holds found (by simpa using nonempty))

theorem resubscribe (id : PropId) (vs : List Var) (named : ∀ v ∈ vs, P v) : ∀ s, I s → I (s.resubscribe id vs) := by
  induction vs with
  | nil => exact fun _ holds => holds
  | cons v vs ih =>
    intro s holds
    rw [List.forall_mem_cons] at named
    have asked := inv.domain s v named.1 holds
    refine ih named.2 _ ?_
    dsimp only
    split
    · exact asked
    · exact inv.subscribe _ id v named.1 asked

theorem subscribeAll (id : PropId) (vs : List Var) (named : ∀ v ∈ vs, P v) :
    ∀ s, I s → I (vs.foldl (fun s v => s.subscribe id v) s) := by
  induction vs with
  | nil => exact fun _ holds => holds
  | cons v vs ih =>
    rw [List.forall_mem_cons] at named
    exact fun s holds => ih named.2 _ (inv.subscribe s id v named.1 holds)

theorem post (s : Solver) (p : Propagator) (named : ∀ v ∈ p.val.names, P v) (holds : I s) : I (s.post p).2 :=
  inv.enqueue _ _ (inv.subscribeAll _ p.val.vars (fun v mem => named v (p.val.vars_subset_names mem)) _
    (inv.intern s p named holds))

theorem posts (ps : List Propagator) (named : ∀ p ∈ ps, ∀ v ∈ p.val.names, P v) :
    ∀ s, I s → I (ps.foldl (fun solver p => (solver.post p).2) s) := by
  induction ps with
  | nil => exact fun _ holds => holds
  | cons p ps ih =>
    rw [List.forall_mem_cons] at named
    exact fun s holds => ih named.2 _ (inv.post s p named.1 holds)

/-! ## Propagators -/

theorem keeps_domain {v : Var} (mem : P v) : Keeps I (Narrow.domain v) := fun s holds => fun _ _ run => by
  cases run
  exact inv.domain s v mem holds

theorem keeps_resubscribe (id : PropId) (vs : List Var) (named : ∀ v ∈ vs, P v) : Keeps I (Narrow.resubscribe id vs) :=
  keeps_modify (inv.resubscribe id vs named)

/-- That a narrowing keeps the property has a rule for every step. -/
theorem rules (id : PropId) : Rules id P False False (fun _ _ => True) (Gives I) where
  sized := False.elim
  pure := Gives.pure
  throw _ := gives_throw _
  bind := Gives.bind
  domain mem := (inv.keeps_domain mem).gives fun _ => ⟨False.elim, False.elim⟩
  sameVar v w := (keeps_sameVar v w).gives fun _ => trivial
  aliases vs := Keeps.gives (keeps_get.bind fun _ => Keeps.pure _) fun _ => trivial
  resolve mem s holds _ _ run := by
    cases run
    exact ⟨holds, fun w found => ⟨inv.root s _ w holds mem found, False.elim⟩, fun _ _ => ⟨False.elim, False.elim⟩⟩
  reduce mem _ := (inv.reduce mem _).gives fun _ => trivial
  resubscribe named := (inv.keeps_resubscribe id _ named).gives fun _ => trivial
  replaceWith named _ _ := (inv.replaceWith id _ named).gives fun _ => trivial

/-- A run of any relation keeps the property. -/
theorem propagate (id : PropId) (r : Relation) (named : ∀ v ∈ r.names, P v) : Keeps I (Narrow.propagate id r) :=
  fun s holds => ((inv.rules id).propagate named False.elim False.elim s holds).mono fun _ _ => And.left

/-! ## The loop -/

theorem runNumbered (id : PropId) : Keeps I (Narrow.runNumbered id) := by
  intro s holds
  refine Leaves.step (a := s) (t := s) rfl ?_
  cases found : s.prop? id with
  | none => exact Leaves.pure holds
  | some p =>
    have named := inv.known s id p holds found
    exact ((keeps_modify fun s => inv.unsubscribe s id).bind fun _ => inv.propagate id p.val named) s holds

theorem nextWaiting : Keeps I Narrow.nextWaiting := fun s holds => fun next t run => by
  change EStateM.Result.ok _ _ = _ at run
  cases run
  split
  · exact inv.agenda s _ holds
  · exact holds

theorem runWaiting : ∀ n, Keeps I (Narrow.runWaiting n)
  | 0 => keeps_throw _
  | n + 1 => inv.nextWaiting.bind fun next => by
    split
    · exact Keeps.pure ()
    · exact (inv.runNumbered _).bind fun _ => runWaiting n

/-- A run to a fixpoint keeps the property. -/
theorem fixpoint : Keeps I Narrow.fixpoint := keeps_get.bind fun _ => inv.runWaiting _

theorem reduce_fixpoint {v : Var} (mem : P v) (d : Domain) : Keeps I (do Narrow.reduce v d; Narrow.fixpoint) :=
  (inv.reduce mem d).bind fun _ => inv.fixpoint

/-! ## Labeling -/

theorem wakeAll (s : Solver) (holds : I s) : I s.wakeAll := by
  have all (is : List Nat) : ∀ s, I s → I (is.foldl (fun s i => s.enqueue ⟨i⟩) s) := by
    induction is with
    | nil => exact fun _ holds => holds
    | cons i is ih => exact fun s holds => ih _ (inv.enqueue s ⟨i⟩ holds)
  exact all _ s holds

theorem label {vs : List Var} (named : ∀ v ∈ vs, P v) :
    Keeps I (do Solver.requireNonempty vs; modify Solver.wakeAll; Narrow.fixpoint) := by
  refine (keeps_forM vs fun v mem => (inv.keeps_domain (named v mem)).bind fun d => keeps_require _).bind fun _ => ?_
  exact (keeps_modify inv.wakeAll).bind fun _ => inv.fixpoint

theorem chooseOver (state : Option Urgency × Solver) {v : Var} (mem : P v)
    (holds : I state.2 ∧ ∀ u, state.1 = some u → P u.var) :
    I (Solver.chooseOver state v).2 ∧ ∀ u, (Solver.chooseOver state v).1 = some u → P u.var := by
  obtain ⟨best, s⟩ := state
  obtain ⟨holds, named⟩ := holds
  unfold Solver.chooseOver
  dsimp only at named ⊢
  split
  · rename_i r found
    have pr := inv.root s v r holds mem found
    have asked := inv.domain s r pr holds
    split
    · split
      · exact ⟨asked, named⟩
      · split
        · refine ⟨asked, fun u chosen => ?_⟩
          cases chosen
          exact pr
        · rename_i b
          refine ⟨asked, fun u chosen => ?_⟩
          dsimp only at chosen
          split at chosen
          · cases chosen
            exact pr
          · exact named u chosen
    · exact ⟨asked, named⟩
  · exact ⟨holds, named⟩

theorem choose (s : Solver) {vs : List Var} (named : ∀ v ∈ vs, P v) (holds : I s) :
    I (s.choose vs).2 ∧ ∀ w, (s.choose vs).1 = some w → P w := by
  have all (vs : List Var) (named : ∀ v ∈ vs, P v) : ∀ state : Option Urgency × Solver,
      (I state.2 ∧ ∀ u, state.1 = some u → P u.var) →
      I (vs.foldl Solver.chooseOver state).2 ∧ ∀ u, (vs.foldl Solver.chooseOver state).1 = some u → P u.var := by
    induction vs with
    | nil => exact fun _ holds => holds
    | cons v vs ih =>
      rw [List.forall_mem_cons] at named
      exact fun state holds => ih named.2 _ (inv.chooseOver state named.1 holds)
  obtain ⟨kept, chosen⟩ := all vs named (none, s) ⟨holds, by simp⟩
  refine ⟨kept, fun w found => ?_⟩
  obtain ⟨u, best, rfl⟩ := Option.map_eq_some_iff.mp found
  exact chosen u best

/-- The property holds where a leaf of the tree of splits is written back. -/
theorem leaf {vs : List Var} (named : ∀ v ∈ vs, P v) {s : Solver} {t : Subst} (h : s.Leaf vs t) (holds : I s) :
    ∃ u : Solver, I u ∧ u.toSubst? = .ok t := by
  induction h with
  | @here s s' t chosen written =>
    have kept := (inv.choose s named holds).1
    rw [chosen] at kept
    exact ⟨s', kept, written⟩
  | @deeper s s' u t w left right half chosen halved either narrowed leaf ih =>
    have kept := inv.choose s named holds
    rw [chosen] at kept
    have pw := kept.2 w rfl
    exact ih (inv.reduce_fixpoint pw half _ (inv.domain s' w pw kept.1) _ _ narrowed)

end Invariant

end Solver

end ConstraintLogic
