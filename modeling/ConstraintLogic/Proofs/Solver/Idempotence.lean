import ConstraintLogic.Proofs.Labeling.Tree
import ConstraintLogic.Proofs.Search.Stops
import ConstraintLogic.Proofs.Subst.Exactness

/-!
# Running to a fixpoint again

A propagator gives up its subscriptions before it runs, so what it narrows itself does
not wake it. Where it looks at a domain that it narrows later in the same run, it may
narrow more when all propagators are woken and run once more, and it may even find a
contradiction. No model is lost by that, and what has a value keeps it.

Results:
* `Narrow.settle`: requests and a first fixpoint.
* `Solver.Stays`: what a further run leaves as it is.
* `Subst.Produced.stays`: running all propagators again keeps to that.
* `Subst.exists_again_differs`: it can narrow a domain and find a contradiction.
-/

namespace ConstraintLogic

/-- Makes the requests and runs to a fixpoint. -/
def Narrow.settle (requests : List Request) : Narrow Unit := do
  requests.forM Request.run
  fixpoint

namespace Solver

variable {K : Scope} {s t u : Solver}

/-- The second solver has no larger domains, and all values in them that the readings of
    `M` take. A variable with one value keeps it, and a domain of which the readings take
    every value stays as it is. -/
structure Retains (M : (Var → Term) → Prop) (s t : Solver) : Prop where
  within : ∀ v n, n ∈ (t.domain v).1 → n ∈ (s.domain v).1
  taken : ∀ θ, M θ → ∀ v, (θ v).IsValue → (θ v).number ∈ (t.domain v).1
  solved : ∀ v, (s.domain v).1.hasSolution = true → (t.domain v).1 = (s.domain v).1
  full : ∀ v, (∀ n ∈ (s.domain v).1, ∃ θ, M θ ∧ (θ v).IsValue ∧ (θ v).number = n) →
    (t.domain v).1 = (s.domain v).1

/-- The run from `s` loses no reading of which `M` holds, ends in a conflict only where
    there is none, and is stopped by nothing but an overflow. -/
def Stays (M : (Var → Term) → Prop) (s : Solver) : EStateM.Result Halt Solver Unit → Prop
  | .ok _ t => s.Retains M t
  | .error .conflict _ => ∀ θ, ¬M θ
  | .error (.stop (.fault f)) _ => f.IsOverflow
  | .error (.stop .exhausted) _ => False

/-- A domain that shrinks stays as it is if it has one value. -/
theorem Shrinks.peek_of_solution (shrinks : s.Shrinks t) (before : s.Steady K) (after : t.Steady K) {v : Var}
    {n : Int} (solved : (s.peek v).solution = some n) : t.peek v = s.peek v := by
  have only := (before.canonical_peek v).solution_eq_some_iff.mp solved
  cases found : s.resolve v with
  | free w =>
    have found' : t.resolve v = .free w := by rw [shrinks.resolve, found]
    obtain ⟨canonical, nonempty⟩ := after.canonical_current w
    obtain ⟨m, mem⟩ := canonical.exists_mem nonempty
    rw [← peek_of_free found'] at mem
    refine (after.canonical_peek v).ext (before.canonical_peek v) fun k => ?_
    refine ⟨shrinks.mem_peek v k, fun mem' => ?_⟩
    rw [(only k).mp mem', ← (only m).mp (shrinks.mem_peek v m mem)]
    exact mem
  | value m => rw [peek, peek, shrinks.resolve, found]
  | other => rw [peek, peek, shrinks.resolve, found]

/-- A fixpoint of all propagators describes the same readings by no larger domains. -/
theorem Sound.fixpoint_wakeAll (h : s.Steady K) :
    Narrow.Ensures (s.Admits K) s.wakeAll Narrow.fixpoint fun _ t =>
      t.Steady K ∧ (∀ θ, t.Admits K θ ↔ s.Admits K θ) ∧ s.Shrinks t := by
  have woken := h.wakeAll
  refine (woken.sound.fixpoint.of_models fun θ => (woken.admits θ).mpr).mono ?_
  rintro _ t ⟨steady, admits, shrinks, _⟩
  exact ⟨steady, fun θ => (admits θ).trans (woken.admits θ), woken.grows.shrinks.trans shrinks⟩

/-- A run that describes the same readings by no larger domains loses none of them. -/
theorem Sound.stays_of_ensures (h : s.Steady K) {M : (Var → Term) → Prop} {m : Narrow Unit}
    (models : ∀ θ, M θ → s.Admits K θ) (run : Narrow.Ensures (s.Admits K) u m fun _ t =>
      t.Steady K ∧ (∀ θ, t.Admits K θ ↔ s.Admits K θ) ∧ s.Shrinks t) : s.Stays M (m u) := by
  unfold Narrow.Ensures at run
  generalize m u = r at run ⊢
  match r, run with
  | .ok _ t, ⟨steady, admits, shrinks⟩ =>
    have taken (θ : Var → Term) (model : M θ) (v : Var) (value : (θ v).IsValue) : (θ v).number ∈ t.peek v :=
      ((admits θ).mpr (models θ model)).mem_peek steady.base.acyclic value
    show s.Retains M t
    constructor <;> simp only [(h.domain _).1, (steady.domain _).1]
    · exact shrinks.mem_peek
    · exact taken
    · intro v solved
      obtain ⟨n, solution⟩ := Option.isSome_iff_exists.mp solved
      exact shrinks.peek_of_solution h steady solution
    · intro v all
      refine (steady.canonical_peek v).ext (h.canonical_peek v) fun n => ⟨shrinks.mem_peek v n, fun mem => ?_⟩
      obtain ⟨θ, model, value, rfl⟩ := all n mem
      exact taken θ model v value
  | .error .conflict _, empty => exact fun θ model => empty θ (models θ model)
  | .error (.stop (.fault f)) _, overflow => exact overflow
  | .error (.stop .exhausted) _, never => exact never

end Solver

namespace Subst

variable {s : Subst} {requests : List Request}

/-- The scope in which the readings without variables count that give integers to what
    the substitution or a request mentions. -/
def requestScope (s : Subst) (requests : List Request) : Scope :=
  .ground (fun v => s.Mentions v ∨ ∃ r ∈ requests, r.Mentions v) fun p => .post p ∈ requests

theorem Produced.orderly_requests (h : s.Produced) (takes : s.Takes requests) :
    s.Orderly (s.requestScope requests) := by
  refine h.orderly.rescope takes.proper ?_ takes.stamped takes.coherent
  rintro p (posted | ⟨w, stored⟩) v mem θ reading _
  · exact reading.2 v (.inr ⟨.post p, posted, mem⟩)
  · exact reading.2 v (.inl (.inr ⟨w, p, stored, mem⟩))

theorem Takes.fair (takes : s.Takes requests) : ∀ r ∈ requests, r.Fair (s.requestScope requests) s := by
  intro r mem
  cases r with
  | post p => exact mem
  | reduce v d =>
    exact ⟨takes.canonical v d mem, fun full θ reading _ => reading.2 v (.inr ⟨.reduce v d, mem, rfl, full⟩)⟩

/-- A solver on a substitution that goals produce, after requests and a fixpoint, describes
    just the models that satisfy the requests. -/
theorem Produced.ensures_settle (h : s.Produced) (takes : s.Takes requests) :
    Narrow.Ensures (fun θ => s.Models θ ∧ ∀ r ∈ requests, r.HoldsOf θ) (Solver.new s) (Narrow.settle requests)
      fun _ t => t.Steady (s.requestScope requests) ∧ (Solver.new s).Shrinks t ∧
        ∀ θ, t.Admits (s.requestScope requests) θ ↔ s.Models θ ∧ ∀ r ∈ requests, r.HoldsOf θ := by
  have orderly := h.orderly_requests takes
  have counted (θ : Var → Term) : (Solver.new s).Admits (s.requestScope requests) θ ∧ (∀ r ∈ requests, r.HoldsOf θ) ↔
      s.Models θ ∧ ∀ r ∈ requests, r.HoldsOf θ := by
    rw [orderly.admits_new]
    constructor
    · exact fun ⟨counts, holds⟩ => ⟨(models_and_ints_iff.mpr counts).1, holds⟩
    · exact fun ⟨model, holds⟩ => ⟨models_and_ints_iff.mp
        ⟨model, fun v mentioned => model.isValue_of_requests holds mentioned⟩, holds⟩
  refine Narrow.Ensures.bind (f := fun _ => Narrow.fixpoint) ((orderly.steady_new.requests requests _ takes.fair).of_models
    fun θ => (counted θ).mpr) ?_
  rintro _ u ⟨steady, _, shrinks, admits⟩
  refine (steady.fixpoint.of_models fun θ model => (admits θ).mpr ((counted θ).mpr model)).mono ?_
  rintro _ t ⟨steady', admits', shrinks', _⟩
  exact ⟨steady', shrinks.trans shrinks', fun θ => (admits' θ).trans ((admits θ).trans (counted θ))⟩

/-- Where a solver on a substitution that goals produce has taken requests and reached a
    fixpoint, running all propagators again loses no model that satisfies the requests. -/
theorem Produced.stays (h : s.Produced) (takes : s.Takes requests) {t : Solver}
    (settled : Narrow.settle requests (Solver.new s) = .ok () t) :
    t.Stays (fun θ => s.Models θ ∧ ∀ r ∈ requests, r.HoldsOf θ) (Narrow.fixpoint t.wakeAll) := by
  have run := h.ensures_settle takes
  unfold Narrow.Ensures at run
  rw [settled] at run
  obtain ⟨steady, _, admits⟩ := run
  exact steady.stays_of_ensures (fun θ => (admits θ).mpr) steady.fixpoint_wakeAll

/-! ## Running again is not idle -/

/-- Variables `_0` to `_(n-1)` and one identity that is given out. -/
def blank (n : Nat) : Subst := { (empty.freshMany n).2 with supply := 1 }

theorem produced_blank (n : Nat) : (blank n).Produced :=
  ⟨fun _ _ => .fail, .reserve 1 fun _ => .succeed, n, 0, .unit (blank n), fun _ _ _ => trivial,
    fun _ => ⟨fun _ => False, fun _ => False.elim, fun _ _ => False.elim, trivial⟩, rfl, .here⟩

/-- Domains for some variables, and then one relation. -/
def relate (ds : List (Var × Domain)) (r : Relation) : List Request :=
  (ds.map fun d => .reduce d.1 d.2) ++ [.post ⟨0, r⟩]

theorem takes_relate {n : Nat} {ds : List (Var × Domain)} {r : Relation} (canonical : ∀ d ∈ ds, d.2.Canonical)
    (proper : r.Proper) : (blank n).Takes (relate ds r) := by
  have posted (p : Propagator) (mem : .post p ∈ relate ds r) : p = ⟨0, r⟩ := by simpa [relate] using mem
  refine ⟨fun v d mem => ?_, fun p mem => posted p mem ▸ proper, fun p mem => ?_, fun p q mem mem' _ => ?_⟩
  · obtain ⟨mem, _⟩ : (v, d) ∈ ds ∧ True := by simpa [relate] using mem
    exact canonical (v, d) mem
  · rw [posted p mem]
    exact Nat.zero_lt_one
  · rcases mem' with mem' | ⟨v, stored⟩
    · rw [posted p mem, posted q mem']
    · have unstored : (blank n).storedWatchers v = [] := rfl
      rw [unstored] at stored
      cases stored

/-- The solver that a run leaves. -/
def leftBy : EStateM.Result Halt Solver Unit → Solver
  | .ok _ t => t
  | .error _ t => t

/-- The run came to its end. -/
def succeeds : EStateM.Result Halt Solver Unit → Bool
  | .ok _ _ => true
  | .error _ _ => false

/-- The run ended in a conflict. -/
def conflicts : EStateM.Result Halt Solver Unit → Bool
  | .error .conflict _ => true
  | _ => false

theorem eq_ok_of_succeeds {r : EStateM.Result Halt Solver Unit} (h : succeeds r = true) :
    r = .ok () (leftBy r) := by
  cases r with
  | ok a t => rfl
  | error why t => cases h

theorem eq_error_of_conflicts {r : EStateM.Result Halt Solver Unit} (h : conflicts r = true) :
    r = .error .conflict (leftBy r) := by
  match r, h with
  | .error .conflict _, _ => rfl

/-- A solver at a fixpoint of `_0 - 5 = _1`, where `_1` has the greatest integers. -/
theorem exists_settled_difference : ∃ t, Narrow.settle
    (relate [(⟨1⟩, .interval (maxValue - 10) maxValue)] (.plusConst ⟨0⟩ (-5) ⟨1⟩)) (Solver.new (blank 2)) = .ok () t ∧
      (t.domain ⟨1⟩).1 = .interval (maxValue - 10) maxValue ∧
      ∃ u, Narrow.fixpoint t.wakeAll = .ok () u ∧ (u.domain ⟨1⟩).1 = .interval (maxValue - 10) (maxValue - 5) := by
  let t := leftBy (Narrow.settle
    (relate [(⟨1⟩, .interval (maxValue - 10) maxValue)] (.plusConst ⟨0⟩ (-5) ⟨1⟩)) (Solver.new (blank 2)))
  exact ⟨t, eq_ok_of_succeeds (by decide +kernel), by decide +kernel, leftBy (Narrow.fixpoint t.wakeAll),
    eq_ok_of_succeeds (by decide +kernel), by decide +kernel⟩

theorem takes_difference : (blank 2).Takes
    (relate [(⟨1⟩, .interval (maxValue - 10) maxValue)] (.plusConst ⟨0⟩ (-5) ⟨1⟩)) :=
  takes_relate (by simp [Domain.Canonical, minValue, maxValue])
    (by simp [Relation.Proper, isValue, minValue, maxValue])

/-- The propagators of `_0 - 5 = _1` are run again. -/
theorem stays_difference : ∃ requests t, (blank 2).Produced ∧ (blank 2).Takes requests ∧
    Narrow.settle requests (Solver.new (blank 2)) = .ok () t ∧
    t.Stays (fun θ => (blank 2).Models θ ∧ ∀ r ∈ requests, r.HoldsOf θ) (Narrow.fixpoint t.wakeAll) := by
  obtain ⟨t, settled, _⟩ := exists_settled_difference
  exact ⟨_, t, produced_blank 2, takes_difference, settled, (produced_blank 2).stays takes_difference settled⟩

/-- The even integers from 0 to 100. -/
def evens : Domain := .values ((List.range 51).map fun k : Nat => 2 * (k : Int))

theorem canonical_evens : evens.Canonical := by
  refine Domain.canonical_values fun n mem => ?_
  obtain ⟨k, less, rfl⟩ := List.mem_map.mp mem
  rw [List.mem_range] at less
  rw [isValue_iff, minValue, maxValue]
  omega

/-- The sum of two even integers is 3 or 9: the ends of the domains are narrowed until
    `_0` and `_1` have few values, but only when the relation is run again are their sums
    tried out, and then there is none. -/
theorem exists_settled_sum : ∃ t,
    Narrow.settle (relate [(⟨0⟩, evens), (⟨1⟩, evens), (⟨2⟩, .values [3, 9])] (.sum ⟨0⟩ ⟨1⟩ ⟨2⟩)) (Solver.new (blank 3)) =
      .ok () t ∧ ∃ u, Narrow.fixpoint t.wakeAll = .error .conflict u := by
  let t := leftBy (Narrow.settle
    (relate [(⟨0⟩, evens), (⟨1⟩, evens), (⟨2⟩, .values [3, 9])] (.sum ⟨0⟩ ⟨1⟩ ⟨2⟩)) (Solver.new (blank 3)))
  exact ⟨t, eq_ok_of_succeeds (by decide +kernel), leftBy (Narrow.fixpoint t.wakeAll),
    eq_error_of_conflicts (by decide +kernel)⟩

/-- When all propagators are run again a domain can shrink: `_0 - 5 = _1` narrows `_0` to
    integers of 64 bits, but only then are the greatest values of `_1` out of reach. A
    contradiction can be found too, since a sum becomes a table of small domains when it
    starts with them, not when it ends with them. -/
theorem exists_again_differs :
    (∃ s requests t u v, s.Produced ∧ s.Takes requests ∧ Narrow.settle requests (Solver.new s) = .ok () t ∧
      Narrow.fixpoint t.wakeAll = .ok () u ∧ (u.domain v).1 ≠ (t.domain v).1) ∧
    ∃ s requests t u, s.Produced ∧ s.Takes requests ∧ Narrow.settle requests (Solver.new s) = .ok () t ∧
      Narrow.fixpoint t.wakeAll = .error .conflict u := by
  constructor
  · obtain ⟨t, settled, before, u, again, after⟩ := exists_settled_difference
    refine ⟨blank 2, _, t, u, ⟨1⟩, produced_blank 2, takes_difference, settled, again, ?_⟩
    rw [before, after]
    decide
  · obtain ⟨t, settled, u, again⟩ := exists_settled_sum
    refine ⟨blank 3, _, t, u, produced_blank 3, takes_relate ?_ ?_, settled, again⟩
    · simp only [List.forall_mem_cons]
      exact ⟨canonical_evens, canonical_evens, Domain.canonical_values (by decide), by simp⟩
    · trivial

end Subst

end ConstraintLogic
