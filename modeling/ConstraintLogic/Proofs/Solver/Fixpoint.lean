import ConstraintLogic.Proofs.Propagator.AllDifferent
import ConstraintLogic.Proofs.Propagator.Sum

/-!
# Running to a fixpoint

A propagator that comes off the agenda gives up its subscriptions and is run. What
it wakes is paid for by the domains that shrink, so that the potential falls with
every run, and the budget of a fixpoint is above the potential at its start.

Results:
* `Solver.Running.propagate`: every relation can be run.
* `Solver.Rested.running`: a propagator off the agenda can be started.
* `Solver.Rested.runWaiting`: the loop ends within its potential.
* `Solver.Sound.fixpoint`: a fixpoint is reached, and describes the same readings.
-/

namespace ConstraintLogic.Solver

variable {K : Scope} {C : Contract} {id : PropId} {r : Relation} {s t : Solver}

/-- No propagator is run and no variable is still to be loaded. -/
abbrev Steady (K : Scope) (s : Solver) : Prop := s.Sound K (fun _ => False) fun _ => False

/-- Every relation can be run. -/
theorem Running.propagate (h : s.Running C id r) :
    Narrow.Ensures C.models s (Narrow.propagate id r) fun _ t => t.Rested C := by
  cases r with
  | plusConst x c z => exact h.runPlusConst
  | sumConst x y c => exact h.runSumConst
  | sum x y z => exact h.runSum
  | scale c x z => exact h.runScale
  | allDifferent vs cs => exact h.runAllDifferent
  | table vs rows origin => exact h.runTable

/-! ## Giving up subscriptions -/

/-- One variable of a propagator that gives up its subscriptions. -/
def dropSubscriber (id : PropId) (s : Solver) (v : Var) : Solver :=
  match s.resolve v with
  | .free w =>
    match s.subscribers[w]? with
    | some subs => { s with subscribers := s.subscribers.insert w (subs.filter (· ≠ id)) }
    | none => s
  | _ => s

theorem unsubscribe_of_found {p : Propagator} (found : s.prop? id = some p) :
    s.unsubscribe id = p.val.vars.foldl (dropSubscriber id) s := by
  unfold unsubscribe
  rw [found]
  rfl

/-- The variable loses the subscriber, and the others keep what they have. -/
theorem dropSubscriber_spec (id : PropId) (s : Solver) (v : Var) :
    ∃ m, dropSubscriber id s v = { s with subscribers := m } ∧ ∀ w,
      (dropSubscriber id s v).subscribersOf w =
        if s.resolve v = .free w then (s.subscribersOf w).filter (· ≠ id) else s.subscribersOf w := by
  unfold dropSubscriber
  split
  · rename_i u free
    rw [free]
    split
    · rename_i subs at_u
      refine ⟨_, rfl, fun w => ?_⟩
      simp only [subscribersOf, Std.ExtTreeMap.getElem?_insert, Std.compare_eq_iff_eq,
        Resolved.free.injEq]
      split
      · rename_i same
        rw [← same, at_u]
        rfl
      · rfl
    · rename_i at_u
      refine ⟨s.subscribers, rfl, fun w => ?_⟩
      simp only [Resolved.free.injEq]
      split
      · rename_i same
        simp [subscribersOf, ← same, at_u]
      · rfl
  · rename_i not_free
    refine ⟨s.subscribers, rfl, fun w => ?_⟩
    rw [if_neg (not_free w)]

/-- Only `id` gives up subscriptions, those to the variables of the list. -/
theorem dropAll_spec (id : PropId) (vs : List Var) : ∀ s : Solver,
    ∃ m, vs.foldl (dropSubscriber id) s = { s with subscribers := m } ∧ ∀ w,
      ((vs.foldl (dropSubscriber id) s).subscribersOf w).Sublist (s.subscribersOf w) ∧
      (∀ j ∈ s.subscribersOf w, j ≠ id → j ∈ (vs.foldl (dropSubscriber id) s).subscribersOf w) ∧
      ∀ v ∈ vs, s.resolve v = .free w → id ∉ (vs.foldl (dropSubscriber id) s).subscribersOf w := by
  induction vs with
  | nil =>
    intro s
    exact ⟨s.subscribers, rfl, fun w => ⟨List.Sublist.refl _, fun _ mem _ => mem, by simp⟩⟩
  | cons v vs ih =>
    intro s
    obtain ⟨m, eq, dropped⟩ := dropSubscriber_spec id s v
    obtain ⟨m', eq', rest⟩ := ih (dropSubscriber id s v)
    have resolve : (dropSubscriber id s v).resolve = s.resolve := by rw [eq]; rfl
    rw [List.foldl_cons]
    refine ⟨m', by rw [eq', eq], fun w => ?_⟩
    obtain ⟨sub, kept, gone⟩ := rest w
    rw [dropped w] at sub kept
    refine ⟨?_, fun j mem differ => ?_, fun u mem free => ?_⟩
    · split at sub
      · exact sub.trans List.filter_sublist
      · exact sub
    · refine kept j ?_ differ
      split
      · exact List.mem_filter.mpr ⟨mem, by simpa using differ⟩
      · exact mem
    · rcases List.mem_cons.mp mem with rfl | mem
      · rw [if_pos free] at sub
        intro still
        simpa using (List.mem_filter.mp (sub.subset still)).2
      · exact gone u mem (by rw [resolve, free])

/-- A propagator that is not judged for its liveness may give up its subscriptions. -/
theorem Sound.unsubscribe {P : Var → Prop} (h : s.Sound K (fun j => j = id) P) {p : Propagator}
    (found : s.prop? id = some p) :
    ∃ m, s.unsubscribe id = { s with subscribers := m } ∧
      (s.unsubscribe id).Sound K (fun j => j = id) P ∧
      ∀ w, id ∉ (s.unsubscribe id).subscribersOf w := by
  rw [unsubscribe_of_found found]
  obtain ⟨m, eq, dropped⟩ := dropAll_spec id p.val.vars s
  refine ⟨m, eq, ?_, fun w mem => ?_⟩
  · have distinct (w : Var) := (dropped w).1.nodup (h.distinct w)
    have subscribed (w : Var) (j : PropId) (mem : j ∈ _) :=
      h.subscribed w j ((dropped w).1.subset mem)
    have live (j : PropId) (q : Propagator) (at_j : s.prop? j = some q) (differ : j ≠ id) :
        (p.val.vars.foldl (dropSubscriber id) s).Live j q.val := by
      rcases h.live j q at_j differ with waits | ⟨w, open_, mem⟩ | entails
      · rw [eq]
        exact .inl waits
      · refine .inr (.inl ⟨w, ?_, (dropped w).2.1 j mem differ⟩)
        rw [eq]
        exact open_
      · rw [eq]
        exact .inr (.inr fun σ fits => entails σ (fits.of_peek rfl fun _ _ mem => mem))
    rw [eq] at distinct subscribed live ⊢
    exact ⟨h.base, h.loaded, h.closed, subscribed, distinct, h.interned, h.agenda, live⟩
  · obtain ⟨q, at_id, v, mem_v, free⟩ := h.subscribed w id ((dropped w).1.subset mem)
    rw [found] at at_id
    cases at_id
    exact (dropped w).2.2 v mem_v free mem

/-! ## Taking a propagator off the agenda -/

/-- What comes off the agenda is not judged for its liveness. -/
theorem Sound.pop {P : Var → Prop} (h : s.Sound K (fun _ => False) P) {a : Agenda}
    (popped : s.agenda.pop? = some (id, a)) :
    ({ s with agenda := a } : Solver).Sound K (fun j => j = id) P :=
  { h with
    agenda := h.agenda.pop popped
    live := fun j p found differ => by
      rcases h.live j p found fun exempt => exempt with waits | subscribed | entails
      · exact .inl ((Agenda.waits_pop popped).mpr ⟨differ, waits⟩)
      · exact .inr (.inl subscribed)
      · exact .inr (.inr fun σ fits => entails σ (fits.of_peek rfl fun _ _ mem => mem)) }

/-- A run is paid for by its place on the agenda. -/
theorem potential_pop {a : Agenda} (popped : s.agenda.pop? = some (id, a)) (L : List Var) :
    ({ s with agenda := a } : Solver).potential L + 1 = s.potential L := by
  have length := Agenda.length_of_pop popped
  show a.length + _ + 1 = s.agenda.length + _
  rw [← length]
  exact Nat.add_right_comm ..

/-- A number that no propagator has may leave the agenda. -/
theorem Rested.idle (h : s.Rested C) {a : Agenda} (popped : s.agenda.pop? = some (id, a))
    (absent : s.prop? id = none) :
    ({ s with agenda := a } : Solver).Rested { C with budget := C.budget - 1 } := by
  have exempt := (h.sound.pop popped).mono (F := fun j => j = id ∨ False) (fun _ => .inl)
    fun _ later => later
  refine ⟨exempt.settle fun p found => ?_, fun θ => ?_, h.covered, ?_, ?_⟩
  · rw [show ({ s with agenda := a } : Solver).prop? id = s.prop? id from rfl, absent] at found
    cases found
  · exact (admits_congr (s := s) (t := { s with agenda := a }) rfl rfl rfl).trans (h.admits θ)
  · have := potential_pop popped C.vars
    have := h.cost
    show ({ s with agenda := a } : Solver).potential C.vars ≤ C.budget - 1
    omega
  · exact ⟨h.shrinks.bindings, h.shrinks.mem_peek, h.shrinks.loaded⟩

/-- A propagator that comes off the agenda can be run. -/
theorem Rested.running (h : s.Rested C) {a : Agenda} (popped : s.agenda.pop? = some (id, a))
    {p : Propagator} (found : s.prop? id = some p) :
    (({ s with agenda := a } : Solver).unsubscribe id).Running
      { C with budget := C.budget - 1 } id p.val := by
  have found' : ({ s with agenda := a } : Solver).prop? id = some p := found
  obtain ⟨m, eq, sound, silent⟩ := (h.sound.pop popped).unsubscribe found'
  rw [eq] at sound silent ⊢
  refine ⟨sound, fun θ => ?_, ⟨p.stamp, found⟩, silent, h.covered, ?_, ?_⟩
  · refine Iff.trans ?_ (h.admits θ)
    exact admits_congr (s := s) (t := { s with agenda := a, subscribers := m }) rfl rfl rfl
  · have := potential_pop popped C.vars
    have := h.cost
    show ({ s with agenda := a } : Solver).potential C.vars ≤ C.budget - 1
    omega
  · exact ⟨h.shrinks.bindings, h.shrinks.mem_peek, h.shrinks.loaded⟩

/-- Of the budget of a contract less may be left. -/
theorem Rested.mono {n : Nat} (h : s.Rested { C with budget := n }) (le : n ≤ C.budget) :
    s.Rested C :=
  ⟨h.sound, h.admits, h.covered, Nat.le_trans h.cost le, h.shrinks⟩

/-! ## The loop -/

theorem modifyGet_apply {α : Type} (f : Solver → α × Solver) (s : Solver) :
    (modifyGet f : Narrow α) s = .ok (f s).1 (f s).2 := rfl

/-- The loop ends within the budget, and then nothing waits. -/
theorem Rested.runWaiting (n : Nat) : ∀ (s : Solver) (C : Contract), s.Rested C → C.budget < n →
    Narrow.Ensures C.models s (Narrow.runWaiting n) fun _ t =>
      t.Rested C ∧ ∀ id, ¬t.agenda.Waits id := by
  induction n with
  | zero => exact fun s C _ less => absurd less (Nat.not_lt_zero _)
  | succ n ih =>
    intro s C h less
    unfold Narrow.runWaiting
    cases popped : s.agenda.pop? with
    | none =>
      have next : Narrow.nextWaiting s = .ok none s := by
        rw [Narrow.nextWaiting, modifyGet_apply, popped]
      refine Narrow.Ensures.step next ?_
      exact Narrow.Ensures.pure ⟨h, h.sound.agenda.not_waits_of_pop popped⟩
    | some entry =>
      obtain ⟨id, a⟩ := entry
      have next : Narrow.nextWaiting s = .ok (some id) { s with agenda := a } := by
        rw [Narrow.nextWaiting, modifyGet_apply, popped]
      refine Narrow.Ensures.step next ?_
      -- What waits has been counted, so the budget is not used up.
      have positive : 0 < C.budget := by
        have := potential_pop popped C.vars
        have := h.cost
        omega
      have again (t : Solver) (rested : t.Rested { C with budget := C.budget - 1 }) :
          Narrow.Ensures C.models t (Narrow.runWaiting n) fun _ u =>
            u.Rested C ∧ ∀ id, ¬u.agenda.Waits id := by
        refine (ih t _ rested (show C.budget - 1 < n by omega)).mono ?_
        rintro _ u ⟨rested', quiet⟩
        exact ⟨rested'.mono (Nat.sub_le _ _), quiet⟩
      refine Narrow.Ensures.bind (Q := fun _ t => t.Rested { C with budget := C.budget - 1 }) ?_
        fun _ t => again t
      unfold Narrow.runNumbered
      refine Narrow.Ensures.step (a := { s with agenda := a }) (t := { s with agenda := a }) rfl ?_
      cases found : s.prop? id with
      | none =>
        have found' : ({ s with agenda := a } : Solver).prop? id = none := found
        rw [found']
        exact Narrow.Ensures.pure (h.idle popped found)
      | some p =>
        have found' : ({ s with agenda := a } : Solver).prop? id = some p := found
        rw [found']
        refine Narrow.Ensures.step (a := ()) (t := ({ s with agenda := a } : Solver).unsubscribe id) rfl ?_
        exact (h.running popped found').propagate

/-! ## The start -/

/-- The unbound variables of the propagators at work. -/
def workVars (s : Solver) : List Var :=
  s.props.toList.flatMap fun p => p.val.vars.filterMap fun v =>
    match s.resolve v with
    | .free w => some w
    | _ => none

theorem mem_workVars {p : Propagator} (work : s.AtWork p) {v w : Var} (mem : v ∈ p.val.vars)
    (free : s.resolve v = .free w) : w ∈ s.workVars := by
  obtain ⟨j, at_j⟩ := work
  refine List.mem_flatMap.mpr ⟨p, ?_, List.mem_filterMap.mpr ⟨v, mem, by rw [free]⟩⟩
  exact Array.mem_toList_iff.mpr (Array.mem_of_getElem? at_j)

theorem mentions_eq (s : Solver) :
    s.mentions = s.subst.watchCount + (s.props.toList.map fun p => p.val.vars.length + 1).sum := by
  unfold mentions
  rw [← Array.foldl_toList, Subst.foldl_add_eq]

theorem length_le_sum_map {α : Type} {f : α → Nat} (l : List α) (pos : ∀ a, 0 < f a) :
    l.length ≤ (l.map f).sum := by
  induction l with
  | nil => simp
  | cons a l ih =>
    have := pos a
    rw [List.length_cons, List.map_cons, List.sum_cons]
    omega

theorem length_workVars_le (s : Solver) : s.workVars.length + s.subst.watchCount ≤ s.mentions := by
  rw [mentions_eq, workVars, List.length_flatMap]
  have := sum_map_le (f := fun p : Propagator => p.val.vars.length + 1) s.props.toList
    (g := fun p => (p.val.vars.filterMap fun v =>
      match s.resolve v with
      | .free w => some w
      | _ => none).length) fun p => Nat.le_succ_of_le (List.length_filterMap_le _ _)
  omega

theorem size_props_le (s : Solver) : s.props.size + s.subst.watchCount ≤ s.mentions := by
  have := length_le_sum_map (f := fun p : Propagator => p.val.vars.length + 1) s.props.toList
    fun p => Nat.succ_pos _
  rw [Array.length_toList] at this
  rw [mentions_eq]
  omega

theorem sum_map_le_mul {α : Type} {f : α → Nat} {c : Nat} (l : List α) (le : ∀ a, f a ≤ c) :
    (l.map f).sum ≤ l.length * c := by
  induction l with
  | nil => simp
  | cons a l ih =>
    have := le a
    rw [List.map_cons, List.sum_cons, List.length_cons, Nat.succ_mul]
    omega

/-- The budget of a fixpoint is above the potential. -/
theorem Sound.potential_lt {E : PropId → Prop} {P : Var → Prop} (h : s.Sound K E P) :
    s.potential s.workVars < s.runBudget := by
  have rooms := sum_map_le_mul (f := fun w => (s.current w).room) s.workVars
    fun w => (h.canonical_current w).1.room_le
  have few := Nat.mul_le_mul_right Domain.maxChanges (Nat.le_trans (Nat.le_add_right _ _) s.length_workVars_le)
  have whole := Nat.mul_le_mul (Nat.le_trans (Nat.le_add_right _ _) s.size_props_le) (Nat.le_trans rooms few)
  rw [← Nat.mul_assoc] at whole
  unfold potential runBudget
  omega

/-- From any state in order a fixpoint is reached. It describes the same readings, and
    nothing waits. -/
theorem Sound.fixpoint (h : s.Steady K) :
    Narrow.Ensures (s.Admits K) s Narrow.fixpoint fun _ t =>
      t.Steady K ∧ (∀ θ, t.Admits K θ ↔ s.Admits K θ) ∧ s.Shrinks t ∧ ∀ id, ¬t.agenda.Waits id := by
  let C : Contract := ⟨K, s.workVars, s.potential s.workVars, s.Admits K, s⟩
  have rested : s.Rested C := ⟨h, fun _ => Iff.rfl, fun p work v mem w free =>
    mem_workVars work mem free, Nat.le_refl _, .refl s⟩
  unfold Narrow.fixpoint
  refine Narrow.Ensures.step (a := s) (t := s) rfl ?_
  refine (Rested.runWaiting _ s C rested h.potential_lt).mono ?_
  rintro _ t ⟨rested', quiet⟩
  exact ⟨rested'.sound, rested'.admits, rested'.shrinks, quiet⟩

end ConstraintLogic.Solver
