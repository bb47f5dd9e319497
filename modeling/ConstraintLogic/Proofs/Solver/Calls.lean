import ConstraintLogic.Proofs.Propagator.Moves

/-!
# Calls of a solver

What is asked of an open solver, one call after another: domains and values, propagators to
be posted, subscribed or replaced, domains to be reduced, all propagators to be woken, and
runs to a fixpoint. A call that ends in a conflict leaves its solver open. Through all calls
the tables of the solver belong together, and domains only shrink.

Results:
* `Solver.Call`, `Solver.Calls`: calls, and what a series of calls comes to.
* `Solver.Consistent`: loaded domains have values, and what subscribes, waits or is known by
  its stamp has a propagator.
* `Solver.Consistent.load`, `Solver.Consistent.move`: loading and runs keep this.
* `Solver.Consistent.call`: a call keeps it, and its solver contracts.
* `Subst.Produced.calls_consistent`: what holds after any calls.
-/

namespace ConstraintLogic

namespace Solver

variable {s t u : Solver} {id : PropId} {v w : Var} {d : Domain} {r : Relation} {p : Propagator}

/-! ## Calls -/

/-- The supply of stamps is past the stamp of a propagator that was made elsewhere. -/
def past (s : Solver) (p : Propagator) : Solver := { s with subst := s.subst.raiseSupply (p.stamp + 1) }

/-- What can be asked of an open solver. -/
inductive Call where
  /-- The domain of a variable. -/
  | domain (v : Var)
  /-- The only value left to a variable. -/
  | value (v : Var)
  /-- A propagator is posted. -/
  | post (p : Propagator)
  /-- A propagator subscribes to a variable. -/
  | subscribe (id : PropId) (v : Var)
  /-- A propagator subscribes to those of the variables that have no value yet. -/
  | resubscribe (id : PropId) (vs : List Var)
  /-- A propagator takes the place of the one with that number. -/
  | replace (id : PropId) (p : Propagator)
  /-- Only the values of the domain are left to a variable. -/
  | reduce (v : Var) (d : Domain)
  /-- All propagators are put on the agenda. -/
  | wakeAll
  /-- Propagators are run until none waits. -/
  | fixpoint

namespace Call

/-- The call is made. -/
def perform : Call → Narrow Unit
  | domain v => modify fun s => (s.domain v).2
  | value v => modify fun s => (s.value v).2
  | post p => modify fun s => ((s.past p).post p).2
  | subscribe id v => modify fun s => s.subscribe id v
  | resubscribe id vs => Narrow.resubscribe id vs
  | replace id p => modify fun s => (s.past p).replace id p
  | reduce v d => Narrow.reduce v d
  | wakeAll => modify Solver.wakeAll
  | fixpoint => Narrow.fixpoint

/-- Constants have 64 bits and domains are in their one form; numbers were given by the solver;
    and what takes the place of a propagator has no number itself. -/
def Fair (s : Solver) : Call → Prop
  | post p => p.val.Sized
  | subscribe id _ => ∃ p, s.prop? id = some p
  | resubscribe id _ => ∃ p, s.prop? id = some p
  | replace _ p => p.val.Sized ∧ s.interned[p.stamp]? = none
  | reduce _ d => d.Canonical
  | _ => True

/-- The call comes to an answer, yes or no, and leaves the second solver. -/
def Ends (c : Call) (s t : Solver) : Prop := c.perform s = .ok () t ∨ c.perform s = .error .conflict t

end Call

/-- The second solver comes of a fair call of the first one. -/
inductive Called (s t : Solver) : Prop
  | call (c : Call) (fair : c.Fair s) (ends : c.Ends s t)

/-- The second solver comes of the first one by a series of fair calls. -/
abbrev Calls : Solver → Solver → Prop := Relation.ReflTransGen Called

/-! ## Loading step by step -/

/-- Each step of loading keeps the property: a domain is loaded, a stored propagator that is
    met for the first time is numbered, and a numbered one subscribes to an unbound variable. -/
structure Loadable (I : Solver → Prop) : Prop where
  root : ∀ s v w, I s → s.resolve v = .free w → s.resolve w = .free w
  reveal : ∀ s v, I s → v ∉ s.domains → s.resolve v = .free v → I (s.reveal v)
  enlist : ∀ s v p, I s → p ∈ s.subst.storedWatchers v → s.interned[p.stamp]? = none → I (s.enlist p)
  addSubscriber : ∀ s id w, I s → (∃ p, s.prop? id = some p) → s.resolve w = .free w → I (s.addSubscriber id w)

namespace Loadable

variable {I : Solver → Prop} (loadable : Loadable I)

include loadable

theorem adoptVars (vs : List Var) : ∀ (pending : List Var) (s : Solver), I s → (∃ p, s.prop? id = some p) →
    I (vs.foldl (adoptVar id) (pending, s)).2 ∧
      ∀ w ∈ (vs.foldl (adoptVar id) (pending, s)).1, w ∈ pending ∨ s.resolve w = .free w := by
  induction vs with
  | nil => exact fun _ _ holds _ => ⟨holds, fun _ mem => .inl mem⟩
  | cons v vs ih =>
    intro pending s holds numbered
    rw [List.foldl_cons, adoptVar]
    split
    · rename_i w free
      have root := loadable.root s v w holds free
      have grows := s.grows_addSubscriber id w
      obtain ⟨kept, stacked⟩ := ih (w :: pending) _ (loadable.addSubscriber s id w holds numbered root)
        (numbered.imp fun p found => grows.props id p found)
      refine ⟨kept, fun x mem => ?_⟩
      rcases stacked x mem with mem | free'
      · rcases List.mem_cons.mp mem with rfl | mem
        · exact .inr root
        · exact .inl mem
      · exact .inr (grows.resolve ▸ free')
    · exact ih pending s holds numbered

theorem adopt (pending : List Var) (holds : I s) (stored : p ∈ s.subst.storedWatchers v) :
    I (Solver.adopt (pending, s) p).2 ∧
      ∀ w ∈ (Solver.adopt (pending, s) p).1, w ∈ pending ∨ s.resolve w = .free w := by
  rw [adopt_eq]
  unfold intern
  cases new : s.interned[p.stamp]? with
  | some id => exact ⟨holds, fun _ mem => .inl mem⟩
  | none =>
    exact loadable.adoptVars p.val.vars pending (s.enlist p) (loadable.enlist s v p holds stored new)
      ⟨p, by rw [prop?_enlist, if_pos rfl]⟩

theorem adoptAll (ps : List Propagator) : ∀ (pending : List Var) (s : Solver), I s →
    (∀ p ∈ ps, p ∈ s.subst.storedWatchers v) →
    I (ps.foldl Solver.adopt (pending, s)).2 ∧
      ∀ w ∈ (ps.foldl Solver.adopt (pending, s)).1, w ∈ pending ∨ s.resolve w = .free w := by
  induction ps with
  | nil => exact fun _ _ holds _ => ⟨holds, fun _ mem => .inl mem⟩
  | cons p ps ih =>
    intro pending s holds stored
    rw [List.forall_mem_cons] at stored
    have grows := grows_adopt pending s p
    obtain ⟨kept, stacked⟩ := loadable.adopt pending holds stored.1
    obtain ⟨kept', stacked'⟩ := ih _ _ kept (by rw [grows.subst]; exact stored.2)
    rw [List.foldl_cons]
    refine ⟨kept', fun w mem => ?_⟩
    rcases stacked' w mem with mem | free
    · exact stacked w mem
    · exact .inr (grows.resolve ▸ free)

theorem loadAll (n : Nat) : ∀ (pending : List Var) (s : Solver), I s → (∀ w ∈ pending, s.resolve w = .free w) →
    I (Solver.loadAll n pending s) := by
  induction n with
  | zero =>
    intro pending s holds _
    unfold Solver.loadAll
    exact holds
  | succ n ih =>
    intro pending s holds roots
    cases pending with
    | nil =>
      unfold Solver.loadAll
      exact holds
    | cons v pending =>
      rw [List.forall_mem_cons] at roots
      by_cases present : v ∈ s.domains
      · rw [loadAll_of_mem present]
        exact ih pending s holds roots.2
      · rw [loadAll_of_not_mem present]
        obtain ⟨kept, stacked⟩ := loadable.adoptAll (v := v) (s.subst.storedWatchers v) pending (s.reveal v)
          (loadable.reveal s v holds present roots.1) fun _ mem => mem
        have same := (adoptAll_frame (s.subst.storedWatchers v) (pending, s.reveal v)).1
        refine ih _ _ kept fun w mem => ?_
        rw [resolve_congr (s := s) (by rw [same]; rfl)]
        exact (stacked w mem).elim (roots.2 w) id

/-- What each step of loading keeps, loading keeps. -/
theorem load (holds : I s) (root : s.resolve v = .free v) : I (s.load v) := by
  unfold Solver.load
  split
  · exact holds
  · exact loadable.loadAll _ [v] s holds (by simpa using root)

end Loadable

/-! ## Consistent solvers -/

/-- Loaded and stored domains have values, and only unbound variables are loaded. No variable
    has a subscriber twice; what subscribes or waits has a propagator; and the stamps that have
    a number are those of the propagators with that number. All propagators have constants of
    64 bits and stamps that were given to them. -/
structure Consistent (s : Solver) : Prop where
  tidy : s.Tidy
  primed : s.Primed
  work : ∀ id p, s.prop? id = some p → p.val.Sized ∧ p.stamp < s.subst.supply
  stored : ∀ v, ∀ p ∈ s.subst.storedWatchers v, p.val.Sized ∧ p.stamp < s.subst.supply
  nonempty : ∀ v, (s.subst.storedDomain v).isEmpty = false
  loaded : ∀ w d, s.domains[w]? = some d → s.resolve w = .free w ∧ d.isEmpty = false
  distinct : ∀ w, (s.subscribersOf w).Nodup
  occupied : ∀ w, ∀ id ∈ s.subscribersOf w, ∃ p, s.prop? id = some p
  interned : ∀ n id, s.interned[n]? = some id ↔ ∃ p, s.prop? id = some p ∧ p.stamp = n

theorem Tidy.congr (tidy : s.Tidy) (bindings : t.subst.bindings = s.subst.bindings) (attrs : t.subst.attrs = s.subst.attrs)
    (domains : t.domains = s.domains) : t.Tidy := (matched_of_eq bindings attrs domains).tidy tidy

theorem prop?_replace {old : Propagator} (found : s.prop? id = some old) (p : Propagator) (j : PropId) :
    (s.replace id p).prop? j = if j = id then some p else s.prop? j := by
  have exchanged : (s.exchange id old.stamp p).prop? j = if j = id then some p else s.prop? j := prop?_exchange found j
  unfold Solver.replace
  rw [found]
  exact exchanged

theorem contracts_of_eq (bindings : t.subst.bindings = s.subst.bindings) (attrs : t.subst.attrs = s.subst.attrs)
    (domains : t.domains = s.domains) : s.Contracts t := (matched_of_eq bindings attrs domains).contracts

namespace Consistent

theorem ready (h : s.Consistent) : s.Ready where
  tidy := h.tidy
  primed := h.primed
  work := fun p ⟨id, found⟩ => (h.work id p found).1
  stored v p mem := (h.stored v p mem).1

/-- A loaded domain has a value. -/
theorem exists_mem (h : s.Consistent) (at_w : s.domains[w]? = some d) : ∃ n, n ∈ d := by
  obtain ⟨root, some_left⟩ := h.loaded w d at_w
  have canonical := h.tidy.canonical w
  rw [peek_of_free root, current_of_loaded at_w] at canonical
  exact canonical.exists_mem some_left

/-! ### Tables -/

/-- What waits is changed. -/
theorem agenda {a : Agenda} (h : s.Consistent) (primed : ({ s with agenda := a } : Solver).Primed) :
    ({ s with agenda := a } : Solver).Consistent :=
  { h with
    tidy := h.tidy.congr rfl rfl rfl
    primed }

theorem enqueue (h : s.Consistent) (id : PropId) : (s.enqueue id).Consistent := by
  have primed := h.primed.enqueue id
  obtain ⟨a, eq⟩ := s.enqueue_eq id
  rw [eq] at primed ⊢
  exact h.agenda primed

theorem pop {a : Agenda} (h : s.Consistent) (popped : s.agenda.pop? = some (id, a)) :
    ({ s with agenda := a } : Solver).Consistent := h.agenda (h.primed.pop popped)

/-- Subscriptions are changed. -/
theorem subscribers {m : Std.ExtTreeMap Var (List PropId)} (h : s.Consistent)
    (distinct : ∀ w, (({ s with subscribers := m } : Solver).subscribersOf w).Nodup)
    (occupied : ∀ w, ∀ id ∈ ({ s with subscribers := m } : Solver).subscribersOf w, ∃ p, s.prop? id = some p) :
    ({ s with subscribers := m } : Solver).Consistent :=
  { h with
    tidy := h.tidy.congr rfl rfl rfl
    primed := h.primed.grow rfl fun _ p found => ⟨p, found⟩
    distinct
    occupied }

theorem addSubscriber (h : s.Consistent) (numbered : ∃ p, s.prop? id = some p) (w : Var) :
    (s.addSubscriber id w).Consistent := by
  have distinct := nodup_subscribersOf_addSubscriber h.distinct id w
  have occupied (u : Var) (j : PropId) (mem : j ∈ (s.addSubscriber id w).subscribersOf u) : ∃ p, s.prop? j = some p := by
    rcases mem_subscribersOf_addSubscriber.mp mem with before | ⟨_, rfl⟩
    · exact h.occupied u j before
    · exact numbered
  obtain ⟨m, eq⟩ := s.addSubscriber_eq id w
  rw [eq] at distinct occupied ⊢
  exact h.subscribers distinct occupied

theorem unsubscribe (h : s.Consistent) (id : PropId) : (s.unsubscribe id).Consistent := by
  cases found : s.prop? id with
  | none =>
    have same : s.unsubscribe id = s := by simp only [Solver.unsubscribe, found]
    rwa [same]
  | some p =>
    rw [unsubscribe_of_found found]
    obtain ⟨m, eq, dropped⟩ := dropAll_spec id p.val.vars s
    have distinct (w : Var) := (dropped w).1.nodup (h.distinct w)
    have occupied (w : Var) (j : PropId) (mem : j ∈ _) := h.occupied w j ((dropped w).1.subset mem)
    rw [eq] at distinct occupied ⊢
    exact h.subscribers distinct occupied

/-- A propagator without number gets the next one. -/
theorem enlist (h : s.Consistent) (sized : p.val.Sized) (below : p.stamp < s.subst.supply)
    (new : s.interned[p.stamp]? = none) : (s.enlist p).Consistent := by
  have grows := s.grows_enlist p
  refine
    { h with
      tidy := grows.matched.tidy h.tidy
      primed := h.primed.grow rfl fun id q found => ⟨q, grows.props id q found⟩
      work := fun id q found => ?_
      occupied := fun w id mem => (h.occupied w id mem).imp fun q found => grows.props id q found
      interned := fun n id => ?_ }
  · rw [prop?_enlist] at found
    split at found
    · cases found
      exact ⟨sized, below⟩
    · exact h.work id q found
  · simp only [Solver.enlist, Std.ExtTreeMap.getElem?_insert, Std.compare_eq_iff_eq]
    change (if p.stamp = n then some ⟨s.props.size⟩ else s.interned[n]?) = some id ↔
      ∃ q, (s.enlist p).prop? id = some q ∧ q.stamp = n
    rw [prop?_enlist]
    by_cases here : id = ⟨s.props.size⟩
    · -- The next number had no propagator, so it was not the number of any stamp.
      have unused : s.interned[n]? ≠ some ⟨s.props.size⟩ := fun at_n => by
        obtain ⟨q, found, _⟩ := (h.interned n _).mp at_n
        rw [prop?_next] at found
        cases found
      subst here
      by_cases same : p.stamp = n
      · simp [same]
      · simp [same, unused]
    · rw [if_neg here]
      by_cases same : p.stamp = n
      · have unused : ¬∃ q, s.prop? id = some q ∧ q.stamp = n := fun found => by
          rw [← h.interned, ← same, new] at found
          cases found
        rw [if_pos same]
        exact iff_of_false (by simpa using Ne.symm here) unused
      · rw [if_neg same]
        exact h.interned n id

/-- A propagator without number takes the place of another one. -/
theorem replace (h : s.Consistent) (sized : p.val.Sized) (below : p.stamp < s.subst.supply)
    (new : s.interned[p.stamp]? = none) (id : PropId) : (s.replace id p).Consistent := by
  unfold Solver.replace
  split
  · exact h
  rename_i old found
  have prop? (j : PropId) := prop?_replace found p j
  simp only [Solver.replace, found] at prop?
  have slots (j : PropId) (q : Propagator) (at_j : s.prop? j = some q) :
      ∃ q', (if j = id then some p else s.prop? j) = some q' := by
    split
    · exact ⟨p, rfl⟩
    · exact ⟨q, at_j⟩
  refine
    { h with
      tidy := h.tidy.congr rfl rfl rfl
      primed := h.primed.grow rfl fun j q at_j => by rw [prop?]; exact slots j q at_j
      work := fun j q at_j => ?_
      occupied := fun w j mem => ?_
      interned := fun n j => ?_ }
  · rw [prop?] at at_j
    split at at_j
    · cases at_j
      exact ⟨sized, below⟩
    · exact h.work j q at_j
  · obtain ⟨q, at_j⟩ := h.occupied w j mem
    rw [prop?]
    exact slots j q at_j
  · rw [prop?]
    simp only [Std.ExtTreeMap.getElem?_insert, Std.ExtTreeMap.getElem?_erase, Std.compare_eq_iff_eq]
    have at_id : s.interned[old.stamp]? = some id := (h.interned _ _).mpr ⟨old, found, rfl⟩
    by_cases here : j = id
    · subst here
      rw [if_pos rfl]
      by_cases same : p.stamp = n
      · simp [same]
      · -- The stamp of the old propagator has lost its number, and no other one has it.
        have gone : ¬(if old.stamp = n then none else s.interned[n]?) = some j := fun at_n => by
          split at at_n
          · cases at_n
          · rename_i differ
            obtain ⟨q, found', rfl⟩ := (h.interned n j).mp at_n
            rw [found] at found'
            exact differ (congrArg Stamped.stamp (Option.some.inj found'))
        simp [same, gone]
    · rw [if_neg here]
      by_cases same : p.stamp = n
      · have unused : ¬∃ q, s.prop? j = some q ∧ q.stamp = n := fun found => by
          rw [← h.interned, ← same, new] at found
          cases found
        rw [if_pos same]
        exact iff_of_false (by simpa using Ne.symm here) unused
      · rw [if_neg same]
        by_cases old_stamp : old.stamp = n
        · have unused : ¬∃ q, s.prop? j = some q ∧ q.stamp = n := fun at_j => by
            rw [← h.interned, ← old_stamp, at_id] at at_j
            exact here (Option.some.inj at_j).symm
          simp [old_stamp, unused]
        · rw [if_neg old_stamp]
          exact h.interned n j

/-- A later supply of stamps changes nothing else. -/
theorem raise (h : s.Consistent) {n : Nat} (later : s.subst.supply ≤ n) :
    ({ s with subst := { s.subst with supply := n } } : Solver).Consistent := by
  have matched : s.Matches { s with subst := { s.subst with supply := n } } := matched_of_eq rfl rfl rfl
  exact
    { h with
      tidy := matched.tidy h.tidy
      primed := h.primed.grow rfl fun _ p found => ⟨p, found⟩
      work := fun id p found => ⟨(h.work id p found).1, Nat.lt_of_lt_of_le (h.work id p found).2 later⟩
      stored := fun v p mem => ⟨(h.stored v p mem).1, Nat.lt_of_lt_of_le (h.stored v p mem).2 later⟩
      loaded := fun w d at_w => by rw [matched.resolve]; exact h.loaded w d at_w }

theorem past (h : s.Consistent) (p : Propagator) : (s.past p).Consistent := h.raise (Nat.le_max_left _ _)

/-! ### Domains -/

theorem reveal (h : s.Consistent) (absent : v ∉ s.domains) (root : s.resolve v = .free v) : (s.reveal v).Consistent := by
  have grows := grows_reveal absent
  refine
    { h with
      tidy := grows.matched.tidy h.tidy
      primed := h.primed.grow rfl fun _ p found => ⟨p, found⟩
      loaded := fun w d at_w => ?_ }
  rw [getElem?_reveal] at at_w
  split at at_w
  · rename_i same
    cases at_w
    exact ⟨same ▸ root, h.nonempty v⟩
  · exact h.loaded w d at_w

theorem narrowTo (h : s.Consistent) (root : s.resolve w = .free w) (canonical : d.Canonical)
    (some_left : d.isEmpty = false) : (s.narrowTo w d).Consistent := by
  refine
    { h with
      tidy := h.tidy.narrowTo canonical w
      primed := h.primed.grow rfl fun _ p found => ⟨p, found⟩
      loaded := fun u e at_u => ?_ }
  rw [getElem?_narrowTo] at at_u
  split at at_u
  · rename_i same
    cases at_u
    exact ⟨same ▸ root, some_left⟩
  · exact h.loaded u e at_u

theorem contracts_narrowTo (h : s.Consistent) (root : s.resolve w = .free w) (canonical : d.Canonical)
    (some_left : d.isEmpty = false) (sub : ∀ n ∈ d, n ∈ s.current w) : s.Contracts (s.narrowTo w d) :=
  (cuts_narrowTo (d := d) h.tidy root canonical
    (fun n => ⟨fun mem => ⟨by rw [peek_of_free root]; exact sub n mem, mem⟩, And.right⟩)
    (canonical.exists_mem some_left)).2.contracts

/-! ### Loading -/

theorem loadable : Loadable Consistent where
  root _ v w h found := h.tidy.root v w found
  reveal _ _ h absent root := h.reveal absent root
  enlist _ v p h mem new := h.enlist (h.stored v p mem).1 (h.stored v p mem).2 new
  addSubscriber _ _ w h numbered _ := h.addSubscriber numbered w

/-- Loading keeps the tables together. -/
theorem load (h : s.Consistent) (root : s.resolve v = .free v) : (s.load v).Consistent := loadable.load h root

theorem domain (h : s.Consistent) (v : Var) : (s.domain v).2.Consistent := by
  unfold Solver.domain
  cases found : s.resolve v with
  | free w => exact h.load (h.tidy.root v w found)
  | _ => exact h

end Consistent

/-! ## Moves -/

/-- The second solver is consistent, domains have shrunk at most, and no number has lost its
    propagator. -/
structure Advances (s t : Solver) : Prop where
  consistent : t.Consistent
  contracts : s.Contracts t
  numbered : ∀ id, (∃ p, s.prop? id = some p) → ∃ p, t.prop? id = some p

theorem Advances.trans (h : s.Advances t) (h' : t.Advances u) : s.Advances u :=
  ⟨h'.consistent, h.contracts.trans h'.contracts, fun id numbered => h'.numbered id (h.numbered id numbered)⟩

theorem Grows.advances (grows : s.Grows t) (consistent : t.Consistent) : s.Advances t :=
  ⟨consistent, grows.matched.contracts, fun id ⟨p, found⟩ => ⟨p, grows.props id p found⟩⟩

theorem numbered_replace (s : Solver) (id : PropId) (p : Propagator) (j : PropId) (numbered : ∃ q, s.prop? j = some q) :
    ∃ q, (s.replace id p).prop? j = some q := by
  obtain ⟨q, found⟩ := numbered
  unfold Solver.replace
  split
  · exact ⟨q, found⟩
  · have below := (Array.getElem?_eq_some_iff.mp found).1
    exact ⟨_, Array.getElem?_eq_getElem (by rwa [Array.size_setIfInBounds])⟩

/-- Waking puts one number after another on the agenda. -/
theorem wakeAll_eq_enqueueAll (s : Solver) : s.wakeAll = ((List.range s.props.size).map PropId.mk).foldl enqueue s := by
  rw [List.foldl_map]
  rfl

namespace Consistent

theorem advances (h : s.Consistent) : s.Advances s := (Grows.refl s).advances h

/-- A move of a numbered propagator keeps the tables together. -/
theorem move (h : s.Consistent) (numbered : ∃ p, s.prop? id = some p) (move : s.Move id t) : s.Advances t := by
  cases move with
  | load root => exact (s.grows_load _).1.advances (h.load root)
  | subscribe root loaded => exact (s.grows_addSubscriber id _).advances (h.addSubscriber numbered _)
  | narrow root loaded canonical some_left sub =>
    exact ⟨h.narrowTo root canonical some_left, h.contracts_narrowTo root canonical some_left sub, fun _ at_j => at_j⟩
  | enqueue j => exact (s.grows_enqueue j).advances (h.enqueue j)
  | @become r sized =>
    have stamped : ({ s with subst := (s.subst.stamped r).2 } : Solver).Consistent := h.raise (Nat.le_succ _)
    refine ⟨stamped.replace (p := (s.subst.stamped r).1) sized (Nat.lt_succ_self _) ?_ id,
      (s.matched_become id r).contracts, fun j at_j => numbered_replace _ id _ j at_j⟩
    -- The stamp is a new one.
    refine Option.eq_none_iff_forall_ne_some.mpr fun j at_supply => ?_
    obtain ⟨q, found, same⟩ := (h.interned _ j).mp at_supply
    exact absurd (h.work j q found).2 (by rw [same]; exact Nat.lt_irrefl _)

theorem moves (h : s.Consistent) (numbered : ∃ p, s.prop? id = some p) (moves : s.Moves id t) : s.Advances t := by
  induction moves with
  | refl => exact h.advances
  | tail _ move ih => exact ih.trans (ih.consistent.move (ih.numbered id numbered) move)

/-! ## Calls -/

theorem advances_past (h : s.Consistent) (p : Propagator) : s.Advances (s.past p) :=
  ⟨h.past p, contracts_of_eq rfl rfl rfl, fun _ at_j => at_j⟩

theorem enqueueAll (ids : List PropId) (h : s.Consistent) : s.Advances (ids.foldl Solver.enqueue s) :=
  List.foldlRecOn (motive := s.Advances) _ _ h.advances fun t advances id _ =>
    advances.trans ((t.grows_enqueue id).advances (advances.consistent.enqueue id))

theorem subscribeAll (vs : List Var) (h : s.Consistent) (numbered : ∃ p, s.prop? id = some p) :
    s.Advances (vs.foldl (fun t v => t.subscribe id v) s) :=
  List.foldlRecOn (motive := s.Advances) _ _ h.advances fun _ advances v _ =>
    advances.trans (advances.consistent.moves (advances.numbered id numbered)
      (advances.consistent.tidy.moves_subscribe id v))

/-- A propagator has a number after it was looked for. -/
theorem intern (h : s.Consistent) (sized : p.val.Sized) (below : p.stamp < s.subst.supply) :
    s.Advances (s.intern p).2.2 ∧ ∃ q, (s.intern p).2.2.prop? (s.intern p).1 = some q := by
  unfold Solver.intern
  cases met : s.interned[p.stamp]? with
  | some id =>
    obtain ⟨q, found, _⟩ := (h.interned _ id).mp met
    exact ⟨h.advances, q, found⟩
  | none => exact ⟨(s.grows_enlist p).advances (h.enlist sized below met), p, by simp [Solver.prop?]⟩

theorem post (h : s.Consistent) (sized : p.val.Sized) (below : p.stamp < s.subst.supply) : s.Advances (s.post p).2 := by
  obtain ⟨interned, numbered⟩ := h.intern sized below
  have subscribed := interned.trans (interned.consistent.subscribeAll p.val.vars numbered)
  exact subscribed.trans ((grows_enqueue _ _).advances (subscribed.consistent.enqueue _))

theorem reduce (h : s.Consistent) (canonical : d.Canonical) (v : Var) :
    s.Advances (Narrow.leaving (Narrow.reduce v d s)) := by
  have asked (w : Var) : s.Advances (s.domain w).2 := (s.domain_spec w).2.advances (h.domain w)
  have reduces := s.reduces v d
  generalize Narrow.reduce v d s = e at reduces
  cases reduces with
  | bound bound same => rcases same with rfl | rfl <;> exact h.advances
  | @empty w free none_left => exact asked w
  | @kept w free same => exact asked w
  | @narrowed w free some_left =>
    obtain ⟨root, loaded, next, sub⟩ := h.tidy.narrowed canonical free
    have consistent := (asked w).consistent.narrowTo root next some_left
    have narrowed : (s.domain w).2.Advances ((s.domain w).2.narrowTo w ((s.peek w).intersect d)) :=
      ⟨consistent, (asked w).consistent.contracts_narrowTo root next some_left sub, fun _ at_j => at_j⟩
    exact ((asked w).trans narrowed).trans (consistent.enqueueAll _)

/-- A turn of the loop keeps the tables together. -/
theorem turn {a : Agenda} (h : s.Consistent) (popped : s.agenda.pop? = some (id, a)) :
    s.Advances (Narrow.leaving (Narrow.runNumbered id { s with agenda := a })) := by
  have popping : s.Advances { s with agenda := a } :=
    ⟨h.pop popped, contracts_of_eq rfl rfl rfl, fun _ at_j => at_j⟩
  generalize ({ s with agenda := a } : Solver) = t at popping
  refine popping.trans ?_
  have h := popping.consistent
  cases found : t.prop? id with
  | none =>
    rw [runNumbered_eq, found]
    exact h.advances
  | some p =>
    have unsubscribed : t.Advances (t.unsubscribe id) := by
      have consistent := h.unsubscribe id
      obtain ⟨m, eq⟩ := t.unsubscribe_frame id
      rw [eq] at consistent ⊢
      exact ⟨consistent, contracts_of_eq rfl rfl rfl, fun _ at_j => at_j⟩
    refine unsubscribed.trans (unsubscribed.consistent.moves (unsubscribed.numbered id ⟨p, found⟩) ?_)
    exact Narrow.moves_runNumbered h.tidy found (h.work id p found).1

theorem fixpoint (h : s.Consistent) : s.Advances (Narrow.leaving (Narrow.fixpoint s)) :=
  Narrow.upholds_fixpoint (I := s.Advances)
    (fun _ _ _ advances popped => advances.trans (advances.consistent.turn popped)) s h.advances

/-- A fair call keeps the tables together, and domains shrink at most. -/
theorem call (h : s.Consistent) {c : Call} (fair : c.Fair s) : s.Advances (Narrow.leaving (c.perform s)) := by
  cases c with
  | domain v | value v => exact (s.domain_spec v).2.advances (h.domain v)
  | post p =>
    refine (h.advances_past p).trans ((h.past p).post fair ?_)
    exact Nat.lt_of_lt_of_le (Nat.lt_succ_self _) (Nat.le_max_right _ _)
  | subscribe id v => exact h.moves fair (h.tidy.moves_subscribe id v)
  | resubscribe id vs => exact h.moves fair (h.tidy.moves_resubscribe id vs)
  | replace id p =>
    refine (h.advances_past p).trans ⟨(h.past p).replace fair.1 ?_ fair.2 id, ?_, numbered_replace _ id p⟩
    · exact Nat.lt_of_lt_of_le (Nat.lt_succ_self _) (Nat.le_max_right _ _)
    · change (s.past p).Contracts ((s.past p).replace id p)
      unfold Solver.replace
      split
      · exact .refl _
      · exact contracts_of_eq rfl rfl rfl
  | reduce v d => exact h.reduce fair v
  | wakeAll => exact (show Narrow.leaving (Call.wakeAll.perform s) = _ from s.wakeAll_eq_enqueueAll) ▸ h.enqueueAll _
  | fixpoint => exact h.fixpoint

theorem called (h : s.Consistent) (called : s.Called t) : s.Advances t := by
  obtain ⟨c, fair, ends⟩ := called
  have advances := h.call fair
  rcases ends with ran | ran <;> rwa [ran] at advances

theorem calls (h : s.Consistent) (calls : s.Calls t) : s.Advances t := by
  induction calls with
  | refl => exact h.advances
  | tail _ called ih => exact ih.trans (ih.consistent.called called)

/-- Where a reduction ends in a conflict, every domain is as it was. -/
theorem domain_of_conflict (ran : Narrow.reduce v d s = .error .conflict t) (w : Var) :
    (t.domain w).1 = (s.domain w).1 := by
  rw [(t.domain_spec w).1, (s.domain_spec w).1]
  have reduces := s.reduces v d
  rw [ran] at reduces
  cases reduces with
  | bound bound same =>
    rcases same with same | same <;> cases same
    rfl
  | @empty x free none_left => exact (s.domain_spec x).2.peek w

theorem cases_of_ends {e : EStateM.Result Halt Solver Unit} (ends : Solver.Ends e) :
    (∃ t, e = .ok () t ∨ e = .error .conflict t) ∨ ∃ f t, e = .error (.fault f) t ∧ f.IsOverflow := by
  unfold Solver.Ends at ends
  split at ends
  · exact .inl ⟨_, .inl rfl⟩
  · exact .inl ⟨_, .inr rfl⟩
  · exact .inr ⟨_, _, rfl, ends⟩
  · exact ends.elim

/-- A call comes to an answer, unless an integer leaves 64 bits. -/
theorem call_ends (h : s.Consistent) (c : Call) :
    (∃ t, c.Ends s t) ∨ ∃ f t, c.perform s = .error (.fault f) t ∧ f.IsOverflow := by
  unfold Call.Ends
  cases c with
  | reduce v d =>
    have reduces := s.reduces v d
    rw [Call.perform]
    generalize Narrow.reduce v d s = e at reduces
    cases reduces with
    | bound bound same => exact .inl ⟨s, same⟩
    | empty free none_left => exact .inl ⟨_, .inr rfl⟩
    | kept free same => exact .inl ⟨_, .inl rfl⟩
    | narrowed free some_left => exact .inl ⟨_, .inl rfl⟩
  | fixpoint =>
    have ends : Solver.Ends (Call.perform .fixpoint s) := ends_of_ensures h.ready.fixpoint fun _ after => after.2
    exact cases_of_ends ends
  | _ => exact .inl ⟨_, .inl rfl⟩

end Consistent

end Solver

namespace Subst

variable {subst : Subst} {s t : Solver} {c : Solver.Call}

theorem called_of_succeeds (fair : c.Fair s) (ran : succeeds (c.perform s) = true) : s.Called (leftBy (c.perform s)) :=
  ⟨c, fair, .inl (eq_ok_of_succeeds ran)⟩

theorem called_of_conflicts (fair : c.Fair s) (ran : conflicts (c.perform s) = true) : s.Called (leftBy (c.perform s)) :=
  ⟨c, fair, .inr (eq_error_of_conflicts ran)⟩

/-- What is left of posting a relation on new variables is produced by a goal. -/
theorem produced_of_solveWith {r : Relation} {n : Nat} (proper : r.Proper)
    (solved : ((Subst.empty.freshMany n).2.stamped r).2.solveWith [((Subst.empty.freshMany n).2.stamped r).1] = .ok subst) :
    subst.Produced := produced_of_post (r := r) (n := n) proper (congrArg Answers.ofAttempt solved)

/-- A new solver on a substitution that goals produce is consistent. -/
theorem Produced.consistent_new (h : subst.Produced) : (Solver.new subst).Consistent where
  tidy := .of_produced h
  primed := ⟨Agenda.coherent_empty, fun id waits => absurd waits (Agenda.not_waits_empty id)⟩
  work id p found := by simp [Solver.new, Solver.prop?] at found
  stored v p mem := ⟨(h.orderly.proper p (.inr ⟨v, mem⟩)).sized, h.orderly.stamped p (.inr ⟨v, mem⟩)⟩
  nonempty v := (h.orderly.canonical_storedDomain v).2.1
  loaded w d at_w := by simp [Solver.new] at at_w
  distinct w := by simp [Solver.new, Solver.subscribersOf]
  occupied w id mem := by simp [Solver.new, Solver.subscribersOf] at mem
  interned n id := by simp [Solver.new, Solver.prop?]

/-- A solver is opened on a substitution that goals produce, and any fair calls come first and
    later. Loaded domains have values. What is reported of a variable has no value that was not
    reported of it before, and a reduction that ends in a conflict changes nothing that is
    reported. No variable has a subscriber twice; subscribers and what waits on the agenda have
    propagators; and the stamps that have a number are just those of the propagators with that
    number. A further call comes to an answer, unless an integer leaves 64 bits. -/
theorem Produced.calls_consistent (h : subst.Produced) (first : (Solver.new subst).Calls s) (later : s.Calls t) :
    (∀ (w : Var) (d : Domain), t.domains[w]? = some d → d.isEmpty = false ∧ ∃ n, n ∈ d) ∧
    (∀ v n, n ∈ (t.domain v).1 → n ∈ (s.domain v).1) ∧
    (∀ v d u, (Solver.Call.reduce v d).perform t = .error .conflict u → ∀ w, (u.domain w).1 = (t.domain w).1) ∧
    (∀ w, (t.subscribersOf w).Nodup) ∧
    (∀ w, ∀ id ∈ t.subscribersOf w, ∃ p, t.prop? id = some p) ∧
    (∀ id, t.agenda.Waits id → ∃ p, t.prop? id = some p) ∧
    (∀ n id, t.interned[n]? = some id ↔ ∃ p, t.prop? id = some p ∧ p.stamp = n) ∧
    ∀ c : Solver.Call, (∃ u, c.Ends t u) ∨ ∃ f u, c.perform t = .error (.fault f) u ∧ f.IsOverflow := by
  have start := (h.consistent_new.calls first).consistent
  obtain ⟨consistent, contracts, _⟩ := start.calls later
  refine ⟨fun w d at_w => ⟨(consistent.loaded w d at_w).2, consistent.exists_mem at_w⟩, fun v n mem => ?_,
    fun v d u ran w => Solver.Consistent.domain_of_conflict ran w, consistent.distinct, consistent.occupied,
    consistent.primed.waits, consistent.interned, consistent.call_ends⟩
  rw [(t.domain_spec v).1] at mem
  rw [(s.domain_spec v).1]
  exact contracts.mem_peek v n mem

/-- The sum `_0 + _1 = _2` is stored. First `_0` is narrowed to integers from 1 to 5, which
    loads the sum, and `_1 + 3 = _0` is posted. Later the sum is woken, `_1` is narrowed to
    integers from -2 to 2 by a fixpoint, and narrowing it to 9 is refused. -/
theorem calls_consistent_sum : ∃ (subst : Subst) (s t : Solver), subst.Produced ∧ (Solver.new subst).Calls s ∧ s.Calls t ∧
    (subst.storedWatchers ⟨0⟩).map Stamped.val = [.sum ⟨0⟩ ⟨1⟩ ⟨2⟩] ∧
    (s.domain ⟨1⟩).1 = .unbounded ∧ (t.domain ⟨1⟩).1 = .interval (-2) 2 ∧
    t.subscribersOf ⟨1⟩ = [⟨1⟩, ⟨0⟩] ∧ (∀ w, (t.subscribersOf w).Nodup) ∧
    ∀ n id, t.interned[n]? = some id ↔ ∃ p, t.prop? id = some p ∧ p.stamp = n := by
  let stamped := (Subst.empty.freshMany 3).2.stamped (Relation.sum ⟨0⟩ ⟨1⟩ ⟨2⟩)
  let subst := (stamped.2.solveWith [stamped.1]).toOption.getD Subst.empty
  have solved : stamped.2.solveWith [stamped.1] = .ok subst := eq_ok_of_isSome (by decide +kernel)
  have produced : subst.Produced := produced_of_solveWith (r := .sum ⟨0⟩ ⟨1⟩ ⟨2⟩) trivial solved
  let narrowing := Solver.Call.reduce ⟨0⟩ (.interval 1 5)
  let posting := Solver.Call.post ⟨7, .plusConst ⟨1⟩ 3 ⟨0⟩⟩
  let refused := Solver.Call.reduce ⟨1⟩ (.singleton 9)
  let opened := leftBy (narrowing.perform (.new subst))
  let s := leftBy (posting.perform opened)
  let woken := leftBy (Solver.Call.wakeAll.perform s)
  let run := leftBy (Solver.Call.fixpoint.perform woken)
  let t := leftBy (refused.perform run)
  have canonical : (Domain.interval 1 5).Canonical := by simp [Domain.Canonical, minValue, maxValue]
  have sized : (Relation.plusConst ⟨1⟩ 3 ⟨0⟩).Sized := by decide
  have first₁ : (Solver.new subst).Called opened := called_of_succeeds canonical (by decide +kernel)
  have first₂ : opened.Called s := called_of_succeeds sized (by decide +kernel)
  have later₁ : s.Called woken := called_of_succeeds trivial (by decide +kernel)
  have later₂ : woken.Called run := called_of_succeeds trivial (by decide +kernel)
  have later₃ : run.Called t := called_of_conflicts (Solver.canonical_singleton (by decide)) (by decide +kernel)
  have first : (Solver.new subst).Calls s := .tail (.single first₁) first₂
  have later : s.Calls t := .tail (.tail (.single later₁) later₂) later₃
  have facts : (subst.storedWatchers ⟨0⟩).map Stamped.val = [.sum ⟨0⟩ ⟨1⟩ ⟨2⟩] ∧
      (s.domain ⟨1⟩).1 = .unbounded ∧ (t.domain ⟨1⟩).1 = .interval (-2) 2 ∧
      t.subscribersOf ⟨1⟩ = [⟨1⟩, ⟨0⟩] := by decide +kernel
  -- What was run to get here does not matter any more.
  clear_value subst s t
  obtain ⟨stored, before, after, subscribers⟩ := facts
  obtain ⟨_, _, _, distinct, _, _, interned, _⟩ := @Produced.calls_consistent subst s t produced first later
  exact ⟨subst, s, t, produced, first, later, stored, before, after, subscribers, distinct, interned⟩

end Subst

end ConstraintLogic
