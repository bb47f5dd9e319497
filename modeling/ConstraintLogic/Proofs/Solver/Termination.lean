import ConstraintLogic.Proofs.Propagator.SingleRun
import ConstraintLogic.Proofs.Solver.Alignment

/-!
# Runs that come to an end

A run to a fixpoint may load variables, which brings stored propagators to work, go on as other
relations, and put any number of propagators back on the agenda. It ends all the same, on any
solver. Propagators are woken only where a domain of one of them has shrunk, and this happens
at most so often; the propagators that a run can ever bring to work are counted before they are
loaded, and a propagator that takes the place of another one has its number.

Results:
* `Solver.load_of_le`: loading ends within its allowance.
* `Solver.Supplied`, `Solver.Paced`: what bounds all runs, and what one run has changed.
* `Solver.Supplied.step`: a run takes its propagator off, or shrinks a domain.
* `Solver.Supplied.runWaiting`: the loop ends within what is left to do.
* `Solver.Reached.fixpoint_ends`: a run to a fixpoint ends, whatever has been asked of the solver.
-/

namespace ConstraintLogic

namespace Agenda

/-- No more propagators wait than there are numbers for them. -/
theorem Coherent.length_le {a : Agenda} (h : a.Coherent) {n : Nat} (below : ∀ id, a.Waits id → id.index < n) :
    a.length ≤ n := by
  have inj : Function.Injective PropId.index := fun ⟨_⟩ ⟨_⟩ same => congrArg PropId.mk same
  have few : ((a.queue.toList.map Prod.snd).map PropId.index).length ≤ (List.range n).length := by
    refine (h.nodup_waiting.map inj).length_le_of_subset fun i mem => ?_
    obtain ⟨id, waiting, rfl⟩ := List.mem_map.mp mem
    exact List.mem_range.mpr (below id (h.mem_waiting.mp waiting))
  rwa [List.length_map, List.length_map, List.length_range, Std.ExtTreeMap.length_toList] at few

theorem isEmpty_of_pop {a : Agenda} (popped : a.pop? = none) : a.isEmpty = true := by
  unfold pop? at popped
  split at popped
  · cases popped
  · rename_i nil
    have : a.queue.size = 0 := by rw [← Std.ExtTreeMap.length_toList, nil]; rfl
    simp [isEmpty, length, this]

end Agenda

namespace Solver

variable {s t u : Solver} {v w : Var} {d : Domain} {id : PropId} {r : Relation} {p : Propagator}
variable {pending : List Var} {L : List Var} {B : Nat}

/-! ## Loading -/

/-- The burden depends on the attributes and on what is loaded. -/
theorem burden_of_attrs (attrs : t.subst.attrs = s.subst.attrs) (domains : t.domains = s.domains) :
    t.burden = s.burden := by
  unfold burden Subst.attributedVars Subst.watchCost Subst.storedWatchers Subst.attributes
  rw [attrs, domains]

/-- What is at work, and what could still be brought to work by loading. -/
def stock (s : Solver) : Nat := s.props.size + s.burden

/-- A propagator that is taken up gets a number if it has none, and puts its variables on the
    stack. -/
theorem adopt_frame (pending : List Var) (s : Solver) (p : Propagator) :
    (adopt (pending, s) p).2.subst = s.subst ∧ (adopt (pending, s) p).2.domains = s.domains ∧
      (adopt (pending, s) p).2.props.size ≤ s.props.size + 1 ∧
      (adopt (pending, s) p).1.length ≤ pending.length + p.val.vars.length := by
  have one (id : PropId) (state : List Var × Solver) (v : Var) :
      (adoptVar id state v).2.subst = state.2.subst ∧ (adoptVar id state v).2.domains = state.2.domains ∧
        (adoptVar id state v).2.props = state.2.props ∧ (adoptVar id state v).1.length ≤ state.1.length + 1 := by
    unfold adoptVar
    split
    · rename_i w _
      obtain ⟨m, eq⟩ := state.2.addSubscriber_eq id w
      rw [eq]
      exact ⟨rfl, rfl, rfl, Nat.le_refl _⟩
    · exact ⟨rfl, rfl, rfl, Nat.le_succ _⟩
  have vars (id : PropId) (vs : List Var) : ∀ state : List Var × Solver,
      (vs.foldl (adoptVar id) state).2.subst = state.2.subst ∧
        (vs.foldl (adoptVar id) state).2.domains = state.2.domains ∧
        (vs.foldl (adoptVar id) state).2.props = state.2.props ∧
        (vs.foldl (adoptVar id) state).1.length ≤ state.1.length + vs.length := by
    induction vs with
    | nil => exact fun _ => ⟨rfl, rfl, rfl, Nat.le_refl _⟩
    | cons v vs ih =>
      intro state
      obtain ⟨subst, domains, props, length⟩ := one id state v
      obtain ⟨subst', domains', props', length'⟩ := ih (adoptVar id state v)
      rw [List.foldl_cons, List.length_cons]
      exact ⟨subst'.trans subst, domains'.trans domains, props'.trans props, by omega⟩
  rw [adopt_eq]
  unfold intern
  split
  · rename_i eq
    split at eq
    · cases eq
      exact ⟨rfl, rfl, Nat.le_succ _, Nat.le_add_right _ _⟩
    · cases eq
  · rename_i id u eq
    split at eq
    · cases eq
    · cases eq
      obtain ⟨subst, domains, props, length⟩ := vars ⟨s.props.size⟩ p.val.vars (pending, s.enlist p)
      refine ⟨subst, domains, ?_, length⟩
      change (p.val.vars.foldl (adoptVar ⟨s.props.size⟩) (pending, s.enlist p)).2.props.size ≤ _
      rw [props]
      exact Nat.le_of_eq (Array.size_push _)

theorem adoptAll_frame (ps : List Propagator) : ∀ state : List Var × Solver,
    (ps.foldl adopt state).2.subst = state.2.subst ∧ (ps.foldl adopt state).2.domains = state.2.domains ∧
      (ps.foldl adopt state).2.props.size ≤ state.2.props.size + (ps.map fun p => p.val.vars.length + 1).sum ∧
      (ps.foldl adopt state).1.length ≤ state.1.length + (ps.map fun p => p.val.vars.length + 1).sum := by
  induction ps with
  | nil => exact fun _ => ⟨rfl, rfl, Nat.le_refl _, Nat.le_refl _⟩
  | cons p ps ih =>
    rintro ⟨pending, s⟩
    obtain ⟨subst, domains, size, length⟩ := adopt_frame pending s p
    obtain ⟨subst', domains', size', length'⟩ := ih (adopt (pending, s) p)
    rw [List.foldl_cons, List.map_cons, List.sum_cons]
    refine ⟨subst'.trans subst, domains'.trans domains, ?_, ?_⟩ <;> dsimp only at * <;> omega

/-- A variable that is loaded pays for all that it brings to work and onto the stack. -/
theorem adoptAll_reveal (absent : v ∉ s.domains) (pending : List Var) :
    ((s.subst.storedWatchers v).foldl adopt (pending, s.reveal v)).2.stock ≤ s.stock ∧
      ((s.subst.storedWatchers v).foldl adopt (pending, s.reveal v)).1.length +
        ((s.subst.storedWatchers v).foldl adopt (pending, s.reveal v)).2.burden ≤ pending.length + s.burden := by
  obtain ⟨subst, domains, size, length⟩ := adoptAll_frame (s.subst.storedWatchers v) (pending, s.reveal v)
  have burden := burden_congr subst domains
  have fall := burden_reveal absent
  have same : (s.reveal v).props.size = s.props.size := rfl
  unfold stock
  unfold Subst.watchCost at fall
  dsimp only at *
  omega

theorem stock_loadAll (n : Nat) : ∀ (pending : List Var) (s : Solver), (loadAll n pending s).stock ≤ s.stock := by
  induction n with
  | zero => exact fun pending s => by cases pending <;> exact Nat.le_refl _
  | succ n ih =>
    intro pending s
    cases pending with
    | nil => exact Nat.le_refl _
    | cons v pending =>
      by_cases present : v ∈ s.domains
      · rw [loadAll_of_mem present]
        exact ih pending s
      · rw [loadAll_of_not_mem present]
        exact Nat.le_trans (ih _ _) (adoptAll_reveal present pending).1

/-- Loading has come to an end when its allowance is used up, whatever the solver: a larger one
    changes nothing. -/
theorem loadAll_of_le {m : Nat} (n : Nat) : ∀ (pending : List Var) (s : Solver), pending.length + s.burden ≤ n →
    n ≤ m → loadAll m pending s = loadAll n pending s := by
  induction n generalizing m with
  | zero =>
    intro pending s enough _
    cases pending with
    | nil => cases m <;> rfl
    | cons v pending =>
      rw [List.length_cons] at enough
      omega
  | succ n ih =>
    intro pending s enough le
    obtain ⟨m, rfl⟩ : ∃ k, m = k + 1 := ⟨m - 1, by omega⟩
    cases pending with
    | nil => rfl
    | cons v pending =>
      rw [List.length_cons] at enough
      by_cases present : v ∈ s.domains
      · rw [loadAll_of_mem present, loadAll_of_mem present]
        exact ih pending s (by omega) (by omega)
      · rw [loadAll_of_not_mem present, loadAll_of_not_mem present]
        have := (adoptAll_reveal present pending).2
        exact ih _ _ (by omega) (by omega)

theorem load_of_le {n : Nat} (s : Solver) (v : Var) (le : s.subst.watchCount + 1 ≤ n) :
    s.load v = if s.domains.contains v then s else loadAll n [v] s := by
  unfold load
  split
  · rfl
  · have := s.burden_le
    exact (loadAll_of_le _ [v] s (by rw [List.length_singleton]; omega) le).symm

theorem stock_load (s : Solver) (v : Var) : (s.load v).stock ≤ s.stock := by
  unfold load
  split
  · exact Nat.le_refl _
  · exact stock_loadAll _ _ s

theorem stock_domain (s : Solver) (v : Var) : (s.domain v).2.stock ≤ s.stock := by
  unfold Solver.domain
  cases s.resolve v with
  | free w => exact stock_load s w
  | value n => exact Nat.le_refl _
  | other => exact Nat.le_refl _

theorem stock_subscribe (s : Solver) (id : PropId) (v : Var) : (s.subscribe id v).stock ≤ s.stock := by
  unfold subscribe
  split
  · rename_i w _
    obtain ⟨m, eq⟩ := (s.load w).addSubscriber_eq id w
    rw [eq]
    exact stock_load s w
  · exact Nat.le_refl _

theorem agenda_subscribe (s : Solver) (id : PropId) (v : Var) : (s.subscribe id v).agenda = s.agenda :=
  agenda_subscribeAll id [v] s

/-! ## What waits -/

/-- Only propagators wait. -/
structure Primed (s : Solver) : Prop where
  coherent : s.agenda.Coherent
  waits : ∀ id, s.agenda.Waits id → ∃ p, s.prop? id = some p

namespace Primed

theorem length_le (h : s.Primed) : s.agenda.length ≤ s.props.size :=
  h.coherent.length_le fun id waits => by
    obtain ⟨p, found⟩ := h.waits id waits
    exact (Array.getElem?_eq_some_iff.mp found).1

theorem grow (h : s.Primed) (agenda : t.agenda = s.agenda)
    (props : ∀ id p, s.prop? id = some p → ∃ q, t.prop? id = some q) : t.Primed := by
  refine ⟨agenda ▸ h.coherent, fun id waits => ?_⟩
  obtain ⟨p, found⟩ := h.waits id (agenda ▸ waits)
  exact props id p found

theorem enqueue (h : s.Primed) (id : PropId) : (s.enqueue id).Primed := by
  unfold Solver.enqueue
  split
  · rename_i p found
    refine ⟨h.coherent.push _ _, fun j waits => ?_⟩
    rcases Agenda.waits_push.mp waits with rfl | waits
    · exact ⟨p, found⟩
    · exact h.waits j waits
  · exact h

theorem excite (h : s.Primed) (v : Var) : (s.excite v).Primed :=
  List.foldlRecOn (motive := fun t : Solver => t.Primed) _ _ h fun _ primed id _ => primed.enqueue id

theorem pop (h : s.Primed) {a : Agenda} (popped : s.agenda.pop? = some (id, a)) :
    ({ s with agenda := a } : Solver).Primed :=
  ⟨h.coherent.pop popped, fun j waits => h.waits j ((Agenda.waits_pop popped).mp waits).2⟩

end Primed

/-! ## What bounds all runs -/

/-- The propagator has constants of 64 bits, and its unbound variables are in the list. -/
structure Listed (s : Solver) (L : List Var) (p : Propagator) : Prop where
  sized : p.val.Sized
  named : ∀ v ∈ p.val.vars, ∀ w, s.resolve v = .free w → w ∈ L

theorem Listed.congr (h : s.Listed L p) (resolve : t.resolve = s.resolve) : t.Listed L p :=
  ⟨h.sized, by rw [resolve]; exact h.named⟩

/-- The list has all variables that runs can narrow, and `B` is no less than the number of
    propagators that they can bring to work. -/
structure Supplied (L : List Var) (B : Nat) (s : Solver) : Prop where
  tidy : s.Tidy
  primed : s.Primed
  work : ∀ p, s.AtWork p → s.Listed L p
  stored : ∀ v, ∀ p ∈ s.subst.storedWatchers v, s.Listed L p
  stock : s.stock ≤ B

/-- What the second solver has changed in the course of a run: it has brought stored propagators
    to work at most, and narrowed domains, and only if a domain of the list has shrunk has it
    woken propagators. -/
structure Paced (L : List Var) (B : Nat) (s t : Solver) : Prop where
  bindings : t.subst.bindings = s.subst.bindings
  attrs : t.subst.attrs = s.subst.attrs
  primed : t.Primed
  work : ∀ p, t.AtWork p → s.Listed L p
  stock : t.stock ≤ B
  mem_peek : ∀ w n, n ∈ t.peek w → n ∈ s.peek w
  woken : t.agenda = s.agenda ∨ ∃ w ∈ L, ∃ n ∈ s.peek w, n ∉ t.peek w

theorem Supplied.paced (h : s.Supplied L B) : Paced L B s s :=
  ⟨rfl, rfl, h.primed, h.work, h.stock, fun _ _ mem => mem, .inl rfl⟩

/-- A propagator that takes the place of another one has its number. -/
theorem size_replaceWith (s : Solver) (id : PropId) (r : Relation) :
    Narrow.Leaves s (Narrow.replaceWith id r) fun _ t => t.props.size = s.props.size := by
  intro _ t run
  cases run
  change (({ s with subst := (s.subst.stamped r).2 } : Solver).replace id (s.subst.stamped r).1).props.size = _
  unfold Solver.replace
  split
  · rfl
  · exact Array.size_setIfInBounds

namespace Paced

theorem resolve (h : Paced L B s t) : t.resolve = s.resolve := resolve_of_bindings h.bindings

theorem storedWatchers (h : Paced L B s t) : t.subst.storedWatchers = s.subst.storedWatchers := by
  funext v
  unfold Subst.storedWatchers Subst.attributes
  rw [h.attrs]

/-- Loading goes on with a run. -/
theorem grow (h : Paced L B s t) (base : s.Supplied L B) (grows : t.Grows u) (draws : t.Draws (fun _ => False) u)
    (agenda : u.agenda = t.agenda) (stock : u.stock ≤ t.stock) : Paced L B s u where
  bindings := by rw [draws.subst]; exact h.bindings
  attrs := by rw [draws.subst]; exact h.attrs
  primed := h.primed.grow agenda fun id p found => ⟨p, grows.props id p found⟩
  work p at_work := by
    rcases draws.work p at_work with before | none | ⟨w, stored⟩
    · exact h.work p before
    · exact none.elim
    · rw [h.storedWatchers] at stored
      exact base.stored w p stored
  stock := Nat.le_trans stock h.stock
  mem_peek w n mem := h.mem_peek w n (grows.peek w ▸ mem)
  woken := by
    rw [agenda]
    refine h.woken.imp_right ?_
    rintro ⟨w, in_L, n, before, gone⟩
    exact ⟨w, in_L, n, before, by rwa [grows.peek]⟩

/-- A domain of the list shrinks, and the subscribers of its variable are woken. -/
theorem narrowTo (h : Paced L B s t) (tidy : t.Tidy) (found : t.resolve v = .free w) (loaded : w ∈ t.domains)
    (in_L : w ∈ L) (canonical : d.Canonical) (sub : ∀ n ∈ d, n ∈ t.current w) (differ : d ≠ t.current w) :
    Paced L B s ((t.narrowTo w d).excite w) := by
  obtain ⟨a, eq⟩ := (t.narrowTo w d).excite_eq w
  have root := tidy.root v w found
  have at_w : t.peek w = t.current w := peek_of_free root
  have peek (x : Var) : ((t.narrowTo w d).excite w).peek x = if t.resolve x = .free w then d else t.peek x := by
    rw [((t.narrowTo w d).matched_excite w).1.peek]
    exact t.peek_narrowTo w d x
  have smaller (x : Var) (n : Int) (mem : n ∈ ((t.narrowTo w d).excite w).peek x) : n ∈ t.peek x := by
    rw [peek] at mem
    split at mem
    · rename_i at_x
      rw [peek_of_free at_x]
      exact sub n mem
    · exact mem
  have primed : (t.narrowTo w d).Primed := h.primed.grow rfl fun id p found => ⟨p, found⟩
  refine
    { bindings := by rw [eq]; exact h.bindings
      attrs := by rw [eq]; exact h.attrs
      primed := primed.excite w
      work := by rw [eq]; exact h.work
      stock := ?_
      mem_peek := fun x n mem => h.mem_peek x n (smaller x n mem)
      woken := .inr ⟨w, in_L, ?_⟩ }
  · refine Nat.le_trans ?_ h.stock
    have burden : ((t.narrowTo w d).excite w).burden = t.burden := by
      rw [eq]
      unfold burden
      refine congrArg List.sum (List.map_congr_left fun x _ => ?_)
      have same : (t.narrowTo w d).domains.contains x = t.domains.contains x := by
        rw [Bool.eq_iff_iff, Std.ExtTreeMap.contains_iff_mem, Std.ExtTreeMap.contains_iff_mem]
        refine Std.ExtTreeMap.mem_insert.trans ⟨fun mem => mem.elim (fun same => ?_) id, .inr⟩
        exact Std.compare_eq_iff_eq.mp same ▸ loaded
      change (if (t.narrowTo w d).domains.contains x then 0 else _) = _
      rw [same]
      rfl
    unfold Solver.stock
    rw [burden, eq]
    exact Nat.le_refl _
  · -- Both domains are in their one form, so they differ in a value.
    have strict : ∃ n, n ∈ t.peek w ∧ n ∉ d := by
      by_contra none
      refine differ (canonical.ext (at_w ▸ tidy.canonical w) fun n => ⟨sub n, fun mem => ?_⟩)
      by_contra gone
      exact none ⟨n, at_w ▸ mem, gone⟩
    obtain ⟨n, mem, gone⟩ := strict
    exact ⟨n, h.mem_peek w n mem, by rwa [peek, if_pos root]⟩

/-- Going on as another relation wakes nothing. -/
theorem replace (h : Paced L B s t) (sized : r.Sized)
    (named : ∀ v ∈ r.vars, ∀ w, s.resolve v = .free w → w ∈ L) :
    Narrow.Leaves t (Narrow.replaceWith id r) fun _ u => Paced L B s u := by
  obtain ⟨u, run, bindings, attrs, domains, -, agenda, others, this⟩ := t.replaceWith_spec id r
  intro _ u' run'
  cases run.symm.trans run'
  have matched := matched_of_eq bindings attrs domains
  have slots (j : PropId) (q : Propagator) (found : u.prop? j = some q) : t.prop? j = some q ∨ q.val = r := by
    by_cases same : j = id
    · rw [same] at found
      rw [found, Option.map_some] at this
      obtain ⟨_, _, eq⟩ := Option.map_eq_some_iff.mp this.symm
      exact .inr eq.symm
    · exact .inl (others j same ▸ found)
  refine
    { bindings := bindings.trans h.bindings
      attrs := attrs.trans h.attrs
      primed := h.primed.grow agenda fun j q found => ?_
      work := ?_
      stock := Nat.le_trans (Nat.le_of_eq ?_) h.stock
      mem_peek := by rw [matched.peek]; exact h.mem_peek
      woken := by rw [agenda, matched.peek]; exact h.woken }
  · by_cases same : j = id
    · rw [same] at found ⊢
      rw [found, Option.map_some, Option.map_eq_some_iff] at this
      exact this.imp fun q at_id => at_id.1
    · exact ⟨q, (others j same).trans found⟩
  · rintro q ⟨j, found⟩
    rcases slots j q found with before | rfl
    · exact h.work q ⟨j, before⟩
    · exact ⟨sized, named⟩
  · have size := size_replaceWith t id r () u run
    unfold Solver.stock
    rw [size, burden_of_attrs attrs domains]

end Paced

/-! ## One run -/

/-- All that a run does is paced. -/
theorem Supplied.steps (h : s.Supplied L B) (listed : ∀ v ∈ r.vars, ∀ w, s.resolve v = .free w → w ∈ L)
    (id : PropId) : Steps (s.Names r) id (Paced L B s) where
  domain t v paced := paced.grow h (t.domain_spec v).2 (draws_domain t v) (agenda_domain t v) (stock_domain t v)
  narrow t v w d paced tidy named found loaded canonical sub differ := by
    obtain ⟨u, in_r, same⟩ := named
    refine paced.narrowTo tidy found loaded (listed u in_r w ?_) canonical sub differ
    rw [same, ← paced.resolve, found]
  subscribe t v paced := paced.grow h (t.grows_subscribe id v) (draws_subscribe t id v) (agenda_subscribe t id v)
    (stock_subscribe t id v)
  replace t q paced sized named := paced.replace sized fun v mem w found => by
    obtain ⟨u, in_r, same⟩ := named v mem
    exact listed u in_r w (same.trans found)

/-- What is left to do at most: what waits, and what every further change of the domains of `L`
    can wake. -/
def effort (L : List Var) (B : Nat) (s : Solver) : Nat := s.agenda.length + B * (L.map fun w => (s.peek w).room).sum

/-- A run costs nothing but what its domains lose. -/
theorem Paced.effort_le (h : Paced L B s t) (tidy : s.Tidy) (tidy' : t.Tidy) : t.effort L B ≤ s.effort L B := by
  have le (w : Var) : (t.peek w).room ≤ (s.peek w).room :=
    Domain.room_le_of_subset (tidy'.canonical w) (tidy.canonical w) (h.mem_peek w)
  unfold effort
  rcases h.woken with same | ⟨w, in_L, n, before, gone⟩
  · have := Nat.mul_le_mul_left B (sum_map_le (f := fun w => (s.peek w).room) L le)
    rw [same]
    omega
  · have lt : (t.peek w).room + 1 ≤ (s.peek w).room :=
      Domain.room_lt (tidy'.canonical w) (tidy.canonical w) (h.mem_peek w) fun same => gone (same ▸ before)
    have less := Nat.mul_le_mul_left B (sum_map_add_le (f := fun w => (s.peek w).room) L le in_L lt)
    have := h.primed.length_le
    have : t.props.size ≤ B := Nat.le_trans (Nat.le_add_right _ _) h.stock
    rw [Nat.mul_add, Nat.mul_one] at less
    omega

theorem Paced.supplied (h : Paced L B s t) (base : s.Supplied L B) (tidy : t.Tidy) : t.Supplied L B where
  tidy := tidy
  primed := h.primed
  work p at_work := (h.work p at_work).congr h.resolve
  stored v p mem := by
    rw [h.storedWatchers] at mem
    exact (base.stored v p mem).congr h.resolve
  stock := h.stock

/-- A propagator that gives up its subscriptions leaves everything else. -/
theorem unsubscribe_frame (s : Solver) (id : PropId) : ∃ m, s.unsubscribe id = { s with subscribers := m } := by
  cases found : s.prop? id with
  | none =>
    refine ⟨s.subscribers, ?_⟩
    simp only [unsubscribe, found]
  | some p =>
    rw [unsubscribe_of_found found]
    obtain ⟨m, eq, _⟩ := dropAll_spec id p.val.vars s
    exact ⟨m, eq⟩

/-- Subscriptions and what is taken off the agenda bound nothing. -/
theorem Supplied.congr (h : s.Supplied L B) (subst : t.subst = s.subst) (domains : t.domains = s.domains)
    (props : t.props = s.props) (primed : t.Primed) : t.Supplied L B := by
  have matched := matched_of_eq (s := s) (t := t) (by rw [subst]) (by rw [subst]) domains
  refine ⟨matched.tidy h.tidy, primed, ?_, ?_, ?_⟩
  · rintro p ⟨id, found⟩
    rw [prop?, props] at found
    exact (h.work p ⟨id, found⟩).congr matched.resolve
  · rw [subst]
    exact fun v p mem => (h.stored v p mem).congr matched.resolve
  · unfold Solver.stock
    rw [props, burden_congr subst domains]
    exact h.stock

/-- A run of a propagator that comes off the agenda ends, and leaves less to do. -/
theorem Supplied.step (h : s.Supplied L B) {a : Agenda} (popped : s.agenda.pop? = some (id, a)) :
    Narrow.Ensures (fun _ => False) ({ s with agenda := a } : Solver) (Narrow.runNumbered id) fun _ t =>
      t.Supplied L B ∧ t.effort L B < s.effort L B := by
  have fewer : a.length < s.agenda.length := by
    have := Agenda.length_of_pop popped
    omega
  have base : ({ s with agenda := a } : Solver).Supplied L B := h.congr rfl rfl rfl (h.primed.pop popped)
  have less : ({ s with agenda := a } : Solver).effort L B < s.effort L B := by
    have : ({ s with agenda := a } : Solver).peek = s.peek := (matched_of_eq rfl rfl rfl).peek
    unfold effort
    rw [this]
    exact Nat.add_lt_add_right fewer _
  generalize ({ s with agenda := a } : Solver) = t at *
  unfold Narrow.runNumbered
  refine Narrow.Ensures.step (a := t) (t := t) rfl ?_
  cases found : t.prop? id with
  | none => exact Narrow.Ensures.pure ⟨base, less⟩
  | some p =>
    refine Narrow.Ensures.step (a := ()) (t := t.unsubscribe id) rfl ?_
    obtain ⟨m, eq⟩ := t.unsubscribe_frame id
    have primed : (t.unsubscribe id).Primed :=
      base.primed.grow (by rw [eq]) fun j q at_j => ⟨q, by rw [eq]; exact at_j⟩
    have ready : (t.unsubscribe id).Supplied L B := base.congr (by rw [eq]) (by rw [eq]) (by rw [eq]) primed
    have same : (t.unsubscribe id).effort L B = t.effort L B := by
      have : (t.unsubscribe id).peek = t.peek := (matched_of_eq (by rw [eq]) (by rw [eq]) (by rw [eq])).peek
      unfold effort
      rw [this, eq]
    have slot : (t.unsubscribe id).prop? id = some p := by rw [eq]; exact found
    generalize t.unsubscribe id = u at *
    have listed := ready.work p ⟨id, slot⟩
    have working : u.Working { u.selection p.val with frame := Paced L B u } id p.val :=
      { ready.tidy.working slot listed.sized with
        steps := ready.steps listed.named id
        framed := ready.paced }
    refine (working.propagate.of_models fun _ => False.elim).mono ?_
    rintro _ w ⟨⟨q, after, -⟩, -⟩
    have := after.framed.effort_le ready.tidy after.tidy
    exact ⟨after.framed.supplied ready after.tidy, by omega⟩

/-! ## The loop -/

/-- The loop ends within what is left to do, and then nothing waits. -/
theorem Supplied.runWaiting (n : Nat) : ∀ s : Solver, s.Supplied L B → s.effort L B < n →
    Narrow.Ensures (fun _ => False) s (Narrow.runWaiting n) fun _ t => t.Supplied L B ∧ t.isQuiescent = true := by
  induction n with
  | zero => exact fun s _ less => absurd less (Nat.not_lt_zero _)
  | succ n ih =>
    intro s h less
    unfold Narrow.runWaiting
    cases popped : s.agenda.pop? with
    | none =>
      refine Narrow.Ensures.step (a := none) (t := s) ?_ (Narrow.Ensures.pure ⟨h, Agenda.isEmpty_of_pop popped⟩)
      rw [Narrow.nextWaiting, modifyGet_apply, popped]
    | some entry =>
      obtain ⟨id, a⟩ := entry
      refine Narrow.Ensures.step (a := some id) (t := { s with agenda := a }) ?_ ?_
      · rw [Narrow.nextWaiting, modifyGet_apply, popped]
      · refine (h.step popped).bind ?_
        rintro _ t ⟨supplied, smaller⟩
        exact ih t supplied (by omega)

/-! ## The start -/

/-- The unbound variables of the stored propagators. -/
def storedVars (s : Solver) : List Var :=
  s.subst.attributedVars.flatMap fun v => (s.subst.storedWatchers v).flatMap fun p => p.val.vars.filterMap fun w =>
    match s.resolve w with
    | .free u => some u
    | _ => none

theorem mem_storedVars (stored : p ∈ s.subst.storedWatchers v) {x : Var} (mem : x ∈ p.val.vars)
    (free : s.resolve x = .free w) : w ∈ s.storedVars := by
  have attributed : v ∈ s.subst.attributedVars := by
    by_contra bare
    rw [Subst.attributedVars, Std.ExtTreeMap.mem_keys] at bare
    simp [Subst.storedWatchers, Subst.attributes, Std.ExtTreeMap.getElem?_eq_none bare] at stored
  refine List.mem_flatMap.mpr ⟨v, attributed, List.mem_flatMap.mpr ⟨p, stored, ?_⟩⟩
  refine List.mem_filterMap.mpr ⟨x, mem, ?_⟩
  rw [free]

theorem length_storedVars_le (s : Solver) : s.storedVars.length ≤ s.subst.watchCount := by
  rw [Subst.watchCount_eq, storedVars, List.length_flatMap]
  refine sum_map_le _ fun v => ?_
  rw [List.length_flatMap]
  exact sum_map_le _ fun p => Nat.le_succ_of_le (List.length_filterMap_le _ _)

/-- A solver that can be run: only propagators wait, and the constants of those at work and of
    the stored ones have 64 bits. -/
structure Ready (s : Solver) : Prop where
  tidy : s.Tidy
  primed : s.Primed
  work : ∀ p, s.AtWork p → p.val.Sized
  stored : ∀ v, ∀ p ∈ s.subst.storedWatchers v, p.val.Sized

theorem Supplied.ready (h : s.Supplied L B) : s.Ready :=
  ⟨h.tidy, h.primed, fun p at_work => (h.work p at_work).sized, fun v p mem => (h.stored v p mem).sized⟩

namespace Ready

/-- What can be narrowed and what can be brought to work is counted by the mentions. -/
theorem supplied (h : s.Ready) : s.Supplied (s.workVars ++ s.storedVars) s.mentions where
  tidy := h.tidy
  primed := h.primed
  work p at_work :=
    ⟨h.work p at_work, fun _ mem _ free => List.mem_append.mpr (.inl (mem_workVars at_work mem free))⟩
  stored v p mem :=
    ⟨h.stored v p mem, fun _ mem' _ free => List.mem_append.mpr (.inr (mem_storedVars mem mem' free))⟩
  stock := Nat.le_trans (Nat.add_le_add_left s.burden_le _) s.size_props_le

/-- The budget of a fixpoint is above what is left to do. -/
theorem effort_lt (h : s.Ready) : s.effort (s.workVars ++ s.storedVars) s.mentions < s.runBudget := by
  have few : (s.workVars ++ s.storedVars).length ≤ s.mentions := by
    have := s.length_workVars_le
    have := s.length_storedVars_le
    rw [List.length_append]
    omega
  generalize s.workVars ++ s.storedVars = L at few ⊢
  have rooms : (L.map fun w => (s.peek w).room).sum ≤ L.length * Domain.maxChanges :=
    sum_map_le_mul L fun w => (h.tidy.canonical w).room_le
  have whole := Nat.mul_le_mul_left s.mentions (Nat.le_trans rooms (Nat.mul_le_mul_right Domain.maxChanges few))
  rw [← Nat.mul_assoc] at whole
  unfold effort runBudget
  omega

/-- A run to a fixpoint ends, with a solver that can be run again. -/
theorem fixpoint (h : s.Ready) :
    Narrow.Ensures (fun _ => False) s Narrow.fixpoint fun _ t => t.Ready ∧ t.isQuiescent = true := by
  unfold Narrow.fixpoint
  refine Narrow.Ensures.step (a := s) (t := s) rfl ?_
  refine (h.supplied.runWaiting _ s h.effort_lt).mono ?_
  rintro _ t ⟨supplied, quiet⟩
  exact ⟨supplied.ready, quiet⟩

/-! ## Requests -/

theorem grow {Q : Propagator → Prop} (h : s.Ready) (sized : ∀ p, Q p → p.val.Sized) (grows : s.Grows t)
    (draws : s.Draws Q t) (primed : t.Primed) : t.Ready where
  tidy := grows.matched.tidy h.tidy
  primed := primed
  work p at_work := by
    rcases draws.work p at_work with before | known | ⟨w, stored⟩
    · exact h.work p before
    · exact sized p known
    · exact h.stored w p stored
  stored := by rw [draws.subst]; exact h.stored

theorem domain (h : s.Ready) (v : Var) : (s.domain v).2.Ready := by
  have grows := (s.domain_spec v).2
  exact h.grow (fun _ => False.elim) grows (draws_domain s v)
    (h.primed.grow (agenda_domain s v) fun id p found => ⟨p, grows.props id p found⟩)

theorem post (h : s.Ready) (sized : p.val.Sized) : (s.post p).2.Ready := by
  refine h.grow (Q := fun q => q = p) (fun q same => same ▸ sized) (s.grows_post p) (draws_post s rfl) ?_
  have subscribed : (p.val.vars.foldl (fun t v => t.subscribe (s.intern p).1 v) (s.intern p).2.2).Primed := by
    refine List.foldlRecOn (motive := fun t : Solver => t.Primed) _ _ ?_ fun t primed v _ => ?_
    · exact h.primed.grow (agenda_intern s p) fun id q found => ⟨q, (s.grows_intern p).props id q found⟩
    · exact primed.grow (agenda_subscribe t _ v) fun id q found => ⟨q, (t.grows_subscribe _ v).props id q found⟩
  exact subscribed.enqueue _

theorem enqueue (h : s.Ready) (id : PropId) : (s.enqueue id).Ready := by
  have primed := h.primed.enqueue id
  obtain ⟨a, eq⟩ := s.enqueue_eq id
  rw [eq] at primed ⊢
  have matched : s.Matches { s with agenda := a } := matched_of_eq rfl rfl rfl
  exact ⟨matched.tidy h.tidy, primed, h.work, h.stored⟩

theorem wakeAll (h : s.Ready) : s.wakeAll.Ready :=
  List.foldlRecOn (motive := Ready) _ _ h fun _ ready i _ => ready.enqueue ⟨i⟩

/-- A reduction can be followed by a run, also if it has ended in a conflict. -/
theorem reduce (h : s.Ready) (canonical : d.Canonical)
    (ran : Narrow.reduce v d s = .ok () t ∨ Narrow.reduce v d s = .error .conflict t) : t.Ready := by
  rw [reduce_eq] at ran
  cases found : s.resolve v with
  | value n =>
    rw [found] at ran
    dsimp only [Narrow.require] at ran
    split at ran
    · rcases ran with ran | ran <;> cases ran
      exact h
    · rcases ran with ran | ran <;> cases ran
      exact h
  | other =>
    rw [found] at ran
    rcases ran with ran | ran <;> cases ran
    exact h
  | free w =>
    rw [found] at ran
    dsimp only at ran
    have asked := h.domain w
    have root := h.tidy.root v w found
    have canonical' : (s.domain w).1.Canonical := (s.domain_spec w).1 ▸ h.tidy.canonical w
    generalize (s.domain w).1 = current at *
    generalize (s.domain w).2 = u at *
    split at ran
    · rcases ran with ran | ran <;> cases ran
      exact asked
    split at ran
    · rcases ran with ran | ran <;> cases ran
      exact asked
    · rcases ran with ran | ran <;> cases ran
      change ((u.narrowTo w (current.intersect d)).excite w).Ready
      have narrowed : (u.narrowTo w (current.intersect d)).Ready := by
        refine ⟨⟨asked.tidy.root, fun x => ?_⟩, ?_, asked.work, asked.stored⟩
        swap
        · exact asked.primed.grow rfl fun id p found => ⟨p, found⟩
        rw [peek_narrowTo]
        split
        · exact Domain.canonical_intersect canonical' canonical
        · exact asked.tidy.canonical x
      obtain ⟨a, eq⟩ := (u.narrowTo w (current.intersect d)).excite_eq w
      have matched := ((u.narrowTo w (current.intersect d)).matched_excite w).1
      refine ⟨matched.tidy narrowed.tidy, narrowed.primed.excite w, ?_, ?_⟩
      · rw [eq]
        exact narrowed.work
      · rw [eq]
        exact narrowed.stored

end Ready

end Solver

namespace Subst

/-- The bindings have no cycle and bind to integers of 64 bits, the stored domains are in their
    one form, and the stored propagators are proper. -/
structure Formed (s : Subst) : Prop where
  acyclic : s.Acyclic
  sized : ∀ v t, s.get? v = some t → t.Sized
  canonical : ∀ v, (s.storedDomain v).Canonical
  proper : ∀ v, ∀ p ∈ s.storedWatchers v, p.val.Proper

theorem Produced.formed {s : Subst} (h : s.Produced) : s.Formed where
  acyclic := h.orderly.acyclic
  sized := h.orderly.sized
  canonical v := (h.orderly.canonical_storedDomain v).1
  proper v p mem := h.orderly.proper p (.inr ⟨v, mem⟩)

end Subst

namespace Solver

open Subst (leftBy eq_ok_of_succeeds eq_ok_of_isSome produced_of_post)

/-- The solvers that come of opening one on a substitution, asking for domains, posting
    propagators, reducing domains, waking all propagators, and running to fixpoints. -/
inductive Reached (subst : Subst) : Solver → Prop
  | new : Reached subst (.new subst)
  | domain {s} (v : Var) (h : Reached subst s) : Reached subst (s.domain v).2
  | post {s p} (h : Reached subst s) (proper : p.val.Proper) : Reached subst (s.post p).2
  | reduce {s t v d} (h : Reached subst s) (canonical : d.Canonical)
    (ran : Narrow.reduce v d s = .ok () t ∨ Narrow.reduce v d s = .error .conflict t) : Reached subst t
  | wakeAll {s} (h : Reached subst s) : Reached subst s.wakeAll
  | fixpoint {s t} (h : Reached subst s) (ran : Narrow.fixpoint s = .ok () t) : Reached subst t

variable {subst : Subst} {s t : Solver}

theorem Reached.ready (formed : subst.Formed) (h : Reached subst s) : s.Ready := by
  induction h with
  | new =>
    refine ⟨.new formed.acyclic formed.sized formed.canonical, ⟨Agenda.coherent_empty, fun id waits => ?_⟩, ?_, ?_⟩
    · exact absurd waits (Agenda.not_waits_empty id)
    · rintro p ⟨id, found⟩
      simp [Solver.new, prop?] at found
    · exact fun v p mem => (formed.proper v p mem).sized
  | domain v _ ih => exact ih.domain v
  | post _ proper ih => exact ih.post proper.sized
  | reduce _ canonical ran ih => exact ih.reduce canonical ran
  | wakeAll _ ih => exact ih.wakeAll
  | fixpoint _ ran ih => exact (ih.fixpoint.leaves () _ ran).1

/-- How a run to a fixpoint ends: nothing is left to run, there is a conflict, or an integer has
    left 64 bits. -/
def Ends : EStateM.Result Halt Solver Unit → Prop
  | .ok _ t => t.isQuiescent = true
  | .error .conflict _ => True
  | .error (.stop (.fault f)) _ => f.IsOverflow
  | .error (.stop .exhausted) _ => False

theorem ends_of_ensures {M : (Var → Term) → Prop} {m : Narrow Unit} {Q : Unit → Solver → Prop}
    (h : Narrow.Ensures M s m Q) (quiet : ∀ t, Q () t → t.isQuiescent = true) : Ends (m s) := by
  unfold Narrow.Ensures at h
  unfold Ends
  split <;> rename_i eq <;> rw [eq] at h
  · exact quiet _ h
  · trivial
  · exact h
  · exact h

/-- Whatever propagators are stored or have been posted, and whatever has been narrowed, a run to
    a fixpoint comes to an end within its budget of runs: any larger budget has the same outcome. -/
theorem Reached.fixpoint_ends (formed : subst.Formed) (h : Reached subst s) :
    Ends (Narrow.fixpoint s) ∧ ∀ n, s.runBudget ≤ n → Narrow.runWaiting n s = Narrow.fixpoint s := by
  have ensured := (h.ready formed).fixpoint
  refine ⟨ends_of_ensures ensured fun _ after => after.2, fun n le => ?_⟩
  have ended := ne_exhausted_of_ensures ensured
  rw [fixpoint_eq] at ended
  rw [runWaiting_of_le _ n s le ended, fixpoint_eq]

/-- The sum `_0 + _1 = _2` is stored. Where `_0` is narrowed to 2, it is loaded, goes on as the
    difference `_1 + 2 = _2`, and nothing is left to run. -/
theorem fixpoint_ends_sum : ∃ (subst : Subst) (s t : Solver), subst.Formed ∧ Reached subst s ∧
    (subst.storedWatchers ⟨0⟩).map Stamped.val = [.sum ⟨0⟩ ⟨1⟩ ⟨2⟩] ∧ Narrow.fixpoint s = .ok () t ∧
    (t.prop? ⟨0⟩).map Stamped.val = some (.plusConst ⟨1⟩ 2 ⟨2⟩) ∧ t.isQuiescent = true ∧
    ∀ n, s.runBudget ≤ n → Narrow.runWaiting n s = .ok () t := by
  let stamped := (Subst.empty.freshMany 3).2.stamped (Relation.sum ⟨0⟩ ⟨1⟩ ⟨2⟩)
  let subst := (stamped.2.solveWith [stamped.1]).toOption.getD Subst.empty
  have solved : stamped.2.solveWith [stamped.1] = .ok subst := eq_ok_of_isSome (by decide +kernel)
  have formed : subst.Formed := by
    refine (produced_of_post (r := .sum ⟨0⟩ ⟨1⟩ ⟨2⟩) (n := 3) trivial ?_).formed
    show Answers.ofAttempt (stamped.2.solveWith [stamped.1]) = _
    rw [solved]
    rfl
  let s := leftBy (Narrow.reduce ⟨0⟩ (.singleton 2) (.new subst))
  let t := leftBy (Narrow.fixpoint s)
  have reached : Reached subst s :=
    .reduce .new (canonical_singleton (by decide)) (.inl (eq_ok_of_succeeds (by decide +kernel)))
  have stored : (subst.storedWatchers ⟨0⟩).map Stamped.val = [.sum ⟨0⟩ ⟨1⟩ ⟨2⟩] := by decide +kernel
  have ran : Narrow.fixpoint s = .ok () t := eq_ok_of_succeeds (by decide +kernel)
  have at_work : (t.prop? ⟨0⟩).map Stamped.val = some (.plusConst ⟨1⟩ 2 ⟨2⟩) := by decide +kernel
  -- What was run to get here does not matter any more.
  clear_value subst s t
  obtain ⟨ends, same⟩ := @Reached.fixpoint_ends subst s formed reached
  rw [ran] at ends same
  exact ⟨subst, s, t, formed, reached, stored, ran, at_work, ends, same⟩

end Solver

end ConstraintLogic
