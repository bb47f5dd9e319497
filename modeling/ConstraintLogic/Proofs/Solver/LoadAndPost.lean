import ConstraintLogic.Proofs.Solver.States

/-!
# Loading and posting

Loading moves the domain and the propagators that are stored with a variable to
the solver, and goes on to the variables that these propagators mention. The
solver describes the same readings before and after, and the allowance of rounds
is never used up: a round takes a variable off the stack, and the variables that
it puts there were counted for the variable that it loads.

Results:
* `Solver.Grows`: what loading leaves as it is.
* `Solver.Sound.load`: loading keeps the state in order and the readings.
* `Solver.Sound.post`: posting adds one propagator.
-/

namespace ConstraintLogic

namespace Subst

/-- How often the propagators that are stored with the variable name one. -/
def watchCost (s : Subst) (v : Var) : Nat :=
  ((s.storedWatchers v).map fun p => p.val.vars.length + 1).sum

theorem watchCost_of_not_attributed {s : Subst} {v : Var} (h : v ∉ s.attributedVars) :
    s.watchCost v = 0 := by
  rw [attributedVars, Std.ExtTreeMap.mem_keys] at h
  simp [watchCost, storedWatchers, attributes, Std.ExtTreeMap.getElem?_eq_none h]

theorem foldl_add_eq {α : Type} (f : α → Nat) (l : List α) (n : Nat) :
    l.foldl (fun n a => n + f a) n = n + (l.map f).sum := by
  induction l generalizing n with
  | nil => rfl
  | cons a l ih => rw [List.foldl_cons, ih, List.map_cons, List.sum_cons, Nat.add_assoc]

/-- The count of mentions is the sum over the variables with attributes. -/
theorem watchCount_eq (s : Subst) : s.watchCount = (s.attributedVars.map s.watchCost).sum := by
  have whole (f : Nat → Var × Attributes → Nat) (l : List (Var × Attributes)) (n : Nat)
      (cost : ∀ a ∈ l, ∀ n, f n a = n + s.watchCost a.1) :
      l.foldl f n = n + (l.map fun a => s.watchCost a.1).sum := by
    induction l generalizing n with
    | nil => rfl
    | cons a l ih =>
      rw [List.foldl_cons, cost a (by simp), ih _ fun b mem => cost b (by simp [mem]), List.map_cons,
        List.sum_cons, Nat.add_assoc]
  unfold watchCount attributedVars
  rw [Std.ExtTreeMap.foldl_eq_foldl_toList, ← Std.ExtTreeMap.map_fst_toList_eq_keys, List.map_map]
  refine (whole _ _ 0 fun a mem n => ?_).trans (Nat.zero_add _)
  have found : s.attrs[a.1]? = some a.2 := Std.ExtTreeMap.mem_toList_iff_getElem?_eq_some.mp mem
  simp only [watchCost, storedWatchers, attributes, found, Option.getD_some]
  cases a.2.watchers with
  | some b => exact foldl_add_eq _ _ n
  | none => rfl

end Subst

namespace Solver

/-- All that was known to the first solver is known to the second in the same way,
    which may have loaded more and have more subscriptions. -/
structure Grows (s t : Solver) : Prop where
  subst : t.subst = s.subst
  domains : ∀ (w : Var) (d : Domain), s.domains[w]? = some d → t.domains[w]? = some d
  current : ∀ w, t.current w = s.current w
  props : ∀ id p, s.prop? id = some p → t.prop? id = some p
  subscribers : ∀ w, ∀ id ∈ s.subscribersOf w, id ∈ t.subscribersOf w
  agenda : ∀ id, s.agenda.Waits id → t.agenda.Waits id

variable {K : Scope} {E : PropId → Prop} {P : Var → Prop} {s t u : Solver}

namespace Grows

theorem refl (s : Solver) : s.Grows s :=
  ⟨rfl, fun _ _ h => h, fun _ => rfl, fun _ _ h => h, fun _ _ h => h, fun _ h => h⟩

theorem trans (h : s.Grows t) (g : t.Grows u) : s.Grows u where
  subst := g.subst.trans h.subst
  domains w d found := g.domains w d (h.domains w d found)
  current w := (g.current w).trans (h.current w)
  props id p found := g.props id p (h.props id p found)
  subscribers w id mem := g.subscribers w id (h.subscribers w id mem)
  agenda id waits := g.agenda id (h.agenda id waits)

theorem resolve (h : s.Grows t) : t.resolve = s.resolve := resolve_congr (by rw [h.subst])

theorem peek (h : s.Grows t) (v : Var) : t.peek v = s.peek v := by
  unfold Solver.peek
  rw [h.resolve]
  split
  · exact h.current _
  · rfl
  · rfl

theorem mem_domains (h : s.Grows t) {w : Var} (mem : w ∈ s.domains) : w ∈ t.domains := by
  rw [Std.ExtTreeMap.mem_iff_isSome_getElem?, Option.isSome_iff_exists] at *
  obtain ⟨d, found⟩ := mem
  exact ⟨d, h.domains w d found⟩

theorem fits (h : s.Grows t) {vs : List Var} {σ : Assignment} (fits : t.Fits vs σ) :
    s.Fits vs σ := fits.of_peek h.resolve fun v _ mem => h.peek v ▸ mem

theorem live (h : s.Grows t) {id : PropId} {r : Relation} (live : s.Live id r) : t.Live id r := by
  rcases live with waits | ⟨w, ⟨d, found, open_⟩, mem⟩ | entails
  · exact .inl (h.agenda id waits)
  · exact .inr (.inl ⟨w, ⟨d, h.domains w d found, open_⟩, h.subscribers w id mem⟩)
  · exact .inr (.inr fun σ fits => entails σ (h.fits fits))

end Grows

theorem mem_domains_iff {w : Var} : w ∈ s.domains ↔ ∃ d, s.domains[w]? = some d := by
  rw [Std.ExtTreeMap.mem_iff_isSome_getElem?, Option.isSome_iff_exists]

theorem Sound.mono {F : PropId → Prop} {R : Var → Prop} (h : s.Sound K E P)
    (more : ∀ id, E id → F id) (more' : ∀ w, P w → R w) : s.Sound K F R :=
  { h with
    closed := fun p work v mem w found => (h.closed p work v mem w found).imp_right (more' w)
    live := fun id p found not_exempt => h.live id p found fun exempt =>
      not_exempt (more id exempt) }

theorem Sound.excuse {R : Var → Prop} (h : s.Sound K E P) (more : ∀ w, P w → R w) :
    s.Sound K E R := h.mono (fun _ exempt => exempt) more

/-- Readings are admitted by what is bound, loaded and at work. -/
theorem admits_congr (subst : t.subst = s.subst) (domains : t.domains = s.domains)
    (props : t.props = s.props) {θ : Var → Term} : t.Admits K θ ↔ s.Admits K θ := by
  have current : t.current = s.current := by
    funext w
    rw [current, current, domains, subst]
  have work (p : Propagator) : t.AtWork p ↔ s.AtWork p := by
    unfold AtWork prop?
    rw [props]
  constructor
  · intro h
    refine ⟨h.reading, subst ▸ h.binding, fun w unbound => ?_, fun p at_work => ?_, ?_⟩
    · exact current ▸ h.domain w (subst ▸ unbound)
    · exact h.props p ((work p).mpr at_work)
    · have := h.stored
      rwa [domains, subst] at this
  · intro h
    refine ⟨h.reading, subst ▸ h.binding, fun w unbound => ?_, fun p at_work => ?_, ?_⟩
    · exact current ▸ h.domain w (subst ▸ unbound)
    · exact h.props p ((work p).mp at_work)
    · have := h.stored
      rwa [domains, subst]

/-! ## Subscribing -/

theorem subscribersOf_addSubscriber (s : Solver) (id : PropId) (v w : Var) :
    (s.addSubscriber id v).subscribersOf w =
      if v = w then
        if (s.subscribersOf v).contains id then s.subscribersOf v else s.subscribersOf v ++ [id]
      else s.subscribersOf w := by
  unfold addSubscriber
  by_cases met : (s.subscribersOf v).contains id = true
  · simp only [met, if_true]
    split
    · rename_i same
      rw [same]
    · rfl
  · simp only [met]
    simp only [subscribersOf, Bool.false_eq_true, if_false, Std.ExtTreeMap.getElem?_insert,
      Std.compare_eq_iff_eq]
    split <;> simp

theorem mem_subscribersOf_addSubscriber {id j : PropId} {v w : Var} :
    j ∈ (s.addSubscriber id v).subscribersOf w ↔
      j ∈ s.subscribersOf w ∨ (v = w ∧ j = id) := by
  rw [subscribersOf_addSubscriber]
  split
  · rename_i same
    subst same
    split
    · rename_i met
      rw [List.contains_iff_mem] at met
      constructor
      · exact .inl
      · rintro (mem | ⟨_, rfl⟩)
        · exact mem
        · exact met
    · simp
  · rename_i differ
    simp [differ]

/-- A subscription changes the subscriptions only. -/
theorem addSubscriber_eq (s : Solver) (id : PropId) (v : Var) :
    ∃ m, s.addSubscriber id v = { s with subscribers := m } := by
  unfold addSubscriber
  dsimp only
  split
  · exact ⟨s.subscribers, rfl⟩
  · exact ⟨_, rfl⟩

theorem grows_addSubscriber (s : Solver) (id : PropId) (v : Var) :
    s.Grows (s.addSubscriber id v) := by
  have more (w : Var) (j : PropId) (mem : j ∈ s.subscribersOf w) :
      j ∈ (s.addSubscriber id v).subscribersOf w := mem_subscribersOf_addSubscriber.mpr (.inl mem)
  obtain ⟨m, eq⟩ := s.addSubscriber_eq id v
  rw [eq] at more ⊢
  exact ⟨rfl, fun _ _ h => h, fun _ => rfl, fun _ _ h => h, more, fun _ h => h⟩

/-- A variable has no subscriber twice. -/
theorem nodup_subscribersOf_addSubscriber (distinct : ∀ u, (s.subscribersOf u).Nodup) (id : PropId) (w u : Var) :
    ((s.addSubscriber id w).subscribersOf u).Nodup := by
  rw [subscribersOf_addSubscriber]
  split
  · split
    · exact distinct w
    · rename_i new
      rw [List.nodup_append_comm, List.singleton_append, List.nodup_cons]
      exact ⟨by simpa using new, distinct w⟩
  · exact distinct u

theorem Sound.addSubscriber (h : s.Sound K E P) {id : PropId} {p : Propagator}
    (found : s.prop? id = some p) {v w : Var} (mem : v ∈ p.val.vars)
    (free : s.resolve v = .free w) : (s.addSubscriber id w).Sound K E P := by
  have grows := s.grows_addSubscriber id w
  have distinct := nodup_subscribersOf_addSubscriber h.distinct id w
  have subscribed (u : Var) (j : PropId) (in_u : j ∈ (s.addSubscriber id w).subscribersOf u) :
      ∃ q, s.prop? j = some q ∧ ∃ v ∈ q.val.vars, s.resolve v = .free u := by
    rcases mem_subscribersOf_addSubscriber.mp in_u with old | ⟨rfl, rfl⟩
    · exact h.subscribed u j old
    · exact ⟨p, found, v, mem, free⟩
  have live (j : PropId) (q : Propagator) (found : s.prop? j = some q) (not_exempt : ¬E j) :=
    grows.live (h.live j q found not_exempt)
  obtain ⟨m, eq⟩ := s.addSubscriber_eq id w
  rw [eq] at distinct subscribed live ⊢
  exact ⟨h.base, h.loaded, h.closed, subscribed, distinct, h.interned, h.agenda, live⟩

/-- A propagator that is seen to be live needs no exemption. -/
theorem Sound.settle {id : PropId} (h : s.Sound K (fun j => j = id ∨ E j) P)
    (live : ∀ p, s.prop? id = some p → s.Live id p.val) : s.Sound K E P :=
  { h with
    live := fun j p found not_exempt => by
      by_cases same : j = id
      · subst same
        exact live p found
      · exact h.live j p found (by simp [same, not_exempt]) }

/-! ## Numbering -/

/-- The solver with `p` under the next number. -/
def enlist (s : Solver) (p : Propagator) : Solver :=
  { s with props := s.props.push p, interned := s.interned.insert p.stamp ⟨s.props.size⟩ }

theorem prop?_enlist (s : Solver) (p : Propagator) (id : PropId) :
    (s.enlist p).prop? id = if id = ⟨s.props.size⟩ then some p else s.prop? id := by
  simp only [prop?, enlist, Array.getElem?_push]
  by_cases here : id.index = s.props.size
  · simp [show id = ⟨s.props.size⟩ from by cases id; simp_all]
  · have : id ≠ ⟨s.props.size⟩ := fun same => here (by rw [same])
    simp [here, this]

theorem prop?_next (s : Solver) : s.prop? ⟨s.props.size⟩ = none := by simp [prop?]

theorem atWork_enlist {p q : Propagator} : (s.enlist p).AtWork q ↔ q = p ∨ s.AtWork q := by
  unfold AtWork
  constructor
  · rintro ⟨id, found⟩
    rw [prop?_enlist] at found
    split at found
    · exact .inl (Option.some.inj found).symm
    · exact .inr ⟨id, found⟩
  · rintro (rfl | ⟨id, found⟩)
    · exact ⟨⟨s.props.size⟩, by rw [prop?_enlist, if_pos rfl]⟩
    · refine ⟨id, ?_⟩
      rw [prop?_enlist, if_neg, found]
      rintro rfl
      rw [prop?_next] at found
      cases found

theorem grows_enlist (s : Solver) (p : Propagator) : s.Grows (s.enlist p) where
  subst := rfl
  domains _ _ h := h
  current _ := rfl
  props id q found := by
    rw [prop?_enlist, if_neg, found]
    rintro rfl
    rw [prop?_next] at found
    cases found
  subscribers _ _ h := h
  agenda _ h := h

/-- A carried propagator whose stamp has no number gets the next one. -/
theorem Sound.enlist (h : s.Sound K E P) {p : Propagator} (carried : s.subst.Carries (s.scope K) p)
    (new : s.interned[p.stamp]? = none) :
    (s.enlist p).Sound K (fun j => j = ⟨s.props.size⟩ ∨ E j)
      (fun w => P w ∨ ∃ v ∈ p.val.vars, s.resolve v = .free w) where
  base := by
    refine h.base.mono rfl fun q known => ?_
    rcases known with known | work
    · exact .inl (.inl known)
    · rcases atWork_enlist.mp work with rfl | work
      · exact carried
      · exact .inl (.inr work)
  loaded := h.loaded
  closed q work v mem w free := by
    rcases atWork_enlist.mp work with rfl | work
    · exact .inr (.inr ⟨v, mem, free⟩)
    · exact (h.closed q work v mem w free).imp_right .inl
  subscribed w id mem := by
    obtain ⟨q, found, mentions⟩ := h.subscribed w id mem
    exact ⟨q, (s.grows_enlist p).props id q found, mentions⟩
  distinct := h.distinct
  interned n id := by
    have next : ∀ q, s.prop? ⟨s.props.size⟩ ≠ some q := fun q found => by
      rw [prop?_next] at found
      cases found
    simp only [Solver.enlist, Std.ExtTreeMap.getElem?_insert, Std.compare_eq_iff_eq]
    change _ ↔ ∃ q, (s.enlist p).prop? id = some q ∧ q.stamp = n
    rw [prop?_enlist]
    by_cases same : p.stamp = n
    · subst same
      by_cases here : id = ⟨s.props.size⟩
      · simp [here]
      · have := h.interned p.stamp id
        rw [new] at this
        simp only [if_true, Option.some.injEq, here, if_false, Ne.symm here, false_iff]
        simpa using this
    · by_cases here : id = ⟨s.props.size⟩
      · have := h.interned n id
        simp only [same, if_false, here, if_true, Option.some.injEq, exists_eq_left', iff_false]
        rw [here] at this
        rw [this]
        rintro ⟨q, found, _⟩
        exact next q found
      · simp only [same, if_false, here]
        exact h.interned n id
  agenda := h.agenda
  live id q found not_exempt := by
    rw [prop?_enlist, if_neg fun here => not_exempt (.inl here)] at found
    exact (s.grows_enlist p).live (h.live id q found fun exempt => not_exempt (.inr exempt))

theorem admits_enlist {p : Propagator} {θ : Var → Term} :
    (s.enlist p).Admits K θ ↔ s.Admits K θ ∧ p.val.HoldsOf θ := by
  constructor
  · intro h
    refine ⟨⟨h.reading, h.binding, h.domain, fun q work => ?_, h.stored⟩, ?_⟩
    · exact h.props q (atWork_enlist.mpr (.inr work))
    · exact h.props p (atWork_enlist.mpr (.inl rfl))
  · rintro ⟨h, holds⟩
    refine ⟨h.reading, h.binding, h.domain, fun q work => ?_, h.stored⟩
    rcases atWork_enlist.mp work with rfl | work
    · exact holds
    · exact h.props q work

/-- A carried propagator has its number already, or gets the next one. -/
theorem Sound.intern_cases (h : s.Sound K E P) {p : Propagator}
    (carried : s.subst.Carries (s.scope K) p) :
    (∃ id, s.intern p = (id, false, s) ∧ s.prop? id = some p) ∨
      s.intern p = (⟨s.props.size⟩, true, s.enlist p) ∧ s.interned[p.stamp]? = none := by
  unfold intern
  split
  · rename_i id met
    obtain ⟨q, found, same⟩ := (h.interned p.stamp id).mp met
    have := h.base.coherent q p (.inl (.inr ⟨id, found⟩)) carried same
    exact .inl ⟨id, rfl, this ▸ found⟩
  · rename_i new
    exact .inr ⟨rfl, new⟩

/-! ## Adopting -/

/-- Subscribes a propagator to what the variable stands for and puts that on the
    stack, if it is unbound. -/
def adoptVar (id : PropId) (state : List Var × Solver) (v : Var) : List Var × Solver :=
  match state.2.resolve v with
  | .free w => (w :: state.1, state.2.addSubscriber id w)
  | _ => state

theorem adopt_eq (pending : List Var) (s : Solver) (p : Propagator) :
    adopt (pending, s) p =
      match s.intern p with
      | (_, false, s) => (pending, s)
      | (id, true, s) => p.val.vars.foldl (adoptVar id) (pending, s) := by
  unfold adopt
  dsimp only
  obtain ⟨id, new, t⟩ := s.intern p
  cases new with
  | false => rfl
  | true =>
    dsimp only
    congr 1

/-- The variables of a numbered propagator are subscribed and stacked one by one. -/
theorem Sound.adoptVars {id : PropId} {p : Propagator} (vs : List Var) :
    ∀ (s : Solver) (pending : List Var), s.Sound K E P → s.prop? id = some p →
      (∀ v ∈ vs, v ∈ p.val.vars) →
      let r := vs.foldl (adoptVar id) (pending, s)
      r.2.Sound K E P ∧ s.Grows r.2 ∧ r.2.domains = s.domains ∧ r.2.props = s.props ∧
        r.1.length ≤ pending.length + vs.length ∧
        (∀ w, w ∈ r.1 ↔ w ∈ pending ∨ ∃ v ∈ vs, s.resolve v = .free w) ∧
        ∀ v ∈ vs, ∀ w, s.resolve v = .free w → id ∈ r.2.subscribersOf w := by
  induction vs with
  | nil =>
    intro s pending h _ _
    exact ⟨h, .refl s, rfl, rfl, by simp, by simp, by simp⟩
  | cons v vs ih =>
    intro s pending h found sub
    rw [List.foldl_cons, adoptVar]
    have rest (u : Var) (mem : u ∈ vs) : u ∈ p.val.vars := sub u (by simp [mem])
    split
    · rename_i w free
      have grows := s.grows_addSubscriber id w
      obtain ⟨m, eq⟩ := s.addSubscriber_eq id w
      obtain ⟨sound, grown, domains, props, length, stacked, subscribed⟩ :=
        ih (s.addSubscriber id w) (w :: pending) (h.addSubscriber found (sub v (by simp)) free)
          (grows.props id p found) rest
      refine ⟨sound, grows.trans grown, domains.trans (by rw [eq]), props.trans (by rw [eq]), ?_,
        fun u => ?_, fun u mem x free_u => ?_⟩
      · dsimp only [List.length_cons] at length ⊢
        omega
      · rw [stacked, grows.resolve]
        simp only [List.mem_cons, exists_eq_or_imp, free, Resolved.free.injEq]
        rw [or_assoc, or_left_comm, eq_comm]
      · rcases List.mem_cons.mp mem with rfl | mem
        · rw [free] at free_u
          cases free_u
          exact grown.subscribers _ _ (mem_subscribersOf_addSubscriber.mpr (.inr ⟨rfl, rfl⟩))
        · exact subscribed u mem x (grows.resolve ▸ free_u)
    · rename_i not_free
      obtain ⟨sound, grown, domains, props, length, stacked, subscribed⟩ :=
        ih s pending h found rest
      refine ⟨sound, grown, domains, props, ?_, fun u => ?_, fun u mem x free_u => ?_⟩
      · rw [List.length_cons]
        omega
      · have := not_free u
        rw [stacked]
        simp_all
      · rcases List.mem_cons.mp mem with rfl | mem
        · exact absurd free_u (not_free x)
        · exact subscribed u mem x free_u

/-- A stored propagator that mentions a variable without value is taken up: the
    readings have to satisfy it, and its variables are subscribed or stacked. -/
theorem Sound.adopt {pending : List Var} (h : s.Sound K E fun w => w ∈ pending ∨ P w)
    {p : Propagator} {v x : Var} (stored : p ∈ s.subst.storedWatchers v) (open_ : s.Unsolved v)
    (mem : x ∈ p.val.vars) (free : s.resolve x = .free v) :
    let r := Solver.adopt (pending, s) p
    (r.2.Sound K E fun w => w ∈ r.1 ∨ P w) ∧ s.Grows r.2 ∧ r.2.domains = s.domains ∧
      (∀ θ, r.2.Admits K θ ↔ s.Admits K θ ∧ p.val.HoldsOf θ) ∧
      r.1.length ≤ pending.length + p.val.vars.length ∧ (∀ w ∈ pending, w ∈ r.1) ∧
      ∀ w ∈ r.1, w ∈ pending ∨ s.subst.get? w = none := by
  have carried : s.subst.Carries (s.scope K) p := .inr ⟨v, stored⟩
  rw [adopt_eq]
  rcases h.intern_cases carried with ⟨id, eq, found⟩ | ⟨eq, new⟩
  · rw [eq]
    refine ⟨h, .refl s, rfl, fun θ => ?_, by simp, fun w mem => mem, fun w => .inl⟩
    exact ⟨fun admits => ⟨admits, admits.props p ⟨id, found⟩⟩, And.left⟩
  · rw [eq]
    have found : (s.enlist p).prop? ⟨s.props.size⟩ = some p := by rw [prop?_enlist, if_pos rfl]
    have grows := s.grows_enlist p
    obtain ⟨sound, grown, domains, props, length, stacked, subscribed⟩ :=
      (h.enlist carried new).adoptVars p.val.vars (s.enlist p) pending found fun _ => id
    refine ⟨?_, grows.trans grown, domains, fun θ => ?_, length,
      fun w before => (stacked w).mpr (.inl before), fun w in_stack => ?_⟩
    · refine (sound.excuse fun w excused => ?_).settle fun q found_q => ?_
      · rcases excused with (in_stack | later) | ⟨y, mem_y, free_y⟩
        · exact .inl ((stacked w).mpr (.inl in_stack))
        · exact .inr later
        · exact .inl ((stacked w).mpr (.inr ⟨y, mem_y, free_y⟩))
      · -- The new propagator subscribes to the variable that it was stored with.
        obtain ⟨d, at_v, no_value⟩ := open_
        refine .inr (.inl ⟨v, ⟨d, (grows.trans grown).domains v d at_v, no_value⟩, ?_⟩)
        exact subscribed x mem v free
    · rw [admits_congr grown.subst domains props]
      exact admits_enlist
    · refine ((stacked w).mp in_stack).imp_right fun ⟨y, _, free_y⟩ => ?_
      exact h.unbound_of_free free_y

/-- The propagators that are stored with a variable are taken up one by one. -/
theorem Sound.adoptAll {v : Var} (ps : List Propagator) :
    ∀ state : List Var × Solver, (state.2.Sound K E fun w => w ∈ state.1 ∨ P w) →
      (∀ p ∈ ps, p ∈ state.2.subst.storedWatchers v) → state.2.Unsolved v →
      let r := ps.foldl Solver.adopt state
      (r.2.Sound K E fun w => w ∈ r.1 ∨ P w) ∧ state.2.Grows r.2 ∧ r.2.domains = state.2.domains ∧
        (∀ θ, r.2.Admits K θ ↔ state.2.Admits K θ ∧ ∀ p ∈ ps, p.val.HoldsOf θ) ∧
        r.1.length ≤ state.1.length + (ps.map fun p => p.val.vars.length + 1).sum ∧
        (∀ w ∈ state.1, w ∈ r.1) ∧ ∀ w ∈ r.1, w ∈ state.1 ∨ state.2.subst.get? w = none := by
  induction ps with
  | nil =>
    intro state h _ _
    exact ⟨h, .refl _, rfl, by simp, by simp, fun w => id, fun w => .inl⟩
  | cons p ps ih =>
    rintro ⟨pending, s⟩ h stored open_
    dsimp only at h stored open_ ⊢
    obtain ⟨x, mem, free⟩ := h.base.mentions v p (stored p (by simp))
    obtain ⟨sound, grows, domains, admits, length, kept, stacked⟩ :=
      h.adopt (stored p (by simp)) open_ mem (resolve_eq_free_iff.mpr free)
    have open' : (Solver.adopt (pending, s) p).2.Unsolved v := by
      obtain ⟨d, at_v, no_value⟩ := open_
      exact ⟨d, grows.domains v d at_v, no_value⟩
    have stored' (q : Propagator) (mem : q ∈ ps) :
        q ∈ (Solver.adopt (pending, s) p).2.subst.storedWatchers v := by
      rw [grows.subst]
      exact stored q (by simp [mem])
    obtain ⟨sound', grows', domains', admits', length', kept', stacked'⟩ :=
      ih (Solver.adopt (pending, s) p) sound stored' open'
    refine ⟨sound', grows.trans grows', domains'.trans domains, fun θ => ?_, ?_,
      fun w before => kept' w (kept w before), fun w mem => ?_⟩
    · rw [List.foldl_cons, admits', admits, List.forall_mem_cons, and_assoc]
    · rw [List.foldl_cons, List.map_cons, List.sum_cons]
      omega
    · rcases stacked' w mem with before | unbound
      · exact stacked w before
      · exact .inr (grows.subst ▸ unbound)

/-! ## Rounds -/

/-- What the variables cost that are still to be loaded. -/
def burden (s : Solver) : Nat :=
  (s.subst.attributedVars.map fun w =>
    if s.domains.contains w then 0 else s.subst.watchCost w).sum

/-- The solver with the stored domain of `v` as a loaded one. -/
def reveal (s : Solver) (v : Var) : Solver :=
  { s with domains := s.domains.insert v (s.subst.storedDomain v) }

theorem getElem?_reveal (s : Solver) (v w : Var) :
    (s.reveal v).domains[w]? = if v = w then some (s.subst.storedDomain v) else s.domains[w]? := by
  simp [reveal, Std.ExtTreeMap.getElem?_insert]

theorem mem_reveal {v w : Var} : w ∈ (s.reveal v).domains ↔ v = w ∨ w ∈ s.domains := by
  simp [reveal]

theorem current_of_not_mem {w : Var} (absent : w ∉ s.domains) :
    s.current w = s.subst.storedDomain w := by
  rw [current, Std.ExtTreeMap.getElem?_eq_none absent, Option.getD_none]

theorem grows_reveal {v : Var} (absent : v ∉ s.domains) : s.Grows (s.reveal v) where
  subst := rfl
  domains w d found := by
    rw [getElem?_reveal, if_neg, found]
    rintro rfl
    exact absent (mem_domains_iff.mpr ⟨d, found⟩)
  current w := by
    by_cases same : v = w
    · subst same
      rw [current_of_not_mem absent]
      exact current_of_loaded (by rw [getElem?_reveal, if_pos rfl])
    · rw [current, current, getElem?_reveal, if_neg same]
      rfl
  props _ _ h := h
  subscribers _ _ h := h
  agenda _ h := h

theorem Sound.reveal {v : Var} (h : s.Sound K E fun w => v = w ∨ P w) (unbound : s.subst.get? v = none)
    (absent : v ∉ s.domains) : (s.reveal v).Sound K E P where
  base := h.base
  loaded w d found := by
    rw [getElem?_reveal] at found
    split at found
    · rename_i same
      cases found
      have stored := h.base.canonical_storedDomain v
      exact ⟨same ▸ unbound, stored.1, stored.2.1⟩
    · exact h.loaded w d found
  closed p work x mem w free := by
    rw [mem_reveal]
    rcases h.closed p work x mem w free with found | same | later
    · exact .inl (.inr found)
    · exact .inl (.inl same)
    · exact .inr later
  subscribed := h.subscribed
  distinct := h.distinct
  interned := h.interned
  agenda := h.agenda
  live id p found not_exempt := (grows_reveal absent).live (h.live id p found not_exempt)

/-- What is stored with a revealed variable is still to be taken up. -/
theorem admits_reveal {v : Var} (absent : v ∉ s.domains) {θ : Var → Term} :
    s.Admits K θ ↔
      (s.reveal v).Admits K θ ∧ ∀ p ∈ s.subst.storedWatchers v, p.val.HoldsOf θ := by
  have current := (grows_reveal absent).current
  constructor
  · intro h
    refine ⟨⟨h.reading, h.binding, fun w unbound => ?_, h.props, fun w out => ?_⟩, ?_⟩
    · exact current w ▸ h.domain w unbound
    · exact h.stored w fun mem => out (mem_reveal.mpr (.inr mem))
    · exact h.stored v absent
  · rintro ⟨h, holds⟩
    refine ⟨h.reading, h.binding, fun w unbound => ?_, h.props, fun w out => ?_⟩
    · exact current w ▸ h.domain w unbound
    · by_cases same : v = w
      · exact same ▸ holds
      · exact h.stored w fun mem => (mem_reveal.mp mem).elim same out

theorem sum_map_le {α : Type} {f g : α → Nat} (l : List α) (le : ∀ b, g b ≤ f b) :
    (l.map g).sum ≤ (l.map f).sum := by
  induction l with
  | nil => exact Nat.le_refl _
  | cons b l ih =>
    rw [List.map_cons, List.map_cons, List.sum_cons, List.sum_cons]
    have := le b
    omega

theorem sum_map_add_le {α : Type} {f g : α → Nat} {a : α} {c : Nat} (l : List α)
    (le : ∀ b, g b ≤ f b) (mem : a ∈ l) (drop : g a + c ≤ f a) :
    (l.map g).sum + c ≤ (l.map f).sum := by
  induction l with
  | nil => cases mem
  | cons b l ih =>
    rw [List.map_cons, List.map_cons, List.sum_cons, List.sum_cons]
    rcases List.mem_cons.mp mem with rfl | mem
    · have := sum_map_le l le
      omega
    · have := ih mem
      have := le b
      omega

/-- Revealing a variable takes its cost off the burden. -/
theorem burden_reveal {v : Var} (absent : v ∉ s.domains) :
    (s.reveal v).burden + s.subst.watchCost v ≤ s.burden := by
  have le (w : Var) : (if (s.reveal v).domains.contains w then 0 else s.subst.watchCost w) ≤
      if s.domains.contains w then 0 else s.subst.watchCost w := by
    simp only [Std.ExtTreeMap.contains_iff_mem, mem_reveal]
    split
    · exact Nat.zero_le _
    · rename_i out
      rw [if_neg fun mem => out (.inr mem)]
  by_cases attributed : v ∈ s.subst.attributedVars
  · refine sum_map_add_le _ le attributed ?_
    simp [mem_reveal, absent]
  · rw [Subst.watchCost_of_not_attributed attributed]
    exact sum_map_le _ le

theorem burden_congr (subst : t.subst = s.subst) (domains : t.domains = s.domains) :
    t.burden = s.burden := by rw [burden, burden, subst, domains]

theorem loadAll_of_mem {n : Nat} {v : Var} {pending : List Var} (present : v ∈ s.domains) :
    Solver.loadAll (n + 1) (v :: pending) s = Solver.loadAll n pending s := by
  rw [Solver.loadAll, if_pos (Std.ExtTreeMap.contains_iff_mem.mpr present)]

theorem loadAll_of_not_mem {n : Nat} {v : Var} {pending : List Var} (absent : v ∉ s.domains) :
    Solver.loadAll (n + 1) (v :: pending) s =
      let r := (s.subst.storedWatchers v).foldl Solver.adopt (pending, s.reveal v)
      Solver.loadAll n r.1 r.2 := by
  rw [Solver.loadAll, if_neg fun found => absent (Std.ExtTreeMap.contains_iff_mem.mp found)]
  rfl

/-- Loading everything that a stack leads to keeps the state in order and does not
    change what it describes. -/
theorem Sound.loadAll (n : Nat) : ∀ (s : Solver) (pending : List Var),
    (s.Sound K E fun w => w ∈ pending ∨ P w) → (∀ w ∈ pending, s.subst.get? w = none) →
    pending.length + s.burden ≤ n →
    let t := Solver.loadAll n pending s
    t.Sound K E P ∧ s.Grows t ∧ (∀ θ, t.Admits K θ ↔ s.Admits K θ) ∧ ∀ w ∈ pending, w ∈ t.domains := by
  have finished (s : Solver) (h : s.Sound K E fun w => w ∈ ([] : List Var) ∨ P w) :
      s.Sound K E P := h.excuse fun w => by simp
  induction n with
  | zero =>
    intro s pending h _ enough
    cases pending with
    | nil => exact ⟨finished s h, .refl s, fun _ => Iff.rfl, by simp⟩
    | cons v pending =>
      rw [List.length_cons] at enough
      omega
  | succ n ih =>
    intro s pending h unbound enough
    cases pending with
    | nil => exact ⟨finished s h, .refl s, fun _ => Iff.rfl, by simp⟩
    | cons v pending =>
      rw [List.length_cons] at enough
      have here := unbound v (by simp)
      have there (w : Var) (mem : w ∈ pending) := unbound w (by simp [mem])
      by_cases present : v ∈ s.domains
      · rw [loadAll_of_mem present]
        have sound : s.Sound K E fun w => w ∈ pending ∨ P w :=
          { h with
            closed := fun p work x mem w free => by
              rcases h.closed p work x mem w free with found | stacked | later
              · exact .inl found
              · rcases List.mem_cons.mp stacked with rfl | stacked
                · exact .inl present
                · exact .inr (.inl stacked)
              · exact .inr (.inr later) }
        obtain ⟨sound, grows, admits, loaded⟩ := ih s pending sound there (by omega)
        refine ⟨sound, grows, admits, fun w mem => ?_⟩
        rcases List.mem_cons.mp mem with rfl | mem
        · exact grows.mem_domains present
        · exact loaded w mem
      · rw [loadAll_of_not_mem present]
        have revealed : (s.reveal v).Sound K E fun w => w ∈ pending ∨ P w :=
          (h.excuse fun w excused => by
            simpa [or_assoc, eq_comm] using excused).reveal here present
        have open_ : (s.reveal v).Unsolved v :=
          ⟨_, by rw [getElem?_reveal, if_pos rfl], (h.base.canonical_storedDomain v).2.2⟩
        obtain ⟨sound, grows, domains, admits, length, kept, stacked⟩ :=
          Sound.adoptAll (s.subst.storedWatchers v) (pending, s.reveal v) revealed (fun _ => id) open_
        have fall := burden_reveal present
        rw [← burden_congr grows.subst domains] at fall
        -- The walk through the stack goes on with what adopting has left there.
        generalize eq : (s.subst.storedWatchers v).foldl Solver.adopt (pending, s.reveal v) = r at *
        have first : s.Grows r.2 := (grows_reveal present).trans grows
        have unbound' (w : Var) (mem : w ∈ r.1) : r.2.subst.get? w = none := by
          rw [first.subst]
          exact (stacked w mem).elim (there w) id
        obtain ⟨sound, grows', admits', loaded⟩ := ih r.2 r.1 sound unbound' (by
          unfold Subst.watchCost at fall
          dsimp only at length
          omega)
        refine ⟨sound, first.trans grows', fun θ => ?_, fun w mem => ?_⟩
        · rw [admits', admits, admits_reveal present]
        · rcases List.mem_cons.mp mem with rfl | mem
          · refine grows'.mem_domains ?_
            rw [domains]
            exact mem_reveal.mpr (.inl rfl)
          · exact loaded w (kept w mem)

/-! ## Loading -/

/-- The second solver is in order, has grown from the first one and describes the
    same readings. -/
structure Unfolds (K : Scope) (E : PropId → Prop) (P : Var → Prop) (s t : Solver) : Prop where
  sound : t.Sound K E P
  grows : s.Grows t
  admits : ∀ θ, t.Admits K θ ↔ s.Admits K θ

theorem Unfolds.refl (h : s.Sound K E P) : Unfolds K E P s s := ⟨h, .refl s, fun _ => Iff.rfl⟩

theorem Unfolds.trans {F : PropId → Prop} {R : Var → Prop} (h : Unfolds K F R s t)
    (g : Unfolds K E P t u) : Unfolds K E P s u :=
  ⟨g.sound, h.grows.trans g.grows, fun θ => (g.admits θ).trans (h.admits θ)⟩

theorem burden_le (s : Solver) : s.burden ≤ s.subst.watchCount := by
  rw [Subst.watchCount_eq]
  refine sum_map_le _ fun w => ?_
  split
  · exact Nat.zero_le _
  · exact Nat.le_refl _

/-- Loading an unbound variable only lets the solver know what was stored. -/
theorem Sound.load {v : Var} (h : s.Sound K E fun w => v = w ∨ P w)
    (unbound : s.subst.get? v = none) :
    Unfolds K E P s (s.load v) ∧ v ∈ (s.load v).domains := by
  unfold Solver.load
  split
  · rename_i present
    rw [Std.ExtTreeMap.contains_iff_mem] at present
    refine ⟨.refl { h with closed := fun p work x mem w free => ?_ }, present⟩
    rcases h.closed p work x mem w free with found | rfl | later
    · exact .inl found
    · exact .inl present
    · exact .inr later
  · have stacked : s.Sound K E fun w => w ∈ [v] ∨ P w :=
      h.excuse fun w excused => by simpa [eq_comm] using excused
    have := s.burden_le
    obtain ⟨sound, grows, admits, loaded⟩ := Sound.loadAll (s.subst.watchCount + 1) s [v] stacked
      (by simpa using unbound) (by rw [List.length_singleton]; omega)
    exact ⟨⟨sound, grows, admits⟩, loaded v (by simp)⟩

/-- The domain that is answered is the one that was known, loaded or not. -/
theorem Sound.domain (h : s.Sound K E P) (v : Var) :
    (s.domain v).1 = s.peek v ∧ Unfolds K E P s (s.domain v).2 ∧
      ∀ w, s.resolve v = .free w → w ∈ (s.domain v).2.domains := by
  unfold Solver.domain
  cases found : s.resolve v with
  | free w =>
    obtain ⟨unfolds, loaded⟩ := (h.excuse fun _ => .inr).load (h.unbound_of_free found)
    refine ⟨?_, unfolds, fun u same => ?_⟩
    · obtain ⟨d, at_w⟩ := mem_domains_iff.mp loaded
      rw [peek_of_free found, ← unfolds.grows.current w, current_of_loaded at_w]
      dsimp only
      rw [at_w, Option.getD_some]
    · cases same
      exact loaded
  | value n => exact ⟨by simp [peek, found], .refl h, fun _ same => by cases same⟩
  | other => exact ⟨by simp [peek, found], .refl h, fun _ same => by cases same⟩

/-- Where a variable is loaded, nothing happens when its domain is asked for. -/
theorem domain_of_loaded {v : Var} (h : ∀ w, s.resolve v = .free w → w ∈ s.domains) :
    s.domain v = (s.peek v, s) := by
  unfold Solver.domain peek
  cases found : s.resolve v with
  | free w =>
    obtain ⟨d, at_w⟩ := mem_domains_iff.mp (h w found)
    have same : s.load w = s := by
      rw [load, if_pos (Std.ExtTreeMap.contains_iff_mem.mpr (h w found))]
    simp [same, at_w, current_of_loaded at_w]
  | value n => rfl
  | other => rfl

/-! ## Posting -/

theorem Sound.subscribe {id : PropId} {p : Propagator} {v : Var}
    (h : s.Sound K E fun w => s.resolve v = .free w ∨ P w) (found : s.prop? id = some p)
    (mem : v ∈ p.val.vars) : Unfolds K E P s (s.subscribe id v) := by
  unfold Solver.subscribe
  cases free : s.resolve v with
  | free w =>
    obtain ⟨unfolds, loaded⟩ := Sound.load (h.excuse fun u excused => by
      simpa [free] using excused) (h.unbound_of_free free)
    have found' := unfolds.grows.props id p found
    have free' : (s.load w).resolve v = .free w := by rw [unfolds.grows.resolve, free]
    obtain ⟨m, eq⟩ := (s.load w).addSubscriber_eq id w
    refine unfolds.trans ⟨unfolds.sound.addSubscriber found' mem free',
      (s.load w).grows_addSubscriber id w, fun θ => ?_⟩
    dsimp only
    rw [eq]
    exact admits_congr (s := s.load w) (t := { s.load w with subscribers := m }) rfl rfl rfl
  | value n => exact .refl (h.excuse fun u excused => by simpa [free] using excused)
  | other => exact .refl (h.excuse fun u excused => by simpa [free] using excused)

theorem Sound.subscribeAll {id : PropId} {p : Propagator} (vs : List Var) :
    ∀ s : Solver, (s.Sound K E fun w => (∃ v ∈ vs, s.resolve v = .free w) ∨ P w) →
      s.prop? id = some p → (∀ v ∈ vs, v ∈ p.val.vars) →
      Unfolds K E P s (vs.foldl (fun s v => s.subscribe id v) s) := by
  induction vs with
  | nil => exact fun s h _ _ => .refl (h.excuse fun w => by simp)
  | cons v vs ih =>
    intro s h found sub
    have first : Unfolds K E (fun w => (∃ v ∈ vs, s.resolve v = .free w) ∨ P w) s
        (s.subscribe id v) :=
      Sound.subscribe (h.excuse fun w excused => by
        simpa [or_assoc] using excused) found (sub v (by simp))
    have sound := first.sound
    rw [← first.grows.resolve] at sound
    exact first.trans (ih _ sound (first.grows.props id p found) fun u mem => sub u (by simp [mem]))

theorem prop?_enqueue (s : Solver) (id j : PropId) : (s.enqueue id).prop? j = s.prop? j := by
  unfold enqueue
  split <;> rfl

/-- A propagator that is put on the agenda needs no exemption. -/
theorem Sound.enqueue {id : PropId} (h : s.Sound K (fun j => j = id ∨ E j) P) {p : Propagator}
    (found : s.prop? id = some p) : Unfolds K E P s (s.enqueue id) := by
  have eq : s.enqueue id = { s with agenda := s.agenda.push id p.val.priority } := by
    simp [Solver.enqueue, found]
  have grows : s.Grows { s with agenda := s.agenda.push id p.val.priority } :=
    ⟨rfl, fun _ _ h => h, fun _ => rfl, fun _ _ h => h, fun _ _ h => h,
      fun j waits => Agenda.waits_push.mpr (.inr waits)⟩
  have sound : Sound K (fun j => j = id ∨ E j) P
      { s with agenda := s.agenda.push id p.val.priority } :=
    { h with
      agenda := h.agenda.push id p.val.priority
      live := fun j q found not_exempt => grows.live (h.live j q found not_exempt) }
  rw [eq]
  refine ⟨sound.settle fun q _ => .inl (Agenda.waits_push.mpr (.inl rfl)), grows, fun θ => ?_⟩
  exact admits_congr (s := s) (t := { s with agenda := s.agenda.push id p.val.priority }) rfl rfl rfl

/-- Posting a known propagator adds that propagator to what has to be satisfied. -/
theorem Sound.post (h : s.Sound K E P) {p : Propagator} (known : K.known p) :
    (s.post p).2.Sound K E P ∧ s.Grows (s.post p).2 ∧
      ∀ θ, (s.post p).2.Admits K θ ↔ s.Admits K θ ∧ p.val.HoldsOf θ := by
  unfold Solver.post
  rcases h.intern_cases (.inl (.inl known)) with ⟨id, eq, found⟩ | ⟨eq, new⟩
  · rw [eq]
    have first := Sound.subscribeAll p.val.vars s (h.excuse fun _ => .inr) found
      fun _ mem => mem
    have second := (first.sound.mono (fun j => Or.inr) fun _ later => later).enqueue
      (first.grows.props id p found)
    have both := first.trans second
    refine ⟨both.sound, both.grows, fun θ => ?_⟩
    rw [both.admits]
    exact ⟨fun admits => ⟨admits, admits.props p ⟨id, found⟩⟩, And.left⟩
  · rw [eq]
    have found : (s.enlist p).prop? ⟨s.props.size⟩ = some p := by rw [prop?_enlist, if_pos rfl]
    have enlisted := (h.enlist (.inl (.inl known)) new).excuse fun _ => Or.symm
    have first := Sound.subscribeAll p.val.vars (s.enlist p) enlisted found fun _ mem => mem
    have second := first.sound.enqueue (first.grows.props _ p found)
    have both := first.trans second
    refine ⟨both.sound, (s.grows_enlist p).trans both.grows, fun θ => ?_⟩
    rw [both.admits]
    exact admits_enlist

end Solver

end ConstraintLogic
