import ConstraintLogic.Proofs.Solver.Termination

/-!
# What a solver overlooks

Of the attributes of a variable a solver reads the domain and the list of propagators
only. A list of allowed integers, a tag or a placeholder for zero makes no difference to
what it loads, narrows and runs.

Results:
* `Subst.pared`: a substitution without the attributes that a solver does not read.
* `Solver.pared_load`, `Solver.pared_post`: loading and posting overlook them.
* `Narrow.Overlooks`: a narrowing does the same without them.
* `Narrow.overlooks_propagate`, `Narrow.overlooks_fixpoint`: runs and fixpoints do.
* `Solver.pared_toSubst?`: so does writing back, if there are no placeholders for zero.
-/

namespace ConstraintLogic

/-- The attributes that a solver reads. -/
def Attributes.pared (m : Attributes) : Attributes := { domain := m.domain, watchers := m.watchers }

namespace Subst

variable {s : Subst} {v : Var}

/-- The substitution without the attributes that a solver does not read. -/
def pared (s : Subst) : Subst :=
  { s with attrs := s.attrs.filterMap fun _ m => if m.pared.isEmpty then none else some m.pared }

theorem getElem?_pared (s : Subst) (v : Var) :
    s.pared.attrs[v]? = s.attrs[v]?.bind fun m => if m.pared.isEmpty then none else some m.pared :=
  Std.ExtTreeMap.getElem?_filterMap'

@[simp] theorem attributes_pared (s : Subst) (v : Var) : s.pared.attributes v = (s.attributes v).pared := by
  unfold attributes
  rw [getElem?_pared]
  cases s.attrs[v]? with
  | none => rfl
  | some m =>
    rw [Option.bind_some, Option.getD_some]
    split
    · rename_i none
      rw [Attributes.isEmpty_iff.mp none, Option.getD_none]
    · rfl

@[simp] theorem storedDomain_pared (s : Subst) (v : Var) : s.pared.storedDomain v = s.storedDomain v := by
  unfold storedDomain
  rw [attributes_pared]
  rfl

@[simp] theorem storedWatchers_pared (s : Subst) (v : Var) : s.pared.storedWatchers v = s.storedWatchers v := by
  unfold storedWatchers
  rw [attributes_pared]
  rfl

/-- The variables that lose all of their attributes have no propagators. -/
@[simp] theorem watchCount_pared (s : Subst) : s.pared.watchCount = s.watchCount := by
  have cost : s.pared.watchCost = s.watchCost := by
    funext v
    rw [watchCost, watchCost, storedWatchers_pared]
  rw [watchCount_eq, watchCount_eq, cost, attributedVars, attributedVars, ← Std.ExtTreeMap.map_fst_toList_eq_keys,
    ← Std.ExtTreeMap.map_fst_toList_eq_keys, pared, Std.ExtTreeMap.toList_filterMap]
  have bare (e : Var × Attributes) (mem : e ∈ s.attrs.toList) (none : e.2.pared.isEmpty = true) :
      s.watchCost e.1 = 0 := by
    have found : s.attrs[e.1]? = some e.2 := Std.ExtTreeMap.mem_toList_iff_getElem?_eq_some.mp mem
    have empty : e.2.watchers = Option.none := congrArg Attributes.watchers (Attributes.isEmpty_iff.mp none)
    simp [watchCost, storedWatchers, attributes, found, empty]
  generalize s.attrs.toList = l at bare
  induction l with
  | nil => rfl
  | cons e l ih =>
    have rest := ih fun e' mem => bare e' (List.mem_cons_of_mem e mem)
    by_cases none : e.2.pared.isEmpty = true
    · simp only [List.filterMap_cons, none, if_true, Option.map_none, List.map_cons, List.sum_cons,
        bare e (by simp) none, Nat.zero_add]
      exact rest
    · simp only [List.filterMap_cons, none, List.map_cons, List.sum_cons]
      exact congrArg (s.watchCost e.1 + ·) rest

end Subst

namespace Solver

variable {s : Solver} {id : PropId} {p : Propagator} {v w : Var}

/-- The solver on the substitution without the attributes that it does not read. -/
def pared (s : Solver) : Solver := { s with subst := s.subst.pared }

@[simp] theorem resolve_pared (s : Solver) : s.pared.resolve = s.resolve := resolve_of_bindings rfl

/-! ## Loading -/

theorem pared_intern (s : Solver) (p : Propagator) :
    s.pared.intern p = ((s.intern p).1, (s.intern p).2.1, (s.intern p).2.2.pared) := by
  have same : s.pared.interned = s.interned := rfl
  unfold intern
  rw [same]
  cases s.interned[p.stamp]? <;> rfl

theorem pared_addSubscriber (s : Solver) (id : PropId) (v : Var) :
    s.pared.addSubscriber id v = (s.addSubscriber id v).pared := by
  have same : s.pared.subscribersOf v = s.subscribersOf v := rfl
  unfold addSubscriber
  dsimp only
  rw [same]
  split <;> rfl

/-- What every step of a fold overlooks, the fold overlooks. -/
theorem foldl_pared {β : Type} {g : List Var × Solver → β → List Var × Solver}
    (step : ∀ r b, g (r.1, r.2.pared) b = ((g r b).1, (g r b).2.pared)) (l : List β) (r : List Var × Solver) :
    l.foldl g (r.1, r.2.pared) = ((l.foldl g r).1, (l.foldl g r).2.pared) :=
  List.foldl_hom (fun r : List Var × Solver => (r.1, r.2.pared)) step

theorem pared_adopt (state : List Var × Solver) (p : Propagator) :
    adopt (state.1, state.2.pared) p = ((adopt state p).1, (adopt state p).2.pared) := by
  obtain ⟨pending, s⟩ := state
  rw [adopt_eq, adopt_eq, pared_intern]
  obtain ⟨id, new, t⟩ := s.intern p
  cases new with
  | false => rfl
  | true =>
    have step (r : List Var × Solver) (v : Var) :
        adoptVar id (r.1, r.2.pared) v = ((adoptVar id r v).1, (adoptVar id r v).2.pared) := by
      unfold adoptVar
      dsimp only
      rw [resolve_pared]
      cases r.2.resolve v with
      | free w => exact congrArg (w :: r.1, ·) (r.2.pared_addSubscriber id w)
      | value n => rfl
      | other => rfl
    exact foldl_pared step p.val.vars (pending, t)

theorem pared_loadAll (n : Nat) : ∀ (pending : List Var) (s : Solver),
    loadAll n pending s.pared = (loadAll n pending s).pared := by
  induction n with
  | zero => exact fun pending s => by cases pending <;> rfl
  | succ n ih =>
    intro pending s
    cases pending with
    | nil => rfl
    | cons v pending =>
      have domains : s.pared.domains = s.domains := rfl
      by_cases present : v ∈ s.domains
      · rw [loadAll_of_mem present, loadAll_of_mem (s := s.pared) present]
        exact ih pending s
      · have revealed : s.pared.reveal v = (s.reveal v).pared := by
          unfold reveal pared
          dsimp only
          rw [Subst.storedDomain_pared]
        have stored : s.pared.subst.storedWatchers v = s.subst.storedWatchers v := s.subst.storedWatchers_pared v
        rw [loadAll_of_not_mem present, loadAll_of_not_mem (s := s.pared) present, revealed, stored]
        have adopted := foldl_pared pared_adopt (s.subst.storedWatchers v) (pending, s.reveal v)
        dsimp only at adopted ⊢
        rw [adopted]
        exact ih _ _

theorem pared_load (s : Solver) (v : Var) : s.pared.load v = (s.load v).pared := by
  have domains : s.pared.domains = s.domains := rfl
  have count : s.pared.subst.watchCount = s.subst.watchCount := s.subst.watchCount_pared
  unfold load
  rw [domains, count]
  split
  · rfl
  · exact pared_loadAll _ [v] s

theorem pared_domain (s : Solver) (v : Var) : s.pared.domain v = ((s.domain v).1, (s.domain v).2.pared) := by
  unfold domain
  rw [resolve_pared]
  cases s.resolve v with
  | free w =>
    dsimp only
    rw [pared_load]
    rfl
  | value n => rfl
  | other => rfl

/-! ## Subscribing and posting -/

theorem pared_subscribe (s : Solver) (id : PropId) (v : Var) : s.pared.subscribe id v = (s.subscribe id v).pared := by
  unfold subscribe
  rw [resolve_pared]
  cases s.resolve v with
  | free w =>
    dsimp only
    rw [pared_load, pared_addSubscriber]
  | value n => rfl
  | other => rfl

theorem pared_resubscribe (s : Solver) (id : PropId) (vs : List Var) :
    s.pared.resubscribe id vs = (s.resubscribe id vs).pared := by
  refine List.foldl_hom pared fun t v => ?_
  rw [pared_domain]
  dsimp only
  rw [pared_subscribe]
  split <;> rfl

theorem pared_enqueue (s : Solver) (id : PropId) : s.pared.enqueue id = (s.enqueue id).pared := by
  have same : s.pared.prop? id = s.prop? id := rfl
  unfold enqueue
  rw [same]
  cases s.prop? id <;> rfl

theorem pared_excite (s : Solver) (v : Var) : s.pared.excite v = (s.excite v).pared :=
  List.foldl_hom pared fun t id => t.pared_enqueue id

theorem pared_post (s : Solver) (p : Propagator) : (s.pared.post p).2 = (s.post p).2.pared := by
  unfold post
  rw [pared_intern]
  obtain ⟨id, new, t⟩ := s.intern p
  have subscribed : p.val.vars.foldl (fun t v => t.subscribe id v) t.pared =
      (p.val.vars.foldl (fun t v => t.subscribe id v) t).pared :=
    List.foldl_hom pared fun t v => t.pared_subscribe id v
  dsimp only
  rw [subscribed, pared_enqueue]

theorem pared_unsubscribe (s : Solver) (id : PropId) : s.pared.unsubscribe id = (s.unsubscribe id).pared := by
  have same : s.pared.prop? id = s.prop? id := rfl
  unfold unsubscribe
  rw [same]
  cases s.prop? id with
  | none => rfl
  | some p =>
    refine List.foldl_hom pared fun t v => ?_
    rw [resolve_pared]
    cases t.resolve v with
    | free w =>
      have same : t.pared.subscribers = t.subscribers := rfl
      dsimp only
      rw [same]
      cases t.subscribers[w]? <;> rfl
    | value n => rfl
    | other => rfl

theorem pared_replace (s : Solver) (id : PropId) (p : Propagator) : s.pared.replace id p = (s.replace id p).pared := by
  have same : s.pared.prop? id = s.prop? id := rfl
  unfold replace
  rw [same]
  cases s.prop? id <;> rfl

end Solver

/-! ## Narrowing -/

namespace Narrow

variable {α β : Type} {m : Narrow α} {f : α → Narrow β} {id : PropId} {v x y z : Var} {c : Int}

/-- The end of a run without the attributes that a solver does not read. -/
def paredEnd : EStateM.Result Halt Solver α → EStateM.Result Halt Solver α
  | .ok a s => .ok a s.pared
  | .error why s => .error why s.pared

/-- The solver that a run leaves, however it ends. -/
def leaving : EStateM.Result Halt Solver α → Solver
  | .ok _ s => s
  | .error _ s => s

/-- The narrowing does the same without the attributes that a solver does not read, and
    changes no attributes. -/
structure Overlooks (m : Narrow α) : Prop where
  pared : ∀ s : Solver, m s.pared = paredEnd (m s)
  attrs : ∀ s : Solver, (leaving (m s)).subst.attrs = s.subst.attrs

namespace Overlooks

/-- What follows has to do the same for results that there are. -/
theorem bind_reached (h : Overlooks m) (next : ∀ s a t, m s = .ok a t → Overlooks (f a)) : Overlooks (m >>= f) := by
  have run (s : Solver) : (m >>= f) s = match m s with
      | .ok a t => f a t
      | .error why t => .error why t := by
    change EStateM.bind m f s = _
    unfold EStateM.bind
    cases m s <;> rfl
  refine ⟨fun s => ?_, fun s => ?_⟩
  · rw [run, run, h.pared s]
    cases first : m s with
    | ok a t => exact (next s a t first).pared t
    | error why t => rfl
  · rw [run, ← h.attrs s]
    cases first : m s with
    | ok a t => exact (next s a t first).attrs t
    | error why t => rfl

theorem bind (h : Overlooks m) (next : ∀ a, Overlooks (f a)) : Overlooks (m >>= f) :=
  h.bind_reached fun _ a _ _ => next a

/-- A step that always succeeds. -/
theorem step {a : Solver → α} {g : Solver → Solver} (run : ∀ s, m s = .ok (a s) (g s))
    (value : ∀ s, a s.pared = a s)
    (state : ∀ s, g s.pared = (g s).pared) (attrs : ∀ s, (g s).subst.attrs = s.subst.attrs) : Overlooks m := by
  refine ⟨fun s => ?_, fun s => ?_⟩
  · rw [run, run, value, state]
    rfl
  · rw [run]
    exact attrs s

theorem pure (a : α) : Overlooks (Pure.pure a : Narrow α) := ⟨fun _ => rfl, fun _ => rfl⟩

theorem throw (why : Halt) : Overlooks (MonadExcept.throw why : Narrow α) := ⟨fun _ => rfl, fun _ => rfl⟩

end Overlooks

theorem overlooks_require (holds : Bool) : Overlooks (require holds) := by
  cases holds with
  | true => exact .pure ()
  | false => exact .throw _

theorem overlooks_domain (v : Var) : Overlooks (domain v) := by
  refine .step (a := fun s => (s.domain v).1) (g := fun s => (s.domain v).2) (fun _ => rfl) (fun s => ?_) (fun s => ?_)
    fun s => congrArg Subst.attrs (s.domain_spec v).2.subst
  · rw [Solver.pared_domain]
  · rw [Solver.pared_domain]

theorem overlooks_sameVar (v x : Var) : Overlooks (sameVar v x) := by
  refine .step (a := fun s => s.sameVar v x) (g := id) (fun _ => rfl) (fun s => ?_) (fun _ => rfl) fun _ => rfl
  rw [Solver.sameVar, Solver.sameVar, Solver.resolve_pared]

theorem overlooks_resolve (v : Var) : Overlooks (resolve v) := by
  refine .step (a := fun s => s.resolve v) (g := id) (fun _ => rfl) (fun s => ?_) (fun _ => rfl) fun _ => rfl
  rw [Solver.resolve_pared]

theorem overlooks_reduce (v : Var) (d : Domain) : Overlooks (reduce v d) := by
  refine (overlooks_resolve v).bind fun r => ?_
  cases r with
  | value n => exact overlooks_require _
  | other => exact .throw _
  | free w =>
    refine (overlooks_domain w).bind fun current => ?_
    dsimp only
    split
    · exact .throw _
    split
    · exact .pure ()
    · refine .step (g := fun s => (s.narrowTo w (current.intersect d)).excite w) (fun _ => rfl) (fun _ => rfl)
        (fun s => (s.narrowTo w (current.intersect d)).pared_excite w) fun s => ?_
      obtain ⟨a, eq⟩ := (s.narrowTo w (current.intersect d)).excite_eq w
      rw [eq]
      rfl

theorem overlooks_resubscribe (id : PropId) (vs : List Var) : Overlooks (resubscribe id vs) :=
  .step (g := fun s => s.resubscribe id vs) (fun _ => rfl) (fun _ => rfl) (fun s => s.pared_resubscribe id vs)
    fun s => congrArg Subst.attrs (s.grows_resubscribe id vs).1.subst

theorem overlooks_replaceWith (id : PropId) (r : Relation) : Overlooks (replaceWith id r) := by
  refine .step (g := fun s => ({ s with subst := (s.subst.stamped r).2 } : Solver).replace id (s.subst.stamped r).1)
    (fun _ => rfl) (fun _ => rfl) (fun s => ?_) fun s => ?_
  · exact ({ s with subst := (s.subst.stamped r).2 } : Solver).pared_replace id (s.subst.stamped r).1
  · unfold Solver.replace
    split <;> rfl

/-! ## Runs -/

theorem overlooks_aliases (vs : List Var) : Overlooks (aliases vs) := by
  refine .step (a := fun s => s.aliasPairs vs) (g := id) (fun _ => rfl) (fun s => ?_) (fun _ => rfl) fun _ => rfl
  have same : s.pared.sameVar = s.sameVar := by
    funext v x
    rw [Solver.sameVar, Solver.sameVar, Solver.resolve_pared]
  unfold Solver.aliasPairs
  rw [same]

/-- That a narrowing overlooks attributes has a rule for every step. -/
theorem overlooks_rules (id : PropId) :
    Rules id (fun _ => True) False False (fun _ _ => True)
      fun {_} m Q => Overlooks m ∧ ∀ s, Leaves s m fun a _ => Q a where
  sized := False.elim
  pure good := ⟨.pure _, fun _ => .pure good⟩
  throw _ := ⟨.throw _, fun _ => leaves_throw⟩
  bind h next := ⟨h.1.bind_reached fun s a t run => (next a (h.2 s a t run)).1, fun s =>
    (h.2 s).bind fun a t good => (next a good).2 t⟩
  domain _ := ⟨overlooks_domain _, fun _ _ _ _ => ⟨False.elim, False.elim⟩⟩
  sameVar v w := ⟨overlooks_sameVar v w, fun _ _ _ _ => trivial⟩
  aliases vs := ⟨overlooks_aliases vs, fun _ _ _ _ => trivial⟩
  resolve _ := ⟨overlooks_resolve _, fun _ _ _ _ => ⟨fun _ _ => ⟨trivial, False.elim⟩, fun _ _ => ⟨False.elim, False.elim⟩⟩⟩
  reduce _ _ := ⟨overlooks_reduce _ _, fun _ _ _ _ => trivial⟩
  resubscribe _ := ⟨overlooks_resubscribe id _, fun _ _ _ _ => trivial⟩
  replaceWith _ _ _ := ⟨overlooks_replaceWith id _, fun _ _ _ _ => trivial⟩

theorem overlooks_propagate (id : PropId) (r : Relation) : Overlooks (propagate id r) :=
  ((overlooks_rules id).propagate (fun _ _ => trivial) False.elim False.elim).1

/-! ## Fixpoints -/

theorem overlooks_nextWaiting : Overlooks nextWaiting := by
  have idle (s : Solver) (popped : s.agenda.pop? = none) : nextWaiting s = .ok none s := by
    rw [nextWaiting, Solver.modifyGet_apply, popped]
  have next (s : Solver) {id : PropId} {a : Agenda} (popped : s.agenda.pop? = some (id, a)) :
      nextWaiting s = .ok (some id) { s with agenda := a } := by
    rw [nextWaiting, Solver.modifyGet_apply, popped]
  constructor <;> intro s <;> cases popped : s.agenda.pop?
  case pared.none => rw [idle s popped, idle s.pared popped]; rfl
  case pared.some e => rw [next s popped, next s.pared popped]; rfl
  case attrs.none => rw [idle s popped]; rfl
  case attrs.some e => rw [next s popped]; rfl

theorem overlooks_runNumbered (id : PropId) : Overlooks (runNumbered id) := by
  have propagated (p : Propagator) : Overlooks (do modify (·.unsubscribe id); propagate id p.val : Narrow Unit) := by
    refine Overlooks.bind ?_ fun _ => overlooks_propagate id p.val
    refine .step (g := fun s => s.unsubscribe id) (fun _ => rfl) (fun _ => rfl) (fun s => s.pared_unsubscribe id)
      fun s => ?_
    obtain ⟨m, eq⟩ := s.unsubscribe_frame id
    rw [eq]
  have idle (s : Solver) (absent : s.prop? id = none) : runNumbered id s = .ok () s := by
    unfold runNumbered
    refine Eq.trans (bind_of_ok (s := s) (t := s) rfl) ?_
    rw [absent]
    rfl
  have run (s : Solver) {p : Propagator} (found : s.prop? id = some p) :
      runNumbered id s = (do modify (·.unsubscribe id); propagate id p.val : Narrow Unit) s := by
    conv_lhs => unfold runNumbered
    refine Eq.trans (bind_of_ok (s := s) (t := s) rfl) ?_
    rw [found]
  constructor <;> intro s <;> cases found : s.prop? id
  case pared.none => rw [idle s found, idle s.pared found]; rfl
  case pared.some p => rw [run s found, run s.pared found, (propagated p).pared s]
  case attrs.none => rw [idle s found]; rfl
  case attrs.some p => rw [run s found, (propagated p).attrs s]

theorem overlooks_runWaiting (n : Nat) : Overlooks (runWaiting n) := by
  induction n with
  | zero => exact .throw _
  | succ n ih =>
    refine overlooks_nextWaiting.bind fun next => ?_
    cases next with
    | none => exact .pure ()
    | some id => exact (overlooks_runNumbered id).bind fun _ => ih

theorem overlooks_fixpoint : Overlooks fixpoint := by
  refine ⟨fun s => ?_, fun s => ?_⟩
  · have mentions : s.pared.mentions = s.mentions := by
      have count : s.pared.subst.watchCount = s.subst.watchCount := s.subst.watchCount_pared
      rw [Solver.mentions, Solver.mentions, count]
      rfl
    have budget : s.pared.runBudget = s.runBudget := by
      rw [Solver.runBudget, Solver.runBudget, mentions]
      rfl
    rw [Solver.fixpoint_eq, Solver.fixpoint_eq, budget]
    exact (overlooks_runWaiting _).pared s
  · rw [Solver.fixpoint_eq]
    exact (overlooks_runWaiting _).attrs s

end Narrow

/-! ## Writing back -/

namespace Attributes

/-- The attributes that a solver does not read. -/
def overlooked (m : Attributes) : Attributes := { m with domain := none, watchers := none }

theorem pared_erase (m : Attributes) (name : AttrName) : (m.erase name).pared = m.pared.erase name := by
  cases name <;> rfl

theorem get?_overlooked {m : Attributes} {name : AttrName} (other : name ≠ .domain) (other' : name ≠ .watchers) :
    m.overlooked.get? name = m.get? name := by
  cases name with
  | domain => exact absurd rfl other
  | watchers => exact absurd rfl other'
  | _ => rfl

/-- What a solver reads and what it does not read are all attributes. -/
theorem eq_of_pared {m m' : Attributes} (pared : m.pared = m'.pared) (overlooked : m.overlooked = m'.overlooked) :
    m = m' := by
  cases m
  cases m'
  simp_all [Attributes.pared, Attributes.overlooked]

theorem isEmpty_pared {m : Attributes} (h : m.isEmpty = true) : m.pared.isEmpty = true := by
  rw [isEmpty_iff.mp h]
  rfl

end Attributes

namespace Subst

variable {s t : Subst} {v : Var} {n : Int}

/-- Attributes are known by what there is at each variable. -/
theorem pared_eq_of_attrs (bindings : t.bindings = s.bindings) (next : t.next = s.next) (width : t.width = s.width)
    (supply : t.supply = s.supply) (attrs : ∀ w : Var, t.attrs[w]? = s.attrs[w]?) : t = s := by
  cases s
  cases t
  simp only at bindings next width supply attrs
  subst bindings next width supply
  simp only [mk.injEq, true_and, and_true]
  exact Std.ExtTreeMap.ext_getElem? attrs

theorem getElem?_removeAttr (s : Subst) (v w : Var) (name : AttrName) :
    (s.removeAttr v name).attrs[w]? =
      if v = w then s.attrs[w]?.bind fun m => if (m.erase name).isEmpty then none else some (m.erase name)
      else s.attrs[w]? := by
  unfold removeAttr
  split
  · rename_i missing
    split
    · rename_i same
      rw [← same, missing, Option.bind_none]
    · rfl
  · rename_i m found
    dsimp only
    split
    · rename_i cleared
      simp only [Std.ExtTreeMap.getElem?_erase, Std.compare_eq_iff_eq]
      split
      · rename_i same
        rw [← same, found, Option.bind_some, if_pos cleared]
      · rfl
    · rename_i left
      simp only [Std.ExtTreeMap.getElem?_insert, Std.compare_eq_iff_eq]
      split
      · rename_i same
        rw [← same, found, Option.bind_some, if_neg left]
      · rfl

theorem pared_removeAttr (s : Subst) (v : Var) (name : AttrName) :
    s.pared.removeAttr v name = (s.removeAttr v name).pared := by
  have frame (t : Subst) : (t.removeAttr v name).bindings = t.bindings ∧ (t.removeAttr v name).next = t.next ∧
      (t.removeAttr v name).width = t.width ∧ (t.removeAttr v name).supply = t.supply := by
    unfold removeAttr
    split
    · exact ⟨rfl, rfl, rfl, rfl⟩
    · dsimp only
      split <;> exact ⟨rfl, rfl, rfl, rfl⟩
  obtain ⟨bindings, next, width, supply⟩ := frame s
  obtain ⟨bindings', next', width', supply'⟩ := frame s.pared
  refine pared_eq_of_attrs (bindings'.trans bindings.symm) (next'.trans next.symm) (width'.trans width.symm)
    (supply'.trans supply.symm) fun w => ?_
  rw [getElem?_pared, getElem?_removeAttr, getElem?_removeAttr, getElem?_pared]
  split
  · cases s.attrs[w]? with
    | none => rfl
    | some m =>
      simp only [Option.bind_some]
      by_cases none : m.pared.isEmpty = true
      · have gone : (m.erase name).pared.isEmpty = true := by
          rw [Attributes.pared_erase, Attributes.isEmpty_iff.mp none]
          cases name <;> rfl
        simp only [none, if_true, Option.bind_none]
        split
        · rfl
        · rw [Option.bind_some, if_pos gone]
      · simp only [none, Bool.false_eq_true, if_false, Option.bind_some, ← Attributes.pared_erase]
        split
        · rename_i gone
          split
          · rfl
          · rw [Option.bind_some, if_pos gone]
        · rename_i left
          rw [if_neg fun gone => left (Attributes.isEmpty_pared gone), Option.bind_some, if_neg left]
  · rfl

theorem pared_setAttr (s : Subst) (v : Var) {a : Attribute} (kept : ∀ m : Attributes, (m.set a).pared = m.pared.set a) :
    s.pared.setAttr v a = (s.setAttr v a).pared := by
  refine pared_eq_of_attrs rfl rfl rfl rfl fun w => ?_
  rw [getElem?_pared]
  simp only [setAttr, Std.ExtTreeMap.getElem?_insert, Std.compare_eq_iff_eq, attributes_pared]
  split
  · rw [Option.bind_some, kept, if_neg]
    exact fun none => set_ne_empty _ a (Attributes.isEmpty_iff.mp none)
  · exact s.getElem?_pared w

/-- An attribute is attached that a solver does not read. -/
theorem pared_setAttr_of_overlooked (s : Subst) (v : Var) {a : Attribute}
    (kept : ∀ m : Attributes, (m.set a).pared = m.pared) : (s.setAttr v a).pared = s.pared := by
  refine pared_eq_of_attrs rfl rfl rfl rfl fun w => ?_
  rw [getElem?_pared, getElem?_pared]
  simp only [setAttr, Std.ExtTreeMap.getElem?_insert, Std.compare_eq_iff_eq]
  split
  · rename_i same
    subst same
    rw [Option.bind_some, kept, attributes]
    cases s.attrs[v]? <;> rfl
  · rfl

theorem pared_dropAttrs (s : Subst) (v : Var) : s.pared.dropAttrs v = (s.dropAttrs v).pared := by
  refine pared_eq_of_attrs rfl rfl rfl rfl fun w => ?_
  rw [getElem?_pared]
  simp only [dropAttrs, Std.ExtTreeMap.getElem?_erase, Std.compare_eq_iff_eq]
  split
  · rfl
  · exact s.getElem?_pared w

/-- Without a placeholder for zero a solved variable is bound to its value, if at all. -/
theorem eq_of_assign (placeholder : (s.attributes v).zero = none) (run : s.assign v n = .ok t) :
    t = (s.dropAttrs v).bind v (.int n) := by
  unfold assign at run
  dsimp only at run
  rw [placeholder, Option.isSome_none, if_neg Bool.false_ne_true] at run
  split at run <;> cases run
  rfl

theorem pared_assign (placeholder : (s.attributes v).zero = none) (run : s.assign v n = .ok t) :
    s.pared.assign v n = .ok t.pared := by
  rw [eq_of_assign placeholder run]
  unfold assign
  dsimp only
  rw [attributes_pared, pared_dropAttrs]
  rfl

end Subst

namespace Solver

variable {s : Solver} {t : Subst}

theorem pared_writeBack (s : Solver) (u : Subst) (v : Var) (d : Domain) :
    s.pared.writeBack u.pared v d = (s.writeBack u v d).pared ∧
      ∀ w, ((s.writeBack u v d).attributes w).overlooked = (u.attributes w).overlooked := by
  have same : s.pared.subscribersOf v = s.subscribersOf v := rfl
  have same' : s.pared.prop? = s.prop? := rfl
  have domain (u : Subst) (a : Stamped DomainFact) : u.pared.setAttr v (.domain a) = (u.setAttr v (.domain a)).pared :=
    u.pared_setAttr v fun _ => rfl
  have watchers (u : Subst) (a : Stamped (List Propagator)) :
      u.pared.setAttr v (.watchers a) = (u.setAttr v (.watchers a)).pared := u.pared_setAttr v fun _ => rfl
  have stamped {α : Type} (u : Subst) (a : α) : u.pared.stamped a = ((u.stamped a).1, (u.stamped a).2.pared) := rfl
  unfold writeBack
  dsimp only
  rw [same, same']
  constructor
  · split <;> split <;> simp only [stamped, domain, watchers]
  · intro w
    split <;> split <;> simp only [Subst.attributes_setAttr, Subst.attributes_stamped]
    all_goals split <;> rfl

/-- Values are given to the variables of the list. -/
theorem pared_assignAll (l : List (Var × Domain)) : ∀ u : Subst, (∀ v, (u.attributes v).zero = none) →
    l.foldlM (fun u (v, d) => match d.solution with | some n => u.assign v n | none => .ok u) u = .ok t →
    l.foldlM (fun u (v, d) => match d.solution with | some n => u.assign v n | none => .ok u) u.pared = .ok t.pared ∧
      ∀ w, (∀ d, (w, d) ∈ l → d.solution = none) → t.attributes w = u.attributes w := by
  induction l with
  | nil =>
    intro u _ run
    cases run
    exact ⟨rfl, fun _ _ => rfl⟩
  | cons e l ih =>
    intro u placeholders run
    obtain ⟨v, d⟩ := e
    rw [List.foldlM_cons] at run ⊢
    cases only : d.solution with
    | none =>
      simp only [only] at run ⊢
      obtain ⟨run', kept⟩ := ih u placeholders run
      exact ⟨run', fun w open_ => kept w fun d mem => open_ d (List.mem_cons_of_mem _ mem)⟩
    | some n =>
      simp only [only] at run ⊢
      obtain ⟨u', first, rest⟩ := exists_of_bind_ok run
      have attributes (w : Var) : u'.attributes w = if v = w then {} else u.attributes w := by
        rw [Subst.eq_of_assign (placeholders v) first, Subst.attributes_bind, Subst.attributes_dropAttrs]
      have placeholders' (w : Var) : (u'.attributes w).zero = none := by
        rw [attributes]
        split
        · rfl
        · exact placeholders w
      obtain ⟨run', kept⟩ := ih u' placeholders' rest
      rw [Subst.pared_assign (placeholders v) first]
      refine ⟨run', fun w open_ => ?_⟩
      rw [kept w fun d mem => open_ d (List.mem_cons_of_mem _ mem), attributes, if_neg]
      rintro rfl
      cases only.symm.trans (open_ d (by simp))

/-- Without placeholders for zero, what is written back is the same without the attributes
    that a solver does not read. These stay as they are, except where a variable gets a value. -/
theorem pared_toSubst? (placeholders : ∀ v, (s.subst.attributes v).zero = none) (run : s.toSubst? = .ok t) :
    s.pared.toSubst? = .ok t.pared ∧ ∀ w, (∀ d, s.domains[w]? = some d → d.solution = none) →
      (t.attributes w).overlooked = (s.subst.attributes w).overlooked := by
  unfold toSubst? at run ⊢
  dsimp only at run ⊢
  have domains : s.pared.domains = s.domains := rfl
  have subst : s.pared.subst = s.subst.pared := rfl
  have clear : s.domains.toList.foldl
      (fun u (v, _) => (u.removeAttr v .domain).removeAttr v .watchers) s.subst.pared =
        (s.domains.toList.foldl (fun u (v, _) => (u.removeAttr v .domain).removeAttr v .watchers) s.subst).pared :=
    List.foldl_hom Subst.pared fun u e => by
      dsimp only
      rw [Subst.pared_removeAttr, Subst.pared_removeAttr]
  have cleared (w : Var) : ((s.domains.toList.foldl
      (fun u (v, _) => (u.removeAttr v .domain).removeAttr v .watchers) s.subst).attributes w).overlooked =
        (s.subst.attributes w).overlooked := by
    refine List.foldlRecOn (motive := fun u : Subst => (u.attributes w).overlooked = (s.subst.attributes w).overlooked)
      _ _ rfl fun u same e _ => ?_
    rw [← same]
    simp only [Subst.attributes_removeAttr]
    split <;> rfl
  rw [domains, subst, clear]
  generalize s.domains.toList.foldl (fun u (v, _) => (u.removeAttr v .domain).removeAttr v .watchers) s.subst = u
    at run cleared ⊢
  have attach : s.domains.toList.foldl (fun u (v, d) => if d.hasSolution then u else s.pared.writeBack u v d) u.pared =
      (s.domains.toList.foldl (fun u (v, d) => if d.hasSolution then u else s.writeBack u v d) u).pared :=
    List.foldl_hom Subst.pared fun u e => by
      dsimp only
      rw [(s.pared_writeBack u e.1 e.2).1]
      split <;> rfl
  have attached (w : Var) : ((s.domains.toList.foldl
      (fun u (v, d) => if d.hasSolution then u else s.writeBack u v d) u).attributes w).overlooked =
        (s.subst.attributes w).overlooked := by
    refine List.foldlRecOn (motive := fun u : Subst => (u.attributes w).overlooked = (s.subst.attributes w).overlooked)
      _ _ (cleared w) fun u same e _ => ?_
    dsimp only
    split
    · exact same
    · rw [(s.pared_writeBack u e.1 e.2).2 w, same]
  rw [attach]
  generalize s.domains.toList.foldl (fun u (v, d) => if d.hasSolution then u else s.writeBack u v d) u = u
    at run attached ⊢
  have none (v : Var) : (u.attributes v).zero = none :=
    (congrArg Attributes.zero (attached v)).trans (placeholders v)
  obtain ⟨run', kept⟩ := pared_assignAll _ u none run
  refine ⟨run', fun w open_ => ?_⟩
  rw [kept w fun d mem => open_ d (Std.ExtTreeMap.mem_toList_iff_getElem?_eq_some.mp mem), attached]

end Solver

end ConstraintLogic
