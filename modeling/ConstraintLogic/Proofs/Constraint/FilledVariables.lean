import ConstraintLogic.Proofs.Constraint.BindingOrder
import ConstraintLogic.Proofs.Constraint.OneUnknown

/-!
# Variables that are filled in

A relation may mention variables that are integers to one substitution, and that another
one leaves unbound and without attributes. The solver that posts the relation on the first
one runs it, and then goes the same way as a solver on the other one that narrows a
variable instead, or that posts a simpler relation.

Results:
* `Subst.turned`: the solver on which a posted relation is run first.
* `Subst.Fills.abreast_turned`, `Subst.Fills.aligned_turned`: what it has in common with a
  solver on the other substitution.
* `Subst.Fills.echoes_of_endsAs`, `Subst.Fills.echoes_of_replaced`: what posting comes to.
-/

namespace ConstraintLogic

theorem Narrow.bind_of_eq {α β : Type} {m m' : Narrow α} {f : α → Narrow β} {s t : Solver} (same : m s = m' t) :
    (m >>= f) s = (m' >>= f) t := by
  change EStateM.bind m f s = EStateM.bind m' f t
  unfold EStateM.bind
  rw [same]

namespace Subst

open Solver (Aligned Retouched)

variable {hs : List Var} {s t : Subst} {r q : Relation} {v w : Var} {known : Propagator → Prop}

/-! ## The first run -/

/-- The solver that has numbered the new propagator for the relation and subscribed it. -/
def subscribed (t : Subst) (r : Relation) : Solver :=
  r.vars.foldl (fun s v => s.subscribe ⟨0⟩ v) ((Solver.new (t.stamped r).2).enlist (t.stamped r).1)

/-- The solver on which the relation is run first. Its propagator has been posted and taken
    off the agenda again, and has given up its subscriptions. -/
def turned (t : Subst) (r : Relation) : Solver :=
  ({ t.subscribed r with agenda := { arrivals := 1 } } : Solver).unsubscribe ⟨0⟩

theorem posting_eq (t : Subst) (r : Relation) : t.posting r = (t.subscribed r).enqueue ⟨0⟩ := by
  have new : (Solver.new (t.stamped r).2).interned[(t.stamped r).1.stamp]? = none := by simp [Solver.new]
  unfold posting subscribed Solver.post Solver.intern
  rw [new]
  rfl

theorem grows_subscribed (t : Subst) (r : Relation) :
    ((Solver.new (t.stamped r).2).enlist (t.stamped r).1).Grows (t.subscribed r) :=
  List.foldlRecOn (motive := fun u : Solver => ((Solver.new (t.stamped r).2).enlist (t.stamped r).1).Grows u) r.vars _
    (.refl _) fun u grows v _ => grows.trans (u.grows_subscribe ⟨0⟩ v)

theorem prop?_subscribed (t : Subst) (r : Relation) : (t.subscribed r).prop? ⟨0⟩ = some (t.stamped r).1 := by
  refine (t.grows_subscribed r).props ⟨0⟩ _ ?_
  exact (Solver.prop?_enlist _ _ _).trans (if_pos rfl)

theorem agenda_subscribed (t : Subst) (r : Relation) : (t.subscribed r).agenda = {} :=
  Solver.agenda_subscribeAll ⟨0⟩ r.vars _

/-- The new propagator is all that waits, and it is taken off first. -/
theorem posting_spec (t : Subst) (r : Relation) :
    t.posting r = { t.subscribed r with agenda := (t.posting r).agenda } ∧
      (t.posting r).agenda.pop? = some (⟨0⟩, { arrivals := 1 }) := by
  have eq : t.posting r = { t.subscribed r with agenda := (t.subscribed r).agenda.push ⟨0⟩ r.priority } := by
    rw [posting_eq, Solver.enqueue, prop?_subscribed]
    rfl
  rw [agenda_subscribed] at eq
  exact ⟨by rw [eq], by rw [eq]; exact Agenda.pop?_push_empty _ _⟩

/-- The fixpoint is reached by the first run and those that follow. -/
theorem runWaiting_posting (t : Subst) (r : Relation) (n : Nat) : Narrow.runWaiting (n + 1) (t.posting r) =
    (Narrow.propagate ⟨0⟩ r >>= fun _ => Narrow.runWaiting n) (t.turned r) := by
  obtain ⟨eq, popped⟩ := t.posting_spec r
  have first : Narrow.runNumbered ⟨0⟩ { t.subscribed r with agenda := { arrivals := 1 } } =
      Narrow.propagate ⟨0⟩ r (t.turned r) := by
    have found : ({ t.subscribed r with agenda := { arrivals := 1 } } : Solver).prop? ⟨0⟩ = some (t.stamped r).1 :=
      t.prop?_subscribed r
    rw [Solver.runNumbered_eq, found]
    rfl
  rw [Solver.runWaiting_of_some n popped, eq]
  exact Narrow.bind_of_eq first

theorem new_turned (t : Subst) (r : Relation) :
    (t.turned r).prop? ⟨0⟩ = some (t.stamped r).1 ∧ (t.turned r).agenda = { arrivals := 1 } := by
  obtain ⟨m, eq⟩ := ({ t.subscribed r with agenda := { arrivals := 1 } } : Solver).unsubscribe_frame ⟨0⟩
  rw [turned, eq]
  exact ⟨t.prop?_subscribed r, rfl⟩

/-- Posting changes nothing of what is known of the variables. -/
theorem matches_turned (t : Subst) (r : Relation) : (Solver.new t).Matches (t.turned r) := by
  obtain ⟨m, eq⟩ := ({ t.subscribed r with agenda := { arrivals := 1 } } : Solver).unsubscribe_frame ⟨0⟩
  have stamped : (Solver.new t).Matches (Solver.new (t.stamped r).2) := Solver.matched_of_eq rfl rfl rfl
  have grows := ((Solver.new (t.stamped r).2).grows_enlist (t.stamped r).1).trans (t.grows_subscribed r)
  refine (stamped.trans grows.matched).trans ?_
  rw [turned, eq]
  exact Solver.matched_of_eq rfl rfl rfl

theorem Orderly.tidy_turned {K : Scope} (h : t.Orderly K) (r : Relation) : (t.turned r).Tidy := by
  refine (t.matches_turned r).tidy (.new h.acyclic h.sized fun w => ?_)
  exact (h.canonical_storedDomain w).1

theorem Orderly.open_turned {K : Scope} (h : t.Orderly K) (r : Relation) (v : Var) : Narrow.Open (t.turned r) v := by
  intro u free
  have same := t.matches_turned r
  rw [same.resolve] at free
  have root : (Solver.new t).peek v = t.storedDomain u := by
    rw [Solver.peek_of_free free]
    simp [Solver.current, Solver.new]
  rw [same.peek, root]
  exact (h.canonical_storedDomain u).2.2

section Turned

variable (h : t.Orderly (.ints known)) (proper : r.Proper)

include h proper

/-- The solver differs from the one on which the relation is posted in what waits and
    subscribes, and the new propagator does neither. -/
theorem Orderly.turned_spec : (∃ m, t.turned r = { t.posting r with agenda := { arrivals := 1 }, subscribers := m }) ∧
    ∀ w, ⟨0⟩ ∉ (t.turned r).subscribersOf w := by
  obtain ⟨steady, _⟩ := h.steady_posting proper
  obtain ⟨eq, popped⟩ := t.posting_spec r
  have sound := steady.pop popped
  have same : ({ t.posting r with agenda := { arrivals := 1 } } : Solver) =
      { t.subscribed r with agenda := { arrivals := 1 } } := by rw [eq]
  rw [same] at sound
  obtain ⟨m, eq', _, silent⟩ := sound.unsubscribe (p := (t.stamped r).1) (t.prop?_subscribed r)
  exact ⟨⟨m, by rw [turned, eq', eq]⟩, silent⟩

/-- The variables of the relation are loaded. -/
theorem Orderly.loaded_turned (mem : v ∈ r.vars) : (t.turned r).Loaded v := by
  obtain ⟨steady, _, j, found⟩ := h.steady_posting proper
  obtain ⟨⟨m, eq⟩, _⟩ := h.turned_spec proper
  rw [eq]
  exact fun u free => (steady.closed _ ⟨j, found⟩ v mem u free).resolve_right id

end Turned

/-! ## Solvers on both substitutions -/

/-- Steps that one of two solvers takes for all variables, and the other one for those that
    are not filled in. -/
theorem foldl_filter_rel {R : Solver → Solver → Prop} {f g : Solver → Var → Solver} (vs : List Var)
    (step : ∀ v ∈ vs, v ∉ hs → ∀ u u', R u u' → R (f u v) (g u' v))
    (skip : ∀ v ∈ vs, v ∈ hs → ∀ u u', R u u' → R u (g u' v)) :
    ∀ u u', R u u' → R ((vs.filter (· ∉ hs)).foldl f u) (vs.foldl g u') := by
  induction vs with
  | nil => exact fun u u' rel => rel
  | cons v vs ih =>
    intro u u' rel
    have ih := ih (fun x mem => step x (List.mem_cons_of_mem v mem)) fun x mem => skip x (List.mem_cons_of_mem v mem)
    by_cases filled : v ∈ hs
    · rw [List.filter_cons_of_neg (by simpa using filled)]
      exact ih u (g u' v) (skip v (by simp) filled u u' rel)
    · rw [List.filter_cons_of_pos (by simpa using filled)]
      exact ih (f u v) (g u' v) (step v (by simp) filled u u' rel)

/-- The solvers are aligned, and to the first one the variables stand for what they do under
    the substitution. -/
structure AlignedOn (hs : List Var) (δ base : Nat) (s : Subst) (u u' : Solver) : Prop where
  aligned : Aligned (· ∈ hs) δ base u u'
  resolve : u.resolve = (Solver.new s).resolve

theorem subscribe_of_not_free {u : Solver} {id : PropId} (bound : ∀ x, u.resolve v ≠ .free x) : u.subscribe id v = u := by
  unfold Solver.subscribe
  split
  · rename_i x free
    exact absurd free (bound x)
  · rfl

theorem dropSubscriber_of_not_free {u : Solver} {id : PropId} (bound : ∀ x, u.resolve v ≠ .free x) :
    Solver.dropSubscriber id u v = u := by
  unfold Solver.dropSubscriber
  split
  · rename_i x free
    exact absurd free (bound x)
  · rfl

/-- What is filled in does not stand for a variable. -/
theorem AlignedOn.not_free {δ base : Nat} {u u' : Solver} (h : AlignedOn hs δ base s u u') (fills : s.Fills (· ∈ hs) t)
    (filled : v ∈ hs) (x : Var) : u'.resolve v ≠ .free x := by
  refine h.aligned.hidden v v ?_ filled x
  rw [h.resolve]
  exact Solver.resolve_of_unbound (fills.bare v filled).1

namespace Fills

variable {known' : Propagator → Prop} (h : s.Fills (· ∈ hs) t) (orderly : s.Orderly (.ints known)) (complete : s.Complete)
variable (orderly' : t.Orderly (.ints known'))

include h orderly complete orderly'

omit complete in
/-- No stored propagator has the stamp of a new one. -/
theorem unstamped {p : Propagator} {u : Var} (stored : p ∈ s.storedWatchers u) : p.stamp ≠ s.supply ∧ p.stamp ≠ t.supply := by
  have same : t.storedWatchers u = s.storedWatchers u := by simp only [storedWatchers, attributes, h.attrs]
  have first := orderly.stamped p (.inr ⟨u, stored⟩)
  have second := orderly'.stamped p (.inr ⟨u, same ▸ stored⟩)
  omega

/-- The second solver numbers a new propagator. -/
theorem aligned_enlisted : AlignedOn hs 1 0 s (Solver.new s) ((Solver.new (t.stamped r).2).enlist (t.stamped r).1) where
  aligned :=
    have aligned := h.aligned orderly.acyclic orderly'.acyclic complete
    { toMirrors := aligned.toMirrors.congr rfl rfl rfl rfl fun _ _ => rfl
      attrs := aligned.attrs
      unwatched := aligned.unwatched
      unmet := aligned.unmet
      subscribers := fun _ _ => rfl
      props := fun id _ => by
        rw [Solver.prop?_enlist, if_neg (by simp [PropId.raise, Solver.new])]
        simp [Solver.new, Solver.prop?]
      size := rfl
      interned := fun u p stored => by
        have other := (h.unstamped orderly orderly' stored).2
        simp [Solver.new, Solver.enlist, stamped, other.symm] }
  resolve := rfl

/-- Both solvers number a new propagator. -/
theorem aligned_enlisted_both : AlignedOn hs 0 1 s ((Solver.new (s.stamped q).2).enlist (s.stamped q).1)
    ((Solver.new (t.stamped r).2).enlist (t.stamped r).1) where
  aligned :=
    have aligned := h.aligned orderly.acyclic orderly'.acyclic complete
    { toMirrors := aligned.toMirrors.congr rfl rfl rfl rfl fun _ _ => rfl
      attrs := aligned.attrs
      unwatched := aligned.unwatched
      unmet := fun u p stored v mem x free =>
        aligned.unmet u p stored v mem x ((congrFun (resolve_stamped s q) v).symm.trans free)
      subscribers := fun _ _ => rfl
      props := fun id above => by
        have later : id ≠ ⟨0⟩ := fun same => by simp [same] at above
        have missing (a : Subst) (p : Propagator) : ((Solver.new a).enlist p).prop? id = none :=
          (Solver.prop?_enlist _ _ _).trans ((if_neg later).trans (by simp [Solver.new, Solver.prop?]))
        rw [PropId.raise_zero, missing, missing]
      size := rfl
      interned := fun u p stored => by
        obtain ⟨other, other'⟩ := h.unstamped orderly orderly' stored
        simp [Solver.new, Solver.enlist, stamped, other.symm, other'.symm] }
  resolve := resolve_stamped s q

section Turned

variable (proper : r.Proper) (shown : ∀ v ∈ r.vars, v ∉ hs → ∀ u, s.walk (.var v) = .var u → u ∉ hs)

include proper shown

/-- Asking for the variables that are not filled in brings what posting does. -/
theorem abreast_turned : ((Solver.new s).asked (r.vars.filter (· ∉ hs))).Abreast (· ∈ hs) 1 (t.turned r) := by
  have subscribed : AlignedOn hs 1 0 s ((Solver.new s).asked (r.vars.filter (· ∉ hs))) (t.subscribed r) := by
    refine foldl_filter_rel (R := AlignedOn hs 1 0 s) r.vars (fun v mem out u u' on => ⟨?_, ?_⟩)
      (fun v mem filled u u' on => ?_) _ _ (h.aligned_enlisted orderly complete orderly')
    · refine on.aligned.subscribe_below Nat.one_pos fun x free => shown v mem out x ?_
      rw [on.resolve] at free
      exact Solver.resolve_eq_free_iff.mp free
    · exact (u.domain_spec v).2.resolve.trans on.resolve
    · rw [subscribe_of_not_free (on.not_free h filled)]
      exact on
  have waiting := subscribed.aligned.set_agenda ((Solver.new s).asked (r.vars.filter (· ∉ hs))).agenda { arrivals := 1 }
  have dropped : Aligned (· ∈ hs) 1 0 ((Solver.new s).asked (r.vars.filter (· ∉ hs))) (t.turned r) := by
    have found : ({ t.subscribed r with agenda := { arrivals := 1 } } : Solver).prop? ⟨0⟩ = some (t.stamped r).1 :=
      t.prop?_subscribed r
    rw [turned, Solver.unsubscribe_of_found found]
    exact List.foldlRecOn (motive := fun u => Aligned (· ∈ hs) 1 0 ((Solver.new s).asked (r.vars.filter (· ∉ hs))) u)
      _ _ waiting fun u aligned v _ => aligned.dropSubscriber_below Nat.one_pos v
  obtain ⟨⟨m, eq⟩, silent⟩ := orderly'.turned_spec proper
  refine dropped.abreast (fun u id mem => ?_) ?_
  · by_contra below
    obtain ⟨index⟩ := id
    obtain rfl : index = 0 := by simpa using below
    exact silent u mem
  · have idle : ((Solver.new s).asked (r.vars.filter (· ∉ hs))).agenda = {} :=
      List.foldlRecOn (motive := fun u : Solver => u.agenda = {}) _ _ rfl fun u same v _ =>
        (Solver.agenda_domain u v).trans same
    rw [idle, eq]
    exact Agenda.raised_empty 1

omit proper shown in
/-- Posting relations that have the variables in common that are not filled in goes the same
    way. -/
theorem aligned_turned (vars : q.vars = r.vars.filter (· ∉ hs)) : Aligned (· ∈ hs) 0 1 (s.turned q) (t.turned r) := by
  have subscribed : AlignedOn hs 0 1 s (s.subscribed q) (t.subscribed r) := by
    rw [Subst.subscribed, vars]
    refine foldl_filter_rel (R := AlignedOn hs 0 1 s) r.vars (fun v mem out u u' on => ⟨?_, ?_⟩)
      (fun v mem filled u u' on => ?_) _ _ (h.aligned_enlisted_both orderly complete orderly')
    · exact on.aligned.subscribe ⟨0⟩ v
    · exact (u.grows_subscribe ⟨0⟩ v).resolve.trans on.resolve
    · rw [subscribe_of_not_free (on.not_free h filled)]
      exact on
  have waiting : AlignedOn hs 0 1 s { s.subscribed q with agenda := { arrivals := 1 } }
      { t.subscribed r with agenda := { arrivals := 1 } } := ⟨subscribed.aligned.set_agenda _ _, subscribed.resolve⟩
  have found : ({ t.subscribed r with agenda := { arrivals := 1 } } : Solver).prop? ⟨0⟩ = some (t.stamped r).1 :=
    t.prop?_subscribed r
  have found' : ({ s.subscribed q with agenda := { arrivals := 1 } } : Solver).prop? ⟨0⟩ = some (s.stamped q).1 :=
    s.prop?_subscribed q
  have vars' : (s.stamped q).1.val.vars = (t.stamped r).1.val.vars.filter (· ∉ hs) := vars
  have dropped : AlignedOn hs 0 1 s (s.turned q) (t.turned r) := by
    rw [turned, turned, Solver.unsubscribe_of_found found, Solver.unsubscribe_of_found found', vars']
    refine foldl_filter_rel (R := AlignedOn hs 0 1 s) r.vars (fun v mem out u u' on => ⟨?_, ?_⟩)
      (fun v mem filled u u' on => ?_) _ _ waiting
    · exact on.aligned.dropSubscriber ⟨0⟩ v
    · obtain ⟨m, eq, _⟩ := Solver.dropSubscriber_spec ⟨0⟩ u v
      rw [eq]
      exact on.resolve
    · rw [dropSubscriber_of_not_free (on.not_free h filled)]
      exact on
  exact dropped.aligned

end Turned

/-- Once the second solver has gone on to the relation of the first one, the two run abreast. -/
theorem abreast_replaced (vars : q.vars = r.vars.filter (· ∉ hs)) :
    ∃ u, Narrow.replaceWith ⟨0⟩ q (t.turned r) = .ok () u ∧ (s.turned q).Abreast (· ∈ hs) 0 u := by
  have aligned := h.aligned_turned orderly complete orderly' vars
  obtain ⟨found, agenda⟩ := s.new_turned q
  obtain ⟨found', agenda'⟩ := t.new_turned r
  obtain ⟨u, run, bindings, attrs, domains, subscribers, waits, others, this⟩ := (t.turned r).replaceWith_spec ⟨0⟩ q
  refine ⟨u, run, ⟨?_, fun v shown => ?_, fun id => ?_, ?_⟩⟩
  · exact aligned.toMirrors.congr rfl rfl bindings attrs fun v shown => by rw [domains, aligned.domains v shown]
  · have same : u.subscribersOf v = (t.turned r).subscribersOf v := by
      rw [Solver.subscribersOf, Solver.subscribersOf, subscribers]
    rw [same, ← aligned.subscribers v shown]
    exact (List.filter_eq_self.mpr fun _ _ => by simp).symm
  · by_cases new : id = ⟨0⟩
    · subst new
      rw [PropId.raise_zero, this, found, found']
      rfl
    · have above : 1 ≤ id.index := by
        obtain ⟨index⟩ := id
        exact Nat.one_le_iff_ne_zero.mpr fun zero => new (congrArg PropId.mk zero)
      rw [PropId.raise_zero, others id new]
      exact aligned.props id above
  · rw [waits, agenda, agenda']
    exact Agenda.raised_refl _

end Fills

end Subst

/-! ## Attempts -/

namespace Attempt

/-- The second attempt is stopped, or ends as the first one does, hidden variables apart. -/
def Echoes (H : Var → Prop) (r r' : Attempt Subst) : Prop :=
  (∃ why, r' = .error (.stop why)) ∨ (∃ why, r = .error why ∧ r' = .error why) ∨
    ∃ a b, r = .ok a ∧ r' = .ok b ∧ a.AgreeOff H b

end Attempt

namespace Narrow

variable {α : Type} {H : Var → Prop} {δ : Nat} {s s' t t' : Solver} {m m' n n' : Narrow α} {Q : α → Solver → Prop}

/-- Where runs end as others do that go in step, they go in step themselves. -/
theorem InStep.of_runs (h : InStep H δ s' t' n n' Q) (same : m s = n s')
    (ok : ∀ a u, n' t' = .ok a u → m' t = .ok a u)
    (error : ∀ why u, n' t' = .error why u → ∃ u', m' t = .error why u') : InStep H δ s t m m' Q := by
  unfold InStep at h ⊢
  rw [same]
  split at h
  · obtain ⟨u, run, good⟩ := h
    exact ⟨u, ok _ u run, good⟩
  · obtain ⟨u, run⟩ := h
    exact error _ u run

/-- What a run keeps is kept from before. -/
theorem Follows.of_keeps {Q : α → Prop} {s₀ : Solver} (h : Follows H δ s t m m' Q) (keeps : s₀.Keeps H s) :
    InStep H δ s t m m' fun a s' => s₀.Keeps H s' ∧ Q a :=
  InStep.mono h fun _ _ good => ⟨keeps.trans good.1, good.2⟩

/-- Narrowings in step are written back as attempts of which the second one echoes the first. -/
theorem Follows.echoes {K L : Scope} {m m' : Narrow Unit} (follows : Follows H δ s t m m' fun _ => True)
    (steady : Leaves s m fun _ u => u.Steady K) (steady' : Leaves t m' fun _ u => u.Steady L) :
    Attempt.Echoes H (s.runToSubst m) (t.runToSubst m') := by
  rcases Solver.written_inStep follows steady steady' with
    ⟨why, first, second⟩ | ⟨u, u', a, b, _, _, abreast, good, good', first, back, second, back'⟩
  · exact .inr (.inl ⟨why, first, second⟩)
  · exact .inr (.inr ⟨a, b, first, second, back.agree back' good good' abreast.toMirrors⟩)

end Narrow

/-- A propagator below the others may be another one. -/
theorem Solver.Abreast.retouched {H : Var → Prop} {u u' u'' : Solver} (h : u.Abreast H 1 u')
    (retouched : Solver.Retouched ⟨0⟩ u' u'') : u.Abreast H 1 u'' where
  toMirrors := h.toMirrors.congr rfl rfl retouched.bindings retouched.attrs fun v shown => by
    rw [retouched.domains, h.domains v shown]
  subscribers v shown := by
    rw [← h.subscribers v shown, Solver.subscribersOf, retouched.subscribers]
    rfl
  props id := by
    rw [retouched.others _ (by simp [PropId.raise])]
    exact h.props id
  agenda := retouched.agenda ▸ h.agenda

namespace Subst

open Narrow (Follows Leaves)
open Solver (Retouched)

variable {hs : List Var} {s t : Subst} {r q : Relation} {v w : Var} {known known' : Propagator → Prop} {vs : List Var}

theorem Orderly.opens_asked {K : Scope} (h : s.Orderly K) (vs : List Var) :
    (Solver.new s).Opens K ((Solver.new s).asked vs) ∧
      ∀ v ∈ vs, ((Solver.new s).asked vs).Loaded v := by
  obtain ⟨opens, loaded⟩ := Solver.Opens.asked vs _ h.steady_new.opens_self
  refine ⟨opens, fun v mem u free => loaded v mem u ?_⟩
  rwa [opens.loads.resolve] at free

/-- What is at work where variables have been asked for is stored, and mentions no variable
    without attributes. -/
theorem Orderly.masked_asked {H : Var → Prop} (h : s.Orderly (.ints known)) (complete : s.Complete)
    (bare : ∀ w, H w → s.attributes w = {}) (vs : List Var) : ((Solver.new s).asked vs).Masked H := by
  obtain ⟨opens, _⟩ := h.opens_asked vs
  refine opens.steady.masked fun p ⟨j, found⟩ v mem x free hid => ?_
  obtain ⟨y, _, stored⟩ := opens.loads.newer j p (Nat.zero_le _) found
  rw [opens.loads.resolve] at free
  exact complete.unmet (bare x hid) stored mem free

namespace Fills

variable (h : s.Fills (· ∈ hs) t) (orderly : s.Orderly (.ints known)) (complete : s.Complete)
variable (orderly' : t.Orderly (.ints known')) (proper : r.Proper)
variable (shown : ∀ v ∈ r.vars, v ∉ hs → ∀ u, s.walk (.var v) = .var u → u ∉ hs)

include h orderly complete orderly' proper shown

/-- Where the first run ends as another narrowing, posting comes to that narrowing of the
    variables that are not filled in. -/
theorem echoes_of_endsAs {K : Scope} {m m' : Narrow Unit}
    (ends : Narrow.EndsAs ⟨0⟩ (t.turned r) (Narrow.propagate ⟨0⟩ r) m')
    (follows : ∀ u, ((Solver.new s).asked (r.vars.filter (· ∉ hs))).Abreast (· ∈ hs) 1 u →
      Follows (· ∈ hs) 1 ((Solver.new s).asked (r.vars.filter (· ∉ hs))) u m m' fun _ => True)
    (leaves : Leaves ((Solver.new s).asked (r.vars.filter (· ∉ hs))) m fun _ u => u.Steady K) :
    Attempt.Echoes (· ∈ hs)
      (((Solver.new s).asked (r.vars.filter (· ∉ hs))).runToSubst (do m; Narrow.fixpoint)) (t.posting r).solve? := by
  have abreast := h.abreast_turned orderly complete orderly' proper shown
  have masked := orderly.masked_asked complete (fun w filled => (h.bare w filled).2) (r.vars.filter (· ∉ hs))
  generalize (Solver.new s).asked (r.vars.filter (· ∉ hs)) = base at *
  obtain ⟨steady, _⟩ := orderly'.steady_posting proper
  have posted (n : Nat) (le : (t.posting r).runBudget ≤ n + 1) : Narrow.fixpoint (t.posting r) =
      (Narrow.propagate ⟨0⟩ r >>= fun _ => Narrow.runWaiting n) (t.turned r) :=
    (steady.fixpoint_eq_runWaiting le).trans (t.runWaiting_posting r n)
  rcases ends with ⟨why, u, stopped⟩ | ⟨u, retouched, ends⟩
  · refine .inl ⟨why, Solver.runToSubst_of_error (u := u) ?_⟩
    exact (posted _ (Nat.le_succ _)).trans (Narrow.bind_of_error stopped)
  have first := follows u (abreast.retouched retouched)
  obtain ⟨n, le, whole⟩ : ∃ n, (t.posting r).runBudget ≤ n + 1 ∧
      (do m; Narrow.fixpoint : Narrow Unit) base = (m >>= fun _ => Narrow.runWaiting n) base := by
    cases run : m base with
    | error why u => exact ⟨_, Nat.le_succ _, (Narrow.bind_of_error run).trans (Narrow.bind_of_error run).symm⟩
    | ok _ u =>
      refine ⟨max (t.posting r).runBudget u.runBudget, Nat.le_succ_of_le (le_max_left _ _), ?_⟩
      rw [Narrow.bind_of_ok run, Narrow.bind_of_ok run]
      exact (leaves () u run).fixpoint_eq_runWaiting (le_max_right _ _)
  have rest := first.bind fun _ s' t' abreast keeps _ => Solver.Masked.runWaiting n s' t' (masked.keeps keeps) abreast
  have both : Follows (· ∈ hs) 1 base (t.posting r) (do m; Narrow.fixpoint) Narrow.fixpoint fun _ => True := by
    rcases ends with ⟨v, ran, ran'⟩ | ⟨why, v, v', ran, ran'⟩
    · have same : Narrow.fixpoint (t.posting r) = (m' >>= fun _ => Narrow.runWaiting n) u :=
        (posted n le).trans ((Narrow.bind_of_ok ran).trans (Narrow.bind_of_ok (f := fun _ => Narrow.runWaiting n) ran').symm)
      exact Narrow.InStep.of_runs rest whole (fun _ _ run => same.trans run) fun why u' run => ⟨u', same.trans run⟩
    · have same := Narrow.bind_of_error (f := fun _ => Narrow.runWaiting n) ran'
      refine Narrow.InStep.of_runs rest whole (fun _ _ run => ?_) fun why' u' run => ⟨v, ?_⟩
      · cases same.symm.trans run
      · cases same.symm.trans run
        exact (posted n le).trans (Narrow.bind_of_error ran)
  refine both.echoes (K := K) (fun _ u' ran => ?_) (steady.fixpoint.leaves.mono fun _ _ => And.left)
  cases run : m base with
  | error why u => cases (Narrow.bind_of_error run).symm.trans ran
  | ok _ u =>
    exact ((leaves () u run).fixpoint.leaves () u' ((Narrow.bind_of_ok run).symm.trans ran)).1

/-- Where the first run comes to narrowing a variable that is not filled in, so does posting. -/
theorem echoes_of_fixes {d : Domain} (vars : r.vars.filter (· ∉ hs) = vs) (mem : v ∈ vs) (canonical : d.Canonical)
    (finite : d ≠ .unbounded) (fixes : Narrow.Fixes ⟨0⟩ (t.turned r) (Narrow.propagate ⟨0⟩ r) v d) :
    Attempt.Echoes (· ∈ hs) (((Solver.new s).asked vs).runToSubst (do Narrow.reduce v d; Narrow.fixpoint))
      (t.posting r).solve? := by
  subst vars
  obtain ⟨opens, loaded⟩ := orderly.opens_asked (r.vars.filter (· ∉ hs))
  have seen : ((Solver.new s).asked (r.vars.filter (· ∉ hs))).Seen (· ∈ hs) v := by
    intro u free
    refine ⟨?_, loaded v mem u free⟩
    rw [opens.loads.resolve] at free
    rw [List.mem_filter] at mem
    exact shown v mem.1 (by simpa using mem.2) u (Solver.resolve_eq_free_iff.mp free)
  refine h.echoes_of_endsAs orderly complete orderly' proper shown fixes (fun u abreast => ?_)
    ((opens.steady.reduce canonical fun full => absurd full finite).leaves.mono fun _ _ => And.left)
  have clear : Solver.Clear (· ∈ hs) 1 [v] ((Solver.new s).asked (r.vars.filter (· ∉ hs))) u :=
    ⟨abreast, by simpa using seen⟩
  exact clear.reduce (by simp)

/-- Where the first run comes to a condition, so does posting. -/
theorem echoes_of_required {b : Bool} (vars : r.vars.filter (· ∉ hs) = vs)
    (ends : Narrow.EndsAs ⟨0⟩ (t.turned r) (Narrow.propagate ⟨0⟩ r) (Narrow.require b)) :
    Attempt.Echoes (· ∈ hs) (((Solver.new s).asked vs).runToSubst (do Narrow.require b; Narrow.fixpoint))
      (t.posting r).solve? := by
  subst vars
  obtain ⟨opens, _⟩ := orderly.opens_asked (r.vars.filter (· ∉ hs))
  refine h.echoes_of_endsAs (K := .ints known) orderly complete orderly' proper shown ends (fun u abreast => ?_)
    fun _ u ran => ?_
  · exact .require abreast fun _ => trivial
  · cases b
    · cases ran
    · cases ran
      exact opens.steady

/-- Where the first run goes on as one for the other relation, posting comes to posting that. -/
theorem echoes_of_replaced (vars : q.vars = r.vars.filter (· ∉ hs)) (proper' : q.Proper)
    (looks : Narrow.propagate ⟨0⟩ r (t.turned r) = (do
      Narrow.replaceWith ⟨0⟩ q
      Narrow.propagate ⟨0⟩ q : Narrow Unit) (t.turned r)) :
    Attempt.Echoes (· ∈ hs) (s.posting q).solve? (t.posting r).solve? := by
  obtain ⟨u, replaced, abreast⟩ := h.abreast_replaced orderly complete orderly' vars
  obtain ⟨steady, _⟩ := orderly.steady_posting proper'
  obtain ⟨steady', _⟩ := orderly'.steady_posting proper
  have seen (v : Var) (mem : v ∈ q.vars) : (s.turned q).Seen (· ∈ hs) v := by
    intro x free
    refine ⟨?_, orderly.loaded_turned proper' mem x free⟩
    rw [vars, List.mem_filter] at mem
    rw [(s.matches_turned q).resolve] at free
    exact shown v mem.1 (by simpa using mem.2) x (Solver.resolve_eq_free_iff.mp free)
  obtain ⟨⟨_, eq⟩, _⟩ := orderly.turned_spec proper'
  have keeps : (s.posting q).Keeps (· ∈ hs) (s.turned q) := by
    rw [eq]
    exact .of_eq rfl rfl rfl
  have masked : (s.turned q).Masked (· ∈ hs) := by
    refine Solver.Masked.keeps (fun j p found => .inl fun v mem x free => ?_) keeps
    have resolve : (s.posting q).resolve = (Solver.new s).resolve := by
      rw [← (s.matches_turned q).resolve, eq]
      rfl
    refine ⟨?_, (steady.closed p ⟨j, found⟩ v mem x free).resolve_right id⟩
    rcases work_posting ⟨j, found⟩ with rfl | ⟨y, stored⟩
    · refine (seen v mem x ?_).1
      rw [(s.matches_turned q).resolve, ← resolve]
      exact free
    · rw [resolve] at free
      exact fun filled => complete.unmet (h.bare x filled).2 stored mem free
  obtain ⟨n, le, le'⟩ : ∃ n, (s.posting q).runBudget ≤ n + 1 ∧ (t.posting r).runBudget ≤ n + 1 :=
    ⟨_, Nat.le_succ_of_le (le_max_left _ _), Nat.le_succ_of_le (le_max_right _ _)⟩
  have step : Follows (· ∈ hs) 0 (s.turned q) u (Narrow.propagate ⟨0⟩ q) (Narrow.propagate ⟨0⟩ q) fun _ => True :=
    Solver.Clear.propagate ⟨abreast, seen⟩
  have rest := step.bind fun _ s' t' abreast keeps _ => Solver.Masked.runWaiting n s' t' (masked.keeps keeps) abreast
  have first : Narrow.fixpoint (s.posting q) = (Narrow.propagate ⟨0⟩ q >>= fun _ => Narrow.runWaiting n) (s.turned q) :=
    (steady.fixpoint_eq_runWaiting le).trans (s.runWaiting_posting q n)
  have second : Narrow.fixpoint (t.posting r) = (Narrow.propagate ⟨0⟩ q >>= fun _ => Narrow.runWaiting n) u := by
    refine (steady'.fixpoint_eq_runWaiting le').trans ((t.runWaiting_posting r n).trans ?_)
    exact Narrow.bind_of_eq (looks.trans (Narrow.bind_of_ok replaced))
  have both : Follows (· ∈ hs) 0 (s.posting q) (t.posting r) Narrow.fixpoint Narrow.fixpoint fun _ => True :=
    .of_runs (rest.of_keeps keeps) first (fun _ _ run => second.trans run) fun why u' run => ⟨u', second.trans run⟩
  exact both.echoes (steady.fixpoint.leaves.mono fun _ _ => And.left) (steady'.fixpoint.leaves.mono fun _ _ => And.left)

end Fills

end Subst

end ConstraintLogic
