import ConstraintLogic.Proofs.Solver.Idempotence
import ConstraintLogic.Proofs.Solver.OtherAttributes

/-!
# Loading again what was written back

A solver that is written back leaves with every variable without value the propagators
that subscribe to it, and these with all of their variables. A new solver that loads such a
variable takes up just these propagators, whichever variable it meets first.

Results:
* `Solver.Loads`: what loading brings.
* `Solver.Entire`: a propagator subscribes to all of its variables without value, or to none.
* `Solver.Opens.mem_watchersOf`: the propagators that subscribe to a loaded variable.
* `Solver.WrittenBack.mem_watchersOf_asked`: they are the same before and after writing back.
* `Solver.Arises.complied`: solvers that arise from requests and fixpoints are in order.
* `Subst.Furnished.reload`: what is written back and loaded again is what there was.
-/

namespace ConstraintLogic.Solver

variable {K : Scope} {E F : PropId → Prop} {P : Var → Prop} {s t u : Solver} {id : PropId} {p : Propagator}
variable {v w : Var} {d : Domain}

/-- The propagators that subscribe to the unbound variable. -/
def watchersOf (s : Solver) (w : Var) : List Propagator := (s.subscribersOf w).filterMap s.prop?

theorem mem_watchersOf : p ∈ s.watchersOf w ↔ ∃ id ∈ s.subscribersOf w, s.prop? id = some p := List.mem_filterMap

theorem index_lt_size (found : s.prop? id = some p) : id.index < s.props.size :=
  (Array.getElem?_eq_some_iff.mp found).1

/-- An old number has the propagator that it had. -/
theorem Grows.prop?_of_lt (h : s.Grows t) (below : id.index < s.props.size) (found : t.prop? id = some p) :
    s.prop? id = some p := by
  have before : s.prop? id = some s.props[id.index] := Array.getElem?_eq_getElem below
  rw [before, ← found, h.props id _ before]

/-! ## What loading brings -/

/-- The second solver knows more than the first one: the propagators that are new to it were
    stored with variables that the first one has not loaded, and the old ones have no new
    subscriptions. -/
structure Loads (s t : Solver) : Prop extends s.Grows t where
  size : s.props.size ≤ t.props.size
  older : ∀ w id, id.index < s.props.size → id ∈ t.subscribersOf w → id ∈ s.subscribersOf w
  newer : ∀ id p, s.props.size ≤ id.index → t.prop? id = some p →
    ∃ y, y ∉ s.domains ∧ p ∈ s.subst.storedWatchers y

namespace Loads

theorem refl (s : Solver) : s.Loads s where
  toGrows := .refl s
  size := Nat.le_refl _
  older _ _ _ mem := mem
  newer _ _ above found := absurd (index_lt_size found) (Nat.not_lt_of_le above)

theorem trans (h : s.Loads t) (h' : t.Loads u) : s.Loads u where
  toGrows := h.toGrows.trans h'.toGrows
  size := Nat.le_trans h.size h'.size
  older w id below mem := h.older w id below (h'.older w id (Nat.lt_of_lt_of_le below h.size) mem)
  newer id p above found := by
    by_cases below : id.index < t.props.size
    · exact h.newer id p above (h'.prop?_of_lt below found)
    · obtain ⟨y, out, stored⟩ := h'.newer id p (Nat.le_of_not_lt below) found
      exact ⟨y, fun mem => out (h.mem_domains mem), h.subst ▸ stored⟩

theorem reveal (h : s.Loads t) (absent : v ∉ t.domains) : s.Loads (t.reveal v) :=
  { h with toGrows := h.toGrows.trans (grows_reveal absent) }

theorem addSubscriber (h : s.Loads t) (above : s.props.size ≤ id.index) (w : Var) :
    s.Loads (t.addSubscriber id w) := by
  have grows := t.grows_addSubscriber id w
  have older (x : Var) (j : PropId) (below : j.index < s.props.size)
      (mem : j ∈ (t.addSubscriber id w).subscribersOf x) : j ∈ s.subscribersOf x := by
    rcases mem_subscribersOf_addSubscriber.mp mem with before | ⟨_, rfl⟩
    · exact h.older x j below before
    · exact absurd below (Nat.not_lt_of_le above)
  obtain ⟨m, eq⟩ := t.addSubscriber_eq id w
  rw [eq] at grows older ⊢
  exact ⟨h.toGrows.trans grows, h.size, older, h.newer⟩

/-- A propagator is taken up that is stored with a variable that was not loaded. -/
theorem adopt {state : List Var × Solver} (h : s.Loads state.2) (absent : v ∉ s.domains)
    (stored : p ∈ s.subst.storedWatchers v) : s.Loads (Solver.adopt state p).2 := by
  obtain ⟨pending, t⟩ := state
  rw [adopt_eq]
  unfold intern
  cases t.interned[p.stamp]? with
  | some id => exact h
  | none =>
    have enlisted : s.Loads (t.enlist p) := by
      refine ⟨h.toGrows.trans (t.grows_enlist p), ?_, h.older, fun id q above found => ?_⟩
      · simpa [Solver.enlist] using Nat.le_succ_of_le h.size
      · rw [prop?_enlist] at found
        split at found
        · cases found
          exact ⟨v, absent, stored⟩
        · exact h.newer id q above found
    refine List.foldlRecOn (motive := fun r : List Var × Solver => s.Loads r.2) _ _ enlisted ?_
    intro r loads x _
    unfold adoptVar
    split
    · exact loads.addSubscriber h.size _
    · exact loads

theorem loadAll (n : Nat) : ∀ (pending : List Var) (t : Solver), s.Loads t →
    s.Loads (Solver.loadAll n pending t) := by
  induction n with
  | zero =>
    intro pending t h
    unfold Solver.loadAll
    exact h
  | succ n ih =>
    intro pending t h
    cases pending with
    | nil =>
      unfold Solver.loadAll
      exact h
    | cons v pending =>
      by_cases present : v ∈ t.domains
      · rw [loadAll_of_mem present]
        exact ih pending t h
      · rw [loadAll_of_not_mem present]
        refine ih _ _ ?_
        refine List.foldlRecOn (motive := fun r : List Var × Solver => s.Loads r.2) _ _ (h.reveal present) ?_
        intro r loads p stored
        exact loads.adopt (fun mem => present (h.mem_domains mem)) (h.subst ▸ stored)

theorem load (s : Solver) (v : Var) : s.Loads (s.load v) := by
  unfold Solver.load
  split
  · exact .refl s
  · exact loadAll _ [v] s (.refl s)

theorem domain (s : Solver) (v : Var) : s.Loads (s.domain v).2 := by
  unfold Solver.domain
  cases s.resolve v with
  | free w => exact .load s w
  | _ => exact .refl s

end Loads

/-! ## Subscribing to all or to none -/

/-- All unbound variables of the propagators that were stored with a loaded variable are
    loaded, and a propagator that subscribes to a variable subscribes to all of its variables
    that are without value. The numbers in `E` are exempt, and the variables in `P` are still
    to be loaded. -/
structure Entire (E : PropId → Prop) (P : Var → Prop) (s : Solver) : Prop where
  rounded : ∀ w ∈ s.domains, ∀ p ∈ s.subst.storedWatchers w, ∀ v ∈ p.val.vars, ∀ u,
    s.resolve v = .free u → u ∈ s.domains ∨ P u
  complete : ∀ w, ∀ id ∈ s.subscribersOf w, ¬E id → ∀ p, s.prop? id = some p → ∀ v ∈ p.val.vars, ∀ u,
    s.resolve v = .free u → id ∈ s.subscribersOf u ∨ s.Decided u

/-- Nothing is exempt, and nothing is still to be loaded. -/
abbrev Whole (s : Solver) : Prop := s.Entire (fun _ => False) fun _ => False

/-- What is stored with a variable that the second solver has loaded, and the first has not, is
    at work, and a number that is new to the second one subscribes to all of its variables. -/
abbrev Attends (s t : Solver) : Prop :=
  t.Attentive (fun _ => True) (fun id => id.index < s.props.size)
    fun p => ∃ w ∈ s.domains, p ∈ s.subst.storedWatchers w

theorem attends_self (s : Solver) : s.Attends s where
  stored _ _ _ := .inr (.inl trivial)
  taken w loaded _ stored := .inr ⟨w, loaded, stored⟩
  subscribed _ _ found new := absurd (index_lt_size found) new
  regular _ _ _ _ := .inr (.inl trivial)

namespace Entire

theorem mono {R : Var → Prop} (h : s.Entire E P) (more : ∀ id, E id → F id) (more' : ∀ w, P w → R w) :
    s.Entire F R where
  rounded w loaded p stored v mem u free := (h.rounded w loaded p stored v mem u free).imp_right (more' u)
  complete w id mem other := h.complete w id mem fun exempt => other (more id exempt)

/-- Loading takes stored propagators up together with all of their variables. -/
theorem loads {R : Var → Prop} (h : s.Entire E R) (loads : s.Loads t) (attends : s.Attends t) (sound : t.Sound K F P)
    (covered : ∀ w, R w → w ∈ t.domains ∨ P w) : t.Entire E P where
  rounded w loaded p stored v mem u free := by
    rcases attends.taken w loaded p stored with work | ⟨x, before, stored'⟩
    · exact sound.closed p work v mem u free
    · rw [loads.resolve] at free
      exact (h.rounded x before p stored' v mem u free).elim (fun before => .inl (loads.mem_domains before)) (covered u)
  complete w id mem other p found v in_vars u free := by
    by_cases below : id.index < s.props.size
    · rw [loads.resolve] at free
      refine (h.complete w id (loads.older w id below mem) other p (loads.prop?_of_lt below found) v in_vars u free).imp
        (loads.subscribers u id) fun decided => ?_
      rwa [Decided, loads.peek]
    · exact .inl (attends.subscribed id p found below v in_vars u free)

theorem load (h : s.Entire E fun w => v = w ∨ P w) (sound : s.Sound K F fun w => v = w ∨ P w)
    (unbound : s.subst.get? v = none) : (s.load v).Entire E P := by
  obtain ⟨unfolds, loaded⟩ := sound.load unbound
  refine h.loads (.load s v) (s.attends_self.load sound unbound) unfolds.sound fun w => ?_
  rintro (rfl | later)
  · exact .inl loaded
  · exact .inr later

theorem domain (h : s.Entire E P) (sound : s.Sound K F P) (v : Var) : (s.domain v).2.Entire E P :=
  h.loads (.domain s v) (s.attends_self.domain sound v) (sound.domain v).2.1.sound fun _ => .inr

/-- A number that is exempt may subscribe. -/
theorem addSubscriber (h : s.Entire E P) (exempt : E id) (w : Var) : (s.addSubscriber id w).Entire E P := by
  have grows := s.grows_addSubscriber id w
  have complete (x : Var) (j : PropId) (mem : j ∈ (s.addSubscriber id w).subscribersOf x) (other : ¬E j)
      (p : Propagator) (found : s.prop? j = some p) (v : Var) (in_vars : v ∈ p.val.vars) (u : Var)
      (free : s.resolve v = .free u) : j ∈ (s.addSubscriber id w).subscribersOf u ∨ s.Decided u := by
    rcases mem_subscribersOf_addSubscriber.mp mem with before | ⟨_, rfl⟩
    · exact (h.complete x j before other p found v in_vars u free).imp_left (grows.subscribers u j)
    · exact absurd exempt other
  obtain ⟨m, eq⟩ := s.addSubscriber_eq id w
  rw [eq] at complete ⊢
  exact ⟨h.rounded, complete⟩

theorem subscribe (h : s.Entire E fun w => s.resolve v = .free w ∨ P w)
    (sound : s.Sound K F fun w => s.resolve v = .free w ∨ P w) (exempt : E id) : (s.subscribe id v).Entire E P := by
  unfold Solver.subscribe
  cases free : s.resolve v with
  | free w =>
    have excused (u : Var) (later : s.resolve v = .free u ∨ P u) : w = u ∨ P u := by simpa [free] using later
    have loaded := (h.mono (fun _ exempt => exempt) excused).load (sound.excuse excused) (sound.unbound_of_free free)
    exact loaded.addSubscriber exempt w
  | value n => exact h.mono (fun _ exempt => exempt) fun u later => by simpa [free] using later
  | other => exact h.mono (fun _ exempt => exempt) fun u later => by simpa [free] using later

theorem subscribeAll (exempt : E id) (vs : List Var) : ∀ s : Solver,
    (s.Entire E fun w => (∃ v ∈ vs, s.resolve v = .free w) ∨ P w) →
    (s.Sound K F fun w => (∃ v ∈ vs, s.resolve v = .free w) ∨ P w) → s.prop? id = some p →
    (∀ v ∈ vs, v ∈ p.val.vars) → (vs.foldl (fun s v => s.subscribe id v) s).Entire E P := by
  induction vs with
  | nil => exact fun s h _ _ _ => h.mono (fun _ exempt => exempt) fun w later => by simpa using later
  | cons v vs ih =>
    intro s h sound found sub
    have excused (w : Var) (later : (∃ x ∈ v :: vs, s.resolve x = .free w) ∨ P w) :
        s.resolve v = .free w ∨ (∃ x ∈ vs, s.resolve x = .free w) ∨ P w := by simpa [or_assoc] using later
    have first := Sound.subscribe (sound.excuse excused) found (sub v (by simp))
    have entire := (h.mono (fun _ exempt => exempt) excused).subscribe (sound.excuse excused) exempt
    have sound' := first.sound
    rw [← first.grows.resolve] at sound' entire
    exact ih _ entire sound' (first.grows.props id p found) fun x mem => sub x (List.mem_cons_of_mem v mem)

/-- A propagator that is posted subscribes to all of its variables. -/
theorem post (h : s.Whole) (sound : s.Steady K) (known : K.known p) : (s.post p).2.Whole := by
  -- What is left is the same for a propagator that had a number and for one that gets one.
  have rest (id : PropId) (t : Solver) {F : PropId → Prop}
      (h : t.Entire (fun j => j = id) fun w => (∃ v ∈ p.val.vars, t.resolve v = .free w) ∨ False)
      (sound : t.Sound K F fun w => (∃ v ∈ p.val.vars, t.resolve v = .free w) ∨ False)
      (found : t.prop? id = some p) :
      ((p.val.vars.foldl (fun s v => s.subscribe id v) t).enqueue id).Whole := by
    have lax : t.Attentive (fun _ => True) (fun _ => True) fun _ => True :=
      ⟨fun _ _ _ => .inr (.inl trivial), fun _ _ _ _ => .inr trivial, fun _ _ _ other => absurd trivial other,
        fun _ _ _ other => absurd trivial other⟩
    obtain ⟨_, subscribed⟩ := Attentive.subscribeAll p.val.vars t lax sound found fun _ mem => mem
    have entire := subscribeAll (E := fun j => j = id) rfl p.val.vars t h sound found fun _ mem => mem
    have grows := (Sound.subscribeAll p.val.vars t sound found fun _ mem => mem).grows
    have found' := grows.props id p found
    rw [← grows.resolve] at subscribed
    generalize p.val.vars.foldl (fun s v => s.subscribe id v) t = u at *
    obtain ⟨a, eq⟩ := u.enqueue_eq id
    rw [eq]
    refine ⟨entire.rounded, fun w j mem _ q at_j => ?_⟩
    by_cases same : j = id
    · subst same
      cases found'.symm.trans at_j
      exact fun v in_vars x free => .inl (subscribed v in_vars x free)
    · exact entire.complete w j mem same q at_j
  unfold Solver.post
  rcases sound.intern_cases (.inl (.inl known)) with ⟨id, eq, found⟩ | ⟨eq, new⟩
  · rw [eq]
    exact rest id s (h.mono (fun _ => False.elim) fun _ => .inr) (sound.excuse fun _ => .inr) found
  · rw [eq]
    have found : (s.enlist p).prop? ⟨s.props.size⟩ = some p := by rw [prop?_enlist, if_pos rfl]
    refine rest _ _ ?_ ((sound.enlist (.inl (.inl known)) new).excuse fun _ => Or.symm) found
    refine ⟨fun w loaded q stored v mem u free => (h.rounded w loaded q stored v mem u free).imp_right False.elim, ?_⟩
    intro w j mem other q at_j
    rw [prop?_enlist, if_neg other] at at_j
    exact h.complete w j mem (fun none => none) q at_j

/-- Narrowing domains changes no subscription. -/
theorem aside {L : Scope} {G : PropId → Prop} {Q R : Var → Prop} (h : s.Entire E P) (hs : s.Sound K F Q)
    (ht : t.Sound L G R) (aside : s.Aside (fun _ => False) t) : t.Entire E P where
  rounded w loaded p stored v mem u free := by
    rw [aside.storedWatchers] at stored
    rw [aside.resolve] at free
    exact (h.rounded w ((aside.loaded w).mp loaded) p stored v mem u free).imp_left (aside.loaded u).mpr
  complete w id mem other p found v in_vars u free := by
    rw [aside.subscribers id fun none => none] at mem ⊢
    rw [aside.props id fun none => none] at found
    rw [aside.resolve] at free
    exact (h.complete w id mem other p found v in_vars u free).imp_right (hs.decided_of_aside ht aside)

/-- A reduction keeps the subscriptions, and so does one that ends in a conflict. -/
theorem reduce (h : s.Whole) (sound : s.Steady K) (canonical : d.Canonical)
    (full : d = .unbounded → ∀ θ, s.Admits K θ → (θ v).IsValue)
    (ran : Narrow.reduce v d s = .ok () t ∨ Narrow.reduce v d s = .error .conflict t) :
    t.Steady K ∧ t.Whole ∧ t.subst = s.subst := by
  obtain ⟨_, unfolds, loaded⟩ := sound.domain v
  have whole := h.domain sound v
  have resolve := unfolds.grows.resolve
  rcases ran with ran | ran
  · rw [← sound.reduce_domain v d] at ran
    obtain ⟨sound', reduced, aside, _⟩ := unfolds.sound.reduce_aside (v := v) canonical
      (fun w free => loaded w (by rw [← resolve, free]))
      (fun unbounded θ admits => full unbounded θ ((unfolds.admits θ).mp admits)) () t ran
    exact ⟨sound', whole.aside unfolds.sound sound' aside, reduced.subst.trans unfolds.grows.subst⟩
  · rw [reduce_eq] at ran
    cases found : s.resolve v with
    | free w =>
      obtain ⟨_, unfolds, _⟩ := sound.domain w
      rw [found] at ran
      dsimp only at ran
      split at ran
      · cases ran
        exact ⟨unfolds.sound, h.domain sound w, unfolds.grows.subst⟩
      split at ran <;> cases ran
    | value n =>
      rw [found] at ran
      dsimp only [Narrow.require] at ran
      split at ran <;> cases ran
      exact ⟨sound, h, rfl⟩
    | other =>
      rw [found] at ran
      cases ran
      exact ⟨sound, h, rfl⟩

end Entire

theorem Tended.whole {Z R : Propagator → Prop} (h : s.Tended Z R) : s.Whole where
  rounded w loaded p stored v mem u free := .inl (h.rounded p (.inr ⟨w, loaded, stored⟩) v mem u free)
  complete w id mem _ p found v in_vars u free := h.complete w id mem p found v in_vars u free

theorem Entire.tended (h : s.Whole) : s.Tended (fun _ => False) fun _ => True where
  rounded p known v mem w free := by
    rcases known with none | ⟨x, loaded, stored⟩
    · exact none.elim
    · exact (h.rounded x loaded p stored v mem w free).resolve_right fun none => none
  complete w id mem p found v in_vars u free := h.complete w id mem (fun none => none) p found v in_vars u free
  regular _ _ _ _ _ := .inr (.inl trivial)

/-! ## What loading finds -/

/-- The solver after the domains of the variables have been asked for. -/
def asked (s : Solver) (vs : List Var) : Solver := vs.foldl (fun s v => (s.domain v).2) s

/-- The second solver comes of loading variables of the first one. -/
structure Opens (K : Scope) (s t : Solver) : Prop where
  loads : s.Loads t
  attends : s.Attends t
  steady : t.Steady K

theorem Sound.opens_self (h : s.Steady K) : s.Opens K s := ⟨.refl s, s.attends_self, h⟩

namespace Opens

/-- What is asked for is loaded. -/
theorem asked (vs : List Var) : ∀ t : Solver, s.Opens K t →
    s.Opens K (t.asked vs) ∧ ∀ v ∈ vs, ∀ w, s.resolve v = .free w → w ∈ (t.asked vs).domains := by
  induction vs with
  | nil => exact fun t h => ⟨h, by simp⟩
  | cons v vs ih =>
    intro t h
    obtain ⟨_, unfolds, loaded⟩ := h.steady.domain v
    have first : s.Opens K (t.domain v).2 :=
      ⟨h.loads.trans (.domain t v), h.attends.domain h.steady v, unfolds.sound⟩
    obtain ⟨opens, rest⟩ := ih _ first
    refine ⟨opens, fun x mem w free => ?_⟩
    rcases List.mem_cons.mp mem with rfl | mem
    · have here := loaded w (by rw [h.loads.resolve, free])
      have grows : (t.domain x).2.Grows ((t.domain x).2.asked vs) :=
        List.foldlRecOn (motive := fun u => (t.domain x).2.Grows u) vs _ (.refl _) fun u grows y _ =>
          grows.trans (Loads.domain u y).toGrows
      exact grows.mem_domains here
    · exact rest x mem w free

/-- With a loaded variable go the propagators that subscribed to it before, or those that
    were stored with it if it was not loaded. -/
theorem mem_watchersOf (h : s.Opens K t) (steady : s.Steady K) (whole : s.Whole)
    (spread : ∀ w, ∀ p ∈ s.subst.storedWatchers w, ∀ v ∈ p.val.vars, ∀ u, s.resolve v = .free u →
      p ∈ s.subst.storedWatchers u) (loaded : w ∈ t.domains) :
    p ∈ t.watchersOf w ↔
      (w ∈ s.domains ∧ p ∈ s.watchersOf w) ∨ (w ∉ s.domains ∧ p ∈ s.subst.storedWatchers w) := by
  have grows := h.loads.toGrows
  rw [Solver.mem_watchersOf, Solver.mem_watchersOf]
  constructor
  · rintro ⟨id, subscribed, found⟩
    by_cases below : id.index < s.props.size
    · have before := h.loads.older w id below subscribed
      obtain ⟨q, found', v, mem, free⟩ := steady.subscribed w id before
      cases found'.symm.trans (h.loads.prop?_of_lt below found)
      have in_s := (steady.closed p ⟨id, found'⟩ v mem w free).resolve_right fun none => none
      exact .inl ⟨in_s, id, before, found'⟩
    · -- A propagator that is new was stored with a variable that had not been loaded.
      obtain ⟨y, out, stored⟩ := h.loads.newer id p (Nat.le_of_not_lt below) found
      obtain ⟨q, found', v, mem, free⟩ := h.steady.subscribed w id subscribed
      cases found'.symm.trans found
      rw [grows.resolve] at free
      have here := spread y p stored v mem w free
      refine .inr ⟨fun in_s => out ?_, here⟩
      obtain ⟨x, in_vars, leads⟩ := steady.base.mentions y p stored
      exact (whole.rounded w in_s p here x in_vars y (resolve_eq_free_iff.mpr leads)).resolve_right fun none => none
  · rintro (⟨_, id, subscribed, found⟩ | ⟨out, stored⟩)
    · exact ⟨id, grows.subscribers w id subscribed, grows.props id p found⟩
    · obtain ⟨x, in_vars, leads⟩ := steady.base.mentions w p stored
      have free := resolve_eq_free_iff.mpr leads
      have stored' : p ∈ t.subst.storedWatchers w := by rwa [grows.subst]
      rcases h.attends.taken w loaded p stored' with ⟨id, found⟩ | ⟨y, in_s, stored_y⟩
      · refine ⟨id, h.attends.subscribed id p found (fun below => out ?_) x in_vars w ?_, found⟩
        · have before := h.loads.prop?_of_lt below found
          exact (steady.closed p ⟨id, before⟩ x in_vars w free).resolve_right fun none => none
        · rw [grows.resolve, free]
      · exact absurd ((whole.rounded y in_s p stored_y x in_vars w free).resolve_right fun none => none) out

end Opens

/-! ## Loading what was written back -/

namespace WrittenBack

variable {subst : Subst}

/-- Every variable has the domain in the substitution that it has in the solver. -/
theorem peek (back : s.WrittenBack subst) (steady : s.Steady K) (v : Var) : (Solver.new subst).peek v = s.peek v := by
  have resolves := resolve_of_extends (s := s) (t := Solver.new subst) back.acyclic back.extends_ v
  cases found : s.resolve v with
  | free w =>
    rw [peek_of_free found]
    rcases back.resolve_of_free steady found with ⟨d, n, at_w, only, value⟩ | ⟨unbound, free⟩
    · have canonical := (steady.loaded w d at_w).2.1
      have alone := canonical.solution_eq_some_iff.mp only
      have valued := canonical.isValue_of_mem (by rintro rfl; cases only) (canonical.mem_of_solution only)
      rw [current_of_loaded at_w]
      unfold Solver.peek
      rw [value]
      exact (canonical_singleton valued).ext canonical fun m => by rw [Domain.mem_singleton, alone]
    · rw [peek_of_free free, ← back.storedDomain_eq unbound]
      simp [current, Solver.new]
  | value n =>
    unfold Solver.peek
    rw [resolves]
    simp only [found]
  | other =>
    unfold Solver.peek
    rw [resolves]
    simp only [found]

/-- A variable without value has the propagators in the substitution that it has in the
    solver, once it is loaded. -/
theorem mem_watchersOf_asked (back : s.WrittenBack subst) (steady : s.Steady K) (whole : s.Whole)
    (complete : s.subst.Complete) {vs : List Var} (mem : v ∈ vs) (free : (Solver.new subst).resolve v = .free w) :
    p ∈ ((Solver.new subst).asked vs).watchersOf w ↔ p ∈ (s.asked vs).watchersOf w := by
  obtain ⟨free', unbound⟩ := back.resolve_of_walk steady (resolve_eq_free_iff.mp free)
  have fresh : (Solver.new subst).Steady K := (back.orderly steady).steady_new
  obtain ⟨opens, loaded⟩ := Opens.asked vs _ steady.opens_self
  obtain ⟨opens', loaded'⟩ := Opens.asked vs _ fresh.opens_self
  have whole' : (Solver.new subst).Whole :=
    ⟨fun x mem => by simp [Solver.new] at mem, fun x id mem => by simp [Solver.new, subscribersOf] at mem⟩
  have spread (x : Var) (q : Propagator) (stored : q ∈ s.subst.storedWatchers x) (y : Var) (in_vars : y ∈ q.val.vars)
      (u : Var) (leads : s.resolve y = .free u) : q ∈ s.subst.storedWatchers u :=
    (complete.spread x q stored y in_vars u (resolve_eq_free_iff.mp leads)).resolve_right fun none => none
  have spread' (x : Var) (q : Propagator) (stored : q ∈ subst.storedWatchers x) (y : Var) (in_vars : y ∈ q.val.vars)
      (u : Var) (leads : (Solver.new subst).resolve y = .free u) : q ∈ subst.storedWatchers u :=
    (back.spread steady whole.tended complete stored in_vars (resolve_eq_free_iff.mp leads)).resolve_right And.left
  rw [opens'.mem_watchersOf fresh whole' spread' (loaded' v mem w free),
    opens.mem_watchersOf steady whole spread (loaded v mem w free')]
  have new : w ∉ (Solver.new subst).domains := by simp [Solver.new]
  simp only [new, false_and, not_false_eq_true, true_and, false_or]
  rw [Solver.mem_watchersOf]
  refine back.mem_storedWatchers.trans ⟨?_, ?_⟩
  · rintro (out | ⟨⟨d, at_w, _⟩, subscribed⟩)
    · exact .inr out
    · exact .inl ⟨mem_domains_iff.mpr ⟨d, at_w⟩, subscribed⟩
  · rintro (⟨in_s, subscribed⟩ | out)
    · obtain ⟨d, at_w⟩ := mem_domains_iff.mp in_s
      refine .inr ⟨⟨d, at_w, Option.eq_none_iff_forall_ne_some.mpr fun n only => ?_⟩, subscribed⟩
      rw [back.solved w d n at_w only] at unbound
      cases unbound
    · exact .inl out

end WrittenBack

/-! ## What arises from requests and fixpoints -/

/-- A new solver on the substitution comes to this one by questions for domains, by requests
    from the list, which may end in a conflict, and by fixpoints, in any order. -/
inductive Arises (requests : List Request) (subst : Subst) : Solver → Prop
  | new : Arises requests subst (Solver.new subst)
  | domain {u : Solver} (v : Var) (before : Arises requests subst u) : Arises requests subst (u.domain v).2
  | request {u t : Solver} {r : Request} (before : Arises requests subst u) (mem : r ∈ requests)
      (ran : r.run u = .ok () t ∨ r.run u = .error .conflict t) : Arises requests subst t
  | fixpoint {u t : Solver} (before : Arises requests subst u) (ran : Narrow.fixpoint u = .ok () t) :
      Arises requests subst t

/-- The solver is in order, all or nothing is subscribed, and bindings and attributes are
    those of the substitution. -/
structure Complied (K : Scope) (subst : Subst) (u : Solver) : Prop where
  steady : u.Steady K
  whole : u.Whole
  bindings : u.subst.bindings = subst.bindings
  attrs : u.subst.attrs = subst.attrs

variable {subst : Subst} {requests : List Request}

theorem Complied.request {r : Request} (h : u.Complied K subst) (fair : r.Fair K subst)
    (ran : r.run u = .ok () t ∨ r.run u = .error .conflict t) : t.Complied K subst := by
  cases r with
  | post p =>
    rcases ran with ran | ran <;> cases ran
    obtain ⟨sound, grows, _⟩ := h.steady.post fair
    exact ⟨sound, h.whole.post h.steady fair, grows.subst ▸ h.bindings, grows.subst ▸ h.attrs⟩
  | reduce v d =>
    have agrees {θ : Var → Term} (agreed : u.subst.Agrees θ) : subst.Agrees θ :=
      fun w a bound => agreed w a (by rwa [Subst.get?, h.bindings])
    obtain ⟨sound, whole, same⟩ := h.whole.reduce h.steady fair.1
      (fun full θ admits => fair.2 full θ admits.reading (agrees admits.binding)) ran
    exact ⟨sound, whole, same ▸ h.bindings, same ▸ h.attrs⟩

theorem Complied.fixpoint (h : u.Complied K subst) (ran : Narrow.fixpoint u = .ok () t) : t.Complied K subst := by
  have sound : t.Steady K := (h.steady.fixpoint.leaves _ t ran).1
  have tended := h.steady.fixpoint_tended h.whole.tended () t ran
  have framed := h.steady.fixpoint_keeps (J := fun t => t.subst.bindings = subst.bindings ∧ t.subst.attrs = subst.attrs)
    ⟨h.bindings, h.attrs⟩ (fun _ _ _ _ turn kept =>
      ⟨turn.framed.bindings.trans kept.1, turn.framed.attrs.trans kept.2⟩) () t ran
  exact ⟨sound, tended.whole, framed.1, framed.2⟩

theorem Arises.complied (h : Arises requests subst u) (orderly : subst.Orderly K)
    (fair : ∀ r ∈ requests, r.Fair K subst) : u.Complied K subst := by
  induction h with
  | new =>
    exact ⟨orderly.steady_new, ⟨fun w mem => by simp [Solver.new] at mem,
      fun w id mem => by simp [Solver.new, subscribersOf] at mem⟩, rfl, rfl⟩
  | domain v _ ih =>
    obtain ⟨_, unfolds, _⟩ := ih.steady.domain v
    have same := unfolds.grows.subst
    exact ⟨unfolds.sound, ih.whole.domain ih.steady v, same ▸ ih.bindings, same ▸ ih.attrs⟩
  | request _ mem ran ih => exact ih.request (fair _ mem) ran
  | fixpoint _ ran ih => exact ih.fixpoint ran

theorem overlooks_request (r : Request) : Narrow.Overlooks r.run := by
  cases r with
  | post p =>
    refine .step (g := fun s => (s.post p).2) (fun _ => rfl) (fun _ => rfl) (fun s => s.pared_post p) fun s => ?_
    exact congrArg Subst.attrs (s.grows_post p).subst
  | reduce v d => exact Narrow.overlooks_reduce v d

/-- What arises from a substitution arises from it without the attributes that a solver does
    not read, and has its attributes. -/
theorem Arises.pared (h : Arises requests subst u) :
    Arises requests subst.pared u.pared ∧ u.subst.attrs = subst.attrs := by
  induction h with
  | new => exact ⟨.new, rfl⟩
  | @domain u v _ ih =>
    have same := u.pared_domain v
    refine ⟨?_, (congrArg Subst.attrs (u.domain_spec v).2.subst).trans ih.2⟩
    rw [show (u.domain v).2.pared = (u.pared.domain v).2 by rw [same]]
    exact .domain v ih.1
  | @request u t r _ mem ran ih =>
    have run := (overlooks_request r).pared u
    have attrs := (overlooks_request r).attrs u
    rcases ran with ran | ran
    · rw [ran] at run attrs
      exact ⟨.request ih.1 mem (.inl run), attrs.trans ih.2⟩
    · rw [ran] at run attrs
      exact ⟨.request ih.1 mem (.inr run), attrs.trans ih.2⟩
  | @fixpoint u t _ ran ih =>
    have run := Narrow.overlooks_fixpoint.pared u
    have attrs := Narrow.overlooks_fixpoint.attrs u
    rw [ran] at run attrs
    exact ⟨.fixpoint ih.1 run, attrs.trans ih.2⟩

theorem pared_asked (vs : List Var) : ∀ s : Solver, s.pared.asked vs = (s.asked vs).pared := by
  intro s
  refine List.foldl_hom pared fun t v => ?_
  rw [pared_domain]

end ConstraintLogic.Solver

namespace ConstraintLogic.Subst

variable {s t : Subst} {requests : List Request}

theorem Takes.pared (h : s.Takes requests) : s.pared.Takes requests :=
  ⟨h.canonical, h.proper, h.stamped, fun p q mem known => h.coherent p q mem <| known.imp_right fun ⟨v, stored⟩ =>
    ⟨v, by rwa [storedWatchers_pared] at stored⟩⟩

/-- Goals produce the substitution, except that lists of allowed integers and tags may have
    been attached to its variables. -/
structure Furnished (s : Subst) : Prop where
  produced : s.pared.Produced
  plain : ∀ v, (s.attributes v).zero = none

theorem Produced.furnished (h : s.Produced) : s.Furnished := by
  have bare (v : Var) : (s.attributes v).pared = s.attributes v := by
    obtain ⟨allowed, tag, zero⟩ := h.orderly.simple v
    rw [Attributes.pared, Attributes.mk.injEq]
    exact ⟨allowed.symm, rfl, rfl, tag.symm, zero.symm⟩
  have same : s = s.pared := by
    refine pared_eq_of_attrs rfl rfl rfl rfl fun v => ?_
    rw [getElem?_pared]
    cases found : s.attrs[v]? with
    | none => rfl
    | some m =>
      have at_v : s.attributes v = m := by rw [attributes, found, Option.getD_some]
      have pared : m.pared = m := at_v ▸ bare v
      have nonempty : ¬m.isEmpty = true := fun none => h.complete.recorded v m found (Attributes.isEmpty_iff.mp none)
      rw [Option.bind_some, pared, if_neg nonempty]
  exact ⟨same ▸ h, fun v => (h.orderly.simple v).2.2⟩

/-- A list of allowed integers or a tag is attached. -/
theorem Furnished.setAttr (h : s.Furnished) (v : Var) {a : Attribute} (kind : a.name = .allowed ∨ a.name = .tag) :
    (s.setAttr v a).Furnished := by
  have kept (m : Attributes) : (m.set a).pared = m.pared ∧ (m.set a).zero = m.zero := by
    cases a with
    | allowed | tag => exact ⟨rfl, rfl⟩
    | domain | watchers | zero => simp [Attribute.name] at kind
  refine ⟨(s.pared_setAttr_of_overlooked v fun m => (kept m).1).symm ▸ h.produced, fun w => ?_⟩
  rw [attributes_setAttr]
  split
  · rw [(kept _).2]
    exact h.plain w
  · exact h.plain w

/-- A solver that arises from a substitution is written back. A new solver finds the same
    domains and, with the variables that it loads, the same propagators. Where nothing was
    loaded the attributes are as they were, and where nothing is solved only the domain and
    the list of propagators are others. -/
theorem Furnished.reload (h : s.Furnished) (takes : s.Takes requests) {u : Solver} (arises : u.Arises requests s)
    (written : u.toSubst? = .ok t) :
    (∀ v, ((Solver.new t).domain v).1 = (u.domain v).1) ∧
      (∀ vs, ∀ v ∈ vs, ∀ w, (Solver.new t).resolve v = .free w →
        ∀ p, p ∈ ((Solver.new t).asked vs).watchersOf w ↔ p ∈ (u.asked vs).watchersOf w) ∧
      (∀ v ∉ u.domains, ∀ name, t.getAttr v name = s.getAttr v name) ∧
      ∀ v d, u.domains[v]? = some d → d.solution = none →
        ∀ name, name ≠ .domain → name ≠ .watchers → t.getAttr v name = s.getAttr v name := by
  obtain ⟨arises', attrs⟩ := arises.pared
  have complied := arises'.complied (h.produced.orderly_requests takes.pared) takes.pared.fair
  have steady := complied.steady
  have same (v : Var) : u.subst.attributes v = s.attributes v := by rw [attributes, attributes, attrs]
  have complete : u.pared.subst.Complete := h.produced.complete.congr complied.bindings complied.attrs
  obtain ⟨written', overlooked⟩ := Solver.pared_toSubst? (fun v => same v ▸ h.plain v) written
  have back : u.pared.WrittenBack t.pared := by
    obtain ⟨t', run, back⟩ := Solver.toSubst?_spec steady
    cases run.symm.trans written'
    exact back
  have fresh (s : Subst) : Solver.new s.pared = (Solver.new s).pared := rfl
  -- What the solvers report does not depend on the attributes that they do not read.
  have domain (x : Solver) (v : Var) : (x.pared.domain v).1 = (x.domain v).1 := by rw [x.pared_domain]
  have watchers (x : Solver) (vs : List Var) : (x.pared.asked vs).watchersOf = (x.asked vs).watchersOf := by
    rw [x.pared_asked]
    rfl
  refine ⟨fun v => ?_, fun vs v mem w free p => ?_, fun v out name => ?_,
    fun v d at_v unsolved name other other' => ?_⟩
  · rw [← domain u, ← domain (.new t), ← fresh, (Solver.domain_spec _ v).1, (Solver.domain_spec _ v).1]
    exact back.peek steady v
  · rw [← watchers u, ← watchers (.new t), ← fresh]
    exact back.mem_watchersOf_asked steady complied.whole complete mem (by rwa [fresh, Solver.resolve_pared])
  · have kept : (t.attributes v).pared = (u.subst.attributes v).pared := by
      rw [← attributes_pared, ← attributes_pared]
      exact back.kept v out
    have rest := overlooked v fun d at_v => absurd (Solver.mem_domains_iff.mpr ⟨d, at_v⟩) out
    rw [getAttr, getAttr, ← same, Attributes.eq_of_pared kept rest]
  · have rest := overlooked v fun d' at_v' => Option.some.inj (at_v.symm.trans at_v') ▸ unsolved
    rw [getAttr, getAttr, ← same, ← Attributes.get?_overlooked other other', rest,
      Attributes.get?_overlooked other other']

/-- The sum `_0 + _1 = _2` is stored, and `_2` has a tag. Where `_0` is narrowed to 2, the
    difference `_1 + 2 = _2` is written back in place of the sum, the tag stays, and what is
    loaded again is what there was. -/
theorem reload_sum : ∃ (s t : Subst) (u : Solver) (requests : List Request), s.Furnished ∧ s.Takes requests ∧
    u.Arises requests s ∧ u.isQuiescent = true ∧ u.toSubst? = .ok t ∧
    (s.storedWatchers ⟨1⟩).map Stamped.val = [.sum ⟨0⟩ ⟨1⟩ ⟨2⟩] ∧ t.get? ⟨0⟩ = some (.int 2) ∧
    (t.storedWatchers ⟨1⟩).map Stamped.val = [.plusConst ⟨1⟩ 2 ⟨2⟩] ∧
    t.getAttr ⟨2⟩ .tag = some (.tag ⟨0, ()⟩) ∧
    (∀ v, ((Solver.new t).domain v).1 = (u.domain v).1) ∧
    ∀ vs, ∀ v ∈ vs, ∀ w, (Solver.new t).resolve v = .free w →
      ∀ p, p ∈ ((Solver.new t).asked vs).watchersOf w ↔ p ∈ (u.asked vs).watchersOf w := by
  let stamped := (empty.freshMany 3).2.stamped (Relation.sum ⟨0⟩ ⟨1⟩ ⟨2⟩)
  let base := (stamped.2.solveWith [stamped.1]).toOption.getD empty
  let s := base.setAttr ⟨2⟩ (.tag ⟨0, ()⟩)
  let r := Request.reduce ⟨0⟩ (.singleton 2)
  let u := leftBy (Narrow.fixpoint (leftBy (r.run (.new s))))
  let t := u.toSubst?.toOption.getD empty
  have solved : stamped.2.solveWith [stamped.1] = .ok base := eq_ok_of_isSome (by decide +kernel)
  have produced : base.Produced := by
    refine produced_of_post (r := .sum ⟨0⟩ ⟨1⟩ ⟨2⟩) (n := 3) trivial ?_
    show Answers.ofAttempt (stamped.2.solveWith [stamped.1]) = _
    rw [solved]
    rfl
  have furnished : s.Furnished := produced.furnished.setAttr ⟨2⟩ (.inr rfl)
  have takes : s.Takes [r] := by
    refine ⟨fun v d mem => ?_, by simp [r], by simp [r], by simp [r]⟩
    obtain ⟨_, rfl⟩ : v = ⟨0⟩ ∧ d = .singleton 2 := by simpa [r] using mem
    exact Solver.canonical_singleton (by decide)
  have narrowed : (leftBy (r.run (.new s))).Arises [r] s :=
    .request .new (by simp) (.inl (eq_ok_of_succeeds (by decide +kernel)))
  have arises : u.Arises [r] s := narrowed.fixpoint (eq_ok_of_succeeds (by decide +kernel))
  have written : u.toSubst? = .ok t := eq_ok_of_isSome (by decide +kernel)
  have facts : u.isQuiescent = true ∧ (s.storedWatchers ⟨1⟩).map Stamped.val = [.sum ⟨0⟩ ⟨1⟩ ⟨2⟩] ∧
      t.get? ⟨0⟩ = some (.int 2) ∧ (t.storedWatchers ⟨1⟩).map Stamped.val = [.plusConst ⟨1⟩ 2 ⟨2⟩] ∧
      t.getAttr ⟨2⟩ .tag = some (.tag ⟨0, ()⟩) := by decide +kernel
  obtain ⟨quiet, stored, value, left, tag⟩ := facts
  -- What was run to get here does not matter any more.
  clear_value s t u
  obtain ⟨domains, watchers, _⟩ := @Furnished.reload s t _ furnished takes u arises written
  exact ⟨s, t, u, _, furnished, takes, arises, quiet, written, stored, value, left, tag, domains, watchers⟩

end ConstraintLogic.Subst

