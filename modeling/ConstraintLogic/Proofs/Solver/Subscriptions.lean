import ConstraintLogic.Proofs.Propagator.Remainder
import ConstraintLogic.Proofs.Solver.Requests

/-!
# Tended subscriptions

A propagator that subscribes to one of its variables without value subscribes to all
of them, and the propagators that are stored with a loaded variable have been taken up
together with all of their variables. Loading and posting see to it in the first place,
and every turn of the propagation loop keeps it up, whatever the runs make of their
propagators.

Results:
* `Solver.Attentive`: what loading and posting keep up.
* `Solver.Tended`: what the propagation loop keeps up.
* `Solver.Turn`, `Solver.Sound.runWaiting_keeps`: what every turn keeps, the loop keeps.
* `Solver.Attentive.requests`, `Solver.Sound.fixpoint_tended`: requests, and the loop.
-/

namespace ConstraintLogic.Solver

variable {K : Scope} {E F : PropId → Prop} {P : Var → Prop} {D : Propagator → Prop}
variable {Z R : Propagator → Prop} {s t u : Solver} {id : PropId} {p : Propagator} {v w : Var}

/-! ## Loading -/

/-- What is stored with a loaded variable is at work, except for the propagators in `D`,
    and what is at work subscribes to all of its unbound variables and is regular, or
    waits, or is in `R`, except for the numbers in `E`. -/
structure Attentive (R : Propagator → Prop) (E : PropId → Prop) (D : Propagator → Prop) (s : Solver) :
    Prop where
  stored : ∀ w, ∀ p ∈ s.subst.storedWatchers w, s.subst.Regular p.val ∨ R p ∨ s.AtWork p
  taken : ∀ w ∈ s.domains, ∀ p ∈ s.subst.storedWatchers w, s.AtWork p ∨ D p
  subscribed : ∀ id p, s.prop? id = some p → ¬E id → ∀ v ∈ p.val.vars, ∀ w,
    s.resolve v = .free w → id ∈ s.subscribersOf w
  regular : ∀ id p, s.prop? id = some p → ¬E id →
    s.subst.Regular p.val ∨ R p ∨ s.agenda.Waits id

/-- Nothing is missing. -/
abbrev Vigilant (R : Propagator → Prop) (s : Solver) : Prop :=
  s.Attentive R (fun _ => False) fun _ => False

theorem Grows.atWork (h : s.Grows t) (work : s.AtWork p) : t.AtWork p := by
  obtain ⟨id, found⟩ := work
  exact ⟨id, h.props id p found⟩

/-- A solver that has just more subscriptions is as attentive. -/
theorem Attentive.grow (h : s.Attentive R E D) (grows : s.Grows t) (props : t.props = s.props)
    (domains : t.domains = s.domains) : t.Attentive R E D := by
  have prop (j : PropId) : t.prop? j = s.prop? j := by rw [prop?, prop?, props]
  refine ⟨fun w q mem => ?_, fun w mem q stored => ?_, fun j q found other v mem w free => ?_,
    fun j q found other => ?_⟩
  · rw [grows.subst] at mem ⊢
    exact (h.stored w q mem).imp_right (Or.imp_right grows.atWork)
  · rw [grows.subst] at stored
    rw [domains] at mem
    exact (h.taken w mem q stored).imp_left grows.atWork
  · rw [grows.resolve] at free
    exact grows.subscribers w j (h.subscribed j q (prop j ▸ found) other v mem w free)
  · rw [grows.subst]
    exact (h.regular j q (prop j ▸ found) other).imp_right (Or.imp_right (grows.agenda j))

theorem Attentive.addSubscriber (h : s.Attentive R E D) (id : PropId) (w : Var) :
    (s.addSubscriber id w).Attentive R E D := by
  obtain ⟨m, eq⟩ := s.addSubscriber_eq id w
  exact h.grow (s.grows_addSubscriber id w) (by rw [eq]) (by rw [eq])

/-- What is at work needs no exception. -/
theorem Attentive.take (h : s.Attentive R E fun q => q = p ∨ D q) (work : s.AtWork p) :
    s.Attentive R E D := by
  refine { h with taken := fun w mem q stored => ?_ }
  rcases h.taken w mem q stored with taken | rfl | exempt
  · exact .inl taken
  · exact .inl work
  · exact .inr exempt

/-- A propagator that gets a number is exempt at first. -/
theorem Attentive.enlist (h : s.Attentive R E D) (p : Propagator) :
    (s.enlist p).Attentive R (fun j => j = ⟨s.props.size⟩ ∨ E j) D := by
  have grows := s.grows_enlist p
  have old {j : PropId} {q : Propagator} (found : (s.enlist p).prop? j = some q)
      (other : ¬(j = ⟨s.props.size⟩ ∨ E j)) : s.prop? j = some q := by
    rwa [prop?_enlist, if_neg fun same => other (.inl same)] at found
  refine ⟨fun w q mem => ?_, fun w mem q stored => ?_, fun j q found other v mem w free => ?_,
    fun j q found other => ?_⟩
  · exact (h.stored w q mem).imp_right (Or.imp_right grows.atWork)
  · exact (h.taken w mem q stored).imp_left grows.atWork
  · exact h.subscribed j q (old found other) (fun exempt => other (.inr exempt)) v mem w free
  · exact h.regular j q (old found other) fun exempt => other (.inr exempt)

/-- A propagator that is regular and subscribes to all of its variables needs no
    exemption. -/
theorem Attentive.settle (h : s.Attentive R (fun j => j = id ∨ E j) D) (found : s.prop? id = some p)
    (subscribed : ∀ v ∈ p.val.vars, ∀ w, s.resolve v = .free w → id ∈ s.subscribersOf w)
    (regular : s.subst.Regular p.val ∨ R p ∨ s.agenda.Waits id) : s.Attentive R E D := by
  refine { h with subscribed := fun j q found' other => ?_, regular := fun j q found' other => ?_ }
  · by_cases same : j = id
    · subst same
      rw [found] at found'
      cases found'
      exact subscribed
    · exact h.subscribed j q found' fun exempt => exempt.elim same other
  · by_cases same : j = id
    · subst same
      rw [found] at found'
      cases found'
      exact regular
    · exact h.regular j q found' fun exempt => exempt.elim same other

/-- A stored propagator is taken up. -/
theorem Attentive.adopt {pending : List Var} (h : s.Attentive R E fun q => q = p ∨ D q)
    (sound : s.Sound K F fun w => w ∈ pending ∨ P w) (stored : p ∈ s.subst.storedWatchers v) :
    (Solver.adopt (pending, s) p).2.Attentive R E D := by
  have carried : s.subst.Carries (s.scope K) p := .inr ⟨v, stored⟩
  rw [adopt_eq]
  rcases sound.intern_cases carried with ⟨id, eq, found⟩ | ⟨eq, new⟩
  · rw [eq]
    exact h.take ⟨id, found⟩
  · rw [eq]
    have found : (s.enlist p).prop? ⟨s.props.size⟩ = some p := by rw [prop?_enlist, if_pos rfl]
    obtain ⟨_, grown, domains, props, _, _, subscribed⟩ :=
      (sound.enlist carried new).adoptVars p.val.vars (s.enlist p) pending found fun _ mem => mem
    have found' := grown.props _ p found
    refine (((h.enlist p).grow grown props domains).settle found'
      (fun x mem w free => subscribed x mem w (grown.resolve ▸ free)) ?_).take ⟨_, found'⟩
    rw [grown.subst]
    refine (h.stored v p stored).imp_right (Or.imp_right fun ⟨j, at_j⟩ => ?_)
    rw [(sound.interned p.stamp j).mpr ⟨p, at_j, rfl⟩] at new
    cases new

theorem Attentive.adoptAll (ps : List Propagator) : ∀ state : List Var × Solver,
    (state.2.Attentive R E fun q => q ∈ ps ∨ D q) →
    (state.2.Sound K F fun w => w ∈ state.1 ∨ P w) →
    (∀ p ∈ ps, p ∈ state.2.subst.storedWatchers v) → state.2.Unsolved v →
    (ps.foldl Solver.adopt state).2.Attentive R E D := by
  induction ps with
  | nil =>
    intro state h _ _ _
    refine { h with taken := fun w mem q stored => ?_ }
    exact (h.taken w mem q stored).imp_right fun exempt => exempt.resolve_left List.not_mem_nil
  | cons p ps ih =>
    rintro ⟨pending, s⟩ h sound stored open_
    have at_v := stored p (by simp)
    obtain ⟨x, mem, free⟩ := sound.base.mentions v p at_v
    obtain ⟨sound', grows, _, _⟩ := sound.adopt at_v open_ mem (resolve_eq_free_iff.mpr free)
    have h' : s.Attentive R E fun q => q = p ∨ q ∈ ps ∨ D q := by
      refine { h with taken := fun w mem q stored => (h.taken w mem q stored).imp_right fun exempt => ?_ }
      simpa [or_assoc] using exempt
    refine ih _ (h'.adopt sound at_v) sound' (fun q mem => ?_) ?_
    · rw [grows.subst]
      exact stored q (List.mem_cons_of_mem p mem)
    · obtain ⟨d, at_d, no_value⟩ := open_
      exact ⟨d, grows.domains v d at_d, no_value⟩

theorem Attentive.reveal (h : s.Attentive R E D) (v : Var) :
    (s.reveal v).Attentive R E fun q => q ∈ s.subst.storedWatchers v ∨ D q := by
  refine { h with taken := fun w mem q stored => ?_ }
  rcases mem_reveal.mp mem with rfl | mem
  · exact .inr (.inl stored)
  · exact (h.taken w mem q stored).imp_right .inr

theorem Attentive.loadAll (n : Nat) : ∀ (s : Solver) (pending : List Var), s.Attentive R E D →
    (s.Sound K F fun w => w ∈ pending ∨ P w) → (∀ w ∈ pending, s.subst.get? w = none) →
    (Solver.loadAll n pending s).Attentive R E D := by
  induction n with
  | zero =>
    intro s pending h _ _
    cases pending <;> exact h
  | succ n ih =>
    intro s pending h sound unbound
    cases pending with
    | nil => exact h
    | cons v pending =>
      have here := unbound v (by simp)
      have there (w : Var) (mem : w ∈ pending) := unbound w (List.mem_cons_of_mem v mem)
      by_cases present : v ∈ s.domains
      · rw [loadAll_of_mem present]
        refine ih s pending h { sound with closed := fun p work x mem w free => ?_ } there
        rcases sound.closed p work x mem w free with found | stacked | later
        · exact .inl found
        · rcases List.mem_cons.mp stacked with rfl | stacked
          · exact .inl present
          · exact .inr (.inl stacked)
        · exact .inr (.inr later)
      · rw [loadAll_of_not_mem present]
        have revealed : (s.reveal v).Sound K F fun w => w ∈ pending ∨ P w :=
          (sound.excuse fun w excused => by
            simpa [or_assoc, eq_comm] using excused).reveal here present
        have open_ : (s.reveal v).Unsolved v :=
          ⟨_, by rw [getElem?_reveal, if_pos rfl], (sound.base.canonical_storedDomain v).2.2⟩
        obtain ⟨sound', grows, _, _, _, _, stacked⟩ :=
          Sound.adoptAll (s.subst.storedWatchers v) (pending, s.reveal v) revealed (fun _ mem => mem) open_
        have adopted := Attentive.adoptAll (D := D) (s.subst.storedWatchers v) (pending, s.reveal v)
          (h.reveal v) revealed (fun _ mem => mem) open_
        refine ih _ _ adopted sound' fun w mem => ?_
        rw [grows.subst]
        exact (stacked w mem).elim (there w) id

theorem Attentive.load (h : s.Attentive R E D) (sound : s.Sound K F fun w => v = w ∨ P w)
    (unbound : s.subst.get? v = none) : (s.load v).Attentive R E D := by
  unfold Solver.load
  split
  · exact h
  · refine h.loadAll (P := P) _ s [v] (sound.excuse fun w excused => ?_) (by simpa using unbound)
    simpa [eq_comm] using excused

theorem Attentive.domain (h : s.Attentive R E D) (sound : s.Sound K F P) (v : Var) :
    (s.domain v).2.Attentive R E D := by
  unfold Solver.domain
  cases found : s.resolve v with
  | free w => exact h.load (sound.excuse fun _ => .inr) (sound.unbound_of_free found)
  | value n => exact h
  | other => exact h

/-! ## What is drawn in -/

/-- The second solver is on the substitution of the first one. What is at work there was at
    work before, or is stored with a variable, or is in `Q`. -/
structure Draws (Q : Propagator → Prop) (s t : Solver) : Prop where
  subst : t.subst = s.subst
  work : ∀ p, t.AtWork p → s.AtWork p ∨ Q p ∨ ∃ w, p ∈ s.subst.storedWatchers w

namespace Draws

variable {Q : Propagator → Prop}

theorem of_props (subst : t.subst = s.subst) (props : t.props = s.props) : s.Draws Q t := by
  refine ⟨subst, fun p => ?_⟩
  rintro ⟨id, found⟩
  exact .inl ⟨id, by rw [prop?, ← props]; exact found⟩

theorem refl (s : Solver) : s.Draws Q s := of_props rfl rfl

theorem trans (h : s.Draws Q t) (h' : t.Draws Q u) : s.Draws Q u := by
  refine ⟨h'.subst.trans h.subst, fun p work => ?_⟩
  rcases h'.work p work with before | known
  · exact h.work p before
  · rw [h.subst] at known
    exact .inr known

/-- What every step of a fold draws in, the fold draws in. -/
theorem foldl {β : Type} {f : Solver → β → Solver} (l : List β) (step : ∀ t : Solver, ∀ b ∈ l, t.Draws Q (f t b)) :
    s.Draws Q (l.foldl f s) :=
  List.foldlRecOn l f (refl s) fun t drawn b mem => drawn.trans (step t b mem)

end Draws

section Draws

variable {Q : Propagator → Prop}

theorem draws_addSubscriber (s : Solver) (id : PropId) (v : Var) : s.Draws Q (s.addSubscriber id v) := by
  obtain ⟨m, eq⟩ := s.addSubscriber_eq id v
  exact .of_props (by rw [eq]) (by rw [eq])

/-- Giving a number to a propagator draws it in. -/
theorem draws_intern (known : Q p ∨ ∃ w, p ∈ s.subst.storedWatchers w) : s.Draws Q (s.intern p).2.2 := by
  unfold intern
  split
  · exact .refl s
  · refine ⟨rfl, fun q work => ?_⟩
    rcases atWork_enlist.mp work with rfl | before
    · exact .inr known
    · exact .inl before

theorem draws_adopt {pending : List Var} (known : Q p ∨ ∃ w, p ∈ s.subst.storedWatchers w) :
    s.Draws Q (adopt (pending, s) p).2 := by
  have vars (id : PropId) (vs : List Var) : ∀ state : List Var × Solver,
      state.2.Draws Q (vs.foldl (adoptVar id) state).2 := by
    induction vs with
    | nil => exact fun state => .refl _
    | cons v vs ih =>
      intro state
      refine Draws.trans ?_ (ih (adoptVar id state v))
      unfold adoptVar
      split
      · exact draws_addSubscriber _ _ _
      · exact .refl _
  have interned := draws_intern known
  rw [adopt_eq]
  split
  · rename_i eq
    rwa [eq] at interned
  · rename_i id u eq
    rw [eq] at interned
    exact interned.trans (vars id p.val.vars (pending, u))

theorem draws_loadAll (n : Nat) : ∀ (s : Solver) (pending : List Var), s.Draws Q (loadAll n pending s) := by
  induction n with
  | zero => exact fun s pending => by cases pending <;> exact .refl s
  | succ n ih =>
    intro s pending
    cases pending with
    | nil => exact .refl s
    | cons v pending =>
      by_cases present : v ∈ s.domains
      · rw [loadAll_of_mem present]
        exact ih s pending
      · rw [loadAll_of_not_mem present]
        have adopted (ps : List Propagator) : ∀ state : List Var × Solver,
            (∀ p ∈ ps, p ∈ state.2.subst.storedWatchers v) → state.2.Draws Q (ps.foldl adopt state).2 := by
          induction ps with
          | nil => exact fun state _ => .refl _
          | cons p ps ih' =>
            intro state stored
            have first : state.2.Draws Q (adopt state p).2 := draws_adopt (.inr ⟨v, stored p (by simp)⟩)
            refine first.trans (ih' _ fun q mem => ?_)
            rw [first.subst]
            exact stored q (List.mem_cons_of_mem p mem)
        have revealed : s.Draws Q (s.reveal v) := .of_props rfl rfl
        exact (revealed.trans (adopted _ (pending, s.reveal v) fun _ mem => mem)).trans (ih _ _)

theorem draws_load (s : Solver) (v : Var) : s.Draws Q (s.load v) := by
  unfold load
  split
  · exact .refl s
  · exact draws_loadAll _ s [v]

/-- Asking for a domain draws in nothing but stored propagators. -/
theorem draws_domain (s : Solver) (v : Var) : s.Draws Q (s.domain v).2 := by
  unfold Solver.domain
  cases s.resolve v with
  | free w => exact draws_load s w
  | _ => exact .refl s

theorem draws_subscribe (s : Solver) (id : PropId) (v : Var) : s.Draws Q (s.subscribe id v) := by
  unfold Solver.subscribe
  split
  · exact (draws_load s _).trans (draws_addSubscriber _ _ _)
  · exact .refl s

theorem draws_enqueue (s : Solver) (id : PropId) : s.Draws Q (s.enqueue id) := by
  unfold enqueue
  split
  · exact .of_props rfl rfl
  · exact .refl s

/-- Reducing a domain draws in nothing but stored propagators. -/
theorem draws_reduce (s : Solver) (v : Var) (d : Domain) :
    Narrow.Leaves s (Narrow.reduce v d) fun _ t => s.Draws Q t := by
  unfold Narrow.Leaves
  rw [reduce_eq]
  split
  · exact Narrow.leaves_require fun _ => .refl s
  · exact Narrow.leaves_throw
  · rename_i w _
    dsimp only
    split
    · exact Narrow.leaves_throw
    split
    · exact Narrow.Leaves.pure (draws_domain s w)
    · intro _ t run
      cases run
      have woken (t : Solver) (ids : List PropId) : t.Draws Q (ids.foldl Solver.enqueue t) :=
        .foldl ids fun u id _ => draws_enqueue u id
      have narrowed (t : Solver) (m : Std.ExtTreeMap Var Domain) : t.Draws Q { t with domains := m } :=
        .of_props rfl rfl
      exact (draws_domain s w).trans ((narrowed _ _).trans (woken _ _))

theorem draws_post (s : Solver) (known : Q p) : s.Draws Q (s.post p).2 :=
  ((draws_intern (.inl known)).trans (.foldl _ fun t v _ => draws_subscribe t _ v)).trans (draws_enqueue _ _)

/-- A propagator that is posted waits. -/
theorem Sound.post_waits (h : s.Sound K F P) (known : K.known p) :
    ∃ id, (s.post p).2.prop? id = some p ∧ (s.post p).2.agenda.Waits id := by
  have rest (id : PropId) (t : Solver) {G : PropId → Prop}
      (sound : t.Sound K G fun w => (∃ v ∈ p.val.vars, t.resolve v = .free w) ∨ P w) (found : t.prop? id = some p) :
      ∃ j, ((p.val.vars.foldl (fun s v => s.subscribe id v) t).enqueue id).prop? j = some p ∧
        ((p.val.vars.foldl (fun s v => s.subscribe id v) t).enqueue id).agenda.Waits j := by
    have found' := (Sound.subscribeAll p.val.vars t sound found fun _ mem => mem).grows.props id p found
    refine ⟨id, by rw [prop?_enqueue]; exact found', ?_⟩
    simp only [Solver.enqueue, found']
    exact Agenda.waits_push.mpr (.inl rfl)
  unfold Solver.post
  rcases h.intern_cases (.inl (.inl known)) with ⟨id, eq, found⟩ | ⟨eq, new⟩
  · rw [eq]
    exact rest id s (h.excuse fun _ => .inr) found
  · rw [eq]
    have found : (s.enlist p).prop? ⟨s.props.size⟩ = some p := by rw [prop?_enlist, if_pos rfl]
    exact rest _ _ ((h.enlist (.inl (.inl known)) new).excuse fun _ => Or.symm) found

/-- Propagators that are posted wait. -/
theorem Sound.posts (ps : List Propagator) : ∀ s : Solver, s.Steady K → (∀ p ∈ ps, K.known p) →
    let t := ps.foldl (fun s p => (s.post p).2) s
    t.Steady K ∧ s.Grows t ∧ ∀ p ∈ ps, ∀ id, t.prop? id = some p → t.agenda.Waits id := by
  induction ps with
  | nil => exact fun s h _ => ⟨h, .refl s, by simp⟩
  | cons p ps ih =>
    intro s h known
    have first := known p (by simp)
    obtain ⟨sound, grows, _⟩ := h.post first
    obtain ⟨j, found, waits⟩ := h.post_waits first
    obtain ⟨sound', grows', waiting⟩ := ih _ sound fun q mem => known q (List.mem_cons_of_mem p mem)
    refine ⟨sound', grows.trans grows', fun q mem id at_id => ?_⟩
    rcases List.mem_cons.mp mem with rfl | mem
    · have mine := (sound'.interned q.stamp id).mpr ⟨q, at_id, rfl⟩
      have same := (sound'.interned q.stamp j).mpr ⟨q, grows'.props j q found, rfl⟩
      cases mine.symm.trans same
      exact grows'.agenda j waits
    · exact waiting q mem id at_id

/-- Posting draws in the posted propagators, and stored ones. -/
theorem draws_posts (ps : List Propagator) (s : Solver) :
    s.Draws (fun p => p ∈ ps) (ps.foldl (fun s p => (s.post p).2) s) :=
  .foldl ps fun t _ mem => draws_post t mem

end Draws

/-! ## Requests -/

theorem Attentive.subscribe (h : s.Attentive R E D) (sound : s.Sound K F fun w => s.resolve v = .free w ∨ P w) :
    (s.subscribe id v).Attentive R E D := by
  unfold Solver.subscribe
  cases free : s.resolve v with
  | free w =>
    refine (h.load (P := P) (sound.excuse fun u excused => ?_) (sound.unbound_of_free free)).addSubscriber id w
    simpa [free] using excused
  | value n => exact h
  | other => exact h

theorem mem_subscribe (free : s.resolve v = .free w) : id ∈ (s.subscribe id v).subscribersOf w := by
  simp only [Solver.subscribe, free]
  exact mem_subscribersOf_addSubscriber.mpr (.inr ⟨rfl, rfl⟩)

theorem Attentive.subscribeAll (vs : List Var) : ∀ s : Solver, s.Attentive R E D →
    (s.Sound K F fun w => (∃ v ∈ vs, s.resolve v = .free w) ∨ P w) → s.prop? id = some p →
    (∀ v ∈ vs, v ∈ p.val.vars) →
    (vs.foldl (fun s v => s.subscribe id v) s).Attentive R E D ∧
      ∀ v ∈ vs, ∀ w, s.resolve v = .free w →
        id ∈ (vs.foldl (fun s v => s.subscribe id v) s).subscribersOf w := by
  induction vs with
  | nil => exact fun s h _ _ _ => ⟨h, by simp⟩
  | cons v vs ih =>
    intro s h sound found sub
    have excused : s.Sound K F fun w => s.resolve v = .free w ∨
        (∃ v ∈ vs, s.resolve v = .free w) ∨ P w :=
      sound.excuse fun w excused => by simpa [or_assoc] using excused
    have first := Sound.subscribe excused found (sub v (by simp))
    have sound' := first.sound
    rw [← first.grows.resolve] at sound'
    have rest (u : Var) (mem : u ∈ vs) : u ∈ p.val.vars := sub u (List.mem_cons_of_mem v mem)
    have found' := first.grows.props id p found
    obtain ⟨h', subscribed⟩ := ih _ (h.subscribe excused) sound' found' rest
    have grows := (Sound.subscribeAll vs _ sound' found' rest).grows
    refine ⟨h', fun u mem w free => ?_⟩
    rcases List.mem_cons.mp mem with rfl | mem
    · exact grows.subscribers w id (mem_subscribe free)
    · exact subscribed u mem w (by rw [first.grows.resolve, free])

/-- A propagator that is posted is at work and waits, regular or not. -/
theorem Attentive.post (h : s.Vigilant R) (sound : s.Sound K F fun _ => False) (known : K.known p) :
    (s.post p).2.Vigilant (fun q => R q ∧ q ≠ p) ∧ (s.post p).2.AtWork p := by
  -- What is left is the same for a propagator that had a number and for one that gets one.
  have rest (id : PropId) (t : Solver) (h : t.Attentive R (fun j => j = id) fun _ => False)
      {F : PropId → Prop} (sound : t.Sound K F fun w => (∃ v ∈ p.val.vars, t.resolve v = .free w) ∨ False)
      (found : t.prop? id = some p) :
      ((p.val.vars.foldl (fun s v => s.subscribe id v) t).enqueue id).Vigilant (fun q => R q ∧ q ≠ p) ∧
        ((p.val.vars.foldl (fun s v => s.subscribe id v) t).enqueue id).AtWork p := by
    obtain ⟨h', subscribed⟩ := Attentive.subscribeAll p.val.vars t h sound found fun _ mem => mem
    have unfolds := Sound.subscribeAll p.val.vars t sound found fun _ mem => mem
    have found' := unfolds.grows.props id p found
    rw [← unfolds.grows.resolve] at subscribed
    have sound' := unfolds.sound
    generalize p.val.vars.foldl (fun s v => s.subscribe id v) t = u at *
    have eq : u.enqueue id = { u with agenda := u.agenda.push id p.val.priority } := by
      simp [Solver.enqueue, found']
    rw [eq]
    refine ⟨⟨fun w q mem => ?_, h'.taken, fun j q found_q _ => ?_, fun j q found_q _ => ?_⟩, id, found'⟩
    · by_cases same : q = p
      · subst same
        exact .inr (.inr ⟨id, found'⟩)
      · exact (h'.stored w q mem).imp_right (Or.imp_left fun exempt => ⟨exempt, same⟩)
    · by_cases same : j = id
      · subst same
        cases found'.symm.trans found_q
        exact subscribed
      · exact h'.subscribed j q found_q same
    · by_cases same : j = id
      · exact .inr (.inr (Agenda.waits_push.mpr (.inl same)))
      · refine (h'.regular j q found_q same).imp_right (Or.imp (fun exempt => ⟨exempt, ?_⟩) fun waits =>
          Agenda.waits_push.mpr (.inr waits))
        rintro rfl
        have one := (sound'.interned q.stamp j).mpr ⟨q, found_q, rfl⟩
        have other := (sound'.interned q.stamp id).mpr ⟨q, found', rfl⟩
        exact same (Option.some.inj (one.symm.trans other))
  unfold Solver.post
  rcases sound.intern_cases (.inl (.inl known)) with ⟨id, eq, found⟩ | ⟨eq, new⟩
  · rw [eq]
    refine rest id s ?_ (sound.excuse fun _ => .inr) found
    exact { h with
      subscribed := fun j q found _ => h.subscribed j q found fun none => none
      regular := fun j q found _ => h.regular j q found fun none => none }
  · rw [eq]
    have found : (s.enlist p).prop? ⟨s.props.size⟩ = some p := by rw [prop?_enlist, if_pos rfl]
    have enlisted := h.enlist p
    simp only [or_false] at enlisted
    exact rest _ _ enlisted ((sound.enlist (.inl (.inl known)) new).excuse fun _ => Or.symm) found

theorem Aside.atWork (h : s.Aside (fun _ => False) t) (work : s.AtWork p) : t.AtWork p := by
  obtain ⟨id, found⟩ := work
  exact ⟨id, by rw [h.props id fun none => none, found]⟩

theorem Attentive.aside (h : s.Attentive R E D) (aside : s.Aside (fun _ => False) t) :
    t.Attentive R E D := by
  have prop (j : PropId) : t.prop? j = s.prop? j := aside.props j fun none => none
  refine ⟨fun w q mem => ?_, fun w mem q stored => ?_, fun j q found other v mem w free => ?_,
    fun j q found other => ?_⟩
  · rw [aside.storedWatchers] at mem
    exact (h.stored w q mem).imp aside.regular.mpr (Or.imp_right aside.atWork)
  · rw [aside.storedWatchers] at stored
    exact (h.taken w ((aside.loaded w).mp mem) q stored).imp_left aside.atWork
  · rw [aside.resolve] at free
    exact (aside.subscribers j (fun none => none) w).mpr
      (h.subscribed j q (prop j ▸ found) other v mem w free)
  · exact (h.regular j q (prop j ▸ found) other).imp aside.regular.mpr (Or.imp_right (aside.waits j))

theorem Attentive.mono (h : s.Attentive R E D) {R' : Propagator → Prop} (more : ∀ p, R p → R' p) :
    s.Attentive R' E D :=
  { h with
    stored := fun w p mem => (h.stored w p mem).imp_right (Or.imp_left (more p))
    regular := fun id p found other => (h.regular id p found other).imp_right (Or.imp_left (more p)) }

/-- A new solver has nothing at work. -/
theorem attentive_new {subst : Subst}
    (regular : ∀ w, ∀ p ∈ subst.storedWatchers w, subst.Regular p.val ∨ R p) :
    (Solver.new subst).Vigilant R where
  stored w p mem := (regular w p mem).imp_right .inl
  taken w mem := by simp [Solver.new] at mem
  subscribed id p found := by simp [Solver.new, prop?] at found
  regular id p found := by simp [Solver.new, prop?] at found

/-- Reducing a domain loads it, and leaves the rest aside. -/
theorem Attentive.reduce (h : s.Attentive R E D) (sound : s.Sound K F P) {d : Domain}
    (canonical : d.Canonical) (full : d = .unbounded → ∀ θ, s.Admits K θ → (θ v).IsValue) :
    Narrow.Leaves s (Narrow.reduce v d) fun _ t =>
      t.Attentive R E D ∧ ∀ p, s.AtWork p → t.AtWork p := by
  obtain ⟨_, unfolds, loaded⟩ := sound.domain v
  have attentive := h.domain sound v
  have resolve := unfolds.grows.resolve
  intro a t run
  rw [← sound.reduce_domain v d] at run
  obtain ⟨_, _, aside, _⟩ := unfolds.sound.reduce_aside (v := v) canonical
    (fun w free => loaded w (by rw [← resolve, free]))
    (fun unbounded θ admits => full unbounded θ ((unfolds.admits θ).mp admits)) a t run
  exact ⟨attentive.aside aside, fun p work => aside.atWork (unfolds.grows.atWork work)⟩

/-- A request leaves a posted propagator at work and waiting, regular or not. -/
theorem Attentive.request (h : s.Vigilant R) (sound : s.Steady K) {r : Request} (fair : r.Fair K s.subst) :
    Narrow.Leaves s r.run fun _ t => t.Vigilant (fun q => R q ∧ r ≠ .post q) ∧
      ∀ p, s.AtWork p ∨ r = .post p → t.AtWork p := by
  cases r with
  | post p =>
    intro a t run
    cases run
    obtain ⟨vigilant, work⟩ := h.post sound fair
    obtain ⟨_, grows, _⟩ := sound.post (p := p) fair
    refine ⟨vigilant.mono fun q exempt => ⟨exempt.1, fun same => exempt.2 (Request.post.inj same).symm⟩,
      fun q before => ?_⟩
    rcases before with before | same
    · exact grows.atWork before
    · exact Request.post.inj same ▸ work
  | reduce v d =>
    refine (Attentive.reduce h sound fair.1 fun full θ admits =>
      fair.2 full θ admits.reading admits.binding).mono ?_
    rintro _ t ⟨vigilant, kept⟩
    exact ⟨vigilant.mono fun q exempt => ⟨exempt, Request.noConfusion⟩,
      fun p before => kept p (before.resolve_right Request.noConfusion)⟩

/-- Requests that are made one after another. -/
theorem Attentive.requests (requests : List Request) : ∀ (s : Solver) (R : Propagator → Prop),
    s.Vigilant R → s.Steady K → (∀ r ∈ requests, r.Fair K s.subst) →
    Narrow.Leaves s (requests.forM Request.run) fun _ t =>
      t.Vigilant (fun q => R q ∧ .post q ∉ requests) ∧
        ∀ p, s.AtWork p ∨ .post p ∈ requests → t.AtWork p := by
  induction requests with
  | nil =>
    intro s R h _ _
    exact Narrow.Leaves.pure ⟨h.mono fun q exempt => ⟨exempt, List.not_mem_nil⟩,
      fun p before => before.resolve_right List.not_mem_nil⟩
  | cons r requests ih =>
    intro s R h sound fair
    have first := fair r (by simp)
    refine ((Attentive.request h sound first).and (sound.request first).leaves).bind ?_
    rintro _ t ⟨⟨vigilant, work⟩, sound', subst, _⟩
    refine (ih t _ vigilant sound' fun q mem => ?_).mono ?_
    · rw [subst]
      exact fair q (List.mem_cons_of_mem r mem)
    · rintro _ u ⟨vigilant', work'⟩
      refine ⟨vigilant'.mono fun q ⟨⟨exempt, other⟩, later⟩ => ⟨exempt, ?_⟩, fun p before => work' p ?_⟩
      · rw [List.mem_cons, not_or]
        exact ⟨Ne.symm other, later⟩
      · rw [List.mem_cons] at before
        rcases before with before | same | later
        · exact .inl (work p (.inl before))
        · exact .inl (work p (.inr same.symm))
        · exact .inr later

/-! ## The loop -/

/-- All unbound variables of the propagator are loaded. -/
def Rounded (s : Solver) (p : Propagator) : Prop :=
  ∀ v ∈ p.val.vars, ∀ w, s.resolve v = .free w → w ∈ s.domains

/-- All unbound variables of the propagators in `Z`, and of those that were stored with a
    loaded variable, are loaded. A propagator that subscribes to a variable subscribes to
    all of its variables that are without value, and is regular, waits, or is in `R`. -/
structure Tended (Z R : Propagator → Prop) (s : Solver) : Prop where
  rounded : ∀ p, (Z p ∨ ∃ w ∈ s.domains, p ∈ s.subst.storedWatchers w) → s.Rounded p
  complete : ∀ w, ∀ id ∈ s.subscribersOf w, ∀ p, s.prop? id = some p → ∀ v ∈ p.val.vars, ∀ u,
    s.resolve v = .free u → id ∈ s.subscribersOf u ∨ s.Decided u
  regular : ∀ w, ∀ id ∈ s.subscribersOf w, ∀ p, s.prop? id = some p →
    s.subst.Regular p.val ∨ R p ∨ s.agenda.Waits id

theorem Attentive.tended (h : s.Vigilant R) (sound : s.Sound K F fun _ => False)
    (posted : ∀ p, Z p → s.AtWork p) : s.Tended Z R where
  rounded p known v mem w free := by
    have work : s.AtWork p := by
      rcases known with known | ⟨x, loaded, stored⟩
      · exact posted p known
      · exact (h.taken x loaded p stored).resolve_right fun none => none
    exact (sound.closed p work v mem w free).resolve_right fun later => later
  complete _ id _ p found v mem u free := .inl (h.subscribed id p found (fun none => none) v mem u free)
  regular _ id _ p found := h.regular id p found fun none => none

/-- One turn of the loop: a number leaves the agenda, and its propagator, if there is
    one, gives up its subscriptions and is served. -/
inductive Turn (K : Scope) (s t : Solver) : Prop
  | idle {id : PropId} {a : Agenda} (popped : s.agenda.pop? = some (id, a)) (absent : s.prop? id = none)
      (eq : t = { s with agenda := a })
  | served {id : PropId} {a : Agenda} {p : Propagator} {m : Std.ExtTreeMap Var (List PropId)}
      (popped : s.agenda.pop? = some (id, a)) (found : s.prop? id = some p)
      (withdrawn : ∀ w j, j ∈ ({ s with agenda := a, subscribers := m } : Solver).subscribersOf w ↔
        j ∈ s.subscribersOf w ∧ j ≠ id)
      (serving : ({ s with agenda := a, subscribers := m } : Solver).Serving K id p.val)
      (served : ({ s with agenda := a, subscribers := m } : Solver).Served id p.val t)
      (ran : Narrow.propagate id p.val { s with agenda := a, subscribers := m } = .ok () t)

theorem Turn.framed (h : s.Turn K t) : s.Framed t := by
  cases h with
  | idle _ _ eq =>
    subst eq
    exact ⟨rfl, rfl, rfl, fun _ => Iff.rfl, fun _ _ mem => mem⟩
  | served _ _ _ _ served _ =>
    have framed := served.aside.toFramed
    exact ⟨framed.bindings, framed.attrs, framed.next, framed.loaded, framed.smaller⟩

theorem mem_unsubscribe (found : s.prop? id = some p)
    (silent : ∀ w, id ∉ (s.unsubscribe id).subscribersOf w) {j : PropId} :
    j ∈ (s.unsubscribe id).subscribersOf w ↔ j ∈ s.subscribersOf w ∧ j ≠ id := by
  rw [unsubscribe_of_found found] at silent ⊢
  obtain ⟨_, _, dropped⟩ := dropAll_spec id p.val.vars s
  exact ⟨fun mem => ⟨(dropped w).1.subset mem, fun same => silent w (same ▸ mem)⟩,
    fun ⟨mem, other⟩ => (dropped w).2.1 j mem other⟩

/-- What every turn keeps, the loop keeps. -/
theorem Sound.runWaiting_keeps {J : Solver → Prop}
    (keeps : ∀ s t : Solver, s.Steady K → t.Steady K → s.Turn K t → J s → J t) (n : Nat) :
    ∀ s : Solver, s.Steady K → J s →
      Narrow.Leaves s (Narrow.runWaiting n) fun _ t => t.Steady K ∧ J t := by
  induction n with
  | zero => exact fun s _ _ => Narrow.leaves_throw
  | succ n ih =>
    intro s h kept
    unfold Narrow.runWaiting
    cases popped : s.agenda.pop? with
    | none =>
      have next : Narrow.nextWaiting s = .ok none s := by
        rw [Narrow.nextWaiting, modifyGet_apply, popped]
      exact Narrow.Leaves.step next (Narrow.Leaves.pure ⟨h, kept⟩)
    | some entry =>
      obtain ⟨id, a⟩ := entry
      have next : Narrow.nextWaiting s = .ok (some id) { s with agenda := a } := by
        rw [Narrow.nextWaiting, modifyGet_apply, popped]
      refine Narrow.Leaves.step next ?_
      refine Narrow.Leaves.bind (Q := fun _ t => t.Steady K ∧ s.Turn K t) ?_
        fun _ t turned => ih t turned.1 (keeps s t h turned.1 turned.2 kept)
      unfold Narrow.runNumbered
      refine Narrow.Leaves.step (a := { s with agenda := a }) (t := { s with agenda := a }) rfl ?_
      cases found : s.prop? id with
      | none =>
        have found' : ({ s with agenda := a } : Solver).prop? id = none := found
        rw [found']
        refine Narrow.Leaves.pure ⟨?_, .idle popped found rfl⟩
        refine ((h.pop popped).mono (F := fun j => j = id ∨ False) (fun _ => .inl)
          fun _ later => later).settle fun p at_id => ?_
        rw [found'] at at_id
        cases at_id
      | some p =>
        have found' : ({ s with agenda := a } : Solver).prop? id = some p := found
        rw [found']
        obtain ⟨m, eq, sound, silent⟩ := (h.pop popped).unsubscribe found'
        have withdrawn (w : Var) (j : PropId) := mem_unsubscribe (w := w) (j := j) found' silent
        refine Narrow.Leaves.step (a := ()) (t := ({ s with agenda := a } : Solver).unsubscribe id) rfl ?_
        rw [eq] at sound silent withdrawn ⊢
        have serving : ({ s with agenda := a, subscribers := m } : Solver).Serving K id p.val :=
          ⟨sound, ⟨p.stamp, found⟩, silent⟩
        intro _ t ran
        exact ⟨(serving.running.propagate.leaves _ t ran).sound,
          .served popped found withdrawn serving (serving.propagate _ t ran) ran⟩

/-- What every turn keeps, a fixpoint has. -/
theorem Sound.fixpoint_keeps {J : Solver → Prop} (h : s.Steady K) (kept : J s)
    (keeps : ∀ s t : Solver, s.Steady K → t.Steady K → s.Turn K t → J s → J t) :
    Narrow.Leaves s Narrow.fixpoint fun _ t => J t := by
  unfold Narrow.fixpoint
  refine Narrow.Leaves.step (a := s) (t := s) rfl ?_
  exact (Sound.runWaiting_keeps keeps _ s h kept).mono fun _ _ => And.right

theorem Tended.turn (ht : t.Steady K) (turn : s.Turn K t) (h : s.Tended Z R) :
    t.Tended Z R := by
  cases turn with
  | @idle id a popped absent eq =>
    subst eq
    refine ⟨h.rounded, h.complete, fun w j mem p found => ?_⟩
    refine (h.regular w j mem p found).imp_right (Or.imp_right fun waits => ?_)
    refine (Agenda.waits_pop popped).mpr ⟨?_, waits⟩
    rintro rfl
    cases absent.symm.trans found
  | @served id a p m popped found withdrawn serving served _ =>
    have aside := served.aside
    have resolve : t.resolve = s.resolve := aside.resolve
    have regular {r : Relation} : t.subst.Regular r ↔ s.subst.Regular r := aside.regular
    -- The propagator that was run is as it was left, and the others are as they were.
    have mine {w : Var} (mem : id ∈ t.subscribersOf w) : ∃ n q, t.prop? id = some ⟨n, q⟩ ∧
        s.subst.Regular q ∧ ∀ u, id ∈ t.subscribersOf u ↔
          (∃ v ∈ q.vars, s.resolve v = .free u) ∧ (t.current u).solution = none := by
      cases served with
      | dropped _ silent _ => exact absurd mem (silent w)
      | @kept n q _ found regular subscribed _ _ => exact ⟨n, q, found, regular, subscribed⟩
    have others {j : PropId} {w : Var} (other : j ≠ id) :
        j ∈ t.subscribersOf w ↔ j ∈ s.subscribersOf w := by
      rw [aside.subscribers j other, withdrawn]
      exact and_iff_left other
    have props {j : PropId} (other : j ≠ id) : t.prop? j = s.prop? j := aside.props j other
    refine ⟨fun q known v mem w free => ?_, fun w j mem q at_j v in_vars u free => ?_, fun w j mem q at_j => ?_⟩
    · rw [resolve] at free
      refine (aside.loaded w).mpr (h.rounded q (known.imp_right fun ⟨x, loaded, stored⟩ => ?_) v mem w free)
      rw [aside.storedWatchers] at stored
      exact ⟨x, (aside.loaded x).mp loaded, stored⟩
    · by_cases same : j = id
      · subst same
        obtain ⟨n, q', found', _, subscribed⟩ := mine mem
        rw [found'] at at_j
        cases at_j
        have at_u : t.peek u = t.current u :=
          peek_of_free (resolve_of_unbound (ht.unbound_of_free free))
        rw [Decided, at_u]
        refine or_iff_not_imp_right.mpr fun open_ => (subscribed u).mpr ⟨⟨v, in_vars, resolve ▸ free⟩, ?_⟩
        exact not_not.mp open_
      · rw [props same] at at_j
        rw [resolve] at free
        refine (h.complete w j ((others same).mp mem) q at_j v in_vars u free).imp (others same).mpr
          fun decided => ?_
        exact serving.sound.decided_of_aside ht aside decided
    · by_cases same : j = id
      · subst same
        obtain ⟨n, q', found', regular', _⟩ := mine mem
        rw [found'] at at_j
        cases at_j
        exact .inl (regular.mpr regular')
      · rw [props same] at at_j
        refine (h.regular w j ((others same).mp mem) q at_j).imp regular.mpr (Or.imp_right fun waits => ?_)
        exact aside.waits j ((Agenda.waits_pop popped).mpr ⟨same, waits⟩)

/-- A fixpoint is tended. -/
theorem Sound.fixpoint_tended (h : s.Steady K) (tended : s.Tended Z R) :
    Narrow.Leaves s Narrow.fixpoint fun _ t => t.Tended Z R :=
  h.fixpoint_keeps tended fun _ _ _ ht turn tended => tended.turn ht turn

end ConstraintLogic.Solver
