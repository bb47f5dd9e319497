import ConstraintLogic.Proofs.Solver.Lockstep

/-!
# Solvers that load, post and run in step

Two solvers on substitutions with the same attributes load the same variables, and with
them the same propagators in the same order. The second solver may have met propagators
before, under numbers below those of all others; what these subscribe to does not matter
to the rest. Once their subscriptions are given up, the two solvers run abreast, one
propagator after the other, until nothing waits.

Results:
* `Solver.Aligned`: solvers that have loaded the same.
* `Solver.Aligned.load`, `Solver.Aligned.subscribe`: loading and subscribing in step.
* `Solver.Aligned.abreast`: what is aligned runs abreast.
* `Solver.Masked.runWaiting`: waiting propagators are run in step.
-/

namespace ConstraintLogic

namespace Solver

variable {H : Var → Prop} {δ base : Nat} {s s' t t' u : Solver} {id j : PropId} {r : Relation} {p : Propagator}
variable {v w x y z : Var}

/-! ## Loading -/

/-- The solvers have loaded the same variables, hidden ones apart, and with them the same
    propagators. The numbers below `δ` are only known to the second solver, and nothing is
    said of the relations under those below `base`. Stored propagators do not mention
    hidden variables. -/
structure Aligned (H : Var → Prop) (δ base : Nat) (s t : Solver) : Prop extends Mirrors H s t where
  attrs : t.subst.attrs = s.subst.attrs
  unwatched : ∀ u, H u → s.subst.storedWatchers u = []
  unmet : ∀ u, ∀ p ∈ s.subst.storedWatchers u, ∀ v ∈ p.val.vars, ∀ x, s.resolve v = .free x → ¬H x
  subscribers : ∀ u, ¬H u →
    (t.subscribersOf u).filter (fun id => δ ≤ id.index) = (s.subscribersOf u).map (PropId.raise δ)
  props : ∀ id : PropId, base ≤ id.index →
    (t.prop? (id.raise δ)).map Stamped.val = (s.prop? id).map Stamped.val
  size : t.props.size = s.props.size + δ
  interned : ∀ u, ∀ p ∈ s.subst.storedWatchers u,
    t.interned[p.stamp]? = s.interned[p.stamp]?.map (PropId.raise δ)

namespace Aligned

theorem attributes (h : Aligned H δ base s t) (u : Var) : t.subst.attributes u = s.subst.attributes u := by
  simp only [Subst.attributes, h.attrs]

theorem storedWatchers (h : Aligned H δ base s t) (u : Var) : t.subst.storedWatchers u = s.subst.storedWatchers u := by
  simp only [Subst.storedWatchers, h.attributes]

theorem storedDomain (h : Aligned H δ base s t) (u : Var) : t.subst.storedDomain u = s.subst.storedDomain u := by
  simp only [Subst.storedDomain, h.attributes]

theorem watchCount (h : Aligned H δ base s t) : t.subst.watchCount = s.subst.watchCount := by
  simp only [Subst.watchCount, h.attrs]

/-- Numbering a propagator whose stamp both solvers have met or neither. -/
theorem intern (h : Aligned H δ base s t) (met : t.interned[p.stamp]? = s.interned[p.stamp]?.map (PropId.raise δ)) :
    (t.intern p).1 = (s.intern p).1.raise δ ∧ (t.intern p).2.1 = (s.intern p).2.1 ∧
      Aligned H δ base (s.intern p).2.2 (t.intern p).2.2 := by
  unfold Solver.intern
  rw [met]
  cases s.interned[p.stamp]? with
  | some id => exact ⟨rfl, rfl, h⟩
  | none =>
    have next : (⟨t.props.size⟩ : PropId) = PropId.raise δ ⟨s.props.size⟩ := by rw [h.size]; rfl
    refine ⟨next, rfl, { h with props := fun id above => ?_, size := ?_, interned := fun u q stored => ?_ }⟩
    · change ((t.enlist p).prop? _).map _ = ((s.enlist p).prop? id).map _
      rw [prop?_enlist, prop?_enlist, next]
      simp only [PropId.raise_inj]
      split
      · rfl
      · exact h.props id above
    · simp only [Option.map_none, Array.size_push, h.size]
      omega
    · simp only [Option.map_none, Std.ExtTreeMap.getElem?_insert, Std.compare_eq_iff_eq]
      split
      · rw [Option.map_some, next]
      · exact h.interned u q stored

/-- The variable is loaded by both solvers. -/
theorem reveal (h : Aligned H δ base s t) (v : Var) : Aligned H δ base (s.reveal v) (t.reveal v) :=
  { h with
    domains := fun u shown => by
      rw [getElem?_reveal, getElem?_reveal, h.storedDomain v, h.domains u shown] }

theorem addSubscriber (h : Aligned H δ base s t) (id : PropId) (u : Var) :
    Aligned H δ base (s.addSubscriber id u) (t.addSubscriber (id.raise δ) u) := by
  have subscribers (x : Var) (shown : ¬H x) :
      ((t.addSubscriber (id.raise δ) u).subscribersOf x).filter (fun id => δ ≤ id.index) =
        ((s.addSubscriber id u).subscribersOf x).map (PropId.raise δ) := by
    rw [subscribersOf_addSubscriber, subscribersOf_addSubscriber]
    split
    · rename_i same
      have before := h.subscribers u (same ▸ shown)
      have met : (t.subscribersOf u).contains (id.raise δ) = (s.subscribersOf u).contains id := by
        have kept : id.raise δ ∈ t.subscribersOf u ↔ id.raise δ ∈ (t.subscribersOf u).filter (fun id => δ ≤ id.index) := by
          simp [PropId.raise]
        rw [Bool.eq_iff_iff, List.contains_iff_mem, List.contains_iff_mem, kept, before]
        simp
      rw [met]
      split
      · exact before
      · simp [before, PropId.raise]
    · exact h.subscribers x shown
  obtain ⟨m, eq⟩ := s.addSubscriber_eq id u
  obtain ⟨m', eq'⟩ := t.addSubscriber_eq (id.raise δ) u
  rw [eq, eq'] at subscribers ⊢
  exact { h with subscribers := subscribers }

end Aligned

/-- The stacks of variables to load are the same, without hidden variables, and the solvers
    are aligned. -/
structure Stacked (H : Var → Prop) (δ base : Nat) (a b : List Var × Solver) : Prop where
  pending : b.1 = a.1
  shown : ∀ v ∈ a.1, ¬H v
  aligned : Aligned H δ base a.2 b.2

namespace Stacked

variable {a b : List Var × Solver}

theorem adoptVar (h : Stacked H δ base a b) (shown : ∀ x, a.2.resolve v = .free x → ¬H x) :
    Stacked H δ base (Solver.adoptVar id a v) (Solver.adoptVar (id.raise δ) b v) ∧
      (Solver.adoptVar id a v).2.subst = a.2.subst := by
  unfold Solver.adoptVar
  rw [h.aligned.resolve v shown]
  cases found : a.2.resolve v with
  | free u =>
    refine ⟨⟨congrArg (u :: ·) h.pending, ?_, h.aligned.addSubscriber id u⟩, ?_⟩
    · exact List.forall_mem_cons.mpr ⟨shown u found, h.shown⟩
    · obtain ⟨m, eq⟩ := a.2.addSubscriber_eq id u
      show (a.2.addSubscriber id u).subst = _
      rw [eq]
  | value n => exact ⟨h, rfl⟩
  | other => exact ⟨h, rfl⟩

theorem subst_intern (s : Solver) (p : Propagator) : (s.intern p).2.2.subst = s.subst := by
  unfold Solver.intern
  cases s.interned[p.stamp]? <;> rfl

/-- A stored propagator is taken up by both solvers or by neither. -/
theorem adopt (h : Stacked H δ base a b) (stored : p ∈ a.2.subst.storedWatchers w) :
    Stacked H δ base (Solver.adopt a p) (Solver.adopt b p) ∧ (Solver.adopt a p).2.subst = a.2.subst := by
  obtain ⟨pending, s⟩ := a
  obtain ⟨pending', t⟩ := b
  obtain rfl : pending' = pending := h.pending
  obtain ⟨number, new, aligned⟩ := h.aligned.intern (h.aligned.interned w p stored)
  have subst := subst_intern s p
  rw [adopt_eq, adopt_eq]
  dsimp only at number new aligned ⊢
  generalize s.intern p = i at number new aligned subst ⊢
  generalize t.intern p = i' at number new aligned ⊢
  obtain ⟨j, fresh, u⟩ := i
  obtain ⟨j', fresh', u'⟩ := i'
  dsimp only at number new aligned subst ⊢
  subst number new
  cases fresh' with
  | false => exact ⟨⟨rfl, h.shown, aligned⟩, subst⟩
  | true =>
    dsimp only
    have unmet (v : Var) (mem : v ∈ p.val.vars) (c : List Var × Solver) (same : c.2.subst = s.subst) (x : Var)
        (free : c.2.resolve v = .free x) : ¬H x := by
      rw [resolve_congr (s := s) (by rw [same])] at free
      exact h.aligned.unmet w p stored v mem x free
    refine List.foldl_rel (r := fun c d => Stacked H δ base c d ∧ c.2.subst = s.subst)
      ⟨⟨rfl, h.shown, aligned⟩, subst⟩ fun v mem c d ⟨stacked, same⟩ => ?_
    obtain ⟨next, kept⟩ := stacked.adoptVar (unmet v mem c same)
    exact ⟨next, kept.trans same⟩

end Stacked

namespace Aligned

/-- Loading goes the same way. -/
theorem loadAll (n : Nat) : ∀ (s t : Solver) (pending : List Var), Aligned H δ base s t → (∀ v ∈ pending, ¬H v) →
    Aligned H δ base (Solver.loadAll n pending s) (Solver.loadAll n pending t) := by
  induction n with
  | zero => exact fun s t pending h _ => by cases pending <;> exact h
  | succ n ih =>
    intro s t pending h shown
    cases pending with
    | nil => exact h
    | cons v pending =>
      obtain ⟨shown_v, shown⟩ := List.forall_mem_cons.mp shown
      by_cases present : v ∈ s.domains
      · rw [loadAll_of_mem present, loadAll_of_mem ((h.mem_domains shown_v).mpr present)]
        exact ih s t pending h shown
      · rw [loadAll_of_not_mem present, loadAll_of_not_mem fun mem => present ((h.mem_domains shown_v).mp mem)]
        dsimp only
        rw [h.storedWatchers v]
        have adopted : Stacked H δ base ((s.subst.storedWatchers v).foldl adopt (pending, s.reveal v))
            ((s.subst.storedWatchers v).foldl adopt (pending, t.reveal v)) ∧
            ((s.subst.storedWatchers v).foldl adopt (pending, s.reveal v)).2.subst = s.subst := by
          refine List.foldl_rel (r := fun c d => Stacked H δ base c d ∧ c.2.subst = s.subst)
            ⟨⟨rfl, shown, h.reveal v⟩, rfl⟩ fun p stored c d ⟨stacked, same⟩ => ?_
          obtain ⟨next, kept⟩ := stacked.adopt (w := v) (same ▸ stored)
          exact ⟨next, kept.trans same⟩
        obtain ⟨stacked, _⟩ := adopted
        rw [stacked.pending]
        exact ih _ _ _ stacked.aligned stacked.shown

theorem load (h : Aligned H δ base s t) (shown : ¬H v) : Aligned H δ base (s.load v) (t.load v) := by
  unfold Solver.load
  rw [Std.ExtTreeMap.contains_eq_isSome_getElem?, Std.ExtTreeMap.contains_eq_isSome_getElem?, h.domains v shown,
    h.watchCount]
  split
  · exact h
  · exact loadAll _ s t [v] h (by simpa using shown)

/-- The second solver does not see that a hidden variable is loaded. -/
theorem load_hidden (h : Aligned H δ base s t) (hid : H v) : Aligned H δ base (s.load v) t := by
  unfold Solver.load
  split
  · exact h
  · rename_i absent
    rw [loadAll_of_not_mem fun mem => absent (Std.ExtTreeMap.contains_iff_mem.mpr mem), h.unwatched v hid]
    have ended (n : Nat) (u : Solver) : Solver.loadAll n [] u = u := by cases n <;> rfl
    simp only [List.foldl_nil, ended]
    refine { h with domains := fun u shown => ?_ }
    rw [getElem?_reveal, if_neg (by rintro rfl; exact shown hid)]
    exact h.domains u shown

/-- The second solver does not see the subscribers of a hidden variable. -/
theorem addSubscriber_hidden (h : Aligned H δ base s t) (id : PropId) (hid : H v) :
    Aligned H δ base (s.addSubscriber id v) t := by
  have subscribers (u : Var) (shown : ¬H u) : (s.addSubscriber id v).subscribersOf u = s.subscribersOf u := by
    rw [subscribersOf_addSubscriber, if_neg (by rintro rfl; exact shown hid)]
  obtain ⟨m, eq⟩ := s.addSubscriber_eq id v
  rw [eq] at subscribers ⊢
  exact { h with subscribers := fun u shown => by rw [subscribers u shown, h.subscribers u shown] }

/-! ## Subscribing -/

/-- Subscribing goes the same way. -/
theorem subscribe (h : Aligned H δ base s t) (id : PropId) (v : Var) :
    Aligned H δ base (s.subscribe id v) (t.subscribe (id.raise δ) v) := by
  unfold Solver.subscribe
  cases found : s.resolve v with
  | free u =>
    by_cases hid : H u
    · have bound (x : Var) := h.hidden v u found hid x
      dsimp only
      split
      · rename_i x free
        exact absurd free (bound x)
      · exact (h.load_hidden hid).addSubscriber_hidden id hid
    · rw [h.resolve v fun x free => by cases found.symm.trans free; exact hid, found]
      exact (h.load hid).addSubscriber id u
  | value n =>
    rw [h.resolve v (fun x free => by rw [found] at free; cases free), found]
    exact h
  | other =>
    rw [h.resolve v (fun x free => by rw [found] at free; cases free), found]
    exact h

theorem subscribeAll (id : PropId) (vs : List Var) (h : Aligned H δ base s t) :
    Aligned H δ base (vs.foldl (fun s v => s.subscribe id v) s) (vs.foldl (fun s v => s.subscribe (id.raise δ) v) t) :=
  List.foldl_rel (r := fun s t => Aligned H δ base s t) h fun v _ _ _ aligned => aligned.subscribe id v

/-- A subscription under a number that only the second solver knows loads the variable. -/
theorem subscribe_below (h : Aligned H δ base s t) (below : id.index < δ)
    (shown : ∀ u, s.resolve v = .free u → ¬H u) : Aligned H δ base (s.domain v).2 (t.subscribe id v) := by
  unfold Solver.subscribe Solver.domain
  rw [h.resolve v shown]
  cases found : s.resolve v with
  | free u =>
    have loaded := h.load (shown u found)
    have subscribers (x : Var) : (((t.load u).addSubscriber id u).subscribersOf x).filter (fun id => δ ≤ id.index) =
        ((t.load u).subscribersOf x).filter (fun id => δ ≤ id.index) := by
      rw [subscribersOf_addSubscriber]
      split
      · rename_i same
        rw [same]
        split
        · rfl
        · simp [below]
      · rfl
    obtain ⟨m, eq⟩ := (t.load u).addSubscriber_eq id u
    dsimp only
    rw [eq] at subscribers ⊢
    exact { loaded with subscribers := fun x shown => by rw [subscribers x, loaded.subscribers x shown] }
  | value n => exact h
  | other => exact h

/-! ## Giving up subscriptions -/

/-- Giving up the subscription to a variable goes the same way. -/
theorem dropSubscriber (h : Aligned H δ base s t) (id : PropId) (v : Var) :
    Aligned H δ base (Solver.dropSubscriber id s v) (Solver.dropSubscriber (id.raise δ) t v) := by
  obtain ⟨m, eq, dropped⟩ := dropSubscriber_spec id s v
  obtain ⟨m', eq', dropped'⟩ := dropSubscriber_spec (id.raise δ) t v
  have subscribers (x : Var) (shown : ¬H x) :
      ((Solver.dropSubscriber (id.raise δ) t v).subscribersOf x).filter (fun id => δ ≤ id.index) =
        ((Solver.dropSubscriber id s v).subscribersOf x).map (PropId.raise δ) := by
    rw [dropped, dropped']
    simp only [h.resolve_iff shown]
    split
    · rw [List.filter_comm, h.subscribers x shown, PropId.filter_ne_map_raise]
    · exact h.subscribers x shown
  rw [eq, eq'] at subscribers ⊢
  exact { h with subscribers := subscribers }

/-- What only the second solver knows may give up a subscription. -/
theorem dropSubscriber_below (h : Aligned H δ base s t) (below : id.index < δ) (v : Var) :
    Aligned H δ base s (Solver.dropSubscriber id t v) := by
  obtain ⟨m, eq, dropped⟩ := dropSubscriber_spec id t v
  have subscribers (x : Var) (shown : ¬H x) :
      ((Solver.dropSubscriber id t v).subscribersOf x).filter (fun id => δ ≤ id.index) =
        (s.subscribersOf x).map (PropId.raise δ) := by
    rw [dropped, ← h.subscribers x shown]
    split
    · rw [List.filter_filter]
      refine List.filter_congr fun j _ => ?_
      by_cases above : δ ≤ j.index
      · have other : j ≠ id := fun same => Nat.not_le_of_lt below (same ▸ above)
        simp [above, other]
      · simp [above]
    · rfl
  rw [eq] at subscribers ⊢
  exact { h with subscribers := subscribers }

/-- The agendas do not matter. -/
theorem set_agenda (h : Aligned H δ base s t) (a b : Agenda) :
    Aligned H δ base { s with agenda := a } { t with agenda := b } := { h with }

/-- Solvers that are aligned run abreast, once what only the second one knows has no
    subscriptions, and if the same waits. -/
theorem abreast (h : Aligned H δ 0 s t) (silent : ∀ u, ∀ id ∈ t.subscribersOf u, δ ≤ id.index)
    (agenda : s.agenda.Raised δ t.agenda) : s.Abreast H δ t where
  toMirrors := h.toMirrors
  subscribers u shown := by
    rw [← h.subscribers u shown, List.filter_eq_self.mpr]
    exact fun id mem => by simpa using silent u id mem
  props id := h.props id (Nat.zero_le _)
  agenda := agenda

end Aligned

/-! ## Waiting -/

theorem agenda_intern (s : Solver) (p : Propagator) : (s.intern p).2.2.agenda = s.agenda := by
  unfold Solver.intern
  cases s.interned[p.stamp]? <;> rfl

theorem agenda_addSubscriber (s : Solver) (id : PropId) (v : Var) : (s.addSubscriber id v).agenda = s.agenda := by
  obtain ⟨m, eq⟩ := s.addSubscriber_eq id v
  rw [eq]

theorem agenda_adopt (a : List Var × Solver) (p : Propagator) : (adopt a p).2.agenda = a.2.agenda := by
  obtain ⟨pending, s⟩ := a
  have agenda := s.agenda_intern p
  rw [adopt_eq]
  split
  · rename_i eq
    rwa [eq] at agenda
  · rename_i id u eq
    rw [eq] at agenda
    refine List.foldlRecOn (motive := fun (c : List Var × Solver) => c.2.agenda = s.agenda) _ _ agenda fun c same v _ => ?_
    rw [← same]
    unfold adoptVar
    split
    · exact agenda_addSubscriber _ _ _
    · rfl

/-- Loading puts nothing on the agenda. -/
theorem agenda_loadAll (n : Nat) : ∀ (s : Solver) (pending : List Var), (loadAll n pending s).agenda = s.agenda := by
  induction n with
  | zero => exact fun s pending => by cases pending <;> rfl
  | succ n ih =>
    intro s pending
    cases pending with
    | nil => rfl
    | cons v pending =>
      by_cases present : v ∈ s.domains
      · rw [loadAll_of_mem present]
        exact ih s pending
      · rw [loadAll_of_not_mem present]
        refine (ih _ _).trans ?_
        exact List.foldlRecOn (motive := fun (c : List Var × Solver) => c.2.agenda = s.agenda) (s.subst.storedWatchers v)
          adopt (b := (pending, s.reveal v)) rfl fun c same p _ => (agenda_adopt c p).trans same

theorem agenda_load (s : Solver) (v : Var) : (s.load v).agenda = s.agenda := by
  unfold Solver.load
  split
  · rfl
  · exact agenda_loadAll _ s [v]

theorem agenda_domain (s : Solver) (v : Var) : (s.domain v).2.agenda = s.agenda := by
  unfold Solver.domain
  cases s.resolve v with
  | free u => exact s.agenda_load u
  | value n => rfl
  | other => rfl

theorem agenda_subscribeAll (id : PropId) (vs : List Var) (s : Solver) :
    (vs.foldl (fun s v => s.subscribe id v) s).agenda = s.agenda := by
  refine List.foldlRecOn (motive := fun (t : Solver) => t.agenda = s.agenda) _ _ rfl fun t same v _ => ?_
  rw [← same]
  unfold Solver.subscribe
  split
  · exact (agenda_addSubscriber _ _ _).trans (agenda_load _ _)
  · rfl

/-! ## Running -/

theorem Abreast.dropSubscriber (h : s.Abreast H δ t) (id : PropId) (v : Var) :
    (Solver.dropSubscriber id s v).Abreast H δ (Solver.dropSubscriber (id.raise δ) t v) := by
  obtain ⟨m, eq, dropped⟩ := dropSubscriber_spec id s v
  obtain ⟨m', eq', dropped'⟩ := dropSubscriber_spec (id.raise δ) t v
  have subscribers (x : Var) (shown : ¬H x) : (Solver.dropSubscriber (id.raise δ) t v).subscribersOf x =
      ((Solver.dropSubscriber id s v).subscribersOf x).map (PropId.raise δ) := by
    rw [dropped, dropped']
    simp only [h.resolve_iff shown]
    split
    · rw [h.subscribers x shown, PropId.filter_ne_map_raise]
    · exact h.subscribers x shown
  rw [eq, eq'] at subscribers ⊢
  exact { h with subscribers := subscribers }

/-- Giving up all subscriptions of a propagator goes the same way. -/
theorem Abreast.unsubscribe (h : s.Abreast H δ t) (id : PropId) :
    (s.unsubscribe id).Abreast H δ (t.unsubscribe (id.raise δ)) := by
  have same := h.props id
  cases found : s.prop? id with
  | none =>
    rw [found, Option.map_none, Option.map_eq_none_iff] at same
    unfold Solver.unsubscribe
    rw [found, same]
    exact h
  | some p =>
    rw [found, Option.map_some, Option.map_eq_some_iff] at same
    obtain ⟨p', found', val⟩ := same
    rw [unsubscribe_of_found found, unsubscribe_of_found found', val]
    exact List.foldl_rel (r := fun (s t : Solver) => s.Abreast H δ t) h fun v _ c d abreast => abreast.dropSubscriber id v

theorem keeps_unsubscribe (s : Solver) (id : PropId) : s.Keeps H (s.unsubscribe id) := by
  cases found : s.prop? id with
  | none =>
    unfold Solver.unsubscribe
    rw [found]
    exact .refl H s
  | some p =>
    obtain ⟨m, eq, _⟩ := dropAll_spec id p.val.vars s
    rw [unsubscribe_of_found found, eq]
    exact .of_eq rfl rfl rfl

/-- The propagators at work see all of their variables, products of zero apart, which see
    their result. -/
def Masked (H : Var → Prop) (s : Solver) : Prop := ∀ j q, s.prop? j = some q →
  (∀ v ∈ q.val.vars, s.Seen H v) ∨ ∃ x z, q.val = .scale 0 x z ∧ s.Seen H z

theorem Masked.keeps (h : s.Masked H) (keeps : s.Keeps H t) : t.Masked H := by
  intro j q found
  rcases keeps.props j q found with before | seen
  · rcases h j q before with seen | ⟨x, z, zero, seen⟩
    · exact .inl fun v mem => keeps.seen (seen v mem)
    · exact .inr ⟨x, z, zero, keeps.seen seen⟩
  · exact .inl seen

/-- Propagators whose variables are loaded see them, where none stands for a hidden one. -/
theorem Sound.masked {K : Scope} (h : s.Steady K)
    (shown : ∀ p, s.AtWork p → ∀ v ∈ p.val.vars, ∀ x, s.resolve v = .free x → ¬H x) : s.Masked H :=
  fun j q found => .inl fun v mem u free =>
    ⟨shown q ⟨j, found⟩ v mem u free, (h.closed q ⟨j, found⟩ v mem u free).resolve_right id⟩

theorem runNumbered_eq (s : Solver) (j : PropId) : Narrow.runNumbered j s =
    match s.prop? j with
    | none => .ok () s
    | some p => Narrow.propagate j p.val (s.unsubscribe j) := by
  show (match s.prop? j with
    | none => pure ()
    | some p => do
      modify (·.unsubscribe j)
      Narrow.propagate j p.val : Narrow Unit) s = _
  cases s.prop? j <;> rfl

open Narrow (Follows InStep)

/-- A propagator runs in step, whether it sees all of its variables or is a product of zero. -/
theorem Masked.runNumbered (h : s.Masked H) (abreast : s.Abreast H δ t) (j : PropId) :
    Follows H δ s t (Narrow.runNumbered j) (Narrow.runNumbered (j.raise δ)) fun _ => True := by
  have same := abreast.props j
  unfold Narrow.Follows Narrow.InStep
  rw [runNumbered_eq, runNumbered_eq]
  cases found : s.prop? j with
  | none =>
    rw [found, Option.map_none, Option.map_eq_none_iff] at same
    rw [same]
    exact ⟨t, rfl, abreast, .refl H s, trivial⟩
  | some p =>
    rw [found, Option.map_some, Option.map_eq_some_iff] at same
    obtain ⟨p', found', val⟩ := same
    rw [found']
    dsimp only
    rw [val]
    have keeps := s.keeps_unsubscribe (H := H) j
    have dropped := abreast.unsubscribe j
    have follows : Follows H δ (s.unsubscribe j) (t.unsubscribe (j.raise δ)) (Narrow.propagate j p.val)
        (Narrow.propagate (j.raise δ) p.val) fun _ => True := by
      rcases h j p found with seen | ⟨x, z, zero, seen⟩
      · exact Clear.propagate ⟨dropped, fun v mem => keeps.seen (seen v mem)⟩
      · rw [zero]
        exact Clear.runScale ⟨dropped, by simpa using keeps.seen seen⟩
    exact InStep.mono follows fun _ s' kept => ⟨keeps.trans kept.1, trivial⟩

theorem runWaiting_of_none (n : Nat) (popped : s.agenda.pop? = none) : Narrow.runWaiting (n + 1) s = .ok () s := by
  have next : Narrow.nextWaiting s = .ok none s := by rw [Narrow.nextWaiting, modifyGet_apply, popped]
  conv_lhs => unfold Narrow.runWaiting
  show EStateM.bind Narrow.nextWaiting _ s = _
  unfold EStateM.bind
  rw [next]
  rfl

theorem runWaiting_of_some (n : Nat) {agenda : Agenda} (popped : s.agenda.pop? = some (j, agenda)) :
    Narrow.runWaiting (n + 1) s = (Narrow.runNumbered j >>= fun _ => Narrow.runWaiting n) { s with agenda } := by
  have next : Narrow.nextWaiting s = .ok (some j) { s with agenda } := by
    rw [Narrow.nextWaiting, modifyGet_apply, popped]
  conv_lhs => unfold Narrow.runWaiting
  show EStateM.bind Narrow.nextWaiting _ s = _
  unfold EStateM.bind
  rw [next]

/-- Waiting propagators are run in step. -/
theorem Masked.runWaiting (n : Nat) : ∀ s t : Solver, s.Masked H → s.Abreast H δ t →
    Follows H δ s t (Narrow.runWaiting n) (Narrow.runWaiting n) fun _ => True := by
  induction n with
  | zero => exact fun s t _ _ => .throw
  | succ n ih =>
    intro s t h abreast
    cases popped : s.agenda.pop? with
    | none =>
      have idle : InStep H δ s t (Pure.pure ()) (Pure.pure ()) fun _ u => s.Keeps H u ∧ True :=
        .pure abreast ⟨.refl H s, trivial⟩
      refine idle.congr ?_ ?_
      · exact runWaiting_of_none n popped
      · exact runWaiting_of_none n (abreast.agenda.pop_none popped)
    | some entry =>
      obtain ⟨j, agenda⟩ := entry
      obtain ⟨agenda', popped', raised⟩ := abreast.agenda.pop_some popped
      have abreast' : ({ s with agenda } : Solver).Abreast H δ { t with agenda := agenda' } :=
        { abreast with agenda := raised }
      have keeps : s.Keeps H { s with agenda } := .of_eq rfl rfl rfl
      have rest : Follows H δ { s with agenda } { t with agenda := agenda' }
          (Narrow.runNumbered j >>= fun _ => Narrow.runWaiting n)
          (Narrow.runNumbered (j.raise δ) >>= fun _ => Narrow.runWaiting n) fun _ => True :=
        ((h.keeps keeps).runNumbered abreast' j).bind fun _ s' t' abreast kept _ =>
          ih s' t' ((h.keeps keeps).keeps kept) abreast
      have after := InStep.mono rest fun _ _ kept => And.intro (keeps.trans kept.1) trivial
      unfold Narrow.Follows Narrow.InStep at *
      rwa [runWaiting_of_some n popped, runWaiting_of_some n popped']

/-- What ends within an allowance ends in the same way within a larger one. -/
theorem runWaiting_of_le (n : Nat) : ∀ (m : Nat) (s : Solver), n ≤ m →
    (∀ u, Narrow.runWaiting n s ≠ .error .exhausted u) → Narrow.runWaiting m s = Narrow.runWaiting n s := by
  induction n with
  | zero => exact fun m s _ ended => absurd rfl (ended s)
  | succ n ih =>
    intro m s le ended
    obtain ⟨m, rfl⟩ := Nat.exists_eq_add_of_le' le
    rw [← Nat.add_assoc]
    cases popped : s.agenda.pop? with
    | none => rw [runWaiting_of_none _ popped, runWaiting_of_none _ popped]
    | some entry =>
      obtain ⟨j, agenda⟩ := entry
      rw [runWaiting_of_some _ popped] at ended ⊢
      rw [runWaiting_of_some _ popped]
      change ∀ u, EStateM.bind (Narrow.runNumbered j) (fun _ => Narrow.runWaiting n) _ ≠ _ at ended
      show EStateM.bind (Narrow.runNumbered j) (fun _ => Narrow.runWaiting (m + n)) _ =
        EStateM.bind (Narrow.runNumbered j) (fun _ => Narrow.runWaiting n) _
      unfold EStateM.bind at ended ⊢
      cases run : Narrow.runNumbered j { s with agenda } with
      | error why u => rfl
      | ok a u =>
        rw [run] at ended
        exact ih (m + n) u (Nat.le_add_left n m) ended

theorem fixpoint_eq (s : Solver) : Narrow.fixpoint s = Narrow.runWaiting s.runBudget s := by
  have looks (f : Solver → Narrow Unit) (s : Solver) : (get >>= f) s = f s s := rfl
  unfold Narrow.fixpoint
  rw [looks]

theorem ne_exhausted_of_ensures {M : (Var → Term) → Prop} {m : Narrow Unit} {Q : Unit → Solver → Prop}
    (h : Narrow.Ensures M s m Q) (u : Solver) : m s ≠ .error .exhausted u := by
  intro ended
  unfold Narrow.Ensures at h
  rw [ended] at h
  exact h

/-- More rounds than the budget has do not matter. -/
theorem Sound.fixpoint_eq_runWaiting {K : Scope} (h : s.Steady K) {n : Nat} (le : s.runBudget ≤ n) :
    Narrow.fixpoint s = Narrow.runWaiting n s := by
  have ended := ne_exhausted_of_ensures h.fixpoint
  rw [fixpoint_eq] at ended ⊢
  exact (runWaiting_of_le _ n s le ended).symm

/-- Solvers that run abreast reach their fixpoints in step. -/
theorem Masked.fixpoint {K L : Scope} (h : s.Masked H) (abreast : s.Abreast H δ t) (steady : s.Steady K)
    (steady' : t.Steady L) : Follows H δ s t Narrow.fixpoint Narrow.fixpoint fun _ => True := by
  obtain ⟨n, le, le'⟩ : ∃ n, s.runBudget ≤ n ∧ t.runBudget ≤ n := ⟨_, le_max_left _ _, le_max_right _ _⟩
  exact InStep.congr (Masked.runWaiting n s t h abreast) (steady.fixpoint_eq_runWaiting le)
    (steady'.fixpoint_eq_runWaiting le')

/-! ## Answers -/

theorem runToSubst_congr {m m' : Narrow Unit} (same : m s = m' s) : s.runToSubst m = s.runToSubst m' := by
  unfold runToSubst EStateM.run
  rw [same]

theorem runToSubst_of_ok {m : Narrow Unit} (ended : m s = .ok () u) : s.runToSubst m = u.toSubst? := by
  unfold runToSubst EStateM.run
  rw [ended]

theorem runToSubst_of_error {m : Narrow Unit} {why : Halt} (ended : m s = .error why u) :
    s.runToSubst m = .error why := by
  unfold runToSubst EStateM.run
  rw [ended]

end Solver

end ConstraintLogic
