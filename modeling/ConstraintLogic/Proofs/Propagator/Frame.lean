import ConstraintLogic.Proofs.Subst.Filed

/-!
# Serving propagators

What a run does to the other propagators, and what it leaves of its own one, is said
without regard to readings. A run narrows domains, wakes the subscribers of what it
has narrowed, and touches nothing else of the others. Its own propagator is dropped,
or stands for a regular relation and subscribes to all of its variables that have no
single value.

Results:
* `Narrow.Leaves`: what a narrowing leaves whenever it succeeds.
* `Solver.Aside`: what a run leaves as it is.
* `Solver.Served`: what becomes of the propagator that is run.
* `Solver.Serving.reduce`, `Solver.Serving.replaceWith`, `Solver.Serving.resubscribe`:
  the steps of a propagator.
-/

namespace ConstraintLogic

/-! ## Narrowings that succeed -/

namespace Narrow

variable {α β : Type} {s : Solver} {m : Narrow α} {f : α → Narrow β}
variable {Q Q' : α → Solver → Prop} {R : β → Solver → Prop}

/-- Whenever the narrowing succeeds, it ends with `Q`. -/
def Leaves (s : Solver) (m : Narrow α) (Q : α → Solver → Prop) : Prop :=
  ∀ a t, m s = .ok a t → Q a t

theorem Leaves.mono (h : Leaves s m Q) (weaker : ∀ a t, Q a t → Q' a t) : Leaves s m Q' :=
  fun a t run => weaker a t (h a t run)

/-- What is ensured is left. -/
theorem Ensures.leaves {M : (Var → Term) → Prop} (h : Ensures M s m Q) : Leaves s m Q := by
  intro a t run
  unfold Ensures at h
  rwa [run] at h

/-- What is left besides is ensured too. -/
theorem Ensures.and {M : (Var → Term) → Prop} (h : Ensures M s m Q) (h' : Leaves s m Q') :
    Ensures M s m fun a t => Q a t ∧ Q' a t := by
  unfold Ensures at h ⊢
  cases run : m s with
  | ok a t =>
    rw [run] at h
    exact ⟨h, h' a t run⟩
  | error why t =>
    rw [run] at h
    cases why with
    | conflict => exact h
    | stop why => cases why <;> exact h

theorem Leaves.and (h : Leaves s m Q) (h' : Leaves s m Q') : Leaves s m fun a t => Q a t ∧ Q' a t :=
  fun a t run => ⟨h a t run, h' a t run⟩

theorem Leaves.bind (h : Leaves s m Q) (next : ∀ a t, Q a t → Leaves t (f a) R) :
    Leaves s (m >>= f) R := by
  intro b u run
  change EStateM.bind m f s = .ok b u at run
  unfold EStateM.bind at run
  split at run
  · rename_i a t first
    exact next a t (h a t first) b u run
  · cases run

theorem Leaves.pure {a : α} (h : Q a s) : Leaves s (Pure.pure a) Q := by
  intro b t run
  cases run
  exact h

/-- A step that succeeds with a known result. -/
theorem Leaves.step {a : α} {t : Solver} (eq : m s = .ok a t) (h : Leaves t (f a) R) :
    Leaves s (m >>= f) R :=
  Leaves.bind (Q := fun b u => b = a ∧ u = t)
    (fun b u run => by rw [eq] at run; cases run; exact ⟨rfl, rfl⟩)
    (by rintro _ _ ⟨rfl, rfl⟩; exact h)

/-- A step that is taken on a condition only. -/
theorem Leaves.ite_bind {c : Prop} [Decidable c] {m : Narrow Unit} {f : Unit → Narrow β}
    {Q : Unit → Solver → Prop} (h : Leaves s (if c then m else Pure.pure ()) Q)
    (next : ∀ a t, Q a t → Leaves t (f a) R) : Leaves s (if c then m >>= f else f ()) R := by
  split
  · rename_i holds
    rw [if_pos holds] at h
    exact h.bind next
  · rename_i fails
    rw [if_neg fails] at h
    exact next () s (h () s rfl)

theorem leaves_throw {why : Halt} : Leaves s (throw why : Narrow α) Q := by
  intro a t run
  cases run

theorem leaves_require {b : Bool} {Q : Unit → Solver → Prop} (good : b = true → Q () s) :
    Leaves s (require b) Q := by
  cases b with
  | true => exact Leaves.pure (good rfl)
  | false => exact leaves_throw

theorem leaves_require_bind {b : Bool} {f : Unit → Narrow β} (good : b = true → Leaves s (f ()) R) :
    Leaves s (require b >>= f) R :=
  (leaves_require (Q := fun _ t => b = true ∧ t = s) fun holds => ⟨holds, rfl⟩).bind
    (by rintro _ _ ⟨holds, rfl⟩; exact good holds)

/-- Where a variable is loaded, asking for its domain changes nothing. -/
theorem leaves_domain {v : Var} {f : Domain → Narrow β}
    (loaded : ∀ w, s.resolve v = .free w → w ∈ s.domains) (h : Leaves s (f (s.peek v)) R) :
    Leaves s (domain v >>= f) R := by
  refine Leaves.step (a := s.peek v) (t := s) ?_ h
  change EStateM.Result.ok (s.domain v).1 (s.domain v).2 = _
  rw [Solver.domain_of_loaded loaded]

theorem leaves_sameVar {v w : Var} {f : Bool → Narrow β} (h : Leaves s (f (s.sameVar v w)) R) :
    Leaves s (sameVar v w >>= f) R := Leaves.step rfl h

end Narrow

namespace Solver

variable {K : Scope} {E F : PropId → Prop} {P : Var → Prop} {s t u : Solver} {id : PropId}
variable {r q : Relation} {v : Var} {d : Domain}

/-! ## What is left aside -/

/-- The second solver has the bindings, the attributes and the number of variables of the
    first one, the same variables are loaded, and their domains are no larger. -/
structure Framed (s t : Solver) : Prop where
  bindings : t.subst.bindings = s.subst.bindings
  attrs : t.subst.attrs = s.subst.attrs
  next : t.subst.next = s.subst.next
  loaded : ∀ w, w ∈ t.domains ↔ w ∈ s.domains
  smaller : ∀ w n, n ∈ t.current w → n ∈ s.current w

namespace Framed

theorem resolve (h : s.Framed t) : t.resolve = s.resolve := resolve_congr (Subst.walk_congr h.bindings)

theorem mem_peek (h : s.Framed t) {v : Var} {n : Int} (mem : n ∈ t.peek v) : n ∈ s.peek v :=
  mem_peek_of_current h.resolve h.smaller mem

theorem attributes (h : s.Framed t) : t.subst.attributes = s.subst.attributes := by
  funext w
  rw [Subst.attributes, Subst.attributes, h.attrs]

theorem storedWatchers (h : s.Framed t) (w : Var) : t.subst.storedWatchers w = s.subst.storedWatchers w := by
  rw [Subst.storedWatchers, Subst.storedWatchers, h.attributes]

theorem storedDomain (h : s.Framed t) (w : Var) : t.subst.storedDomain w = s.subst.storedDomain w := by
  rw [Subst.storedDomain, Subst.storedDomain, h.attributes]

end Framed

/-- The second solver has narrowed domains of the first one, has waked the subscribers
    of what it has narrowed, and differs else in nothing but in the propagators of `E`. -/
structure Aside (E : PropId → Prop) (s t : Solver) : Prop extends s.Framed t where
  props : ∀ j, ¬E j → t.prop? j = s.prop? j
  subscribers : ∀ j, ¬E j → ∀ w, j ∈ t.subscribersOf w ↔ j ∈ s.subscribersOf w
  waits : ∀ j, s.agenda.Waits j → t.agenda.Waits j
  woken : ∀ w, t.current w = s.current w ∨ ∀ j ∈ s.subscribersOf w, ¬E j → t.agenda.Waits j

namespace Aside

theorem refl (s : Solver) : s.Aside E s :=
  ⟨⟨rfl, rfl, rfl, fun _ => Iff.rfl, fun _ _ mem => mem⟩, fun _ _ => rfl, fun _ _ _ => Iff.rfl,
    fun _ waits => waits, fun _ => .inl rfl⟩

theorem trans (h : s.Aside E t) (g : t.Aside E u) : s.Aside E u where
  bindings := g.bindings.trans h.bindings
  attrs := g.attrs.trans h.attrs
  next := g.next.trans h.next
  loaded w := (g.loaded w).trans (h.loaded w)
  smaller w n mem := h.smaller w n (g.smaller w n mem)
  props j other := (g.props j other).trans (h.props j other)
  subscribers j other w := (g.subscribers j other w).trans (h.subscribers j other w)
  waits j waits := g.waits j (h.waits j waits)
  woken w := by
    rcases g.woken w with same | woken
    · rcases h.woken w with same' | woken'
      · exact .inl (same.trans same')
      · exact .inr fun j mem other => g.waits j (woken' j mem other)
    · exact .inr fun j mem other => woken j ((h.subscribers j other w).mpr mem) other

theorem mono (h : s.Aside E t) (more : ∀ j, E j → F j) : s.Aside F t :=
  { h with
    props := fun j other => h.props j fun exempt => other (more j exempt)
    subscribers := fun j other => h.subscribers j fun exempt => other (more j exempt)
    woken := fun w => (h.woken w).imp_right fun woken j mem other =>
      woken j mem fun exempt => other (more j exempt) }

theorem regular (h : s.Aside E t) : t.subst.Regular r ↔ s.subst.Regular r :=
  ⟨fun regular => regular.congr h.bindings.symm, fun regular => regular.congr h.bindings⟩

end Aside

/-- Reducing a loaded domain leaves everything else aside. -/
theorem Sound.reduce_aside (h : s.Sound K E P) (canonical : d.Canonical)
    (loaded : ∀ w, s.resolve v = .free w → w ∈ s.domains)
    (full : d = .unbounded → ∀ θ, s.Admits K θ → (θ v).IsValue) :
    Narrow.Leaves s (Narrow.reduce v d) fun _ t =>
      t.Sound K E P ∧ Reduced v d s t ∧ s.Aside (fun _ => False) t ∧ s.resolve v ≠ .other := by
  intro a t run
  have narrows := (h.reduce_loaded canonical loaded full).leaves a t run
  have reduced := narrows.reduced
  rw [reduce_eq] at run
  -- What is known of the agenda is not part of `Narrows`: the run is looked at again.
  have frame (waits : ∀ j, s.agenda.Waits j → t.agenda.Waits j)
      (woken : ∀ w, t.current w = s.current w ∨ ∀ j ∈ s.subscribersOf w, t.agenda.Waits j) :
      s.Aside (fun _ => False) t :=
    { bindings := by rw [reduced.subst]
      attrs := by rw [reduced.subst]
      next := by rw [reduced.subst]
      loaded := reduced.domains
      smaller := fun w n mem => ((reduced.current w n).mp mem).1
      props := fun j _ => by rw [prop?, prop?, reduced.props]
      subscribers := fun j _ w => by rw [subscribersOf, subscribersOf, reduced.subscribers]
      waits
      woken := fun w => (woken w).imp_right fun woken j mem _ => woken j mem }
  refine ⟨narrows.sound, reduced, ?_, fun other => by rw [other] at run; cases run⟩
  cases found : s.resolve v with
  | value n =>
    rw [found] at run
    have still : t = s := by
      refine Narrow.leaves_require (Q := fun _ t => t = s) (fun _ => rfl) a t run
    subst still
    exact frame (fun _ waits => waits) fun _ => .inl rfl
  | other =>
    rw [found] at run
    cases run
  | free w =>
    have free := resolve_of_unbound (h.unbound_of_free found)
    have domain : s.domain w = (s.current w, s) := by
      rw [← peek_of_free free]
      exact domain_of_loaded fun x same => by
        rw [free] at same
        cases same
        exact loaded w found
    rw [found] at run
    dsimp only at run
    rw [domain] at run
    dsimp only at run
    split at run
    · cases run
    split at run
    · cases run
      exact frame (fun _ waits => waits) fun _ => .inl rfl
    · cases run
      obtain ⟨b, eq, _, _, kept, woken⟩ :=
        (s.narrowTo w ((s.current w).intersect d)).excite_spec h.agenda w
      have excited : Solver.excite { s with domains := s.domains.insert w ((s.current w).intersect d) } w =
          { s.narrowTo w ((s.current w).intersect d) with agenda := b } := eq
      beta_reduce at frame ⊢
      rw [excited] at frame ⊢
      refine frame kept fun x => ?_
      by_cases same : w = x
      · subst same
        refine .inr fun j mem => ?_
        obtain ⟨p, at_j, _⟩ := h.subscribed w j mem
        exact woken j mem p at_j
      · refine .inl ?_
        change (s.narrowTo w ((s.current w).intersect d)).current x = s.current x
        rw [current_narrowTo, if_neg same]

/-! ## Being served -/

/-- The variable stands for an integer or an unbound variable, and some integer is
    excluded from its domain. -/
def Confined (s : Solver) (v : Var) : Prop := s.resolve v ≠ .other ∧ ∃ n, n ∉ s.peek v

theorem Confined.aside (h : s.Confined v) (aside : s.Aside E t) : t.Confined v := by
  obtain ⟨proper, n, out⟩ := h
  exact ⟨by rwa [aside.resolve], n, fun mem => out (aside.mem_peek mem)⟩

theorem Confined.congr {w : Var} (h : s.Confined v) (same : s.resolve v = s.resolve w) : s.Confined w := by
  unfold Confined peek at *
  rwa [← same]

/-- A single value is left to the variable. -/
def Decided (s : Solver) (v : Var) : Prop := (s.peek v).solution ≠ none

/-- A variable with a single value is confined. -/
theorem Sound.confined_of_solution (h : s.Sound K E P) {n : Int}
    (only : (s.peek v).solution = some n) : s.Confined v := by
  refine ⟨fun other => ?_, n + 1, fun mem => ?_⟩
  · simp [peek, other, Domain.solution] at only
  · have := ((h.canonical_peek v).solution_eq_some_iff.mp only (n + 1)).mp mem
    omega

theorem Sound.confined_of_decided (h : s.Sound K E P) (decided : s.Decided v) : s.Confined v := by
  obtain ⟨n, only⟩ := Option.ne_none_iff_exists'.mp decided
  exact h.confined_of_solution only

/-- What has a single value left keeps it. -/
theorem Sound.decided_of_aside {L : Scope} {F G : PropId → Prop} {R : Var → Prop}
    (hs : s.Sound K E P) (ht : t.Sound L F R) (aside : s.Aside G t) (decided : s.Decided v) :
    t.Decided v := by
  obtain ⟨n, only⟩ := Option.ne_none_iff_exists'.mp decided
  have proper := (hs.confined_of_solution only).1
  have alone := (hs.canonical_peek v).solution_eq_some_iff.mp only
  have in_t (m : Int) (mem : m ∈ t.peek v) : m = n := (alone m).mp (aside.mem_peek mem)
  refine Option.ne_none_iff_exists'.mpr ⟨n, (ht.canonical_peek v).solution_eq_some_iff.mpr fun m =>
    ⟨in_t m, fun same => ?_⟩⟩
  -- A variable that has a domain has a value in it.
  cases found : s.resolve v with
  | other => exact absurd found proper
  | value k =>
    rw [peek, aside.resolve, found]
    refine Domain.mem_singleton.mpr (same.trans ?_)
    exact ((alone k).mp (by simp [peek, found])).symm
  | free w =>
    have free : t.resolve v = .free w := by rw [aside.resolve, found]
    have canonical := ht.canonical_current w
    obtain ⟨k, mem⟩ := canonical.1.exists_mem canonical.2
    rw [peek_of_free free] at in_t ⊢
    rw [same, ← in_t k mem]
    exact mem

theorem Sound.confined_iff (h : s.Sound K E P) :
    s.Confined v ↔ s.resolve v ≠ .other ∧ s.peek v ≠ .unbounded := by
  refine and_congr_right fun _ => ⟨fun ⟨n, out⟩ full => out ?_, fun finite => (h.canonical_peek v).not_all finite⟩
  rw [full]
  exact Domain.mem_unbounded n

/-- No variable of the second solver is confined that was not before. -/
def Level (s t : Solver) : Prop := ∀ v, t.Confined v → s.Confined v

theorem Level.refl (s : Solver) : s.Level s := fun _ confined => confined

theorem Level.trans (h : s.Level t) (h' : t.Level u) : s.Level u := fun v confined => h v (h' v confined)

/-- What a reduction confines stands for the same as the variable that is reduced. -/
theorem Reduced.spreads (h : Reduced v d s t) (resolve : t.resolve = s.resolve) {w : Var} (confined : t.Confined w) :
    s.Confined w ∨ s.resolve w = s.resolve v ∧ d ≠ .unbounded := by
  obtain ⟨proper, n, out⟩ := confined
  rw [resolve] at proper
  rw [h.mem_peek, not_and, Classical.not_imp] at out
  by_cases mem : n ∈ s.peek w
  · obtain ⟨same, out⟩ := out mem
    refine .inr ⟨resolve_of_sameVar same, fun full => out ?_⟩
    rw [full]
    exact Domain.mem_unbounded n
  · exact .inl ⟨proper, n, mem⟩

/-- The propagator of that number has the relation `r` and no subscriptions. -/
structure Serving (K : Scope) (id : PropId) (r : Relation) (s : Solver) : Prop where
  sound : s.Sound K (fun j => j = id) fun _ => False
  relation : ∃ n, s.prop? id = some ⟨n, r⟩
  silent : ∀ w, id ∉ s.subscribersOf w

/-- The propagator has been given another relation, and a run goes on for that one. -/
structure Replaced (K : Scope) (id : PropId) (q : Relation) (s t : Solver) : Prop where
  serving : t.Serving K id q
  aside : s.Aside (fun j => j = id) t
  peek : t.peek = s.peek

theorem Replaced.confined (h : Replaced K id q s t) (v : Var) : t.Confined v ↔ s.Confined v := by
  rw [Confined, Confined, h.aside.resolve, h.peek]

/-- What becomes of the propagator `id` that was run for the relation `r`: it is
    dropped, or it stands for a regular relation and subscribes to its variables without
    value. A variable of a regular `r` goes on to be named, or is confined. -/
inductive Served (id : PropId) (r : Relation) (s t : Solver) : Prop
  | dropped (aside : s.Aside (fun j => j = id) t) (silent : ∀ w, id ∉ t.subscribersOf w)
      (confined : s.subst.Regular r → ∀ v ∈ r.vars, t.Confined v)
  | kept {n : Nat} {q : Relation} (aside : s.Aside (fun j => j = id) t)
      (found : t.prop? id = some ⟨n, q⟩) (regular : s.subst.Regular q)
      (subscribed : ∀ w, id ∈ t.subscribersOf w ↔
        (∃ v ∈ q.vars, s.resolve v = .free w) ∧ (t.current w).solution = none)
      (some_open : (∃ v ∈ q.vars, s.resolve v = .other) → ∃ w, id ∈ t.subscribersOf w)
      (named : s.subst.Regular r → ∀ v ∈ r.vars, s.Names q v ∨ t.Confined v)

theorem Served.aside (h : s.Served id r t) : s.Aside (fun j => j = id) t := by
  cases h with
  | dropped aside => exact aside
  | kept aside => exact aside

/-- A run for `r` may go on as a run for `q`. -/
theorem Served.widen (h : t.Served id q u) (before : s.Aside (fun j => j = id) t)
    (regular : s.subst.Regular r → s.subst.Regular q)
    (vars : s.subst.Regular r → ∀ v ∈ r.vars, s.Names q v ∨ t.Confined v) : s.Served id r u := by
  have names (v : Var) : t.Names q v ↔ s.Names q v := by rw [Names, Names, before.resolve]
  cases h with
  | dropped aside silent confined =>
    refine .dropped (before.trans aside) silent fun holds v mem => ?_
    rcases vars holds v mem with ⟨x, in_q, same⟩ | fixed
    · refine (confined (before.regular.mpr (regular holds)) x in_q).congr ?_
      rw [(before.trans aside).resolve, same]
    · exact fixed.aside aside
  | @kept n q' aside found good subscribed some_open named =>
    rw [before.resolve] at subscribed some_open
    refine .kept (before.trans aside) found (before.regular.mp good) subscribed some_open
      fun holds v mem => ?_
    rcases vars holds v mem with ⟨x, in_q, same⟩ | fixed
    · rcases named (before.regular.mpr (regular holds)) x in_q with ⟨y, in_q', same'⟩ | fixed
      · rw [before.resolve] at same'
        exact .inl ⟨y, in_q', same'.trans same⟩
      · refine .inr (fixed.congr ?_)
        rw [(before.trans aside).resolve, same]
    · exact .inr (fixed.aside aside)

namespace Serving

/-- Every propagator that is served is one that runs. -/
theorem running (h : s.Serving K id r) :
    s.Running ⟨K, s.workVars, s.potential s.workVars, s.Admits K, s⟩ id r :=
  ⟨h.sound, fun _ => Iff.rfl, h.relation, h.silent, fun _ work _ mem _ free => mem_workVars work mem free,
    Nat.le_refl _, .refl s⟩

theorem loaded (h : s.Serving K id r) (names : s.Names r v) {w : Var} (free : s.resolve v = .free w) :
    w ∈ s.domains := h.running.loaded names free

theorem domain {α : Type} {f : Domain → Narrow α} {Q : α → Solver → Prop} (h : s.Serving K id r)
    (names : s.Names r v) (next : Narrow.Leaves s (f (s.peek v)) Q) :
    Narrow.Leaves s (Narrow.domain v >>= f) Q := Narrow.leaves_domain (fun _ => h.loaded names) next

/-- Reducing a domain. -/
theorem reduce (h : s.Serving K id r) (names : s.Names r v) (canonical : d.Canonical) :
    Narrow.Leaves s (Narrow.reduce v d) fun _ t =>
      t.Serving K id r ∧ Reduced v d s t ∧ s.Aside (fun j => j = id) t ∧ s.resolve v ≠ .other := by
  refine (h.sound.reduce_aside canonical (fun _ => h.loaded names)
    fun _ θ admits => h.running.value names admits).mono ?_
  rintro _ t ⟨sound, reduced, aside, proper⟩
  obtain ⟨n, found⟩ := h.relation
  refine ⟨⟨sound, ⟨n, ?_⟩, fun w mem => ?_⟩, reduced, aside.mono fun _ => False.elim, proper⟩
  · rw [aside.props id fun none => none, found]
  · exact h.silent w ((aside.subscribers id (fun none => none) w).mp mem)

/-- A finite domain confines the variable that is reduced to it, and those that stand for
    the same, and no other variable becomes confined. -/
theorem reduce_spreads (h : s.Serving K id r) (names : s.Names r v) (canonical : d.Canonical) :
    Narrow.Leaves s (Narrow.reduce v d) fun _ t =>
      t.Serving K id r ∧ s.Aside (fun j => j = id) t ∧ s.resolve v ≠ .other ∧
        ∀ w, t.Confined w ↔ s.Confined w ∨ s.resolve w = s.resolve v ∧ d ≠ .unbounded := by
  refine (h.reduce names canonical).mono ?_
  rintro _ t ⟨serving, reduced, aside, proper⟩
  refine ⟨serving, aside, proper, fun w => ⟨reduced.spreads aside.resolve, ?_⟩⟩
  rintro (confined | ⟨same, finite⟩)
  · exact confined.aside aside
  · obtain ⟨n, out⟩ := canonical.not_all finite
    have confined : t.Confined v := ⟨by rwa [aside.resolve], n, fun mem => out (reduced.left n mem)⟩
    exact confined.congr (by rw [aside.resolve, same])

/-- A variable that is reduced to a finite domain is confined. -/
theorem reduce_confined (h : s.Serving K id r) (names : s.Names r v) (canonical : d.Canonical)
    (finite : d ≠ .unbounded) :
    Narrow.Leaves s (Narrow.reduce v d) fun _ t =>
      t.Serving K id r ∧ s.Aside (fun j => j = id) t ∧ t.Confined v := by
  refine (h.reduce_spreads names canonical).mono ?_
  rintro _ t ⟨serving, aside, _, spreads⟩
  exact ⟨serving, aside, (spreads v).mpr (.inr ⟨rfl, finite⟩)⟩

/-- Replacing the relation. -/
theorem replaceWith (h : s.Serving K id r) (proper : q.Proper) (names : ∀ v ∈ q.vars, s.Names r v) :
    Narrow.Leaves s (Narrow.replaceWith id q) fun _ t => Replaced K id q s t := by
  obtain ⟨n, found⟩ := h.relation
  have run : Narrow.replaceWith id q s = .ok () (s.exchange id n ⟨s.subst.supply, q⟩) := by
    have found' (u : Subst) : ({ s with subst := u } : Solver).prop? id = some ⟨n, r⟩ := found
    change EStateM.Result.ok () (Solver.replace _ id ⟨s.subst.supply, q⟩) = _
    simp only [Solver.replace, found']
    rfl
  intro a t run'
  rw [run] at run'
  cases run'
  refine ⟨⟨h.running.sound_exchange found proper names, ⟨s.subst.supply, ?_⟩, h.silent⟩, ?_, peek_exchange ..⟩
  · rw [prop?_exchange found, if_pos rfl]
  · exact ⟨⟨rfl, rfl, rfl, fun _ => Iff.rfl, fun _ _ mem => mem⟩,
      fun j other => by rw [prop?_exchange found, if_neg other], fun _ _ _ => Iff.rfl,
      fun _ waits => waits, fun _ => .inl rfl⟩

end Serving

/-- Subscribing again adds subscriptions to the variables that have no value yet, and
    changes nothing else. -/
theorem resubscribe_spec (id : PropId) (vs : List Var) : ∀ s : Solver,
    (∀ v ∈ vs, ∀ w, s.resolve v = .free w → w ∈ s.domains) →
    (∃ m, s.resubscribe id vs = { s with subscribers := m }) ∧
      ∀ w j, j ∈ (s.resubscribe id vs).subscribersOf w ↔ j ∈ s.subscribersOf w ∨
        j = id ∧ (∃ v ∈ vs, s.resolve v = .free w) ∧ (s.current w).solution = none := by
  induction vs with
  | nil => exact fun s _ => ⟨⟨s.subscribers, rfl⟩, fun w j => by simp [Solver.resubscribe]⟩
  | cons v vs ih =>
    intro s loaded
    have rest (u : Var) (mem : u ∈ vs) := loaded u (List.mem_cons_of_mem v mem)
    rw [resubscribe_cons s id v vs (loaded v (by simp))]
    have skip (covered : ∀ w, s.resolve v = .free w → (s.current w).solution ≠ none) :
        (∃ m, s.resubscribe id vs = { s with subscribers := m }) ∧
          ∀ w j, j ∈ (s.resubscribe id vs).subscribersOf w ↔ j ∈ s.subscribersOf w ∨
            j = id ∧ (∃ u ∈ v :: vs, s.resolve u = .free w) ∧ (s.current w).solution = none := by
      obtain ⟨eq, subscribed⟩ := ih s rest
      refine ⟨eq, fun w j => (subscribed w j).trans (or_congr_right (and_congr_right fun _ => ?_))⟩
      constructor
      · rintro ⟨⟨u, mem, free⟩, no_value⟩
        exact ⟨⟨u, List.mem_cons_of_mem v mem, free⟩, no_value⟩
      · rintro ⟨⟨u, mem, free⟩, no_value⟩
        rcases List.mem_cons.mp mem with rfl | mem
        · exact absurd no_value (covered w free)
        · exact ⟨⟨u, mem, free⟩, no_value⟩
    cases free : s.resolve v with
    | free x =>
      dsimp only
      split
      · rename_i solved
        refine skip fun w same no_value => ?_
        rw [free] at same
        cases same
        simp [Domain.hasSolution, no_value] at solved
      · rename_i unsolved
        have no_value : (s.current x).solution = none := by simpa [Domain.hasSolution] using unsolved
        obtain ⟨m, eq⟩ := s.addSubscriber_eq id x
        have resolve : (s.addSubscriber id x).resolve = s.resolve := (s.grows_addSubscriber id x).resolve
        have current := (s.grows_addSubscriber id x).current
        obtain ⟨⟨m', eq'⟩, subscribed⟩ := ih (s.addSubscriber id x) fun u mem w same => by
          rw [resolve] at same
          rw [eq]
          exact rest u mem w same
        refine ⟨⟨m', by rw [eq', eq]⟩, fun w j => ?_⟩
        rw [subscribed, mem_subscribersOf_addSubscriber, resolve, current, or_assoc]
        refine or_congr_right ⟨?_, ?_⟩
        · rintro (⟨rfl, rfl⟩ | ⟨rfl, ⟨u, mem, free'⟩, open_⟩)
          · exact ⟨rfl, ⟨v, by simp, free⟩, no_value⟩
          · exact ⟨rfl, ⟨u, List.mem_cons_of_mem v mem, free'⟩, open_⟩
        · rintro ⟨rfl, ⟨u, mem, free'⟩, open_⟩
          rcases List.mem_cons.mp mem with rfl | mem
          · rw [free] at free'
            cases free'
            exact .inl ⟨rfl, rfl⟩
          · exact .inr ⟨rfl, ⟨u, mem, free'⟩, open_⟩
    | value n => exact skip fun w same => by rw [free] at same; cases same
    | other => exact skip fun w same => by rw [free] at same; cases same

namespace Serving

/-- A run ends with its subscriptions to the variables of its relation that have no
    value. -/
theorem resubscribe (h : t.Serving K id q) (aside : s.Aside (fun j => j = id) t) {vs : List Var}
    (names : ∀ v ∈ vs, t.Names q v)
    (covers : ∀ v ∈ q.vars, ∀ w, t.resolve v = .free w → (t.current w).solution = none → t.resolve v ∈ vs.map t.resolve)
    (regular : s.subst.Regular q)
    (some_open : (∃ v ∈ q.vars, t.resolve v = .other) →
      ∃ v ∈ q.vars, ∃ w, t.resolve v = .free w ∧ (t.current w).solution = none)
    (named : s.subst.Regular r → ∀ v ∈ r.vars, s.Names q v ∨ t.Confined v) :
    Narrow.Leaves t (Narrow.resubscribe id vs) fun _ u => s.Served id r u := by
  intro a u run
  cases run
  obtain ⟨n, found⟩ := h.relation
  obtain ⟨⟨m, eq⟩, subscribed⟩ := resubscribe_spec id vs t fun v mem w => h.loaded (names v mem)
  have mine (w : Var) : id ∈ (t.resubscribe id vs).subscribersOf w ↔
      (∃ v ∈ q.vars, t.resolve v = .free w) ∧ (t.current w).solution = none := by
    rw [subscribed]
    constructor
    · rintro (before | ⟨_, ⟨v, mem, free⟩, open_⟩)
      · exact absurd before (h.silent w)
      · obtain ⟨x, in_q, same⟩ := names v mem
        exact ⟨⟨x, in_q, same.trans free⟩, open_⟩
    · rintro ⟨⟨v, in_q, free⟩, open_⟩
      obtain ⟨x, mem, same⟩ := List.mem_map.mp (covers v in_q w free open_)
      exact .inr ⟨rfl, ⟨x, mem, same.trans free⟩, open_⟩
  have others (j : PropId) (other : j ≠ id) (w : Var) :
      j ∈ (t.resubscribe id vs).subscribersOf w ↔ j ∈ t.subscribersOf w := by
    rw [subscribed]
    exact or_iff_left fun mine => other mine.1
  beta_reduce
  rw [eq] at mine others ⊢
  have last : t.Aside (fun j => j = id) { t with subscribers := m } :=
    ⟨⟨rfl, rfl, rfl, fun _ => Iff.rfl, fun _ _ mem => mem⟩, fun _ _ => rfl, others, fun _ waits => waits,
      fun _ => .inl rfl⟩
  rw [aside.resolve] at mine some_open
  refine .kept (aside.trans last) found regular mine (fun other => ?_) fun holds v mem => ?_
  · obtain ⟨v, in_q, w, free, open_⟩ := some_open other
    exact ⟨w, (mine w).mpr ⟨⟨v, in_q, free⟩, open_⟩⟩
  · exact (named holds v mem).imp_right fun confined => confined.aside last

/-- A run that has reduced all variables subscribes to them again. -/
theorem keep (h : t.Serving K id q) (aside : s.Aside (fun j => j = id) t)
    (regular : s.subst.Regular q) (proper : ∀ v ∈ q.vars, s.resolve v ≠ .other) :
    Narrow.Leaves t (Narrow.resubscribe id q.vars) fun _ u => s.Served id q u := by
  refine h.resubscribe aside (fun v => names_of_mem) (fun v mem _ _ _ => List.mem_map_of_mem mem) regular ?_
    fun _ v mem => .inl (names_of_mem mem)
  rintro ⟨v, mem, other⟩
  exact absurd (aside.resolve ▸ other) (proper v mem)

end Serving

end Solver

end ConstraintLogic
