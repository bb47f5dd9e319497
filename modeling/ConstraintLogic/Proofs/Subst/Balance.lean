import ConstraintLogic.Proofs.Propagator.Balance
import ConstraintLogic.Proofs.Unification.Filed

/-!
# Substitutions with balanced propagators

Where no propagator waits, the propagators that are left are balanced: each of them was run
after the last of its variables became confined. So are those that a solver writes back, and
those that unification leaves: whenever one of two variables that become one has a finite
domain, or both have propagators, the propagators in question are run again.

Results:
* `Solver.Levelled.turn`: what the propagation loop keeps up.
* `Subst.Levelled`: the stored propagators are balanced.
* `Subst.Levelled.solveWith`, `Subst.Levelled.solveReduced`: runs of a solver.
* `Subst.Orderly.unify_level`: unification.
-/

namespace ConstraintLogic

namespace Solver

variable {K : Scope} {E F : PropId → Prop} {P : Var → Prop} {Z R C : Propagator → Prop}
variable {s t u : Solver} {r : Relation} {p : Propagator} {v w : Var}

/-! ## The loop -/

/-- A propagator that subscribes to a variable is balanced, waits, or is in `C`. -/
def Levelled (C : Propagator → Prop) (s : Solver) : Prop :=
  ∀ w, ∀ id ∈ s.subscribersOf w, ∀ p, s.prop? id = some p → s.Balanced p.val ∨ C p ∨ s.agenda.Waits id

/-- Where domains are narrowed, a relation stays balanced or its propagator is waked, if that
    subscribes to all of the variables without value. -/
theorem Balanced.aside (h : s.Balanced r) (sound : s.Sound K E P) (aside : s.Aside F t) {j : PropId} (other : ¬F j)
    (subscribed : ∀ v ∈ r.vars, ∀ w, s.resolve v = .free w → j ∈ s.subscribersOf w ∨ s.Decided w) :
    t.Balanced r ∨ t.agenda.Waits j := by
  by_cases level : ∀ v ∈ r.vars, t.Confined v → s.Confined v
  · refine .inl (h.congr (fun v mem => ⟨level v mem, fun confined => confined.aside aside⟩) fun v _ w _ same => ?_)
    rwa [sameVar, aside.resolve] at same
  · simp only [not_forall] at level
    obtain ⟨v, mem, ⟨proper, n, out⟩, open_⟩ := level
    rw [aside.resolve] at proper
    cases found : s.resolve v with
    | other => exact absurd found proper
    | value m => exact absurd (sound.confined_iff.mpr ⟨proper, by simp [peek, found, Domain.singleton]⟩) open_
    | free w =>
      have free := resolve_of_unbound (sound.unbound_of_free found)
      have changed : t.current w ≠ s.current w := fun same => open_ ⟨proper, n, fun here => out ?_⟩
      · have woken := (aside.woken w).resolve_left changed
        rcases subscribed v mem w found with here | decided
        · exact .inr (woken j here other)
        · exact absurd ((sound.confined_of_decided decided).congr (free.trans found.symm)) open_
      · rw [peek_of_free found] at here
        rwa [peek_of_free (by rw [aside.resolve, found]), same]

theorem Levelled.aside (h : s.Levelled C) (sound : s.Steady K) (tended : s.Tended Z R)
    (aside : s.Aside (fun _ => False) t) : t.Levelled C := by
  intro w j mem p found
  have before := (aside.subscribers j (fun none => none) w).mp mem
  have found' : s.prop? j = some p := by rw [← aside.props j fun none => none, found]
  rcases h w j before p found' with balanced | exempt | waits
  · have rest := balanced.aside sound aside (fun none => none) (tended.complete w j before p found')
    exact rest.imp_right .inr
  · exact .inr (.inl exempt)
  · exact .inr (.inr (aside.waits j waits))

/-- One turn of the loop. The propagator that is run is left balanced, and the others are
    waked where they need it. -/
theorem Levelled.turn (h : s.Levelled C) (tended : s.Tended Z R) (turn : s.Turn K t) : t.Levelled C := by
  cases turn with
  | @idle id a popped absent eq =>
    subst eq
    intro w j mem p found
    refine (h w j mem p found).imp (fun balanced => balanced.congr (fun _ _ => Iff.rfl) fun _ _ _ _ same => same)
      (Or.imp_right fun waits => (Agenda.waits_pop popped).mpr ⟨?_, waits⟩)
    rintro rfl
    cases absent.symm.trans found
  | @served id a p m popped found withdrawn serving served ran =>
    have aside := served.aside
    intro w j mem q at_j
    by_cases same : j = id
    · subst same
      exact .inl ((serving.evens_propagate () t ran).kept w mem q at_j)
    · obtain ⟨mem, _⟩ := (withdrawn w j).mp ((aside.subscribers j same w).mp mem)
      rw [aside.props j same] at at_j
      rcases h w j mem q at_j with balanced | exempt | waits
      · have here : ({ s with agenda := a, subscribers := m } : Solver).Balanced q.val :=
          balanced.congr (fun _ _ => Iff.rfl) fun _ _ _ _ same => same
        have rest := here.aside serving.sound aside same fun v in_vars u free =>
          (tended.complete w j mem q at_j v in_vars u free).imp_left fun mem => (withdrawn u j).mpr ⟨mem, same⟩
        exact rest.imp_right .inr
      · exact .inr (.inl exempt)
      · exact .inr (.inr (aside.waits j ((Agenda.waits_pop popped).mpr ⟨same, waits⟩)))

end Solver

namespace Subst

/-- The stored propagators are balanced, except for those in `C`. -/
def Levelled (C : Propagator → Prop) (s : Subst) : Prop :=
  ∀ w, ∀ p ∈ s.storedWatchers w, (Solver.new s).Balanced p.val ∨ C p

/-- All stored propagators are balanced. -/
abbrev Level (s : Subst) : Prop := s.Levelled fun _ => False

end Subst

namespace Solver

variable {K : Scope} {Z R R' C C' : Propagator → Prop} {O : Propagator → Var → Prop}
variable {s t u : Solver} {subst answer : Subst} {v w : Var} {d : Domain} {ps : List Propagator}

/-! ## Requests -/

/-- Loading confines nothing. -/
theorem Grows.balanced_iff (h : s.Grows t) {r : Relation} : t.Balanced r ↔ s.Balanced r := by
  have confined (v : Var) : t.Confined v ↔ s.Confined v := by rw [Confined, Confined, h.resolve, h.peek]
  have same (v w : Var) : t.sameVar v w = s.sameVar v w := by rw [sameVar, sameVar, h.resolve]
  exact ⟨fun balanced => balanced.congr (fun v _ => (confined v).symm) fun v _ w _ alike => by rwa [same],
    fun balanced => balanced.congr (fun v _ => confined v) fun v _ w _ alike => by rwa [← same]⟩

/-- Where nothing has been at work, what is drawn in is stored, or in `Q`. -/
theorem Draws.of_new {Q : Propagator → Prop} (h : (Solver.new subst).Draws Q s) {id : PropId} {p : Propagator}
    (found : s.prop? id = some p) : Q p ∨ ∃ w, p ∈ subst.storedWatchers w := by
  refine (h.work p ⟨id, found⟩).resolve_left ?_
  rintro ⟨j, at_j⟩
  simp [Solver.new, prop?] at at_j

/-- Posted propagators wait, and the others are stored ones. -/
theorem levelled_posts (level : subst.Levelled C) (orderly : subst.Orderly K) (known : ∀ p ∈ ps, K.known p) :
    Levelled (fun p => C p ∧ p ∉ ps) (ps.foldl (fun s p => (s.post p).2) (Solver.new subst)) := by
  obtain ⟨_, grows, waiting⟩ := Sound.posts ps _ orderly.steady_new known
  have drawn := draws_posts ps (Solver.new subst)
  intro w id mem p found
  by_cases posted : p ∈ ps
  · exact .inr (.inr (waiting p posted id found))
  · obtain ⟨x, stored⟩ := (drawn.of_new found).resolve_left posted
    rcases level x p stored with balanced | exempt
    · exact .inl (grows.balanced_iff.mpr balanced)
    · exact .inr (.inl ⟨exempt, posted⟩)

/-- A domain that is reduced is loaded first, with all propagators of its variable. -/
theorem levelled_reduce (level : subst.Levelled C) (filed : subst.Filed O R) (orderly : subst.Orderly K)
    (canonical : d.Canonical) (full : d = .unbounded → subst.Integral K v) :
    Narrow.Leaves (Solver.new subst) (Narrow.reduce v d) fun _ t => t.Levelled C := by
  have sound := orderly.steady_new
  obtain ⟨_, unfolds, loaded⟩ := sound.domain v
  have vigilant : (Solver.new subst).Vigilant R := attentive_new filed.regular
  have attentive := Attentive.domain vigilant sound v
  have drawn := draws_domain (Q := fun _ => False) (Solver.new subst) v
  have levelled : ((Solver.new subst).domain v).2.Levelled C := by
    intro w id mem p found
    obtain ⟨x, stored⟩ := (drawn.of_new found).resolve_left fun none => none
    exact (level x p stored).imp unfolds.grows.balanced_iff.mpr .inl
  intro a t run
  rw [← sound.reduce_domain v d] at run
  obtain ⟨_, _, aside, _⟩ := unfolds.sound.reduce_aside (v := v) canonical
    (fun w free => loaded w (by rw [← unfolds.grows.resolve, free]))
    (fun unbounded θ admits => full unbounded θ admits.reading ((unfolds.admits θ).mp admits).binding) a t run
  exact levelled.aside unfolds.sound (Attentive.tended (Z := fun _ => False) attentive unfolds.sound (by simp)) aside

/-! ## Writing back -/

namespace WrittenBack

variable {t : Subst}

/-- The substitution confines the variables that the solver confines. -/
theorem confined_iff (back : s.WrittenBack t) (sound : s.Steady K) : (Solver.new t).Confined v ↔ s.Confined v := by
  have resolves := resolve_of_extends (s := s) (t := Solver.new t) back.acyclic back.extends_ v
  cases found : s.resolve v with
  | other =>
    rw [found] at resolves
    exact ⟨fun confined => absurd resolves confined.1, fun confined => absurd found confined.1⟩
  | value n =>
    rw [found] at resolves
    dsimp only at resolves
    simp [Confined, peek, found, resolves]
  | free w =>
    rcases back.resolve_of_free sound found with ⟨d, n, at_w, only, value⟩ | ⟨unbound, free⟩
    · have solved : (s.peek v).solution = some n := by rw [peek_of_free found, current_of_loaded at_w, only]
      refine iff_of_true ⟨by simp [value], n + 1, ?_⟩ (sound.confined_of_solution solved)
      simp only [peek, value, Domain.mem_singleton]
      omega
    · have same : (Solver.new t).current w = s.current w := by
        rw [← back.storedDomain_eq unbound]
        simp [current, Solver.new]
      simp [Confined, peek, found, free, same]

/-- What is balanced in the solver is balanced in the substitution. -/
theorem balanced (back : s.WrittenBack t) (sound : s.Steady K) {r : Relation} (h : s.Balanced r) :
    (Solver.new t).Balanced r := by
  refine h.congr (fun v _ => back.confined_iff sound) fun v _ w _ same => ?_
  obtain ⟨u, leads_v, leads_w⟩ := sameVar_iff.mp same
  exact sameVar_iff.mpr ⟨u, (back.resolve_of_walk sound (resolve_eq_free_iff.mp leads_v)).1,
    (back.resolve_of_walk sound (resolve_eq_free_iff.mp leads_w)).1⟩

/-- What a solver without waiting propagators writes back is levelled. -/
theorem levelled (back : s.WrittenBack t) (sound : s.Steady K) (quiet : ∀ id, ¬s.agenda.Waits id)
    (tended : s.Tended Z R) (filed : s.subst.Filed O R') (level : s.subst.Levelled C) (work : s.Levelled C')
    (loose : ∀ p u, O p u → C p) (posted : ∀ p, C p → Z p ∨ C' p) : t.Levelled C' := by
  intro w p mem
  rcases back.mem_storedWatchers.mp mem with ⟨out, stored⟩ | ⟨_, id, subscribed, found⟩
  · -- A propagator that is left with a variable that is not loaded mentions no loaded one.
    have apart : ¬s.Rounded p := fun rounded => by
      obtain ⟨x, in_vars, leads⟩ := sound.base.mentions w p stored
      exact out (rounded x in_vars w (resolve_eq_free_iff.mpr leads))
    have exempt (missed : C p) : C' p :=
      (posted p missed).resolve_left fun known => apart (tended.rounded p (.inl known))
    rcases level w p stored with balanced | missed
    · by_cases untouched : ∀ v ∈ p.val.vars, ∀ u, s.resolve v = .free u → u ∉ s.domains
      · refine .inl (back.balanced sound (balanced.congr (fun v in_vars => ?_) fun _ _ _ _ same => same))
        have resolve : (Solver.new s.subst).resolve v = s.resolve v := rfl
        cases found : s.resolve v with
        | free u =>
          have same : s.current u = (Solver.new s.subst).current u := by
            rw [current_of_not_mem (untouched v in_vars u found)]
            simp [current, Solver.new]
          simp [Confined, peek, resolve, found, same]
        | _ => simp [Confined, peek, resolve, found]
      · simp only [not_forall, not_not] at untouched
        obtain ⟨v, in_vars, u, free, loaded⟩ := untouched
        rcases filed.spread w p stored v in_vars u (resolve_eq_free_iff.mp free) with stored' | missed
        · exact absurd (tended.rounded p (.inr ⟨u, loaded, stored'⟩)) apart
        · exact .inr (exempt (loose p u missed))
    · exact .inr (exempt missed)
  · exact (work w id subscribed p found).imp (back.balanced sound) fun rest => rest.resolve_right (quiet id)

end WrittenBack

end Solver

namespace Subst

variable {K : Scope} {T : Term → Prop} {O : Propagator → Var → Prop} {R C : Propagator → Prop}
variable {s t : Subst} {keep v : Var} {L : List Propagator}

theorem Levelled.mono {C' : Propagator → Prop} (h : s.Levelled C) (more : ∀ p, C p → C' p) : s.Levelled C' :=
  fun w p mem => (h w p mem).imp_right (more p)

/-- What a substitution confines depends on where walks lead and on the domains there. -/
theorem confined_congr (walk : t.walk (.var v) = s.walk (.var v))
    (domain : ∀ u, s.walk (.var v) = .var u → t.storedDomain u = s.storedDomain u) :
    (Solver.new t).Confined v ↔ (Solver.new s).Confined v := by
  have resolve : (Solver.new t).resolve v = (Solver.new s).resolve v := by
    simp only [Solver.resolve, Solver.new, walk]
  rw [Solver.Confined, Solver.Confined, Solver.peek, Solver.peek, resolve]
  cases found : (Solver.new s).resolve v with
  | free u =>
    have same := domain u (Solver.resolve_eq_free_iff.mp found)
    simp [Solver.current, Solver.new, same]
  | _ => rfl

/-- A variable that stands for an unbound one is confined by the domain of that one. -/
theorem confined_of_walk {u : Var} (leads : s.walk (.var v) = .var u) :
    (Solver.new s).Confined v ↔ ∃ n, n ∉ s.storedDomain u := by
  have free : (Solver.new s).resolve v = .free u := Solver.resolve_eq_free_iff.mpr leads
  have left : (Solver.new s).peek v = s.storedDomain u := leaves_of_walk leads
  simp [Solver.Confined, free, left]

theorem sameVar_new_iff {w : Var} : (Solver.new s).sameVar v w = true ↔ s.Alias v w := by
  simp only [Solver.sameVar_iff, Solver.resolve_eq_free_iff]
  rfl

/-- Whether a relation is balanced depends on where its variables lead and on the domains there. -/
theorem balanced_congr {r : Relation} (h : (Solver.new s).Balanced r)
    (walk : ∀ x ∈ r.vars, t.walk (.var x) = s.walk (.var x))
    (domain : ∀ x ∈ r.vars, ∀ u, s.walk (.var x) = .var u → t.storedDomain u = s.storedDomain u) :
    (Solver.new t).Balanced r := by
  refine h.congr (fun x mem => confined_congr (walk x mem) (domain x mem)) fun x in_x y in_y same => ?_
  obtain ⟨u, leads_x, leads_y⟩ := sameVar_new_iff.mp same
  exact sameVar_new_iff.mpr ⟨u, walk x in_x ▸ leads_x, walk y in_y ▸ leads_y⟩

theorem Levelled.congr (h : s.Levelled C) (bindings : t.bindings = s.bindings)
    (attributes : t.attributes = s.attributes) : t.Levelled C := by
  intro w p mem
  have stored : p ∈ s.storedWatchers w := by rwa [storedWatchers, attributes] at mem
  refine (h w p stored).imp_left fun balanced => balanced_congr balanced (fun x _ => by rw [walk_congr bindings]) ?_
  intro x _ u _
  rw [storedDomain, storedDomain, attributes]

end Subst

/-! ## Runs of a solver -/

/-- At a fixpoint nothing waits, and what is at work is levelled. -/
theorem Solver.Sound.fixpoint_levelled {K : Scope} {Z R R' C C' : Propagator → Prop} {O : Propagator → Var → Prop}
    {s : Solver} (h : s.Steady K) (tended : s.Tended Z R) (filed : s.subst.Filed O R') (base : s.subst.Levelled C)
    (level : s.Levelled C') :
    Narrow.Leaves s Narrow.fixpoint fun _ u => u.Steady K ∧ (∀ id, ¬u.agenda.Waits id) ∧ u.Tended Z R ∧
      u.Levelled C' ∧ u.subst.Filed O R' ∧ u.subst.Levelled C := by
  have kept := h.fixpoint_keeps
    (J := fun u => (u.Tended Z R ∧ u.Levelled C') ∧ u.subst.Filed O R' ∧ u.subst.Levelled C)
    ⟨⟨tended, level⟩, filed, base⟩ fun s t _ steady turn ⟨⟨tended, level⟩, filed, base⟩ =>
      ⟨⟨tended.turn steady turn, level.turn tended turn⟩, filed.congr turn.framed.bindings turn.framed.attrs,
        base.congr turn.framed.bindings turn.framed.attributes⟩
  refine (kept.and h.fixpoint.leaves).mono ?_
  rintro _ u ⟨⟨⟨tended', level'⟩, filed', base'⟩, steady, _, _, quiet⟩
  exact ⟨steady, quiet, tended', level', filed', base'⟩

namespace Subst

variable {K : Scope} {T : Term → Prop} {O : Propagator → Var → Prop} {R C : Propagator → Prop}
variable {s t : Subst} {keep v : Var} {L : List Propagator}

/-- The answer to requests is levelled, without exceptions for the propagators that were
    posted. -/
theorem Levelled.solveAll (h : s.Levelled C) (filed : s.Filed O R) (orderly : s.Orderly K)
    (loose : ∀ p u, O p u → C p) (requests : List Request) (fair : ∀ r ∈ requests, r.Fair K s)
    (start : Narrow.Leaves (Solver.new s) (requests.forM Request.run) fun _ u =>
      u.Levelled fun p => C p ∧ .post p ∉ requests)
    (run : s.solveAll requests = .ok t) : t.Levelled fun p => C p ∧ .post p ∉ requests := by
  have vigilant : (Solver.new s).Vigilant R := Solver.attentive_new filed.regular
  have requested := ((vigilant.requests requests _ R orderly.steady_new fair).and
    (orderly.steady_new.requests requests _ fair).leaves).and start
  obtain ⟨u, ⟨steady, quiet, tended, level, filed', base⟩, written⟩ := Solver.of_runToSubst
    (requested.bind (f := fun _ => Narrow.fixpoint) fun _ u ⟨⟨⟨vigilant', work⟩, steady, subst, _⟩, level⟩ =>
      steady.fixpoint_levelled (Z := fun p => .post p ∈ requests)
        (vigilant'.tended steady fun p posted => work p (.inr posted))
        (by rwa [subst]) (by rwa [subst]) level) run
  obtain ⟨t', written', back⟩ := Solver.toSubst?_spec steady
  cases written.symm.trans written'
  exact back.levelled steady quiet tended filed' base level loose fun p exempt =>
    or_iff_not_imp_left.mpr fun other => ⟨exempt, other⟩

/-- Propagators that are posted are balanced afterwards. -/
theorem Levelled.solveWith (h : s.Levelled C) (filed : s.Filed O R) (orderly : s.Orderly K)
    (loose : ∀ p u, O p u → C p) {ps : List Propagator} (known : ∀ p ∈ ps, K.known p)
    (run : s.solveWith ps = .ok t) : t.Levelled fun p => C p ∧ p ∉ ps := by
  have posted (p : Propagator) : Request.post p ∈ ps.map .post ↔ p ∈ ps :=
    List.mem_map_of_injective fun p q same => Request.post.inj same
  rw [solveWith_eq] at run
  have fair (r : Request) (mem : r ∈ ps.map .post) : r.Fair K s := by
    obtain ⟨p, in_ps, rfl⟩ := List.mem_map.mp mem
    exact known p in_ps
  have start : Narrow.Leaves (Solver.new s) ((ps.map .post).forM Request.run) fun _ u =>
      u.Levelled fun p => C p ∧ Request.post p ∉ ps.map .post := by
    intro _ u ran
    cases (run_posts ps _).symm.trans ran
    simp only [posted]
    exact Solver.levelled_posts h orderly known
  simpa only [posted] using h.solveAll filed orderly loose _ fair start run

/-- Where all propagators that are not balanced are posted, all are balanced afterwards. -/
theorem Levelled.solveWith_level (h : s.Levelled C) (filed : s.Filed O R) (orderly : s.Orderly K)
    (loose : ∀ p u, O p u → C p) {ps : List Propagator} (known : ∀ p ∈ ps, K.known p)
    (covers : ∀ p, C p → p ∈ ps) (run : s.solveWith ps = .ok t) : t.Level :=
  (h.solveWith filed orderly loose known run).mono fun p exempt => exempt.2 (covers p exempt.1)

theorem Levelled.solveReduced (h : s.Levelled C) (filed : s.Filed O R) (orderly : s.Orderly K)
    (loose : ∀ p u, O p u → C p) {d : Domain} (canonical : d.Canonical) (full : d = .unbounded → s.Integral K v)
    (run : s.solveReduced v d = .ok t) : t.Levelled C := by
  rw [solveReduced_eq] at run
  have fair (r : Request) (mem : r ∈ [Request.reduce v d]) : r.Fair K s := by
    rw [List.mem_singleton.mp mem]
    exact ⟨canonical, full⟩
  have start : Narrow.Leaves (Solver.new s) ([Request.reduce v d].forM Request.run) fun _ u =>
      u.Levelled fun p => C p ∧ Request.post p ∉ [Request.reduce v d] := by
    refine (Solver.levelled_reduce h filed orderly canonical full).bind fun _ u level => Narrow.Leaves.pure ?_
    simpa using level
  exact (h.solveAll filed orderly loose _ fair start run).mono fun p exempt => exempt.1

/-! ## Values -/

/-- Where a variable is bound, the propagators that do not mention it stay balanced. -/
theorem Levelled.bindBare (h : s.Level) (complete : s.Complete) {b : Term} (acyclic : s.Acyclic)
    (unbound : s.get? v = none) (fresh : s.occurs v b = false) :
    (s.bindBare v b).Levelled fun p => p ∈ s.storedWatchers v := by
  intro w p mem
  rw [mem_storedWatchers_bindBare] at mem
  by_cases mentions : p ∈ s.storedWatchers v
  · exact .inr mentions
  · have elsewhere (x : Var) (in_vars : x ∈ p.val.vars) : s.walk (.var x) ≠ .var v := fun leads =>
      mentions (complete.stored_of_walk mem.2 in_vars leads)
    have balanced := (h w p mem.2).resolve_right fun none => none
    refine .inl (balanced_congr balanced (fun x in_vars => ?_) fun x in_vars u leads => ?_)
    · rw [walk_bindBare acyclic unbound fresh, if_neg (elsewhere x in_vars)]
    · have other : v ≠ u := fun same => elsewhere x in_vars (same ▸ leads)
      rw [storedDomain, attributes_bindBare, if_neg other, storedDomain]

/-- Propagators that are consulted on an integer are balanced. -/
theorem Levelled.validate_watchers (h : s.Levelled C) (filed : s.Filed O R) (loose : ∀ p u, O p u → C p)
    (orderly : s.Orderly K) {value : Term} {a : Stamped (List Propagator)} (suits : s.Suits K.known v (.watchers a))
    (run : s.validate v value (.watchers a) = .ok t) : t.Levelled fun p => C p ∧ p ∉ a.val :=
  h.solveWith filed orderly loose (fun p mem => (suits.2 p mem).1) (solveWith_of_validate run)

/-- Binding a variable to a term that is no variable leaves all propagators balanced. -/
theorem Levelled.instantiate (h : s.Level) (complete : s.Complete) (good : s.OrderlyIn K T) {b : Term}
    (unbound : s.get? v = none) (not_var : ∀ w, b ≠ .var w) (sized : b.Sized) (good_b : T b)
    (run : s.instantiate v b = .ok t) : t.Level := by
  have acyclic := good.orderly.acyclic
  cases good.orderly.instantiates run with
  | narrowed _ _ value reduced =>
    subst value
    exact h.solveReduced complete good.orderly (fun _ _ none => none) (Solver.canonical_singleton sized)
      Domain.noConfusion reduced
  | bound fresh _ unwatched done =>
    subst done
    refine (h.bindBare complete acyclic unbound fresh).mono fun p mem => ?_
    simp [storedWatchers, unwatched] at mem
  | propagated fresh _ at_v ran =>
    refine (h.bindBare complete acyclic unbound fresh).solveWith_level (complete.bindBare acyclic unbound fresh not_var)
      (good.bindBare unbound fresh sized good_b).orderly (fun _ _ none => none.elim) (carries_of_watchers at_v)
      (fun p mem => ?_) ran
    simpa [storedWatchers, at_v] using mem

/-! ## Attaching -/

/-- A list of balanced propagators may be attached. -/
theorem Levelled.attachWatchers (h : s.Levelled C) {a : Stamped (List Propagator)}
    (level : ∀ p ∈ a.val, (Solver.new s).Balanced p.val ∨ C p) : (s.setAttr v (.watchers a)).Levelled C := by
  intro w p mem
  have before : (Solver.new s).Balanced p.val ∨ C p := by
    rw [storedWatchers_setAttr_watchers] at mem
    split at mem
    · exact level p mem
    · exact h w p mem
  refine before.imp_left fun balanced => balanced_congr balanced (fun x _ => by rw [walk_setAttr]) fun x _ u _ => ?_
  by_cases same : v = u
  · simp [storedDomain, Attributes.set, same]
  · simp [storedDomain, same]

/-- Where a domain is attached, the propagators that do not mention the variable stay balanced. -/
theorem Levelled.attachDomain (h : s.Levelled C) (filed : s.Filed O R) (loose : ∀ p u, O p u → C p)
    (a : Stamped DomainFact) :
    (s.setAttr v (.domain a)).Levelled fun p => C p ∨ p ∈ s.storedWatchers v := by
  intro w p mem
  rw [storedWatchers_setAttr_domain] at mem
  rcases h w p mem with balanced | exempt
  · by_cases exempt : C p ∨ p ∈ s.storedWatchers v
    · exact .inr exempt
    · refine .inl (balanced_congr balanced (fun x _ => by rw [walk_setAttr]) fun x in_vars u leads => ?_)
      have other : v ≠ u := fun same => exempt
        ((filed.spread w p mem x in_vars u leads).symm.imp (loose p u) fun stored => same ▸ stored)
      rw [storedDomain, attributes_setAttr, if_neg other, storedDomain]
  · exact .inr (.inl exempt)

/-! ## Settling -/

/-- The propagators of a variable are run again. They are the only ones that may be out of
    balance, if the variable has a domain. -/
theorem Levelled.recheck (h : s.Levelled C) (filed : s.Filed O R) (orderly : s.Orderly K)
    (loose : ∀ p u, O p u → C p)
    (here : ∀ p, C p → (s.attributes v).domain ≠ none ∧ p ∈ s.storedWatchers v)
    (run : s.recheck v = .ok t) : t.Level := by
  unfold Subst.recheck at run
  have known : s.Orderly { K with known := s.Carries K } := orderly.mono rfl fun _ carries => carries
  split at run
  · rename_i d a at_d at_a
    refine h.solveWith_level filed known loose
      (fun p mem => .inr ⟨v, mem_storedWatchers_iff.mpr ⟨a, at_a, mem⟩⟩) (fun p exempt => ?_) run
    simpa [storedWatchers, at_a] using (here p exempt).2
  · rename_i not_both
    cases run
    refine h.mono fun p exempt => ?_
    obtain ⟨domain, stored⟩ := here p exempt
    obtain ⟨d, at_d⟩ := Option.ne_none_iff_exists'.mp domain
    obtain ⟨a, at_a, _⟩ := mem_storedWatchers_iff.mp stored
    exact not_both d a at_d at_a

theorem Levelled.settleAll (ints : ∀ n, isValue n = true → T (.int n)) (keep : Var) (joined : List Attribute)
    (h : s.Level) (complete : s.Complete) (good : s.OrderlyIn K T)
    (run : joined.foldlM (Subst.settleAt keep) s = .ok t) : t.Level := by
  refine (good.settleAll_keeps (Q := fun s => s.Complete ∧ s.Level) ints (fun good ⟨complete, level⟩ at_v run => ?_)
    joined ⟨complete, h⟩ run).2
  have carries := carries_of_watchers (K := K) at_v
  exact ⟨(complete.solveWith good.orderly carries run).mono (fun p u missed => missed.1) fun p exempt => exempt.1,
    (level.solveWith complete good.orderly (fun _ _ none => none) carries run).mono fun p exempt => exempt.1⟩

/-- The first attribute that is settled balances what is out of balance, if that is beside
    a domain. -/
theorem Levelled.settleJoined {rep : Var} (h : s.Levelled C) (filed : s.Filed (fun p _ => C p) C)
    (good : s.OrderlyIn K T) (ints : ∀ n, isValue n = true → T (.int n)) (leads : s.walk (.var keep) = .var rep)
    (here : ∀ p, C p → (s.attributes rep).domain ≠ none ∧ p ∈ s.storedWatchers rep) {joined : List Attribute}
    (some_joined : joined ≠ []) (kinds : ∀ a ∈ joined, a.name = .domain ∨ a.name = .watchers)
    (run : joined.foldlM (Subst.settleAt keep) s = .ok t) : t.Level := by
  cases joined with
  | nil => exact absurd rfl some_joined
  | cons a joined =>
    rw [List.foldlM_cons] at run
    obtain ⟨u, first, rest⟩ := exists_of_bind_ok run
    have settled := good.settleAt ints keep a
    rw [first] at settled
    unfold Subst.settleAt at first
    rw [leads] at first
    have rechecked : s.recheck rep = .ok u := by
      have kind := kinds a (by simp)
      cases a with
      | domain a => exact first
      | watchers a => exact first
      | _ => simp [Attribute.name] at kind
    have covered (p : Propagator) (missed : (∃ _ : Var, C p) ∨ C p) :
        (s.attributes rep).domain ≠ none ∧ p ∈ s.storedWatchers rep := by
      rcases missed with ⟨_, missed⟩ | exempt
      · exact here p missed
      · exact here p exempt
    have complete : u.Complete := filed.recheck good.orderly covered rechecked
    have level := h.recheck filed good.orderly (fun p _ exempt => exempt) here rechecked
    exact Levelled.settleAll ints keep joined level complete settled.1 rest

/-! ## Moving -/

/-- Two lists of propagators are attached together and run. -/
theorem Levelled.combine_watchers {a b : Stamped (List Propagator)}
    (h : s.Levelled fun p => p ∈ a.val ∨ p ∈ s.storedWatchers v)
    (filed : s.Filed (fun p _ => p ∈ a.val) fun p => p ∈ a.val) (orderly : s.Orderly K) (unbound : s.get? v = none)
    (at_v : (s.attributes v).watchers = some b) (suits : s.Suits K.known v (.watchers a))
    (run : (s.attachUnion v b a).solveWith (unionWatchers b.val a.val) = .ok t) : t.Level := by
  have union (p : Propagator) := orderly.mem_union (p := p) at_v suits
  have stored_v : s.storedWatchers v = b.val := by simp [storedWatchers, at_v]
  rw [stored_v] at h
  have stamped : (s.stamped (unionWatchers b.val a.val)).2.Levelled fun p => p ∈ a.val ∨ p ∈ b.val :=
    h.congr rfl rfl
  have attached := stamped.attachWatchers (v := v) (a := (s.stamped (unionWatchers b.val a.val)).1) fun p mem =>
    .inr ((union p).mp mem).symm
  exact attached.solveWith_level (filed.attachUnion orderly at_v suits) (orderly.attachUnion at_v unbound suits)
    (fun p _ missed => .inl missed) carries_attachUnion (fun p exempt => (union p).mpr exempt.symm) run

theorem Levelled.putBack (h : s.Levelled C) (v : Var) (name : AttrName) : (s.putBack v name).Levelled C :=
  h.congr (s.putBack_frame v name).1 (s.attributes_putBack v name)

/-- A domain that moves to a variable without domain puts the propagators there out of
    balance. It then stands next to them. -/
theorem Levelled.moveDomain (h : s.Levelled C) (filed : s.Filed O R) (loose : ∀ p u, O p u → C p)
    (orderly : s.Orderly K) (unbound : s.get? keep = none) {a : Stamped DomainFact}
    (undecided : a.val.domain.Undecided) {joined : List Attribute}
    (run : Subst.moveAttr keep (s, []) (.domain a) = .ok (t, joined)) :
    t.Levelled C ∨ joined ≠ [] ∧ t.walk (.var keep) = .var keep ∧ (t.attributes keep).domain ≠ none ∧
      t.Levelled fun p => C p ∨ p ∈ t.storedWatchers keep := by
  have suits : s.Suits K.known keep (.domain a) := undecided
  have here : s.walk (.var keep) = .var keep := walk_var_of_unbound unbound
  cases suits.moves run with
  | taken leads missing done joins =>
    cases here.symm.trans leads
    subst done joins
    have attached := h.attachDomain (v := keep) filed loose a
    split
    · refine .inr ⟨by simp, by rw [walk_setAttr, here], by simp [Attributes.set], ?_⟩
      rw [storedWatchers_setAttr_domain]
      exact attached
    · rename_i bare
      have unstored : s.storedWatchers keep = [] := by
        have none : s.attrs[keep]? = none := by simpa [hasAttrs] using bare
        simp [storedWatchers, attributes, none]
      exact .inl (attached.mono fun p exempt => exempt.resolve_right (by simp [unstored]))
  | narrowed is_domain leads _ reduced back =>
    cases is_domain
    cases here.symm.trans leads
    have full (full : a.val.domain = .unbounded) : s.Integral K keep := absurd full undecided.finite
    have level := h.solveReduced filed orderly loose undecided.canonical full reduced
    rcases back with rfl | rfl
    · exact .inl level
    · exact .inl (level.putBack keep _)
  | united is_watchers => cases is_watchers
  | consulted value => exact absurd here (value keep)

/-- Propagators that move to a variable are balanced there, if need be beside the domain of
    the variable. Where there is none, the propagators need to be in balance as they are. -/
theorem Levelled.moveWatchers {w : Stamped (List Propagator)}
    (h : s.Levelled fun p => p ∈ w.val ∨ ∃ rep, s.walk (.var keep) = .var rep ∧ p ∈ s.storedWatchers rep)
    (filed : s.Filed (fun p _ => p ∈ w.val) fun p => p ∈ w.val) (good : s.OrderlyIn K T)
    (ints : ∀ n, isValue n = true → T (.int n)) (suits : s.Suits K.known keep (.watchers w))
    (distinct : (w.val.map Stamped.stamp).Nodup) {joined joined' : List Attribute}
    (kinds : ∀ a ∈ joined, a.name = .domain)
    (direct : ∀ rep, s.walk (.var keep) = .var rep → (s.attributes rep).domain = none →
      (s.attributes rep).watchers = none →
      (s.setAttr rep (.watchers w)).Complete ∧ (s.setAttr rep (.watchers w)).Level)
    {u : Subst} (moved : Subst.moveAttr keep (s, joined) (.watchers w) = .ok (u, joined'))
    (settled : joined'.foldlM (Subst.settleAt keep) u = .ok t) : t.Level := by
  have good_u : u.OrderlyIn K T := by
    have added := good.moveAttr ints joined suits
    rw [moved] at added
    exact added.1
  cases suits.moves moved with
  | @taken rep leads missing done joins =>
    subst done joins
    have at_rep := getAttr_watchers_none_iff.mp missing
    have unstored : s.storedWatchers rep = [] := by simp [storedWatchers, at_rep]
    by_cases domain : (s.attributes rep).domain = none
    · obtain ⟨complete, level⟩ := direct rep leads domain at_rep
      exact Levelled.settleAll ints keep _ level complete good_u settled
    · rw [if_pos (hasAttrs_of_domain domain)] at settled
      have only : s.Levelled fun p => p ∈ w.val := h.mono fun p exempt => exempt.resolve_right <| by
        rintro ⟨x, at_x, mem⟩
        cases leads.symm.trans at_x
        simp [unstored] at mem
      refine (only.attachWatchers (v := rep) (a := w) fun p mem => .inr mem).settleJoined
        (filed.attachLoose distinct (by simp [unstored]) fun p mem => .inr mem) good_u ints
        (by rw [walk_setAttr, leads]) (fun p mem => ⟨by simpa [Attributes.set] using domain, ?_⟩) (by simp)
        (List.forall_mem_append.mpr ⟨fun a mem => .inl (kinds a mem), List.forall_mem_singleton.mpr (.inr rfl)⟩) settled
      rwa [storedWatchers_setAttr_watchers, if_pos rfl]
  | narrowed is_domain => cases is_domain
  | @united rep _ b _ is_watchers leads at_rep combined back joins =>
    cases is_watchers
    subst joins
    have unbound := good.orderly.acyclic.get?_of_walk leads
    have here : s.walk (.var rep) = s.walk (.var keep) := by rw [leads, walk_var_of_unbound unbound]
    have complete := filed.combine_watchers good.orderly unbound at_rep (suits.congr here) combined
    have beside : s.Levelled fun p => p ∈ w.val ∨ p ∈ s.storedWatchers rep :=
      h.mono fun p exempt => exempt.imp_right <| by
        rintro ⟨x, at_x, mem⟩
        cases leads.symm.trans at_x
        exact mem
    have level := beside.combine_watchers filed good.orderly unbound at_rep (suits.congr here) combined
    rcases back with rfl | rfl
    · exact Levelled.settleAll ints keep _ level complete good_u settled
    · exact Levelled.settleAll ints keep _ (level.putBack rep _) (complete.putBack rep _) good_u settled
  | consulted value consulted =>
    have complete : u.Complete := (filed.validate_watchers good.orderly suits consulted).mono
      (fun p x missed => missed.2 missed.1) fun p exempt => exempt.2 exempt.1
    have only : s.Levelled fun p => p ∈ w.val := h.mono fun p exempt => exempt.resolve_right <| by
      rintro ⟨x, at_x, _⟩
      exact value x at_x
    have level : u.Level := (only.validate_watchers filed (fun p _ mem => mem) good.orderly suits consulted).mono
      fun p exempt => exempt.2 exempt.1
    exact Levelled.settleAll ints keep _ level complete good_u settled

/-! ## Retiring -/

section Retire

variable {w : Stamped (List Propagator)} (h : s.Level) (complete : s.Complete) (acyclic : s.Acyclic)
variable (retires : s.Retires keep v)

include acyclic retires in
/-- Where neither of two variables has a domain, making them one confines nothing. -/
theorem confined_alias (bare_v : (s.attributes v).domain = none) (bare : (s.attributes keep).domain = none)
    (x : Var) : (Solver.new (s.bindBare v (.var keep))).Confined x ↔ (Solver.new s).Confined x := by
  have walks := walk_bindBare acyclic retires.unbound retires.fresh x
  have stored (u : Var) (other : v ≠ u) : (s.bindBare v (.var keep)).storedDomain u = s.storedDomain u := by
    rw [storedDomain, attributes_bindBare, if_neg other, storedDomain]
  by_cases here : s.walk (.var x) = .var v
  · rw [if_pos here, retires.walk_keep] at walks
    rw [confined_of_walk walks, confined_of_walk here, stored keep retires.differ]
    simp [storedDomain, bare_v, bare]
  · rw [if_neg here] at walks
    exact confined_congr walks fun u leads => stored u fun same => here (same ▸ leads)

include h complete acyclic retires

/-- A lower variable without propagators takes those of the bound one in balance, if neither
    of the two has a domain. -/
theorem Levelled.attach_alias (bare_v : (s.attributes v).domain = none) (bare : (s.attributes keep).domain = none)
    (at_v : (s.attributes v).watchers = some w) (at_keep : s.storedWatchers keep = []) :
    ((s.bindBare v (.var keep)).setAttr keep (.watchers w)).Level := by
  have stored_v : s.storedWatchers v = w.val := by simp [storedWatchers, at_v]
  have stays {x : Var} {p : Propagator} (mem : p ∈ s.storedWatchers x) :
      (Solver.new (s.bindBare v (.var keep))).Balanced p.val := by
    have balanced := (h x p mem).resolve_right fun none => none
    refine balanced.congr (fun y _ => confined_alias acyclic retires bare_v bare y)
      fun y in_y z in_z alike => sameVar_new_iff.mpr ?_
    exact complete.alias_of_alias acyclic retires mem (by simp [at_keep]) in_y in_z
      (sameVar_new_iff.mp alike)
  have aliased : (s.bindBare v (.var keep)).Level := fun x p mem =>
    .inl (stays (mem_storedWatchers_bindBare.mp mem).2)
  exact aliased.attachWatchers fun p mem => .inl (stays (stored_v.symm ▸ mem : p ∈ s.storedWatchers v))

end Retire

/-- Where a variable becomes a lower one, the propagators of the two are balanced. -/
theorem Levelled.retire (h : s.Level) (complete : s.Complete) (good : s.OrderlyIn K T)
    (ints : ∀ n, isValue n = true → T (.int n)) (retires : s.Retires keep v) (good_keep : T (.var keep))
    (run : s.retire keep v = .ok t) : t.Level := by
  have acyclic := good.orderly.acyclic
  have bare := good.bindRetired retires good_keep
  have level := h.bindBare complete acyclic retires.unbound retires.fresh
  have aliased := complete.alias acyclic retires
  have suits {a : Attribute} (mem : a ∈ (s.attributes v).toList) := good.orderly.suits_retired retires mem
  obtain ⟨⟨u, joined⟩, moved, settled⟩ := exists_of_bind_ok run
  rw [good.orderly.toList_attributes v] at moved suits
  cases at_v : (s.attributes v).watchers with
  | none =>
    have unstored : s.storedWatchers v = [] := by simp [storedWatchers, at_v]
    have complete : (s.bindBare v (.var keep)).Complete := aliased.mono
      (fun p x missed => List.not_mem_nil (unstored ▸ missed.1))
      fun p both => List.not_mem_nil (unstored ▸ both.1)
    replace level : (s.bindBare v (.var keep)).Level := level.mono fun p mem => List.not_mem_nil (unstored ▸ mem)
    cases at_v' : (s.attributes v).domain with
    | none =>
      rw [at_v, at_v'] at moved
      obtain ⟨rfl, rfl⟩ := Prod.mk.inj (Except.ok.inj moved)
      exact Levelled.settleAll ints keep _ level complete bare settled
    | some d =>
      rw [at_v, at_v'] at moved suits
      obtain ⟨⟨u', joined'⟩, first, rest⟩ := exists_of_bind_ok moved
      obtain ⟨rfl, rfl⟩ := Prod.mk.inj (Except.ok.inj rest)
      have added := bare.moveAttr ints [] (suits (a := .domain d) (by simp))
      rw [first] at added
      have undecided := good.orderly.domain v d at_v'
      obtain ⟨complete', _, kinds⟩ := Filed.moveDomain complete bare ints retires.get?_keep undecided first
      rcases level.moveDomain complete (fun _ _ none => none) bare.orderly retires.get?_keep undecided first with
        level' | ⟨some_joined, stays', domain, level'⟩
      · exact Levelled.settleAll ints keep _ level' complete' added.1 settled
      · refine level'.settleJoined (complete'.mono (fun p u none => none.elim) fun p none => none.elim)
          added.1 ints stays' (fun p exempt => ⟨domain, exempt.resolve_left fun none => none⟩) some_joined
          (fun a mem => .inl (kinds a mem)) settled
  | some w =>
    have stored_v : s.storedWatchers v = w.val := by simp [storedWatchers, at_v]
    have loose : (s.bindBare v (.var keep)).Filed (fun p _ => p ∈ w.val) fun p => p ∈ w.val :=
      aliased.mono (fun p x missed => stored_v ▸ missed.1) fun p both => stored_v ▸ both.1
    have distinct : (w.val.map Stamped.stamp).Nodup := stored_v ▸ complete.distinct v
    rw [stored_v] at level
    cases at_v' : (s.attributes v).domain with
    | none =>
      rw [at_v, at_v'] at moved suits
      obtain ⟨⟨u', joined'⟩, first, rest⟩ := exists_of_bind_ok moved
      obtain ⟨rfl, rfl⟩ := Prod.mk.inj (Except.ok.inj rest)
      refine (level.mono fun p mem => Or.inl mem).moveWatchers loose bare ints (suits (by simp)) distinct (by simp)
        (fun rep at_rep bare_rep unwatched => ?_) first settled
      cases retires.walk_keep.symm.trans at_rep
      rw [retires.attributes_keep] at bare_rep
      refine ⟨complete.attach_alias acyclic retires at_v unwatched,
        Levelled.attach_alias h complete acyclic retires at_v' bare_rep at_v ?_⟩
      rw [retires.attributes_keep] at unwatched
      simp [storedWatchers, unwatched]
    | some d =>
      rw [at_v, at_v'] at moved suits
      obtain ⟨⟨u₁, joined₁⟩, first, rest⟩ := exists_of_bind_ok moved
      obtain ⟨⟨u₂, joined₂⟩, second, rest⟩ := exists_of_bind_ok rest
      obtain ⟨rfl, rfl⟩ := Prod.mk.inj (Except.ok.inj rest)
      have undecided := good.orderly.domain v d at_v'
      obtain ⟨loose', finite, kinds⟩ := loose.moveDomain bare ints retires.get?_keep undecided first
      have added := bare.moveAttr ints [] (suits (a := .domain d) (by simp))
      rw [first] at added
      obtain ⟨good₁, ext, _⟩ := added
      have level' : u₁.Levelled fun p =>
          p ∈ w.val ∨ ∃ rep, u₁.walk (.var keep) = .var rep ∧ p ∈ u₁.storedWatchers rep := by
        rcases level.moveDomain loose (fun p _ mem => mem) bare.orderly retires.get?_keep undecided first with
          level' | ⟨_, stays', _, level'⟩
        · exact level'.mono fun p mem => .inl mem
        · exact level'.mono fun p exempt => exempt.imp_right fun mem => ⟨keep, stays', mem⟩
      refine level'.moveWatchers loose' good₁ ints ((suits (by simp)).of_extends good₁.orderly.acyclic ext) distinct
        kinds (fun rep at_rep bare_rep _ => absurd ?_ finite) second settled
      rw [leaves_of_walk at_rep, storedDomain, bare_rep]

/-! ## Unification -/

/-- Binding a variable leaves all propagators balanced. -/
theorem lasting_level (K : Scope) : Lasting K fun s => s.Complete ∧ s.Level where
  retire good ints holds retires good_keep run :=
    ⟨Filed.retire holds.1 good ints retires good_keep run,
      Levelled.retire holds.2 holds.1 good ints retires good_keep run⟩
  instantiate good _ holds unbound not_var sized good_b run :=
    ⟨Filed.instantiate holds.1 good unbound not_var sized good_b run,
      Levelled.instantiate holds.2 holds.1 good unbound not_var sized good_b run⟩

/-- Unification leaves all propagators balanced. -/
theorem Orderly.unify_level (h : s.Orderly K) (complete : s.Complete) (level : s.Level) {a b : Term}
    (sized_a : a.Sized) (sized_b : b.Sized) (run : s.unify a b = .ok t) : t.Level :=
  ((lasting_level K).unify h ⟨complete, level⟩ sized_a sized_b run).2

end Subst

end ConstraintLogic
