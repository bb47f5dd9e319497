import ConstraintLogic.Proofs.Solver.LoadAndPost

/-!
# Narrowing

How the steps of a propagator change the state of its solver. The readings that
the solver describes are fixed while a propagator runs: a step is justified by
what all of them have in common, and a conflict means that there are none.

Results:
* `Narrow.Ensures`: where a narrowing ends, and what its early ends mean.
* `Contract`, `Solver.Running`, `Solver.Rested`: the state while a propagator runs,
  and the state between two runs.
* `Solver.Sound.reduce`: reducing a domain, in any state.
* `Solver.Running.reduce`, `Solver.Running.replaceWith`, `Solver.Running.resubscribe`:
  the steps of a propagator.
-/

namespace ConstraintLogic

/-- The fault is an overflow of the arithmetic. -/
def Fault.IsOverflow (f : Fault) : Prop := f = .addOverflow ∨ f = .negateOverflow

/-- The reason is an overflow. -/
def Stop.IsOverflow : Stop → Prop
  | .fault f => f.IsOverflow
  | .exhausted => False

/-- An overflow ends the computation. -/
def Halt.IsOverflow : Halt → Prop
  | .stop why => why.IsOverflow
  | .conflict => False

namespace Narrow

variable {α β : Type} {M : (Var → Term) → Prop} {s : Solver} {m : Narrow α} {f : α → Narrow β}

/-- The narrowing ends with `Q`. Unless there is no reading `M` it ends in no
    conflict, of the faults it may only have an overflow, and its allowance is not
    used up. -/
def Ensures (M : (Var → Term) → Prop) (s : Solver) (m : Narrow α) (Q : α → Solver → Prop) : Prop :=
  match m s with
  | .ok a t => Q a t
  | .error .conflict _ => ∀ θ, ¬M θ
  | .error (.stop (.fault f)) _ => f.IsOverflow
  | .error (.stop .exhausted) _ => False

/-- What is ensured stops for an overflow only. -/
theorem Ensures.overflow {Q : α → Solver → Prop} (h : Ensures M s m Q) {why : Stop} {t : Solver}
    (stopped : m s = .error (.stop why) t) : why.IsOverflow := by
  unfold Ensures at h
  rw [stopped] at h
  match why, h with
  | .fault f, overflow => exact overflow

theorem Ensures.mono {Q R : α → Solver → Prop} (h : Ensures M s m Q)
    (weaker : ∀ a t, Q a t → R a t) : Ensures M s m R := by
  unfold Ensures at *
  split
  · rename_i a t eq
    rw [eq] at h
    exact weaker a t h
  · rename_i eq
    rwa [eq] at h
  · rename_i eq
    rwa [eq] at h
  · rename_i eq
    rwa [eq] at h

theorem Ensures.of_models {N : (Var → Term) → Prop} {Q : α → Solver → Prop}
    (h : Ensures N s m Q) (more : ∀ θ, M θ → N θ) : Ensures M s m Q := by
  unfold Ensures at *
  split
  · rename_i eq
    rwa [eq] at h
  · rename_i eq
    rw [eq] at h
    exact fun θ model => h θ (more θ model)
  · rename_i eq
    rwa [eq] at h
  · rename_i eq
    rwa [eq] at h

theorem Ensures.bind {Q : α → Solver → Prop} {R : β → Solver → Prop} (h : Ensures M s m Q)
    (next : ∀ a t, Q a t → Ensures M t (f a) R) : Ensures M s (m >>= f) R := by
  unfold Ensures at h ⊢
  change match EStateM.bind m f s with
    | .ok b t => R b t
    | .error .conflict _ => ∀ θ, ¬M θ
    | .error (.stop (.fault f)) _ => f.IsOverflow
    | .error (.stop .exhausted) _ => False
  unfold EStateM.bind
  split at h
  · rename_i a t eq
    rw [eq]
    exact next a t h
  · rename_i eq
    rw [eq]
    exact h
  · rename_i eq
    rw [eq]
    exact h
  · exact h.elim

theorem Ensures.pure {a : α} {Q : α → Solver → Prop} (h : Q a s) :
    Ensures M s (Pure.pure a) Q := h

/-- A step that is taken on a condition only. -/
theorem Ensures.ite_bind {c : Prop} [Decidable c] {m : Narrow Unit} {f : Unit → Narrow β}
    {Q : Unit → Solver → Prop} {R : β → Solver → Prop}
    (h : Ensures M s (if c then m else Pure.pure ()) Q)
    (next : ∀ a t, Q a t → Ensures M t (f a) R) :
    Ensures M s (if c then m >>= f else f ()) R := by
  split
  · rename_i holds
    rw [if_pos holds] at h
    exact h.bind next
  · rename_i fails
    rw [if_neg fails] at h
    exact next () s h

/-- A step that succeeds with a known result. -/
theorem Ensures.step {a : α} {t : Solver} {R : β → Solver → Prop} (eq : m s = .ok a t)
    (h : Ensures M t (f a) R) : Ensures M s (m >>= f) R :=
  Ensures.bind (Q := fun b u => b = a ∧ u = t) (by simp [Ensures, eq]) (by rintro _ _ ⟨rfl, rfl⟩; exact h)

theorem ensures_conflict {Q : α → Solver → Prop} (h : ∀ θ, ¬M θ) :
    Ensures M s conflict Q := h

theorem ensures_require {b : Bool} {Q : Unit → Solver → Prop} (good : b = true → Q () s)
    (bad : b = false → ∀ θ, ¬M θ) : Ensures M s (require b) Q := by
  cases b with
  | true => exact good rfl
  | false => exact bad rfl

theorem ensures_require_bind {b : Bool} {f : Unit → Narrow β} {R : β → Solver → Prop}
    (bad : b = false → ∀ θ, ¬M θ) (good : b = true → Ensures M s (f ()) R) :
    Ensures M s (require b >>= f) R := by
  cases b with
  | true => exact good rfl
  | false => exact bad rfl

theorem ensures_overflow {f : Fault} {Q : α → Solver → Prop} (h : f.IsOverflow) :
    Ensures M s (throw (.fault f)) Q := h

/-- Where a variable is loaded, asking for its domain changes nothing. -/
theorem ensures_domain {v : Var} {f : Domain → Narrow β} {R : β → Solver → Prop}
    (loaded : ∀ w, s.resolve v = .free w → w ∈ s.domains) (h : Ensures M s (f (s.peek v)) R) :
    Ensures M s (domain v >>= f) R := by
  refine Ensures.step (a := s.peek v) (t := s) ?_ h
  change EStateM.Result.ok (s.domain v).1 (s.domain v).2 = _
  rw [Solver.domain_of_loaded loaded]

theorem ensures_sameVar {v w : Var} {f : Bool → Narrow β} {R : β → Solver → Prop}
    (h : Ensures M s (f (s.sameVar v w)) R) : Ensures M s (sameVar v w >>= f) R :=
  Ensures.step rfl h

end Narrow

namespace Solver

variable {K : Scope} {E : PropId → Prop} {P : Var → Prop} {s t : Solver}

/-! ## Waking subscribers -/

/-- Waking the subscribers of a variable makes them wait, and changes the agenda
    only. -/
theorem excite_spec (s : Solver) (coherent : s.agenda.Coherent) (v : Var) :
    ∃ a : Agenda, s.excite v = { s with agenda := a } ∧ a.Coherent ∧
      a.length ≤ s.agenda.length + (s.subscribersOf v).length ∧
      (∀ id, s.agenda.Waits id → a.Waits id) ∧
      ∀ id ∈ s.subscribersOf v, ∀ p, s.prop? id = some p → a.Waits id := by
  have all (ids : List PropId) : ∀ s : Solver, s.agenda.Coherent →
      ∃ a : Agenda, ids.foldl enqueue s = { s with agenda := a } ∧ a.Coherent ∧
        a.length ≤ s.agenda.length + ids.length ∧ (∀ id, s.agenda.Waits id → a.Waits id) ∧
        ∀ id ∈ ids, ∀ p, s.prop? id = some p → a.Waits id := by
    induction ids with
    | nil => exact fun s h => ⟨s.agenda, rfl, h, Nat.le_refl _, fun _ h => h, by simp⟩
    | cons id ids ih =>
      intro s h
      rw [List.foldl_cons]
      cases found : s.prop? id with
      | none =>
        obtain ⟨a, eq, coherent, length, kept, woken⟩ := ih s h
        have same : s.enqueue id = s := by simp [enqueue, found]
        refine ⟨a, by rw [same, eq], coherent, by rw [List.length_cons]; omega, kept, ?_⟩
        intro j mem p found'
        rcases List.mem_cons.mp mem with rfl | mem
        · rw [found] at found'
          cases found'
        · exact woken j mem p found'
      | some p =>
        have push : s.enqueue id = { s with agenda := s.agenda.push id p.val.priority } := by
          simp [enqueue, found]
        obtain ⟨a, eq, coherent, length, kept, woken⟩ :=
          ih { s with agenda := s.agenda.push id p.val.priority } (h.push id p.val.priority)
        have := s.agenda.length_push_le id p.val.priority
        refine ⟨a, by rw [push, eq], coherent, ?_, fun j waits => ?_, fun j mem q found' => ?_⟩
        · dsimp only at length
          rw [List.length_cons]
          omega
        · exact kept j (Agenda.waits_push.mpr (.inr waits))
        · rcases List.mem_cons.mp mem with rfl | mem
          · exact kept j (Agenda.waits_push.mpr (.inl rfl))
          · exact woken j mem q found'
  exact all (s.subscribersOf v) s coherent

/-- No more propagators subscribe to a variable than there are. -/
theorem Sound.length_subscribersOf_le (h : s.Sound K E P) (v : Var) :
    (s.subscribersOf v).length ≤ s.props.size := by
  have inj : Function.Injective PropId.index := fun ⟨_⟩ ⟨_⟩ same => congrArg PropId.mk same
  have few : ((s.subscribersOf v).map PropId.index).length ≤ (List.range s.props.size).length := by
    refine ((h.distinct v).map inj).length_le_of_subset fun i mem => ?_
    obtain ⟨id, in_subs, rfl⟩ := List.mem_map.mp mem
    obtain ⟨p, found, _⟩ := h.subscribed v id in_subs
    rw [List.mem_range]
    exact (Array.getElem?_eq_some_iff.mp found).1
  rwa [List.length_map, List.length_range] at few

/-! ## Potential -/

/-- What is left to do at most: what waits, and what every further change of the
    domains of `L` can wake. -/
def potential (L : List Var) (s : Solver) : Nat :=
  s.agenda.length + s.props.size * (L.map fun w => (s.current w).room).sum

/-! ## Reducing a domain -/

/-- The second solver has narrowed what `v` stands for to `d`, and nothing else. -/
structure Reduced (v : Var) (d : Domain) (s t : Solver) : Prop where
  resolve : t.resolve = s.resolve
  subst : t.subst = s.subst
  props : t.props = s.props
  subscribers : t.subscribers = s.subscribers
  domains : ∀ w, w ∈ t.domains ↔ w ∈ s.domains
  current : ∀ w n, n ∈ t.current w ↔ n ∈ s.current w ∧ (s.resolve v = .free w → n ∈ d)
  left : ∀ n ∈ t.peek v, n ∈ d

theorem Reduced.mem_peek {v : Var} {d : Domain} (h : Reduced v d s t) (u : Var) (n : Int) :
    n ∈ t.peek u ↔ n ∈ s.peek u ∧ (s.sameVar u v = true → n ∈ d) := by
  have same (w : Var) (free : s.resolve u = .free w) :
      s.sameVar u v = true ↔ s.resolve v = .free w := by
    rw [sameVar_iff]
    constructor
    · rintro ⟨x, free_u, free_v⟩
      rw [free] at free_u
      cases free_u
      exact free_v
    · exact fun free_v => ⟨w, free, free_v⟩
  unfold peek
  rw [h.resolve]
  cases found : s.resolve u with
  | free w => rw [same w found, h.current]
  | value m =>
    have : s.sameVar u v = false := by simp [sameVar, found]
    simp [this]
  | other => simp

/-- Reducing one variable leaves the others as they are. -/
theorem Reduced.mem_peek_of_apart {v u : Var} {d : Domain} (h : Reduced v d s t)
    (apart : s.sameVar u v = false) {n : Int} : n ∈ t.peek u ↔ n ∈ s.peek u := by
  rw [h.mem_peek, apart]
  simp

/-- The second solver has the same bindings and no larger domains, and has loaded no
    fewer of them. -/
structure Shrinks (s t : Solver) : Prop where
  bindings : t.subst.bindings = s.subst.bindings
  mem_peek : ∀ u n, n ∈ t.peek u → n ∈ s.peek u
  loaded : ∀ w, w ∈ s.domains → w ∈ t.domains

theorem Shrinks.refl (s : Solver) : s.Shrinks s := ⟨rfl, fun _ _ mem => mem, fun _ mem => mem⟩

theorem Shrinks.trans {u : Solver} (h : s.Shrinks t) (h' : t.Shrinks u) : s.Shrinks u :=
  ⟨h'.bindings.trans h.bindings, fun v n mem => h.mem_peek v n (h'.mem_peek v n mem),
    fun w mem => h'.loaded w (h.loaded w mem)⟩

/-- Loading leaves the domains as they are. -/
theorem Grows.shrinks (h : s.Grows t) : s.Shrinks t :=
  ⟨congrArg Subst.bindings h.subst, fun u _ mem => h.peek u ▸ mem, fun _ => h.mem_domains⟩

theorem Shrinks.resolve (h : s.Shrinks t) : t.resolve = s.resolve :=
  resolve_congr (Subst.walk_congr h.bindings)

theorem Shrinks.fits (h : s.Shrinks t) {vs : List Var} {σ : Assignment} (fits : t.Fits vs σ) :
    s.Fits vs σ := fits.of_peek h.resolve h.mem_peek

theorem Reduced.shrinks {v : Var} {d : Domain} (h : Reduced v d s t) : s.Shrinks t :=
  ⟨congrArg Subst.bindings h.subst, fun u n mem => ((h.mem_peek u n).mp mem).1,
    fun w => (h.domains w).mpr⟩

theorem Reduced.fits {v : Var} {d : Domain} (h : Reduced v d s t) {vs : List Var} {σ : Assignment}
    (fits : t.Fits vs σ) : s.Fits vs σ := h.shrinks.fits fits

/-- The domain `d` holds of what an admitted reading gives to a variable that it does
    not exclude. -/
theorem allows_intersect {a d : Domain} (ha : a.Canonical) (hd : d.Canonical)
    (finite : a.intersect d ≠ .unbounded) {t : Term} :
    (a.intersect d).Allows t ↔ a.Allows t ∧ d.Holds t := by
  unfold Domain.Allows
  rw [Domain.holds_iff, Domain.holds_iff, Domain.holds_iff, Domain.mem_intersect ha hd]
  constructor
  · rintro (full | ⟨value, mem, mem'⟩)
    · exact absurd full finite
    · exact ⟨.inr ⟨value, mem⟩, value, mem'⟩
  · rintro ⟨full | ⟨value, mem⟩, value', mem'⟩
    · exact .inr ⟨value', by rw [full]; exact Domain.mem_unbounded _, mem'⟩
    · exact .inr ⟨value, mem, mem'⟩

/-- The solver with another domain for a loaded variable. -/
def narrowTo (s : Solver) (w : Var) (d : Domain) : Solver :=
  { s with domains := s.domains.insert w d }

theorem getElem?_narrowTo (s : Solver) (w u : Var) (d : Domain) :
    (s.narrowTo w d).domains[u]? = if w = u then some d else s.domains[u]? := by
  simp [narrowTo, Std.ExtTreeMap.getElem?_insert]

theorem current_narrowTo (s : Solver) (w u : Var) (d : Domain) :
    (s.narrowTo w d).current u = if w = u then d else s.current u := by
  rw [current, getElem?_narrowTo]
  split
  · rfl
  · rfl

/-- Changing the domain of a variable to a smaller one and waking its subscribers
    keeps the state in order. -/
theorem Sound.narrowTo {w : Var} {d : Domain} (h : s.Sound K E P) (loaded : w ∈ s.domains)
    (canonical : d.Canonical) (nonempty : d.isEmpty = false)
    (sub : ∀ n, n ∈ d → n ∈ s.current w) : ((s.narrowTo w d).excite w).Sound K E P := by
  obtain ⟨a, eq, coherent, _, kept, woken⟩ := (s.narrowTo w d).excite_spec h.agenda w
  obtain ⟨e, at_w⟩ := mem_domains_iff.mp loaded
  rw [eq]
  have present (u : Var) (mem : u ∈ s.domains) : u ∈ (s.narrowTo w d).domains := by
    simp [Solver.narrowTo, mem]
  have smaller (u : Var) (n : Int) (mem : n ∈ (s.narrowTo w d).current u) : n ∈ s.current u := by
    rw [current_narrowTo] at mem
    split at mem
    · rename_i same
      exact same ▸ sub n mem
    · exact mem
  refine { h with loaded := ?_, closed := ?_, agenda := coherent, live := ?_ }
  · intro u c found
    change (s.narrowTo w d).domains[u]? = some c at found
    rw [getElem?_narrowTo] at found
    split at found
    · rename_i same
      cases found
      exact ⟨same ▸ (h.loaded w e at_w).1, canonical, nonempty⟩
    · exact h.loaded u c found
  · exact fun p work v mem u free => (h.closed p work v mem u free).imp_left (present u)
  · intro id p found not_exempt
    rcases h.live id p found not_exempt with waits | ⟨u, ⟨c, at_u, no_value⟩, mem⟩ | entails
    · exact .inl (kept id waits)
    · by_cases same : w = u
      · subst same
        exact .inl (woken id mem p found)
      · refine .inr (.inl ⟨u, ⟨c, ?_, no_value⟩, mem⟩)
        change (s.narrowTo w d).domains[u]? = some c
        rw [getElem?_narrowTo, if_neg same, at_u]
    · refine .inr (.inr fun σ fits => entails σ (fits.of_peek rfl fun v n mem => ?_))
      exact mem_peek_of_current (s := s) (t := s.narrowTo w d) rfl smaller mem

theorem admits_narrowTo {w : Var} {d : Domain} (unbound : s.subst.get? w = none)
    (loaded : w ∈ s.domains) (ha : (s.current w).Canonical) (hd : d.Canonical)
    (finite : (s.current w).intersect d ≠ .unbounded) (coherent : s.agenda.Coherent)
    {θ : Var → Term} :
    ((s.narrowTo w ((s.current w).intersect d)).excite w).Admits K θ ↔
      s.Admits K θ ∧ d.Holds (θ w) := by
  obtain ⟨a, eq, _⟩ := (s.narrowTo w ((s.current w).intersect d)).excite_spec coherent w
  rw [eq]
  have out (u : Var) : u ∉ (s.narrowTo w ((s.current w).intersect d)).domains ↔ u ∉ s.domains := by
    by_cases same : w = u
    · simp [Solver.narrowTo, ← same, loaded]
    · simp [Solver.narrowTo, same]
  constructor
  · intro h
    have domain (u : Var) (free : s.subst.get? u = none) :
        ((s.narrowTo w ((s.current w).intersect d)).current u).Allows (θ u) := h.domain u free
    simp only [current_narrowTo] at domain
    have at_w := domain w unbound
    rw [if_pos rfl, allows_intersect ha hd finite] at at_w
    refine ⟨⟨h.reading, h.binding, fun u free => ?_, h.props, fun u absent => ?_⟩, at_w.2⟩
    · have at_u := domain u free
      split at at_u
      · rename_i same
        exact same ▸ at_w.1
      · exact at_u
    · exact h.stored u ((out u).mpr absent)
  · rintro ⟨h, holds⟩
    refine ⟨h.reading, h.binding, fun u free => ?_, h.props, fun u absent => ?_⟩
    · change ((s.narrowTo w ((s.current w).intersect d)).current u).Allows (θ u)
      rw [current_narrowTo]
      split
      · rename_i same
        subst same
        exact (allows_intersect ha hd finite).mpr ⟨h.domain w free, holds⟩
      · exact h.domain u free
    · exact h.stored u ((out u).mp absent)

/-- A change of a domain pays for the propagators that it wakes. -/
theorem Sound.potential_narrowTo {w : Var} {d : Domain} {L : List Var} (h : s.Sound K E P)
    (mem : w ∈ L) (canonical : d.Canonical) (sub : ∀ n, n ∈ d → n ∈ s.current w)
    (differ : d ≠ s.current w) : ((s.narrowTo w d).excite w).potential L ≤ s.potential L := by
  obtain ⟨a, eq, _, length, _⟩ := (s.narrowTo w d).excite_spec h.agenda w
  have few : ((s.narrowTo w d).subscribersOf w).length ≤ s.props.size := h.length_subscribersOf_le w
  have ha := (h.canonical_current w).1
  have less := sum_map_add_le (f := fun u => (s.current u).room)
    (g := fun u => ((s.narrowTo w d).current u).room) (c := 1) L (fun u => by
      rw [current_narrowTo]
      split
      · rename_i same
        exact same ▸ Domain.room_le_of_subset canonical ha sub
      · exact Nat.le_refl _) mem (by
      rw [current_narrowTo, if_pos rfl]
      exact Domain.room_lt canonical ha sub differ)
  rw [eq]
  change a.length + s.props.size * (L.map fun u => ((s.narrowTo w d).current u).room).sum ≤
    s.agenda.length + s.props.size * (L.map fun u => (s.current u).room).sum
  have pay := Nat.mul_le_mul_left s.props.size less
  rw [Nat.mul_add, Nat.mul_one] at pay
  change a.length ≤ s.agenda.length + _ at length
  omega

/-- The second solver is in order and describes those readings of the first one that
    give `v` a value of `d`. -/
structure Narrows (K : Scope) (E : PropId → Prop) (P : Var → Prop) (v : Var) (d : Domain)
    (s t : Solver) : Prop where
  sound : t.Sound K E P
  admits : ∀ θ, t.Admits K θ ↔ s.Admits K θ ∧ d.Holds (θ v)
  reduced : Reduced v d s t
  cost : ∀ L, (∀ w, s.resolve v = .free w → w ∈ L) → t.potential L ≤ s.potential L

/-- Where the domain holds anyway, nothing needs to change. -/
theorem Sound.narrows_self (h : s.Sound K E P) {v : Var} {d : Domain}
    (trivial : ∀ θ, s.Admits K θ → d.Holds (θ v)) (left : ∀ n ∈ s.peek v, n ∈ d) :
    Narrows K E P v d s s where
  sound := h
  admits θ := ⟨fun admits => ⟨admits, trivial θ admits⟩, And.left⟩
  reduced := ⟨rfl, rfl, rfl, rfl, fun _ => Iff.rfl, fun _ n =>
    ⟨fun mem => ⟨mem, fun free => left n (peek_of_free free ▸ mem)⟩, And.left⟩, left⟩
  cost _ _ := Nat.le_refl _

/-- A smaller domain that is not empty becomes the one of the variable. -/
theorem Sound.narrows_narrowTo (h : s.Sound K E P) {v w : Var} {d : Domain}
    (canonical : d.Canonical) (found : s.resolve v = .free w) (present : w ∈ s.domains)
    (some_left : ((s.current w).intersect d).isEmpty = false)
    (differ : (s.current w).intersect d ≠ s.current w) :
    Narrows K E P v d s ((s.narrowTo w ((s.current w).intersect d)).excite w) := by
  have unbound := h.unbound_of_free found
  have ha := (h.canonical_current w).1
  have mem (n : Int) := Domain.mem_intersect (n := n) ha canonical
  have next := Domain.canonical_intersect ha canonical
  have sub (n : Int) (in_next : n ∈ (s.current w).intersect d) := ((mem n).mp in_next).1
  have finite : (s.current w).intersect d ≠ .unbounded := by
    intro full_next
    refine differ (next.ext ha fun n => ⟨sub n, fun _ => ?_⟩)
    rw [full_next]
    exact Domain.mem_unbounded n
  have changed (u : Var) (n : Int) : n ∈ (s.narrowTo w ((s.current w).intersect d)).current u ↔
      n ∈ s.current u ∧ (s.resolve v = .free u → n ∈ d) := by
    rw [current_narrowTo, found, Resolved.free.injEq]
    split
    · rename_i same
      rw [mem, same]
      simp
    · rename_i other
      simp [other]
  have present_iff (u : Var) :
      u ∈ (s.narrowTo w ((s.current w).intersect d)).domains ↔ u ∈ s.domains := by
    by_cases same : w = u
    · simp [Solver.narrowTo, ← same, present]
    · simp [Solver.narrowTo, same]
  refine ⟨h.narrowTo present next some_left sub, fun θ => ?_, ?_, fun L covered => ?_⟩
  · rw [admits_narrowTo unbound present ha canonical finite h.agenda]
    exact and_congr_right fun admits => by rw [reading_of_free admits.binding found]
  · obtain ⟨a, eq, _⟩ := (s.narrowTo w ((s.current w).intersect d)).excite_spec h.agenda w
    rw [eq]
    refine ⟨rfl, rfl, rfl, rfl, present_iff, changed, fun n in_v => ?_⟩
    have in_w : n ∈ (s.narrowTo w ((s.current w).intersect d)).current w :=
      peek_of_free (s := { s.narrowTo w ((s.current w).intersect d) with agenda := a }) found ▸ in_v
    exact ((changed w n).mp in_w).2 found
  · exact h.potential_narrowTo (covered w found) next sub differ

/-- Reducing the domain of a loaded variable adds just that the variable takes a
    value of the new domain. -/
theorem Sound.reduce_loaded (h : s.Sound K E P) {v : Var} {d : Domain} (canonical : d.Canonical)
    (loaded : ∀ w, s.resolve v = .free w → w ∈ s.domains)
    (full : d = .unbounded → ∀ θ, s.Admits K θ → (θ v).IsValue) :
    Narrow.Ensures (fun θ => s.Admits K θ ∧ d.Holds (θ v)) s (Narrow.reduce v d) fun _ t =>
      Narrows K E P v d s t := by
  unfold Narrow.reduce
  refine Narrow.Ensures.step (a := s.resolve v) (t := s) rfl ?_
  cases found : s.resolve v with
  | value n =>
    have value := h.isValue_of_value found
    refine Narrow.ensures_require (fun mem => ?_) fun out θ ⟨admits, holds⟩ => ?_
    · refine h.narrows_self (fun θ admits => ?_) fun m in_v => ?_
      · rw [reading_of_value admits.binding found]
        exact ⟨n, rfl, value, mem⟩
      · rw [peek, found] at in_v
        rw [Domain.mem_singleton.mp in_v]
        exact mem
    · rw [reading_of_value admits.binding found, Domain.holds_iff] at holds
      have : d.contains n = true := holds.2
      rw [out] at this
      cases this
  | other =>
    refine Narrow.ensures_conflict fun θ ⟨admits, holds⟩ => ?_
    exact not_isValue_of_other admits.binding found (Domain.holds_iff.mp holds).1
  | free w =>
    have unbound := h.unbound_of_free found
    have free := resolve_of_unbound unbound
    have present := loaded w found
    refine Narrow.ensures_domain (fun u same => by rw [free] at same; cases same; exact present) ?_
    rw [peek_of_free free]
    have ha := (h.canonical_current w).1
    have mem (n : Int) := Domain.mem_intersect (n := n) ha canonical
    have next := Domain.canonical_intersect ha canonical
    dsimp only
    split
    · rename_i none_left
      refine Narrow.ensures_conflict fun θ ⟨admits, holds⟩ => ?_
      rw [reading_of_free admits.binding found, Domain.holds_iff] at holds
      have in_current : (θ w).number ∈ s.current w := by
        have := admits.mem_peek h.base.acyclic holds.1
        rwa [peek_of_free free] at this
      have both := (mem _).mpr ⟨in_current, holds.2⟩
      rw [Domain.isEmpty_iff.mp none_left] at both
      exact Domain.not_mem_empty _ both
    · rename_i some_left
      split
      · rename_i same
        have within : ∀ n ∈ s.current w, n ∈ d := fun n in_current =>
          ((mem n).mp (by rw [same]; exact in_current)).2
        refine h.narrows_self (fun θ admits => ?_) (by rw [peek_of_free found]; exact within)
        rw [reading_of_free admits.binding found]
        rcases admits.domain w unbound with full_w | holds
        · have full_d : d = .unbounded := by
            rw [full_w] at same
            cases d <;> simp_all [Domain.intersect]
          have value := full full_d θ admits
          rw [reading_of_free admits.binding found] at value
          exact Domain.holds_iff.mpr ⟨value, by rw [full_d]; exact Domain.mem_unbounded _⟩
        · rw [Domain.holds_iff] at holds ⊢
          exact ⟨holds.1, within _ holds.2⟩
      · rename_i differ
        exact h.narrows_narrowTo canonical found present (by simpa using some_left) differ

end Solver

/-! ## Runs -/

/-- What a run keeps to: the readings that count and the propagators known outside,
    the variables whose domains change, a bound on what is left to do, the readings
    that the solver describes, and the state whose domains shrink. -/
structure Contract where
  /-- The readings that count and the propagators known outside. -/
  scope : Scope
  /-- The variables of the propagators. -/
  vars : List Var
  /-- A bound on the potential. -/
  budget : Nat
  /-- The readings that the solver describes. -/
  models : (Var → Term) → Prop
  /-- The state that the run started from. -/
  origin : Solver

namespace Solver

/-- `v` stands for the same as a variable of the relation. -/
def Names (s : Solver) (r : Relation) (v : Var) : Prop := ∃ x ∈ r.vars, s.resolve x = s.resolve v

/-- No propagator is run, and the contract is kept. -/
structure Rested (C : Contract) (s : Solver) : Prop where
  sound : s.Sound C.scope (fun _ => False) fun _ => False
  admits : ∀ θ, s.Admits C.scope θ ↔ C.models θ
  covered : ∀ p, s.AtWork p → ∀ v ∈ p.val.vars, ∀ w, s.resolve v = .free w → w ∈ C.vars
  cost : s.potential C.vars ≤ C.budget
  shrinks : C.origin.Shrinks s

/-- The propagator of that number is run for the relation `r`, has no subscriptions,
    and the contract is kept. -/
structure Running (C : Contract) (id : PropId) (r : Relation) (s : Solver) : Prop where
  sound : s.Sound C.scope (fun j => j = id) fun _ => False
  admits : ∀ θ, s.Admits C.scope θ ↔ C.models θ
  relation : ∃ n, s.prop? id = some ⟨n, r⟩
  silent : ∀ w, id ∉ s.subscribersOf w
  covered : ∀ p, s.AtWork p → ∀ v ∈ p.val.vars, ∀ w, s.resolve v = .free w → w ∈ C.vars
  cost : s.potential C.vars ≤ C.budget
  shrinks : C.origin.Shrinks s

variable {C : Contract} {id : PropId} {r : Relation} {s t : Solver}

theorem names_of_mem {v : Var} (mem : v ∈ r.vars) : s.Names r v := ⟨v, mem, rfl⟩

theorem names_pair {v w : Var} (mem : v ∈ r.vars) (mem' : w ∈ r.vars) :
    ∀ u ∈ [v, w], s.Names r u := by
  intro u in_pair
  rcases List.mem_pair.mp in_pair with rfl | rfl
  · exact names_of_mem mem
  · exact names_of_mem mem'

namespace Running

theorem work (h : s.Running C id r) : ∃ n, s.AtWork ⟨n, r⟩ := by
  obtain ⟨n, found⟩ := h.relation
  exact ⟨n, id, found⟩

theorem proper (h : s.Running C id r) : r.Proper := by
  obtain ⟨n, work⟩ := h.work
  exact h.sound.base.proper ⟨n, r⟩ (.inl (.inr work))

theorem holdsOf (h : s.Running C id r) {θ : Var → Term} (model : C.models θ) : r.HoldsOf θ := by
  obtain ⟨n, work⟩ := h.work
  exact ((h.admits θ).mpr model).props ⟨n, r⟩ work

theorem holds (h : s.Running C id r) {θ : Var → Term} (model : C.models θ) :
    r.Holds (integers θ) := (Relation.holdsOf_iff.mp (h.holdsOf model)).2

theorem value (h : s.Running C id r) {v : Var} (names : s.Names r v) {θ : Var → Term}
    (model : C.models θ) : (θ v).IsValue := by
  obtain ⟨x, mem, same⟩ := names
  have value := (Relation.holdsOf_iff.mp (h.holdsOf model)).1 x mem
  rw [← reading_of_alike ((h.admits θ).mpr model).binding value same]
  exact value

theorem isValue_integers (h : s.Running C id r) {v : Var} (names : s.Names r v)
    {θ : Var → Term} (model : C.models θ) : isValue (integers θ v) = true :=
  (h.value names model).isValue_number

theorem alike (h : s.Running C id r) {v w : Var} (names : s.Names r v)
    {θ : Var → Term} (model : C.models θ) (same : s.resolve v = s.resolve w) :
    integers θ v = integers θ w :=
  congrArg Term.number
    (reading_of_alike ((h.admits θ).mpr model).binding (h.value names model) same)

theorem fits (h : s.Running C id r) {vs : List Var} (names : ∀ v ∈ vs, s.Names r v)
    {θ : Var → Term} (model : C.models θ) : s.Fits vs (integers θ) :=
  ((h.admits θ).mpr model).fits h.sound.base.acyclic fun v mem => h.value (names v mem) model

theorem mem_peek (h : s.Running C id r) {v : Var} (names : s.Names r v) {θ : Var → Term}
    (model : C.models θ) : integers θ v ∈ s.peek v := by
  have fits : s.Fits [v] (integers θ) := h.fits (by simpa using names) model
  exact fits.mem v (by simp)

theorem loaded (h : s.Running C id r) {v w : Var} (names : s.Names r v)
    (free : s.resolve v = .free w) : w ∈ s.domains := by
  obtain ⟨x, mem, same⟩ := names
  obtain ⟨n, work⟩ := h.work
  exact (h.sound.closed _ work x mem w (same.trans free)).resolve_right fun later => later

theorem mem_vars (h : s.Running C id r) {v w : Var} (names : s.Names r v)
    (free : s.resolve v = .free w) : w ∈ C.vars := by
  obtain ⟨x, mem, same⟩ := names
  obtain ⟨n, work⟩ := h.work
  exact h.covered _ work x mem w (same.trans free)

/-- The value of a variable whose domain has just one. -/
theorem eq_of_solution (h : s.Running C id r) {v : Var} {n : Int}
    (only : (s.peek v).solution = some n) : isValue n = true ∧ ∀ m ∈ s.peek v, m = n := by
  have canonical := h.sound.canonical_peek v
  have finite : s.peek v ≠ .unbounded := by
    intro full
    rw [full] at only
    cases only
  exact ⟨canonical.isValue_of_mem finite (canonical.mem_of_solution only),
    fun m mem => (canonical.solution_eq_some_iff.mp only m).mp mem⟩

/-- A relation that the domains entail may be left. -/
theorem rest (h : s.Running C id r) (entailed : s.Entails r) : s.Rested C where
  sound := by
    have exempt : s.Sound C.scope (fun j => j = id ∨ False) fun _ => False :=
      h.sound.mono (fun _ => .inl) fun _ later => later
    refine exempt.settle fun p found => .inr (.inr ?_)
    obtain ⟨n, found'⟩ := h.relation
    rw [found'] at found
    cases found
    exact entailed
  admits := h.admits
  covered := h.covered
  cost := h.cost
  shrinks := h.shrinks

theorem domain {α : Type} {f : Domain → Narrow α} {Q : α → Solver → Prop} (h : s.Running C id r)
    {v : Var} (names : s.Names r v) (next : Narrow.Ensures C.models s (f (s.peek v)) Q) :
    Narrow.Ensures C.models s (Narrow.domain v >>= f) Q :=
  Narrow.ensures_domain (fun _ free => h.loaded names free) next

/-- A step that every described reading survives reduces a domain. -/
theorem reduce (h : s.Running C id r) {v : Var} {d : Domain} (names : s.Names r v)
    (canonical : d.Canonical) (survives : ∀ θ, C.models θ → integers θ v ∈ d) :
    Narrow.Ensures C.models s (Narrow.reduce v d) fun _ t =>
      t.Running C id r ∧ Reduced v d s t := by
  have holds (θ : Var → Term) (model : C.models θ) : d.Holds (θ v) :=
    Domain.holds_iff.mpr ⟨h.value names model, survives θ model⟩
  have reduced := h.sound.reduce_loaded (v := v) canonical (fun _ free => h.loaded names free)
    fun _ θ admits => h.value names ((h.admits θ).mp admits)
  refine (reduced.of_models fun θ model => ⟨(h.admits θ).mpr model, holds θ model⟩).mono ?_
  intro _ t narrows
  have props : t.prop? = s.prop? := by
    funext j
    rw [prop?, prop?, narrows.reduced.props]
  have subscribers : t.subscribersOf = s.subscribersOf := by
    funext w
    rw [subscribersOf, subscribersOf, narrows.reduced.subscribers]
  refine ⟨⟨narrows.sound, fun θ => ?_, ?_, ?_, ?_, ?_, h.shrinks.trans narrows.reduced.shrinks⟩,
    narrows.reduced⟩
  · rw [narrows.admits, h.admits]
    exact ⟨And.left, fun model => ⟨model, holds θ model⟩⟩
  · rw [props]
    exact h.relation
  · rw [subscribers]
    exact h.silent
  · unfold AtWork
    rw [props, narrows.reduced.resolve]
    exact h.covered
  · exact Nat.le_trans (narrows.cost C.vars fun _ free => h.mem_vars names free) h.cost

end Running

/-! ## Subscribing again -/

theorem resubscribe_cons (s : Solver) (id : PropId) (v : Var) (vs : List Var)
    (loaded : ∀ w, s.resolve v = .free w → w ∈ s.domains) :
    s.resubscribe id (v :: vs) =
      ((match s.resolve v with
        | .free w => if (s.current w).hasSolution then s else s.addSubscriber id w
        | _ => s) : Solver).resubscribe id vs := by
  unfold resubscribe
  rw [List.foldl_cons, domain_of_loaded loaded]
  congr 1
  cases free : s.resolve v with
  | free w =>
    have same : s.load w = s := by
      rw [load, if_pos (Std.ExtTreeMap.contains_iff_mem.mpr (loaded w free))]
    simp only [peek_of_free free, subscribe, free, same]
  | value n => simp [subscribe, free]
  | other => simp [subscribe, free]

/-- A propagator subscribes to those of the variables that have no value. -/
theorem Sound.resubscribe {K : Scope} {E : PropId → Prop} {P : Var → Prop} {p : Propagator}
    (vs : List Var) : ∀ s : Solver, s.Sound K E P → s.prop? id = some p →
      (∀ v ∈ vs, s.Names p.val v ∧ ∀ w, s.resolve v = .free w → w ∈ s.domains) →
      (s.resubscribe id vs).Sound K E P ∧ s.Grows (s.resubscribe id vs) ∧
        (∃ m, s.resubscribe id vs = { s with subscribers := m }) ∧
        ∀ v ∈ vs, ∀ w, s.resolve v = .free w → (s.current w).solution = none →
          id ∈ (s.resubscribe id vs).subscribersOf w := by
  induction vs with
  | nil => exact fun s h _ _ => ⟨h, .refl s, ⟨s.subscribers, rfl⟩, by simp⟩
  | cons v vs ih =>
    intro s h found all
    obtain ⟨⟨x, mem, same⟩, loaded⟩ := all v (by simp)
    have rest (u : Var) (mem : u ∈ vs) := all u (by simp [mem])
    rw [resubscribe_cons s id v vs loaded]
    have skip (covered : ∀ w, s.resolve v = .free w → (s.current w).solution ≠ none) :
        (s.resubscribe id vs).Sound K E P ∧ s.Grows (s.resubscribe id vs) ∧
          (∃ m, s.resubscribe id vs = { s with subscribers := m }) ∧
          ∀ u ∈ v :: vs, ∀ w, s.resolve u = .free w → (s.current w).solution = none →
            id ∈ (s.resubscribe id vs).subscribersOf w := by
      obtain ⟨sound, grows, eq, subscribed⟩ := ih s h found rest
      refine ⟨sound, grows, eq, fun u in_list w free no_value => ?_⟩
      rcases List.mem_cons.mp in_list with rfl | in_list
      · exact absurd no_value (covered w free)
      · exact subscribed u in_list w free no_value
    cases free : s.resolve v with
    | free w =>
      dsimp only
      split
      · rename_i solved
        refine skip fun u free' no_value => ?_
        rw [free] at free'
        cases free'
        simp [Domain.hasSolution, no_value] at solved
      · have first := s.grows_addSubscriber id w
        obtain ⟨m, eq⟩ := s.addSubscriber_eq id w
        have rest' (u : Var) (mem : u ∈ vs) : (s.addSubscriber id w).Names p.val u ∧
            ∀ x, (s.addSubscriber id w).resolve u = .free x → x ∈ (s.addSubscriber id w).domains := by
          unfold Names
          rw [first.resolve, eq]
          exact rest u mem
        obtain ⟨sound, grows, ⟨m', eq'⟩, subscribed⟩ :=
          ih _ (h.addSubscriber found mem (same.trans free)) (first.props id p found) rest'
        refine ⟨sound, first.trans grows, ⟨m', by rw [eq', eq]⟩, fun u in_list y free_u no_value => ?_⟩
        rcases List.mem_cons.mp in_list with rfl | in_list
        · rw [free] at free_u
          cases free_u
          exact grows.subscribers _ _ (mem_subscribersOf_addSubscriber.mpr (.inr ⟨rfl, rfl⟩))
        · exact subscribed u in_list y (first.resolve ▸ free_u) ((first.current y).symm ▸ no_value)
    | value n => exact skip fun w free' => by rw [free] at free'; cases free'
    | other => exact skip fun w free' => by rw [free] at free'; cases free'

/-- A run ends with its subscriptions. If all of the variables have their values, the
    relation has to be entailed. -/
theorem Running.resubscribe (h : s.Running C id r) {vs : List Var} (names : ∀ v ∈ vs, s.Names r v)
    (ground : (∀ v ∈ vs, ∃ n, ∀ m ∈ s.peek v, m = n) → s.Entails r) :
    Narrow.Ensures C.models s (Narrow.resubscribe id vs) fun _ t => t.Rested C := by
  obtain ⟨n, found⟩ := h.relation
  obtain ⟨sound, grows, ⟨m, eq⟩, subscribed⟩ := h.sound.resubscribe vs s found fun v mem =>
    ⟨names v mem, fun w free => h.loaded (names v mem) free⟩
  change (s.resubscribe id vs).Rested C
  have live : (s.resubscribe id vs).Live id r := by
    by_cases open_ : ∃ v ∈ vs, ∃ w, s.resolve v = .free w ∧ (s.current w).solution = none
    · obtain ⟨v, mem, w, free, no_value⟩ := open_
      obtain ⟨d, at_w⟩ := mem_domains_iff.mp (h.loaded (names v mem) free)
      rw [current_of_loaded at_w] at no_value
      refine .inr (.inl ⟨w, ⟨d, grows.domains w d at_w, no_value⟩, ?_⟩)
      exact subscribed v mem w free (current_of_loaded at_w ▸ no_value)
    · refine .inr (.inr fun σ fits => ground (fun v mem => ?_) σ (grows.fits fits))
      have canonical := h.sound.canonical_peek v
      cases found_v : s.resolve v with
      | free w =>
        rw [peek_of_free found_v] at canonical ⊢
        cases only : (s.current w).solution with
        | none => exact absurd ⟨v, mem, w, found_v, only⟩ open_
        | some k => exact ⟨k, fun m in_w => (canonical.solution_eq_some_iff.mp only m).mp in_w⟩
      | value k => exact ⟨k, fun m in_v => by simpa [peek, found_v] using in_v⟩
      | other => exact ⟨0, fun m in_v => by simp [peek, found_v] at in_v⟩
  have settled : (s.resubscribe id vs).Sound C.scope (fun _ => False) fun _ => False := by
    refine Sound.settle (sound.mono (fun _ => .inl) fun _ later => later) fun p found' => ?_
    rw [grows.props id _ found] at found'
    cases found'
    exact live
  rw [eq] at settled ⊢
  refine ⟨settled, fun θ => ?_, h.covered, h.cost, ⟨h.shrinks.bindings, h.shrinks.mem_peek, h.shrinks.loaded⟩⟩
  rw [← h.admits]
  exact admits_congr (s := s) (t := { s with subscribers := m }) rfl rfl rfl

/-! ## Replacing -/

/-- The solver with `p` in the place of `old` under the number `id`. -/
def exchange (s : Solver) (id : PropId) (old : Nat) (p : Propagator) : Solver :=
  { s with
    subst := { s.subst with supply := s.subst.supply + 1 }
    interned := (s.interned.erase old).insert p.stamp id
    props := s.props.setIfInBounds id.index p }

theorem prop?_exchange {old : Nat} {p q : Propagator} (found : s.prop? id = some q) (j : PropId) :
    (s.exchange id old p).prop? j = if j = id then some p else s.prop? j := by
  have bound := (Array.getElem?_eq_some_iff.mp found).1
  simp only [prop?, exchange, Array.getElem?_setIfInBounds]
  by_cases same : j = id
  · simp [same, bound]
  · have differ : id.index ≠ j.index := fun eq => same (by cases j; cases id; simp_all)
    simp [same, differ]

theorem resolve_exchange (s : Solver) (id : PropId) (old : Nat) (p : Propagator) :
    (s.exchange id old p).resolve = s.resolve := resolve_congr (Subst.walk_congr rfl)

theorem peek_exchange (s : Solver) (id : PropId) (old : Nat) (p : Propagator) :
    (s.exchange id old p).peek = s.peek := by
  funext v
  unfold peek
  rw [resolve_exchange]
  rfl

theorem fits_exchange {old : Nat} {p : Propagator} {vs : List Var} {σ : Assignment} :
    (s.exchange id old p).Fits vs σ ↔ s.Fits vs σ := by
  constructor
  · exact fun fits => fits.of_peek (resolve_exchange ..) fun v n mem => by
      rwa [peek_exchange] at mem
  · exact fun fits => fits.of_peek (resolve_exchange ..).symm fun v n mem => by
      rwa [peek_exchange]

/-- What is at work after an exchange. -/
theorem atWork_exchange {old : Nat} {p q o : Propagator} (found : s.prop? id = some o)
    (work : (s.exchange id old p).AtWork q) :
    q = p ∨ ∃ j, j ≠ id ∧ s.prop? j = some q := by
  obtain ⟨j, at_j⟩ := work
  rw [prop?_exchange found] at at_j
  split at at_j
  · exact .inl (Option.some.inj at_j).symm
  · rename_i differ
    exact .inr ⟨j, differ, at_j⟩

section Exchange

variable {q : Relation} {n : Nat}

/-- The variables of both relations are read as integers. -/
theorem Running.values (h : s.Running C id r) (names : ∀ v ∈ q.vars, s.Names r v)
    {θ : Var → Term} (reading : C.scope.readings θ) (agrees : s.subst.Agrees θ) {v : Var}
    (mem : v ∈ r.vars ++ q.vars) : (θ v).IsValue := by
  obtain ⟨m, work⟩ := h.work
  have integral (x : Var) (mem_x : x ∈ r.vars) : (θ x).IsValue :=
    h.sound.base.integral _ (.inl (.inr work)) x mem_x θ reading agrees
  rcases List.mem_append.mp mem with mem | mem
  · exact integral v mem
  · obtain ⟨x, mem_x, alike⟩ := names v mem
    rw [← reading_of_alike agrees (integral x mem_x) alike]
    exact integral x mem_x

theorem Running.interned_exchange (h : s.Running C id r) (found : s.prop? id = some ⟨n, r⟩)
    (m : Nat) (j : PropId) :
    (s.exchange id n ⟨s.subst.supply, q⟩).interned[m]? = some j ↔
      ∃ p, (s.exchange id n ⟨s.subst.supply, q⟩).prop? j = some p ∧ p.stamp = m := by
  have before := h.sound.interned m j
  rw [prop?_exchange found]
  simp only [exchange, Std.ExtTreeMap.getElem?_insert, Std.ExtTreeMap.getElem?_erase,
    Std.compare_eq_iff_eq]
  by_cases fresh : s.subst.supply = m
  · subst fresh
    by_cases here : j = id
    · simp [here]
    · simp only [if_true, Option.some.injEq, here, if_false, Ne.symm here, false_iff]
      rintro ⟨p, at_j, stamp⟩
      exact Nat.ne_of_lt (h.sound.base.stamped p (.inl (.inr ⟨j, at_j⟩))) stamp
  · by_cases here : j = id
    · subst here
      simp only [fresh, if_false, if_true, Option.some.injEq, exists_eq_left', iff_false]
      split
      · simp
      · rename_i other
        rw [before, found]
        simpa using other
    · simp only [fresh, if_false, here]
      split
      · rename_i gone
        subst gone
        simp only [reduceCtorEq, false_iff]
        rintro ⟨p, at_j, stamp⟩
        have mine := (h.sound.interned n id).mpr ⟨_, found, rfl⟩
        rw [before.mpr ⟨p, at_j, stamp⟩] at mine
        exact here (Option.some.inj mine)
      · exact before

theorem Running.sound_exchange (h : s.Running C id r) (found : s.prop? id = some ⟨n, r⟩)
    (proper : q.Proper) (names : ∀ v ∈ q.vars, s.Names r v) :
    (s.exchange id n ⟨s.subst.supply, q⟩).Sound C.scope (fun j => j = id) fun _ => False := by
  have resolve := resolve_exchange s id n ⟨s.subst.supply, q⟩
  refine ⟨?_, h.sound.loaded, ?_, ?_, h.sound.distinct, h.interned_exchange found,
    h.sound.agenda, ?_⟩
  · have integral (v : Var) (mem : v ∈ q.vars) : s.subst.Integral (s.scope C.scope) v :=
      fun θ reading agrees => h.values names reading agrees (List.mem_append.mpr (.inr mem))
    refine (h.sound.base.stamp proper integral).mono rfl fun p known => ?_
    rcases known with known | work
    · exact .inl (.inl (.inl known))
    · rcases atWork_exchange found work with rfl | ⟨j, _, at_j⟩
      · exact .inl (.inr rfl)
      · exact .inl (.inl (.inr ⟨j, at_j⟩))
  · intro p work v mem w free
    rw [resolve] at free
    rcases atWork_exchange found work with rfl | ⟨j, _, at_j⟩
    · exact .inl (h.loaded (names v mem) free)
    · exact h.sound.closed p ⟨j, at_j⟩ v mem w free
  · intro w j mem
    obtain ⟨p, at_j, mentions⟩ := h.sound.subscribed w j mem
    have differ : j ≠ id := fun same => h.silent w (same ▸ mem)
    exact ⟨p, by rw [prop?_exchange found, if_neg differ, at_j], by rwa [resolve]⟩
  · intro j p at_j differ
    rw [prop?_exchange found, if_neg differ] at at_j
    rcases h.sound.live j p at_j differ with waits | subscribed | entails
    · exact .inl waits
    · exact .inr (.inl subscribed)
    · exact .inr (.inr fun σ fits => entails σ (fits_exchange.mp fits))

theorem Running.admits_exchange (h : s.Running C id r) (found : s.prop? id = some ⟨n, r⟩)
    (names : ∀ v ∈ q.vars, s.Names r v)
    (same : ∀ σ, s.Fits (r.vars ++ q.vars) σ → (q.Holds σ ↔ r.Holds σ)) {θ : Var → Term} :
    (s.exchange id n ⟨s.subst.supply, q⟩).Admits C.scope θ ↔ s.Admits C.scope θ := by
  have found' : (s.exchange id n ⟨s.subst.supply, q⟩).prop? id = some ⟨s.subst.supply, q⟩ := by
    rw [prop?_exchange found, if_pos rfl]
  constructor
  · intro admits
    have values (v : Var) := h.values (v := v) names admits.reading admits.binding
    have fits := fits_exchange.mp (admits.fits h.sound.base.acyclic values)
    have holds : q.HoldsOf θ := admits.props _ ⟨id, found'⟩
    refine ⟨admits.reading, admits.binding, admits.domain, fun p ⟨j, at_j⟩ => ?_, admits.stored⟩
    by_cases here : j = id
    · rw [here, found] at at_j
      cases at_j
      refine Relation.holdsOf_iff.mpr ⟨fun v mem => values v (List.mem_append.mpr (.inl mem)), ?_⟩
      exact (same _ fits).mp (Relation.holdsOf_iff.mp holds).2
    · exact admits.props p ⟨j, by rw [prop?_exchange found, if_neg here, at_j]⟩
  · intro admits
    have values (v : Var) := h.values (v := v) names admits.reading admits.binding
    have fits := admits.fits h.sound.base.acyclic values
    have holds : r.HoldsOf θ := admits.props _ ⟨id, found⟩
    refine ⟨admits.reading, admits.binding, admits.domain, fun p work => ?_, admits.stored⟩
    rcases atWork_exchange found work with rfl | ⟨j, _, at_j⟩
    · refine Relation.holdsOf_iff.mpr ⟨fun v mem => values v (List.mem_append.mpr (.inr mem)), ?_⟩
      exact (same _ fits).mpr (Relation.holdsOf_iff.mp holds).2
    · exact admits.props p ⟨j, at_j⟩

/-- A relation may be replaced by one that is equivalent to it within the domains. -/
theorem Running.replaceWith (h : s.Running C id r) (proper : q.Proper)
    (names : ∀ v ∈ q.vars, s.Names r v)
    (same : ∀ σ, s.Fits (r.vars ++ q.vars) σ → (q.Holds σ ↔ r.Holds σ)) :
    Narrow.Ensures C.models s (Narrow.replaceWith id q) fun _ t =>
      t.Running C id q ∧ t.resolve = s.resolve ∧ t.peek = s.peek := by
  obtain ⟨n, found⟩ := h.relation
  have run : Narrow.replaceWith id q s = .ok () (s.exchange id n ⟨s.subst.supply, q⟩) := by
    have found' (u : Subst) : ({ s with subst := u } : Solver).prop? id = some ⟨n, r⟩ := found
    change EStateM.Result.ok () (Solver.replace _ id ⟨s.subst.supply, q⟩) = _
    simp only [replace, found']
    rfl
  unfold Narrow.Ensures
  rw [run]
  have resolve := resolve_exchange s id n ⟨s.subst.supply, q⟩
  refine ⟨⟨h.sound_exchange found proper names, fun θ => ?_, ⟨s.subst.supply, ?_⟩, h.silent, ?_, ?_,
    h.shrinks.trans ⟨rfl, fun v n mem => by rwa [peek_exchange] at mem, fun _ mem => mem⟩⟩, resolve, peek_exchange ..⟩
  · rw [← h.admits]
    exact h.admits_exchange found names same
  · rw [prop?_exchange found, if_pos rfl]
  · intro p work v mem w free
    rw [resolve] at free
    rcases atWork_exchange found work with rfl | ⟨j, _, at_j⟩
    · exact h.mem_vars (names v mem) free
    · exact h.covered p ⟨j, at_j⟩ v mem w free
  · have size : (s.exchange id n ⟨s.subst.supply, q⟩).props.size = s.props.size :=
      Array.size_setIfInBounds ..
    unfold potential
    rw [size]
    exact h.cost

end Exchange

end Solver

end ConstraintLogic
