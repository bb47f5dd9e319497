import ConstraintLogic.Proofs.Agenda.ShiftedNumbers
import ConstraintLogic.Proofs.Subst.Numeric

/-!
# Solvers that run abreast

Two solvers may differ in variables that neither of them looks at, and in the numbers that
they have given to their propagators. They go the same way all the same: what one of them
does to a domain, a subscription or the agenda the other one does too, and if one of them
ends early, so does the other, and for the same reason.

Results:
* `Solver.Mirrors`, `Solver.Abreast`: what the second solver has in common with the first.
* `Solver.Keeps`: what a run of the first solver keeps.
* `Narrow.InStep`, `Narrow.Follows`: narrowings that go the same way on both solvers.
* `Solver.Clear.propagate`: a run for a relation that does not mention a hidden variable does.
-/

namespace ConstraintLogic

namespace Solver

variable {H : Var → Prop} {δ : Nat} {s s' t t' u : Solver} {id : PropId} {r q : Relation} {p : Propagator}
variable {v x y z w : Var} {c : Int}

/-- The variables are bound alike, stand for the same to both solvers and have the same
    domains, where no hidden variable is met. To the second solver the hidden ones are bound. -/
structure Mirrors (H : Var → Prop) (s t : Solver) : Prop where
  bindings : ∀ u, ¬H u → t.subst.get? u = s.subst.get? u
  stored : ∀ u, ¬H u → t.subst.storedDomain u = s.subst.storedDomain u
  roots : ∀ v u, s.resolve v = .free u → s.resolve u = .free u
  resolve : ∀ v, (∀ u, s.resolve v = .free u → ¬H u) → t.resolve v = s.resolve v
  hidden : ∀ v u, s.resolve v = .free u → H u → ∀ x, t.resolve v ≠ .free x
  domains : ∀ u, ¬H u → t.domains[u]? = s.domains[u]?

/-- The solvers have the same relations at work, subscribed to the same variables and
    waiting in the same order, under numbers that are `δ` higher for the second solver. -/
structure Abreast (H : Var → Prop) (δ : Nat) (s t : Solver) : Prop extends Mirrors H s t where
  subscribers : ∀ u, ¬H u → t.subscribersOf u = (s.subscribersOf u).map (PropId.raise δ)
  props : ∀ id : PropId, (t.prop? (id.raise δ)).map Stamped.val = (s.prop? id).map Stamped.val
  agenda : s.agenda.Raised δ t.agenda

/-- The variable stands for a value, another term, or a loaded variable that is not hidden. -/
def Seen (H : Var → Prop) (s : Solver) (v : Var) : Prop := ∀ u, s.resolve v = .free u → ¬H u ∧ u ∈ s.domains

/-- The second solver has the bindings of the first one, has loaded no fewer variables, and
    has not narrowed a hidden one. Its propagators are those of the first one, or see their
    variables. -/
structure Keeps (H : Var → Prop) (s t : Solver) : Prop where
  bindings : t.subst.bindings = s.subst.bindings
  loaded : ∀ u ∈ s.domains, u ∈ t.domains
  hidden : ∀ u, H u → t.domains[u]? = s.domains[u]?
  props : ∀ j q, t.prop? j = some q → s.prop? j = some q ∨ ∀ v ∈ q.val.vars, t.Seen H v

theorem resolve_of_bindings (bindings : t.subst.bindings = s.subst.bindings) : t.resolve = s.resolve :=
  resolve_congr (Subst.walk_congr bindings)

namespace Keeps

theorem refl (H : Var → Prop) (s : Solver) : s.Keeps H s := ⟨rfl, fun _ mem => mem, fun _ _ => rfl, fun _ _ => .inl⟩

theorem seen (h : s.Keeps H t) (seen : s.Seen H v) : t.Seen H v := by
  intro u free
  rw [resolve_of_bindings h.bindings] at free
  exact (seen u free).imp_right (h.loaded u)

theorem trans (h : s.Keeps H t) (h' : t.Keeps H u) : s.Keeps H u where
  bindings := h'.bindings.trans h.bindings
  loaded v mem := h'.loaded v (h.loaded v mem)
  hidden v hid := (h'.hidden v hid).trans (h.hidden v hid)
  props j q found := by
    rcases h'.props j q found with before | seen
    · exact (h.props j q before).imp_right fun seen v mem => h'.seen (seen v mem)
    · exact .inr seen

/-- What changes neither bindings, domains nor propagators keeps all of this. -/
theorem of_eq (bindings : t.subst.bindings = s.subst.bindings) (domains : t.domains = s.domains)
    (props : t.props = s.props) : s.Keeps H t where
  bindings := bindings
  loaded u mem := domains ▸ mem
  hidden u _ := by rw [domains]
  props j q found := .inl (by rwa [prop?, ← props])

end Keeps

namespace Mirrors

/-- Only the bindings, the attributes and the domains matter. -/
theorem congr (h : s.Mirrors H t) (bindings : s'.subst.bindings = s.subst.bindings)
    (attrs : s'.subst.attrs = s.subst.attrs) (bindings' : t'.subst.bindings = t.subst.bindings)
    (attrs' : t'.subst.attrs = t.subst.attrs) (domains : ∀ u, ¬H u → t'.domains[u]? = s'.domains[u]?) :
    s'.Mirrors H t' where
  bindings u shown := by
    rw [Subst.get?, Subst.get?, bindings, bindings']
    exact h.bindings u shown
  stored u shown := by
    simp only [Subst.storedDomain, Subst.attributes, attrs, attrs']
    exact h.stored u shown
  roots := by rw [resolve_of_bindings bindings]; exact h.roots
  resolve := by rw [resolve_of_bindings bindings, resolve_of_bindings bindings']; exact h.resolve
  hidden := by rw [resolve_of_bindings bindings, resolve_of_bindings bindings']; exact h.hidden
  domains := domains

theorem resolve_iff (h : s.Mirrors H t) (shown : ¬H w) : t.resolve v = .free w ↔ s.resolve v = .free w := by
  by_cases hid : ∃ u, s.resolve v = .free u ∧ H u
  · obtain ⟨u, free, hid⟩ := hid
    refine iff_of_false (h.hidden v u free hid w) fun free' => ?_
    cases free.symm.trans free'
    exact shown hid
  · rw [h.resolve v fun u free hid' => hid ⟨u, free, hid'⟩]

theorem resolve_seen (h : s.Mirrors H t) (seen : s.Seen H v) : t.resolve v = s.resolve v :=
  h.resolve v fun u free => (seen u free).1

theorem sameVar (h : s.Mirrors H t) (seen : s.Seen H v) (seen' : s.Seen H x) : t.sameVar v x = s.sameVar v x := by
  rw [Solver.sameVar, Solver.sameVar, h.resolve_seen seen, h.resolve_seen seen']

theorem mem_domains (h : s.Mirrors H t) {u : Var} (shown : ¬H u) : u ∈ t.domains ↔ u ∈ s.domains := by
  rw [mem_domains_iff, mem_domains_iff, h.domains u shown]

theorem current (h : s.Mirrors H t) {u : Var} (shown : ¬H u) (loaded : u ∈ s.domains) : t.current u = s.current u := by
  obtain ⟨d, at_u⟩ := mem_domains_iff.mp loaded
  rw [current_of_loaded at_u, current_of_loaded ((h.domains u shown).trans at_u)]

theorem peek (h : s.Mirrors H t) (seen : s.Seen H v) : t.peek v = s.peek v := by
  unfold Solver.peek
  rw [h.resolve_seen seen]
  cases found : s.resolve v with
  | free u => exact h.current (seen u found).1 (seen u found).2
  | _ => rfl

/-- What is seen is loaded by the second solver too. -/
theorem loaded (h : s.Mirrors H t) (seen : s.Seen H v) {u : Var} (free : t.resolve v = .free u) : u ∈ t.domains := by
  rw [h.resolve_seen seen] at free
  exact (h.mem_domains (seen u free).1).mpr (seen u free).2

theorem domain (h : s.Mirrors H t) (seen : s.Seen H v) : t.domain v = (s.peek v, t) := by
  rw [← h.peek seen]
  exact domain_of_loaded fun _ => h.loaded seen

/-- What an unbound variable is seen as, it is itself. -/
theorem seen_self (h : s.Mirrors H t) (seen : s.Seen H v) {u : Var} (free : s.resolve v = .free u) : s.Seen H u := by
  intro x same
  cases (h.roots v u free).symm.trans same
  exact seen u free

end Mirrors

theorem domain_of_seen (seen : s.Seen H v) : s.domain v = (s.peek v, s) :=
  domain_of_loaded fun u free => (seen u free).2

/-! ## Steps on the states -/

theorem enqueue_eq (s : Solver) (id : PropId) : ∃ a, s.enqueue id = { s with agenda := a } := by
  unfold enqueue
  cases s.prop? id with
  | none => exact ⟨s.agenda, rfl⟩
  | some p => exact ⟨_, rfl⟩

theorem excite_eq (s : Solver) (u : Var) : ∃ a, s.excite u = { s with agenda := a } := by
  unfold excite
  refine List.foldlRecOn (motive := fun t => ∃ a, t = { s with agenda := a }) _ enqueue ⟨s.agenda, rfl⟩ ?_
  rintro t ⟨a, eq⟩ id _
  obtain ⟨a', eq'⟩ := t.enqueue_eq id
  exact ⟨a', by rw [eq', eq]⟩

/-- Narrowing a variable that is not hidden and waking its subscribers keeps what is hidden. -/
theorem keeps_narrowTo (s : Solver) {u : Var} (shown : ¬H u) (d : Domain) : s.Keeps H ((s.narrowTo u d).excite u) := by
  obtain ⟨a, eq⟩ := (s.narrowTo u d).excite_eq u
  rw [eq]
  refine ⟨rfl, fun x mem => ?_, fun x hid => ?_, fun _ _ => .inl⟩
  · show x ∈ s.domains.insert u d
    exact Std.ExtTreeMap.mem_insert.mpr (.inr mem)
  · show (s.narrowTo u d).domains[x]? = _
    rw [getElem?_narrowTo, if_neg (by rintro rfl; exact shown hid)]

theorem keeps_addSubscriber (s : Solver) (id : PropId) (u : Var) : s.Keeps H (s.addSubscriber id u) := by
  obtain ⟨m, eq⟩ := s.addSubscriber_eq id u
  rw [eq]
  exact .of_eq rfl rfl rfl

namespace Abreast

theorem enqueue (h : s.Abreast H δ t) (id : PropId) : (s.enqueue id).Abreast H δ (t.enqueue (id.raise δ)) := by
  have same := h.props id
  unfold Solver.enqueue
  cases found : s.prop? id with
  | none =>
    rw [found, Option.map_none, Option.map_eq_none_iff] at same
    rw [same]
    exact h
  | some p =>
    rw [found, Option.map_some, Option.map_eq_some_iff] at same
    obtain ⟨p', found', val⟩ := same
    rw [found']
    dsimp only
    rw [val]
    exact ⟨h.toMirrors.congr rfl rfl rfl rfl h.domains, h.subscribers, h.props, h.agenda.push id _⟩

theorem enqueueAll (ids : List PropId) : ∀ s t : Solver, s.Abreast H δ t →
    (ids.foldl Solver.enqueue s).Abreast H δ ((ids.map (PropId.raise δ)).foldl Solver.enqueue t) := by
  induction ids with
  | nil => exact fun s t h => h
  | cons id ids ih => exact fun s t h => ih _ _ (h.enqueue id)

theorem excite (h : s.Abreast H δ t) {u : Var} (shown : ¬H u) : (s.excite u).Abreast H δ (t.excite u) := by
  unfold Solver.excite
  rw [h.subscribers u shown]
  exact enqueueAll _ s t h

theorem narrowTo (h : s.Abreast H δ t) (u : Var) (d : Domain) : (s.narrowTo u d).Abreast H δ (t.narrowTo u d) := by
  refine ⟨h.toMirrors.congr rfl rfl rfl rfl fun x shown => ?_, h.subscribers, h.props, h.agenda⟩
  rw [getElem?_narrowTo, getElem?_narrowTo, h.domains x shown]

theorem addSubscriber (h : s.Abreast H δ t) (id : PropId) {u : Var} (shown : ¬H u) :
    (s.addSubscriber id u).Abreast H δ (t.addSubscriber (id.raise δ) u) := by
  have subscribers (x : Var) (visible : ¬H x) : (t.addSubscriber (id.raise δ) u).subscribersOf x =
      ((s.addSubscriber id u).subscribersOf x).map (PropId.raise δ) := by
    rw [subscribersOf_addSubscriber, subscribersOf_addSubscriber, h.subscribers u shown, h.subscribers x visible]
    have met : ((s.subscribersOf u).map (PropId.raise δ)).contains (id.raise δ) = (s.subscribersOf u).contains id := by
      rw [Bool.eq_iff_iff, List.contains_iff_mem, List.contains_iff_mem, List.mem_map]
      simp
    rw [met]
    split
    · split <;> simp
    · rfl
  obtain ⟨m, eq⟩ := s.addSubscriber_eq id u
  obtain ⟨m', eq'⟩ := t.addSubscriber_eq (id.raise δ) u
  rw [eq, eq'] at subscribers ⊢
  exact ⟨h.toMirrors.congr rfl rfl rfl rfl h.domains, subscribers, h.props, h.agenda⟩

/-- Subscribing again goes the same way. -/
theorem resubscribe (id : PropId) (vs : List Var) : ∀ s t : Solver, s.Abreast H δ t → (∀ v ∈ vs, s.Seen H v) →
    (s.resubscribe id vs).Abreast H δ (t.resubscribe (id.raise δ) vs) ∧ s.Keeps H (s.resubscribe id vs) := by
  induction vs with
  | nil => exact fun s t h _ => ⟨h, .refl H s⟩
  | cons v vs ih =>
    intro s t h seen
    have first := seen v (by simp)
    have rest (u : Var) (mem : u ∈ vs) := seen u (List.mem_cons_of_mem v mem)
    rw [resubscribe_cons s id v vs fun u free => (first u free).2,
      resubscribe_cons t _ v vs fun u => h.loaded first, h.resolve_seen first]
    cases found : s.resolve v with
    | free u =>
      obtain ⟨shown, loaded⟩ := first u found
      dsimp only
      rw [h.current shown loaded]
      split
      · exact ih s t h rest
      · have keeps := s.keeps_addSubscriber (H := H) id u
        obtain ⟨abreast, keeps'⟩ := ih _ _ (h.addSubscriber id shown) fun x mem => keeps.seen (rest x mem)
        exact ⟨abreast, keeps.trans keeps'⟩
    | value n => exact ih s t h rest
    | other => exact ih s t h rest

end Abreast

/-- A propagator for the relation takes the place of the one with the number, if there is one. -/
theorem replaceWith_spec (s : Solver) (id : PropId) (r : Relation) :
    ∃ t, Narrow.replaceWith id r s = .ok () t ∧ t.subst.bindings = s.subst.bindings ∧
      t.subst.attrs = s.subst.attrs ∧ t.domains = s.domains ∧ t.subscribers = s.subscribers ∧ t.agenda = s.agenda ∧
      (∀ j, j ≠ id → t.prop? j = s.prop? j) ∧ (t.prop? id).map Stamped.val = (s.prop? id).map fun _ => r := by
  have run : Narrow.replaceWith id r s =
      .ok () (({ s with subst := (s.subst.stamped r).2 } : Solver).replace id (s.subst.stamped r).1) := rfl
  cases found : s.prop? id with
  | none =>
    have same : ({ s with subst := (s.subst.stamped r).2 } : Solver).replace id (s.subst.stamped r).1 =
        { s with subst := (s.subst.stamped r).2 } := by
      have found' : ({ s with subst := (s.subst.stamped r).2 } : Solver).prop? id = none := found
      simp only [Solver.replace, found']
    rw [same] at run
    exact ⟨_, run, rfl, rfl, rfl, rfl, rfl, fun _ _ => rfl, congrArg (Option.map Stamped.val) found⟩
  | some old =>
    have exchanged : ({ s with subst := (s.subst.stamped r).2 } : Solver).replace id (s.subst.stamped r).1 =
        s.exchange id old.stamp (s.subst.stamped r).1 := by
      have found' : ({ s with subst := (s.subst.stamped r).2 } : Solver).prop? id = some old := found
      simp only [Solver.replace, found']
      rfl
    rw [exchanged] at run
    refine ⟨_, run, rfl, rfl, rfl, rfl, rfl, fun j differ => ?_, ?_⟩
    · rw [prop?_exchange found, if_neg differ]
    · rw [prop?_exchange found, if_pos rfl]
      rfl

/-- A propagator that takes the place of another one, and sees its variables. -/
theorem Abreast.replaceWith (h : s.Abreast H δ t) (id : PropId) {r : Relation} (seen : ∀ v ∈ r.vars, s.Seen H v) :
    ∃ s' t', Narrow.replaceWith id r s = .ok () s' ∧ Narrow.replaceWith (id.raise δ) r t = .ok () t' ∧
      s'.Abreast H δ t' ∧ s.Keeps H s' := by
  obtain ⟨s', run, bindings, attrs, domains, subscribers, agenda, others, this⟩ := s.replaceWith_spec id r
  obtain ⟨t', run', bindings', attrs', domains', subscribers', agenda', others', this'⟩ := t.replaceWith_spec (id.raise δ) r
  have resolve := resolve_of_bindings bindings
  refine ⟨s', t', run, run', ⟨?_, fun u shown => ?_, fun j => ?_, ?_⟩, bindings, fun u mem => domains ▸ mem,
    fun u _ => by rw [domains], fun j q found => ?_⟩
  · refine h.toMirrors.congr bindings attrs bindings' attrs' fun u shown => ?_
    rw [domains, domains', h.domains u shown]
  · rw [subscribersOf, subscribersOf, subscribers, subscribers']
    exact h.subscribers u shown
  · by_cases same : j = id
    · have before := congrArg (Option.map fun _ => r) (h.props id)
      simp only [Option.map_map] at before
      rw [same, this, this']
      exact before
    · rw [others j same, others' _ fun eq => same (PropId.raise_inj.mp eq)]
      exact h.props j
  · rw [agenda, agenda']
    exact h.agenda
  · by_cases same : j = id
    · -- The new propagator is one for `r`.
      rw [same] at found
      rw [found] at this
      obtain ⟨_, _, val⟩ := Option.map_eq_some_iff.mp this.symm
      refine .inr fun v mem u free => ?_
      rw [← val] at mem
      rw [resolve] at free
      rw [domains]
      exact seen v mem u free
    · exact .inl (others j same ▸ found)

/-- The solvers run abreast, and the variables are seen. -/
structure Clear (H : Var → Prop) (δ : Nat) (vs : List Var) (s t : Solver) : Prop where
  abreast : s.Abreast H δ t
  seen : ∀ v ∈ vs, s.Seen H v

theorem Clear.keeps {vs : List Var} (h : Clear H δ vs s t) (abreast : s'.Abreast H δ t') (keeps : s.Keeps H s') :
    Clear H δ vs s' t' :=
  ⟨abreast, fun v mem => keeps.seen (h.seen v mem)⟩

theorem Clear.mono {vs us : List Var} (h : Clear H δ vs s t) (sub : ∀ v ∈ us, v ∈ vs) : Clear H δ us s t :=
  ⟨h.abreast, fun v mem => h.seen v (sub v mem)⟩

/-- The same positions of the variables are aliased for the second solver. -/
theorem Clear.aliasPairs {vs : List Var} (h : Clear H δ vs s t) : t.aliasPairs vs = s.aliasPairs vs := by
  have in_vs {e : Var × Nat} (mem : e ∈ vs.zipIdx) : e.1 ∈ vs :=
    List.mem_of_getElem? (List.mem_zipIdx_iff_getElem?.mp mem)
  unfold Solver.aliasPairs
  refine List.flatMap_congr ?_
  rintro ⟨v, i⟩ mem
  refine List.filterMap_congr ?_
  rintro ⟨x, j⟩ later
  dsimp only
  rw [h.abreast.sameVar (h.seen v (in_vs mem)) (h.seen x (in_vs (List.mem_of_mem_drop later)))]

end Solver

/-! ## Narrowings -/

namespace Narrow

open Solver (Abreast Keeps)

variable {α β : Type} {H : Var → Prop} {δ : Nat} {s s' t t' : Solver} {m m' : Narrow α} {f f' : α → Narrow β}

theorem bind_of_ok {a : α} (ran : m s = .ok a t) : (m >>= f) s = f a t := by
  change EStateM.bind m f s = _
  unfold EStateM.bind
  rw [ran]

theorem bind_of_error {why : Halt} (ran : m s = .error why t) : (m >>= f) s = .error why t := by
  change EStateM.bind m f s = _
  unfold EStateM.bind
  rw [ran]

/-- The narrowings go the same way on the two solvers, which run abreast afterwards, and the
    first one ends with `Q`. -/
def InStep (H : Var → Prop) (δ : Nat) (s t : Solver) (m m' : Narrow α) (Q : α → Solver → Prop) : Prop :=
  match m s with
  | .ok a s' => ∃ t', m' t = .ok a t' ∧ s'.Abreast H δ t' ∧ Q a s'
  | .error why _ => ∃ u, m' t = .error why u

namespace InStep

variable {Q Q' : α → Solver → Prop} {R : β → Solver → Prop}

theorem bind (h : InStep H δ s t m m' Q)
    (next : ∀ a s' t', s'.Abreast H δ t' → Q a s' → InStep H δ s' t' (f a) (f' a) R) :
    InStep H δ s t (m >>= f) (m' >>= f') R := by
  unfold InStep at h ⊢
  change match EStateM.bind m f s with
    | .ok b s' => ∃ t', EStateM.bind m' f' t = .ok b t' ∧ s'.Abreast H δ t' ∧ R b s'
    | .error why _ => ∃ u, EStateM.bind m' f' t = .error why u
  unfold EStateM.bind
  split at h
  · rename_i a s' run
    obtain ⟨t', run', abreast, good⟩ := h
    rw [run, run']
    exact next a s' t' abreast good
  · rename_i why u run
    obtain ⟨u', run'⟩ := h
    rw [run, run']
    exact ⟨u', rfl⟩

theorem mono (h : InStep H δ s t m m' Q) (weaker : ∀ a s', Q a s' → Q' a s') : InStep H δ s t m m' Q' := by
  unfold InStep at *
  split at h
  · obtain ⟨t', run', abreast, good⟩ := h
    exact ⟨t', run', abreast, weaker _ _ good⟩
  · exact h

theorem of_ok {a : α} (h : InStep H δ s t m m' Q) (run : m s = .ok a s') :
    ∃ t', m' t = .ok a t' ∧ s'.Abreast H δ t' ∧ Q a s' := by
  unfold InStep at h
  rwa [run] at h

theorem of_error {why : Halt} (h : InStep H δ s t m m' Q) (run : m s = .error why s') :
    ∃ u, m' t = .error why u := by
  unfold InStep at h
  rwa [run] at h

theorem congr {n n' : Narrow α} (h : InStep H δ s t m m' Q) (same : n s = m s) (same' : n' t = m' t) :
    InStep H δ s t n n' Q := by
  unfold InStep at *
  rwa [same, same']

theorem pure {a : α} (abreast : s.Abreast H δ t) (good : Q a s) :
    InStep H δ s t (Pure.pure a) (Pure.pure a) Q := ⟨t, rfl, abreast, good⟩

theorem throw {why : Halt} : InStep H δ s t (MonadExcept.throw why : Narrow α) (MonadExcept.throw why) Q := ⟨_, rfl⟩

/-- A step that succeeds on both solvers. -/
theorem step {a : α} (run : m s = .ok a s') (run' : m' t = .ok a t') (h : InStep H δ s' t' (f a) (f' a) R) :
    InStep H δ s t (m >>= f) (m' >>= f') R := by
  unfold InStep at h ⊢
  change match EStateM.bind m f s with
    | .ok b s' => ∃ t', EStateM.bind m' f' t = .ok b t' ∧ s'.Abreast H δ t' ∧ R b s'
    | .error why _ => ∃ u, EStateM.bind m' f' t = .error why u
  unfold EStateM.bind
  rw [run, run']
  exact h

end InStep

/-- The narrowings go the same way on the two solvers, the first one keeps what is hidden, and
    the result is `Q`. -/
def Follows (H : Var → Prop) (δ : Nat) (s t : Solver) (m m' : Narrow α) (Q : α → Prop) : Prop :=
  InStep H δ s t m m' fun a s' => s.Keeps H s' ∧ Q a

namespace Follows

variable {Q : α → Prop} {R : β → Prop}

theorem bind (h : Follows H δ s t m m' Q)
    (next : ∀ a s' t', s'.Abreast H δ t' → s.Keeps H s' → Q a → Follows H δ s' t' (f a) (f' a) R) :
    Follows H δ s t (m >>= f) (m' >>= f') R :=
  InStep.bind h fun a s' t' abreast first => (next a s' t' abreast first.1 first.2).mono fun _ _ second =>
    ⟨first.1.trans second.1, second.2⟩

theorem mono {Q' : α → Prop} (h : Follows H δ s t m m' Q) (weaker : ∀ a, Q a → Q' a) : Follows H δ s t m m' Q' :=
  InStep.mono h fun a _ good => ⟨good.1, weaker a good.2⟩

theorem pure {a : α} (abreast : s.Abreast H δ t) (good : Q a) :
    Follows H δ s t (Pure.pure a) (Pure.pure a) Q := InStep.pure abreast ⟨.refl H s, good⟩

theorem throw {why : Halt} : Follows H δ s t (MonadExcept.throw why : Narrow α) (MonadExcept.throw why) Q :=
  InStep.throw

/-- A step that looks at the states only, and sees the same. -/
theorem look {a : α} (run : m s = .ok a s) (run' : m' t = .ok a t) (h : Follows H δ s t (f a) (f' a) R) :
    Follows H δ s t (m >>= f) (m' >>= f') R := InStep.step run run' h

theorem require {c : Bool} {Q : Unit → Prop} (abreast : s.Abreast H δ t) (good : c = true → Q ()) :
    Follows H δ s t (Narrow.require c) (Narrow.require c) Q := by
  cases c with
  | true => exact .pure abreast (good rfl)
  | false => exact .throw

theorem require_bind {holds : Bool} {f f' : Unit → Narrow β}
    (next : holds = true → Follows H δ s t (f ()) (f' ()) R) :
    Follows H δ s t (Narrow.require holds >>= f) (Narrow.require holds >>= f') R := by
  cases holds with
  | true => exact .look rfl rfl (next rfl)
  | false => exact .throw

/-- A step that is taken on a condition only. -/
theorem ite_bind {c : Prop} [Decidable c] {m m' : Narrow Unit} {f f' : Unit → Narrow β} {Q : Unit → Prop}
    (abreast : s.Abreast H δ t) (h : c → Follows H δ s t m m' Q)
    (next : ∀ s' t', s'.Abreast H δ t' → s.Keeps H s' → Follows H δ s' t' (f ()) (f' ()) R) :
    Follows H δ s t (if c then m >>= f else f ()) (if c then m' >>= f' else f' ()) R := by
  split
  · rename_i holds
    exact (h holds).bind fun _ s' t' abreast keeps _ => next s' t' abreast keeps
  · exact next s t abreast (.refl H s)

end Follows

end Narrow

namespace Solver.Clear

open Narrow (Follows)

variable {α β : Type} {H : Var → Prop} {δ : Nat} {s t : Solver} {vs : List Var} {v x y z : Var} {c : Int}
variable {id : PropId} {r : Relation} {R : β → Prop}

/-! ## Steps -/

section Steps

variable (h : Clear H δ vs s t)

include h

theorem domain {f f' : Domain → Narrow β} (mem : v ∈ vs) (next : Follows H δ s t (f (s.peek v)) (f' (s.peek v)) R) :
    Follows H δ s t (Narrow.domain v >>= f) (Narrow.domain v >>= f') R := by
  refine .look ?_ ?_ next
  · change EStateM.Result.ok (s.domain v).1 (s.domain v).2 = _
    rw [domain_of_seen (h.seen v mem)]
  · change EStateM.Result.ok (t.domain v).1 (t.domain v).2 = _
    rw [h.abreast.domain (h.seen v mem)]

theorem sameVar {f f' : Bool → Narrow β} (mem : v ∈ vs) (mem' : x ∈ vs)
    (next : Follows H δ s t (f (s.sameVar v x)) (f' (s.sameVar v x)) R) :
    Follows H δ s t (Narrow.sameVar v x >>= f) (Narrow.sameVar v x >>= f') R := by
  refine .look rfl ?_ next
  change EStateM.Result.ok (t.sameVar v x) _ = _
  rw [h.abreast.sameVar (h.seen v mem) (h.seen x mem')]

theorem resolve {f f' : Resolved → Narrow β} (mem : v ∈ vs)
    (next : Follows H δ s t (f (s.resolve v)) (f' (s.resolve v)) R) :
    Follows H δ s t (Narrow.resolve v >>= f) (Narrow.resolve v >>= f') R := by
  refine .look rfl ?_ next
  change EStateM.Result.ok (t.resolve v) _ = _
  rw [h.abreast.resolve_seen (h.seen v mem)]

theorem pure {a : α} {Q : α → Prop} (good : Q a) : Follows H δ s t (Pure.pure a) (Pure.pure a) Q :=
  .pure h.abreast good

theorem require {c : Bool} : Follows H δ s t (Narrow.require c) (Narrow.require c) fun _ => True :=
  .require h.abreast fun _ => trivial

theorem reduce {d : Domain} (mem : v ∈ vs) :
    Follows H δ s t (Narrow.reduce v d) (Narrow.reduce v d) fun _ => True := by
  have seen := h.seen v mem
  unfold Narrow.Follows Narrow.InStep
  rw [reduce_eq, reduce_eq, h.abreast.resolve_seen seen]
  cases found : s.resolve v with
  | value n => exact h.require (c := d.contains n)
  | other => exact ⟨_, rfl⟩
  | free u =>
    have seen_u := h.abreast.seen_self seen found
    dsimp only
    rw [h.abreast.domain seen_u, domain_of_seen seen_u]
    dsimp only
    obtain ⟨shown, _⟩ := seen u found
    by_cases none : ((s.peek u).intersect d).isEmpty = true
    · rw [if_pos none]
      exact ⟨_, rfl⟩
    rw [if_neg none]
    by_cases same : (s.peek u).intersect d = s.peek u
    · rw [if_pos same]
      exact ⟨t, rfl, h.abreast, .refl H s, trivial⟩
    rw [if_neg same]
    exact ⟨_, rfl, (h.abreast.narrowTo u _).excite shown, s.keeps_narrowTo shown _, trivial⟩

/-- Reducing a variable, and going on. -/
theorem reduce_bind {d : Domain} {f f' : Unit → Narrow β} (mem : v ∈ vs)
    (next : ∀ s' t' : Solver, Clear H δ vs s' t' → Follows H δ s' t' (f ()) (f' ()) R) :
    Follows H δ s t (Narrow.reduce v d >>= f) (Narrow.reduce v d >>= f') R :=
  (h.reduce mem).bind fun _ s' t' abreast keeps _ => next s' t' (h.keeps abreast keeps)

theorem replaceWith (sub : ∀ v ∈ r.vars, v ∈ vs) :
    Follows H δ s t (Narrow.replaceWith id r) (Narrow.replaceWith (id.raise δ) r) fun _ => True := by
  obtain ⟨s', t', run, run', abreast, keeps⟩ := h.abreast.replaceWith id fun v mem => h.seen v (sub v mem)
  unfold Narrow.Follows Narrow.InStep
  rw [run]
  exact ⟨t', run', abreast, keeps, trivial⟩

theorem resubscribe {us : List Var} (sub : ∀ v ∈ us, v ∈ vs) :
    Follows H δ s t (Narrow.resubscribe id us) (Narrow.resubscribe (id.raise δ) us) fun _ => True := by
  obtain ⟨abreast, keeps⟩ := Abreast.resubscribe id us s t h.abreast fun v mem => h.seen v (sub v mem)
  exact ⟨_, rfl, abreast, keeps, trivial⟩

end Steps

/-! ## Runs -/

section Tables

variable {rows live : List (List Int)} {origin : Term}

theorem reduceColumns (cols : List (Var × Nat)) : ∀ s t : Solver, Clear H δ vs s t → (∀ e ∈ cols, e.1 ∈ vs) →
    Follows H δ s t (cols.forM (Running.narrowColumn live)) (cols.forM (Running.narrowColumn live)) fun _ => True := by
  induction cols with
  | nil => exact fun s t h _ => h.pure trivial
  | cons e cols ih =>
    intro s t h sub
    change Follows H δ s t (Running.narrowColumn live e >>= fun _ => cols.forM (Running.narrowColumn live))
      (Running.narrowColumn live e >>= fun _ => cols.forM (Running.narrowColumn live)) _
    refine h.reduce_bind (sub e (by simp)) fun s' t' clear => ?_
    exact ih s' t' clear fun e' mem => sub e' (by simp [mem])

theorem runTable (h : Clear H δ vs s t) :
    Follows H δ s t (Narrow.runTable id vs rows origin) (Narrow.runTable (id.raise δ) vs rows origin) fun _ => True := by
  unfold Narrow.runTable
  refine .look (a := vs.map s.peek) (mapM_domain vs fun v mem u free => (h.seen v mem u free).2) ?_ ?_
  · rw [mapM_domain vs fun v mem u => h.abreast.loaded (h.seen v mem)]
    rw [List.map_congr_left fun v mem => h.abreast.peek (h.seen v mem)]
  refine .look (a := s.aliasPairs vs) rfl ?_ ?_
  · show EStateM.Result.ok (t.aliasPairs vs) _ = _
    rw [h.aliasPairs]
  dsimp only
  generalize rows.filter (Narrow.rowFits (vs.map s.peek) (s.aliasPairs vs)) = live
  refine .require_bind fun _ => ?_
  have columns : Follows H δ s t (vs.zipIdx.forM (Running.narrowColumn live))
      (vs.zipIdx.forM (Running.narrowColumn live)) fun _ => True :=
    reduceColumns vs.zipIdx s t h fun e mem => List.mem_of_getElem? (List.mem_zipIdx_iff_getElem?.mp mem)
  refine columns.bind fun _ s' t' abreast keeps _ => ?_
  have clear := h.keeps abreast keeps
  refine .ite_bind abreast (fun _ => clear.replaceWith (r := .table vs live origin) fun v mem => mem)
    fun u u' abreast' keeps' => ?_
  exact (clear.keeps abreast' keeps').resubscribe fun v mem => mem

theorem becomeTable {us : List Var} (h : Clear H δ vs s t) (sub : ∀ v ∈ us, v ∈ vs) :
    Follows H δ s t (Narrow.becomeTable id us rows origin) (Narrow.becomeTable (id.raise δ) us rows origin)
      fun _ => True := by
  unfold Narrow.becomeTable
  refine (h.replaceWith (r := .table us rows origin) sub).bind fun _ s' t' abreast keeps _ => ?_
  exact ((h.mono sub).keeps abreast keeps).runTable

end Tables

theorem runPlusConst (h : Clear H δ [x, z] s t) :
    Follows H δ s t (Narrow.runPlusConst id x c z) (Narrow.runPlusConst (id.raise δ) x c z) fun _ => True := by
  unfold Narrow.runPlusConst
  refine h.sameVar (by simp) (by simp) ?_
  split
  · exact h.require
  · refine h.domain (by simp) ?_
    refine h.reduce_bind (by simp) fun s t h => ?_
    refine h.domain (by simp) ?_
    split
    · exact .throw
    · refine h.reduce_bind (by simp) fun s t h => ?_
      exact h.resubscribe (by simp)

/-- A multiple of zero looks at its result only. -/
theorem runScale (h : Clear H δ (if c = 0 then [z] else [x, z]) s t) :
    Follows H δ s t (Narrow.runScale id c x z) (Narrow.runScale (id.raise δ) c x z) fun _ => True := by
  unfold Narrow.runScale
  split
  · rename_i zero
    rw [if_pos zero] at h
    exact h.reduce (by simp)
  rename_i nonzero
  rw [if_neg nonzero] at h
  refine h.sameVar (by simp) (by simp) ?_
  split
  · split
    · exact h.pure trivial
    · exact h.reduce (by simp)
  refine h.domain (by simp) (h.domain (by simp) ?_)
  split
  · exact h.becomeTable (by simp)
  · refine h.reduce_bind (by simp) fun s t h => ?_
    refine h.domain (by simp) ?_
    refine h.reduce_bind (by simp) fun s t h => ?_
    exact h.resubscribe (by simp)

theorem runSumConst (h : Clear H δ [x, y] s t) :
    Follows H δ s t (Narrow.runSumConst id x y c) (Narrow.runSumConst (id.raise δ) x y c) fun _ => True := by
  unfold Narrow.runSumConst
  refine h.sameVar (by simp) (by simp) ?_
  split
  · exact .require_bind fun _ => h.reduce (by simp)
  refine h.domain (by simp) (h.domain (by simp) ?_)
  split
  · exact h.becomeTable (by simp)
  · refine h.reduce_bind (by simp) fun s t h => ?_
    refine h.domain (by simp) ?_
    refine h.reduce_bind (by simp) fun s t h => ?_
    exact h.resubscribe (by simp)

theorem reduceBetween (h : Clear H δ vs s t) (mem : v ∈ vs) (lb ub : Option Int) :
    Follows H δ s t (Narrow.reduceBetween v lb ub) (Narrow.reduceBetween v lb ub) fun _ => True := by
  unfold Narrow.reduceBetween
  split
  · exact h.reduce mem
  · exact h.pure trivial

theorem narrowEnds (n : Nat) : ∀ s t : Solver, Clear H δ [x, y, z] s t →
    Follows H δ s t (Narrow.narrowEnds x y z n) (Narrow.narrowEnds x y z n) fun _ => True := by
  induction n with
  | zero => exact fun s t _ => .throw
  | succ n ih =>
    intro s t h
    unfold Narrow.narrowEnds
    refine h.domain (by simp) (h.domain (by simp) (h.domain (by simp) ?_))
    refine (h.reduceBetween (by simp) _ _).bind fun _ s₁ t₁ abreast keeps _ => ?_
    have h₁ := h.keeps abreast keeps
    refine h₁.domain (by simp) ?_
    refine (h₁.reduceBetween (by simp) _ _).bind fun _ s₂ t₂ abreast keeps _ => ?_
    have h₂ := h₁.keeps abreast keeps
    refine h₂.domain (by simp) ?_
    refine (h₂.reduceBetween (by simp) _ _).bind fun _ s₃ t₃ abreast keeps _ => ?_
    have h₃ := h₂.keeps abreast keeps
    refine h₃.domain (by simp) (h₃.domain (by simp) (h₃.domain (by simp) ?_))
    dsimp only
    split
    · exact h₃.pure trivial
    · exact ih s₃ t₃ h₃

theorem runSum (h : Clear H δ [x, y, z] s t) :
    Follows H δ s t (Narrow.runSum id x y z) (Narrow.runSum (id.raise δ) x y z) fun _ => True := by
  unfold Narrow.runSum
  refine h.sameVar (by simp) (by simp) (h.sameVar (by simp) (by simp) (h.sameVar (by simp) (by simp) ?_))
  split
  · exact h.reduce (by simp)
  split
  · refine (h.replaceWith (r := .scale 2 x z) (by simp [Relation.vars])).bind fun _ s t abreast keeps _ => ?_
    exact runScale ((h.mono (by simp)).keeps abreast keeps)
  split
  · exact h.reduce (by simp)
  split
  · exact h.reduce (by simp)
  refine h.domain (by simp) (h.domain (by simp) (h.domain (by simp) ?_))
  split
  · refine (h.replaceWith (r := .plusConst y _ z) (by simp [Relation.vars])).bind fun _ s t abreast keeps _ => ?_
    exact runPlusConst ((h.mono (by simp)).keeps abreast keeps)
  · refine (h.replaceWith (r := .plusConst x _ z) (by simp [Relation.vars])).bind fun _ s t abreast keeps _ => ?_
    exact runPlusConst ((h.mono (by simp)).keeps abreast keeps)
  · refine (h.replaceWith (r := .sumConst x y _) (by simp [Relation.vars])).bind fun _ s t abreast keeps _ => ?_
    exact runSumConst ((h.mono (by simp)).keeps abreast keeps)
  · split
    · exact h.becomeTable (by simp)
    · refine (narrowEnds _ s t h).bind fun _ s t abreast keeps _ => ?_
      exact (h.keeps abreast keeps).resubscribe (by simp)

section AllDifferent

variable {cs : List Int} {o : Narrow.Operands}

theorem take (abreast : s.Abreast H δ t) (n : Int) :
    Follows H δ s t (o.take n) (o.take n) fun o' => o'.opened = o.opened := by
  unfold Narrow.Operands.take
  exact .require_bind fun _ => .pure abreast rfl

theorem takeAll (cs : List Int) : ∀ (s t : Solver) (o : Narrow.Operands), s.Abreast H δ t →
    Follows H δ s t (cs.foldlM Narrow.Operands.take o) (cs.foldlM Narrow.Operands.take o)
      fun o' => o'.opened = o.opened := by
  induction cs with
  | nil => exact fun s t o abreast => .pure abreast rfl
  | cons n cs ih =>
    intro s t o abreast
    rw [List.foldlM_cons]
    refine (take abreast n).bind fun o' s' t' abreast' _ same => ?_
    rw [← same]
    exact ih s' t' o' abreast'

/-- The operands that are open are unbound variables that the operands stand for. -/
theorem addAll (us : List Var) : ∀ (s t : Solver) (o : Narrow.Operands), Clear H δ us s t →
    Follows H δ s t (us.foldlM Narrow.Operands.add o) (us.foldlM Narrow.Operands.add o) fun o' =>
      ∀ x ∈ o'.opened, x ∈ o.opened ∨ ∃ v ∈ us, s.resolve v = .free x := by
  induction us with
  | nil => exact fun s t o h => h.pure fun x => .inl
  | cons v us ih =>
    intro s t o h
    rw [List.foldlM_cons]
    refine Follows.bind (Q := fun o' => ∀ x ∈ o'.opened, x ∈ o.opened ∨ s.resolve v = .free x) ?_
      fun o' s' t' abreast keeps first => ?_
    · unfold Narrow.Operands.add
      refine h.resolve (by simp) ?_
      cases found : s.resolve v with
      | free r =>
        refine .require_bind fun _ => h.pure fun x mem => ?_
        exact (List.mem_append.mp mem).imp_right fun mem => by rw [List.mem_singleton.mp mem]
      | value n => exact (take h.abreast n).mono fun o' same x mem => .inl (same ▸ mem)
      | other => exact .throw
    · refine (ih s' t' o' ((h.mono fun x => List.mem_cons_of_mem v).keeps abreast keeps)).mono
        fun o'' rest x mem => ?_
      rw [resolve_of_bindings keeps.bindings] at rest
      rcases rest x mem with mem | ⟨y, mem, free⟩
      · exact (first x mem).imp_right fun free => ⟨v, by simp, free⟩
      · exact .inr ⟨y, List.mem_cons_of_mem v mem, free⟩

theorem sweepOne (h : Clear H δ vs s t) (mem : v ∈ vs) (sub : ∀ x ∈ o.opened, x ∈ vs) :
    Follows H δ s t (Running.sweepOne o v) (Running.sweepOne o v) fun o' => ∀ x ∈ o'.opened, x ∈ vs := by
  unfold Running.sweepOne
  refine h.domain mem ?_
  cases Narrow.removeAll (s.peek v) o.fixed with
  | error f => exact .throw
  | ok d =>
    refine .look (a := d) rfl rfl ?_
    dsimp only
    refine .ite_bind h.abreast (fun _ => h.reduce mem) fun s' t' abreast keeps => ?_
    have h' := h.keeps abreast keeps
    refine h'.domain mem ?_
    cases (s'.peek v).solution with
    | some n => exact (take abreast n).mono fun o' same x mem => sub x (same ▸ mem)
    | none =>
      refine h'.pure fun x mem' => ?_
      rcases List.mem_append.mp mem' with mem' | mem'
      · exact sub x mem'
      · rwa [List.mem_singleton.mp mem']

theorem sweepRest (rest : List Var) : ∀ (s t : Solver) (o : Narrow.Operands), Clear H δ vs s t →
    (∀ x ∈ rest, x ∈ vs) → (∀ x ∈ o.opened, x ∈ vs) →
    Follows H δ s t (rest.foldlM Running.sweepOne o) (rest.foldlM Running.sweepOne o)
      fun o' => ∀ x ∈ o'.opened, x ∈ vs := by
  induction rest with
  | nil => exact fun s t o h _ sub => h.pure sub
  | cons v rest ih =>
    intro s t o h within sub
    rw [List.foldlM_cons]
    refine (h.sweepOne (within v (by simp)) sub).bind fun o' s' t' abreast keeps sub' => ?_
    exact ih s' t' o' (h.keeps abreast keeps) (fun x mem => within x (List.mem_cons_of_mem v mem)) sub'

theorem sweepAll (n : Nat) : ∀ (s t : Solver) (o : Narrow.Operands), Clear H δ vs s t →
    (∀ x ∈ o.opened, x ∈ vs) →
    Follows H δ s t (Narrow.sweepAll n o) (Narrow.sweepAll n o) fun o' => ∀ x ∈ o'.opened, x ∈ vs := by
  induction n with
  | zero => exact fun s t o _ _ => .throw
  | succ n ih =>
    intro s t o h sub
    unfold Narrow.sweepAll
    refine (sweepRest o.opened s t { fixed := o.fixed, opened := [] } h sub (by simp)).bind
      fun o' s' t' abreast keeps sub' => ?_
    split
    · exact .pure abreast sub'
    · exact ih s' t' o' (h.keeps abreast keeps) sub'

theorem countValues (h : Clear H δ vs s t) (us : List Var) : ∀ (budget : Nat) (seen : Std.ExtTreeMap Int Unit),
    (∀ x ∈ us, x ∈ vs) →
    Follows H δ s t (Narrow.countValues us budget seen) (Narrow.countValues us budget seen) fun _ => True := by
  induction us with
  | nil => exact fun _ _ _ => h.pure trivial
  | cons v us ih =>
    intro budget seen sub
    unfold Narrow.countValues
    refine h.domain (sub v (by simp)) ?_
    split
    · split
      · exact ih _ _ fun x mem => sub x (List.mem_cons_of_mem v mem)
      · exact h.pure trivial
    · exact h.pure trivial

theorem pigeonhole (h : Clear H δ vs s t) {us : List Var} (sub : ∀ x ∈ us, x ∈ vs) :
    Follows H δ s t (Narrow.pigeonhole us) (Narrow.pigeonhole us) fun _ => True := by
  unfold Narrow.pigeonhole
  split
  · refine (h.countValues us _ _ sub).bind fun count s' t' abreast _ _ => ?_
    split
    · exact .require abreast fun _ => trivial
    · exact .pure abreast trivial
  · exact h.pure trivial

theorem settled (h : Clear H δ vs s t) (sub : ∀ x ∈ o.opened, x ∈ vs) :
    Follows H δ s t (Narrow.settled o) (Narrow.settled o) fun _ => True := by
  unfold Narrow.settled
  split
  · exact h.pure trivial
  · rename_i v one
    exact h.domain (sub v (by simp [one])) (h.pure trivial)
  · exact h.pure trivial

theorem runAllDifferent (h : Clear H δ vs s t) :
    Follows H δ s t (Narrow.runAllDifferent id vs cs) (Narrow.runAllDifferent (id.raise δ) vs cs) fun _ => True := by
  unfold Narrow.runAllDifferent
  refine (takeAll cs s t {} h.abreast).bind fun o s₁ t₁ abreast keeps none => ?_
  have h₁ := h.keeps abreast keeps
  refine (addAll vs s₁ t₁ o h₁).bind fun o s₂ t₂ abreast keeps opened => ?_
  have clear : Clear H δ o.opened s₂ t₂ := by
    refine ⟨abreast, fun x mem => keeps.seen ?_⟩
    rcases opened x mem with mem | ⟨v, mem, free⟩
    · simp [none] at mem
    · exact h₁.abreast.seen_self (h₁.seen v mem) free
  refine (sweepAll _ s₂ t₂ o clear fun _ mem => mem).bind fun o' s₃ t₃ abreast keeps sub => ?_
  have swept := clear.keeps abreast keeps
  refine (swept.pigeonhole sub).bind fun _ s₄ t₄ abreast keeps _ => ?_
  have counted := swept.keeps abreast keeps
  refine (counted.settled sub).bind fun done s₅ t₅ abreast keeps _ => ?_
  have last := counted.keeps abreast keeps
  split
  · exact last.pure trivial
  · refine .ite_bind abreast (fun _ => last.replaceWith (r := .allDifferent o'.opened o'.fixed) sub)
      fun s₆ t₆ abreast keeps => ?_
    exact (last.keeps abreast keeps).resubscribe sub

end AllDifferent

/-- A run for a relation of which all variables are seen goes the same way. -/
theorem propagate (h : Clear H δ r.vars s t) :
    Follows H δ s t (Narrow.propagate id r) (Narrow.propagate (id.raise δ) r) fun _ => True := by
  cases r with
  | plusConst x c z => exact runPlusConst h
  | sumConst x y c => exact runSumConst h
  | sum x y z => exact runSum h
  | scale c x z =>
    refine runScale (h.mono fun v mem => ?_)
    split at mem
    · exact List.mem_cons_of_mem x mem
    · exact mem
  | allDifferent vs cs => exact runAllDifferent h
  | table vs rows origin => exact runTable h

end Solver.Clear

end ConstraintLogic
