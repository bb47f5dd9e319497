import ConstraintLogic.Proofs.Labeling.Invariants
import ConstraintLogic.Proofs.Subst.Exactness

/-!
# What answers of labeling go on to say

Labeling may drop a propagator, and then the substitution that it answers does not
mention the variables of the propagator any more. Still each of its models reads them as
integers: a regular propagator is dropped when its variables have values or finite
domains, and as long as one of them stands for another term, some propagator is left that
no reading satisfies.

Results:
* `Solver.Held`: a variable without value that is read as an integer.
* `Solver.Barred`: the solver leaves no reading.
* `Solver.Anchored`, `Solver.lasting_anchored`: what labeling keeps of what it loads.
* `Subst.Orderly.isValue_of_label`: the models of an answer give integers to what the
  labeled substitution mentions.
-/

namespace ConstraintLogic

open Subst (Mentions)

namespace Solver

variable {K : Scope} {s t u : Solver} {v w : Var} {id : PropId}

/-! ## Held variables -/

/-- The unbound variable is not read as other terms than integers: some integer is
    excluded from its domain, or a regular propagator subscribes to it. -/
def Held (s : Solver) (w : Var) : Prop :=
  (∃ n, n ∉ s.current w) ∨ ∃ id p, s.prop? id = some p ∧ s.subst.Regular p.val ∧ id ∈ s.subscribersOf w

/-- A regular propagator with a variable that stands for a term other than an integer
    waits, or subscribes to a variable without single value. -/
def Barred (s : Solver) : Prop :=
  ∃ id p w, s.prop? id = some p ∧ s.subst.Regular p.val ∧ id ∈ s.subscribersOf w ∧
    (s.agenda.Waits id ∨ (s.current w).solution = none) ∧ ∃ x ∈ p.val.vars, s.resolve x = .other

theorem Held.aside (h : s.Held w) (aside : s.Aside (fun _ => False) t) : t.Held w := by
  rcases h with ⟨n, out⟩ | ⟨id, p, found, regular, subscribed⟩
  · exact .inl ⟨n, fun mem => out (aside.smaller w n mem)⟩
  · exact .inr ⟨id, p, by rw [aside.props id fun none => none, found], aside.regular.mpr regular,
      (aside.subscribers id (fun none => none) w).mpr subscribed⟩

theorem Barred.aside (h : s.Barred) (aside : s.Aside (fun _ => False) t) : t.Barred := by
  obtain ⟨id, p, w, found, regular, subscribed, due, x, in_vars, other⟩ := h
  refine ⟨id, p, w, by rw [aside.props id fun none => none, found], aside.regular.mpr regular,
    (aside.subscribers id (fun none => none) w).mpr subscribed, ?_, x, in_vars, by rw [aside.resolve, other]⟩
  rcases due with waits | open_
  · exact .inl (aside.waits id waits)
  · rcases aside.woken w with same | woken
    · exact .inr (by rw [same, open_])
    · exact .inl (woken id subscribed fun none => none)

/-- The propagator that is run goes on to hold its variables, or they have been confined. -/
theorem Held.turn (ht : t.Steady K) (hs : s.Steady K) (turn : s.Turn K t) (free : s.subst.get? w = none)
    (h : s.Held w) : t.Held w := by
  cases turn with
  | idle _ _ eq =>
    subst eq
    exact h
  | @served id a p m popped found withdrawn serving served _ =>
    have aside := served.aside
    have resolve : t.resolve = s.resolve := aside.resolve
    have at_w : t.peek w = t.current w := peek_of_free (by rw [resolve, resolve_of_unbound free])
    rcases h with ⟨n, out⟩ | ⟨j, q, at_j, regular, subscribed⟩
    · exact .inl ⟨n, fun mem => out (aside.smaller w n mem)⟩
    by_cases same : j = id
    · subst same
      cases found.symm.trans at_j
      obtain ⟨p', at_j', v, in_vars, leads⟩ := hs.subscribed w j subscribed
      cases found.symm.trans at_j'
      have confined (h : t.Confined v) : ∃ n, n ∉ t.current w := by
        obtain ⟨_, n, out⟩ := h
        rw [peek_of_free (resolve ▸ leads)] at out
        exact ⟨n, out⟩
      cases served with
      | dropped _ _ confined' => exact .inl (confined (confined' regular v in_vars))
      | @kept n q _ found' regular' subscribed' _ named =>
        rcases named regular v in_vars with ⟨y, in_q, same⟩ | confined'
        · cases only : (t.current w).solution with
          | none =>
            refine .inr ⟨j, ⟨n, q⟩, found', aside.regular.mpr regular', (subscribed' w).mpr ⟨⟨y, in_q, ?_⟩, only⟩⟩
            exact same.trans leads
          | some k =>
            refine .inl (confined (ht.confined_of_solution (n := k) ?_))
            rw [peek_of_free (resolve ▸ leads), only]
        · exact .inl (confined confined')
    · exact .inr ⟨j, q, by rw [aside.props j same]; exact at_j, aside.regular.mpr regular,
        (aside.subscribers j same w).mpr ((withdrawn w j).mpr ⟨subscribed, same⟩)⟩

theorem Barred.turn (turn : s.Turn K t) (h : s.Barred) : t.Barred := by
  obtain ⟨j, q, w, at_j, regular, subscribed, due, x, in_vars, other⟩ := h
  cases turn with
  | @idle id a popped absent eq =>
    subst eq
    refine ⟨j, q, w, at_j, regular, subscribed, due.imp_left fun waits => ?_, x, in_vars, other⟩
    refine (Agenda.waits_pop popped).mpr ⟨?_, waits⟩
    rintro rfl
    cases absent.symm.trans at_j
  | @served id a p m popped found withdrawn serving served _ =>
    have aside := served.aside
    have resolve : t.resolve = s.resolve := aside.resolve
    by_cases same : j = id
    · subst same
      cases found.symm.trans at_j
      cases served with
      | dropped _ _ confined => exact absurd (resolve ▸ other) (confined regular x in_vars).1
      | @kept n q' _ found' regular' subscribed' some_open named =>
        obtain ⟨y, in_q, same⟩ := (named regular x in_vars).resolve_right fun confined =>
          confined.1 (resolve ▸ other)
        have other' : s.resolve y = .other := same.trans other
        obtain ⟨w', mem⟩ := some_open ⟨y, in_q, other'⟩
        exact ⟨j, ⟨n, q'⟩, w', found', aside.regular.mpr regular', mem, .inr ((subscribed' w').mp mem).2,
          y, in_q, resolve ▸ other'⟩
    · have mem := (withdrawn w j).mpr ⟨subscribed, same⟩
      refine ⟨j, q, w, by rw [aside.props j same]; exact at_j, aside.regular.mpr regular,
        (aside.subscribers j same w).mpr mem, ?_, x, in_vars, resolve ▸ other⟩
      rcases due with waits | open_
      · exact .inl (aside.waits j ((Agenda.waits_pop popped).mpr ⟨same, waits⟩))
      · rcases aside.woken w with unchanged | woken
        · exact .inr (by rw [unchanged]; exact open_)
        · exact .inl (woken j mem same)

/-! ## What is loaded -/

/-- No domain has grown since it was loaded, and the variables of the propagators that
    were loaded are held, or no reading is left. -/
structure Anchored (s : Solver) : Prop where
  smaller : ∀ w n, n ∈ s.current w → n ∈ s.subst.storedDomain w
  held : ∀ x ∈ s.domains, ∀ p ∈ s.subst.storedWatchers x, ∀ v ∈ p.val.vars, ∀ w,
    s.resolve v = .free w → s.Held w
  barred : ∀ x ∈ s.domains, ∀ p ∈ s.subst.storedWatchers x, ∀ v ∈ p.val.vars,
    s.resolve v = .other → s.Barred

theorem Anchored.of_framed (h : s.Anchored) (framed : s.Framed t) (sound : s.Steady K)
    (held : ∀ w, s.subst.get? w = none → s.Held w → t.Held w) (barred : s.Barred → t.Barred) : t.Anchored := by
  refine ⟨fun w n mem => ?_, fun x loaded p stored v in_vars w free => ?_, fun x loaded p stored v in_vars other => ?_⟩
  · rw [framed.storedDomain]
    exact h.smaller w n (framed.smaller w n mem)
  · rw [framed.storedWatchers] at stored
    rw [framed.resolve] at free
    exact held w (sound.unbound_of_free free) (h.held x ((framed.loaded x).mp loaded) p stored v in_vars w free)
  · rw [framed.storedWatchers] at stored
    rw [framed.resolve] at other
    exact barred (h.barred x ((framed.loaded x).mp loaded) p stored v in_vars other)

/-- Domains get smaller, and what is held or barred stays so. -/
theorem lasting_anchored (K : Scope) : Lasting K Anchored where
  aside _ _ hs _ aside _ h := h.of_framed aside.toFramed hs (fun _ _ held => held.aside aside) fun barred =>
    barred.aside aside
  turn _ _ hs ht turn h := h.of_framed turn.framed hs (fun _ free held => held.turn ht hs turn free) fun barred =>
    barred.turn turn

/-- Where labeling starts, the propagators that have been loaded hold their variables. -/
theorem Awake.anchored {vs : List Var} {subst : Subst} (h : s.Awake K vs subst) (complete : subst.Complete) :
    s.Anchored := by
  have work {x : Var} {p : Propagator} (loaded : x ∈ s.domains) (stored : p ∈ s.subst.storedWatchers x) :
      ∃ id, s.prop? id = some p ∧ s.subst.Regular p.val := by
    obtain ⟨id, found⟩ := (h.vigilant.taken x loaded p stored).resolve_right fun none => none
    refine ⟨id, found, ?_⟩
    rw [h.grows.subst] at stored ⊢
    exact (complete.regular x p stored).resolve_right fun none => none
  refine ⟨fun w n mem => ?_, fun x loaded p stored v in_vars w free => ?_, fun x loaded p stored v in_vars other => ?_⟩
  · rw [h.grows.current] at mem
    rw [h.grows.subst]
    simpa [current, Solver.new] using mem
  · obtain ⟨id, found, regular⟩ := work loaded stored
    exact .inr ⟨id, p, found, regular, h.vigilant.subscribed id p found (fun none => none) v in_vars w free⟩
  · obtain ⟨id, found, regular⟩ := work loaded stored
    obtain ⟨y, in_vars', leads⟩ := h.steady.base.mentions x p stored
    have subscribed := h.vigilant.subscribed id p found (fun none => none) y in_vars' x (resolve_eq_free_iff.mpr leads)
    exact ⟨id, p, x, found, regular, subscribed, .inl (h.waiting id p found), v, in_vars, other⟩

/-! ## Writing back -/

section WrittenBack

variable {answer : Subst} {θ : Var → Term} (sound : s.Steady K) (back : s.WrittenBack answer)
variable (model : answer.Models θ)

include sound back model

omit model in
/-- A held variable that is written back unbound has a finite domain, or a propagator that
    mentions it is stored with it. -/
theorem Held.written (h : s.Held w) (unbound : answer.get? w = none) :
    answer.storedDomain w ≠ .unbounded ∨ ∃ p ∈ answer.storedWatchers w, ∃ v ∈ p.val.vars, s.resolve v = .free w := by
  rcases h with ⟨n, out⟩ | ⟨id, p, found, _, subscribed⟩
  · rw [← back.storedDomain_eq unbound] at out
    refine .inl fun full => out ?_
    rw [full]
    exact Domain.mem_unbounded n
  · obtain ⟨q, found', v, in_vars, leads⟩ := sound.subscribed w id subscribed
    cases found.symm.trans found'
    have loaded := (sound.closed p ⟨id, found⟩ v in_vars w leads).resolve_right fun later => later
    obtain ⟨d, at_w⟩ := mem_domains_iff.mp loaded
    have open_ : d.solution = none := by
      rw [Option.eq_none_iff_forall_ne_some]
      intro n only
      cases unbound.symm.trans (back.solved w d n at_w only)
    exact .inr ⟨p, back.mem_storedWatchers.mpr (.inr ⟨⟨d, at_w, open_⟩, id, subscribed, found⟩), v, in_vars, leads⟩

/-- A held variable is an integer in every model of what is written back. -/
theorem Held.isValue (h : s.Held w) (free : s.resolve w = .free w) : (θ w).IsValue := by
  have unbound := sound.unbound_of_free free
  cases bound : answer.get? w with
  | some a =>
    rcases back.bound w a bound with before | ⟨d, n, at_w, only, rfl⟩
    · cases unbound.symm.trans before
    · have canonical := (sound.loaded w d at_w).2.1
      have finite : d ≠ .unbounded := by
        rintro rfl
        cases only
      exact ⟨n, model.binding w _ bound, canonical.isValue_of_mem finite (canonical.mem_of_solution only)⟩
  | none =>
    rcases h.written sound back bound with finite | ⟨p, stored, v, in_vars, leads⟩
    · refine model.isValue (.inl fun none => finite ?_)
      simp [Subst.storedDomain, none]
    · rw [← reading_of_free (back.agrees model.binding) leads]
      exact model.isValue (.inr ⟨w, p, stored, in_vars⟩)

/-- What is written back where nothing waits has no model if a reading is barred. -/
theorem Barred.elim (h : s.Barred) (quiet : ∀ id, ¬s.agenda.Waits id) : False := by
  obtain ⟨id, p, w, found, _, subscribed, due, x, in_vars, other⟩ := h
  have open_ := due.resolve_left (quiet id)
  obtain ⟨q, found', v, in_vars', leads⟩ := sound.subscribed w id subscribed
  cases found.symm.trans found'
  have loaded := (sound.closed p ⟨id, found⟩ v in_vars' w leads).resolve_right fun later => later
  obtain ⟨d, at_w⟩ := mem_domains_iff.mp loaded
  rw [current_of_loaded at_w] at open_
  have stored : p ∈ answer.storedWatchers w :=
    back.mem_storedWatchers.mpr (.inr ⟨⟨d, at_w, open_⟩, id, subscribed, found⟩)
  exact not_isValue_of_other (back.agrees model.binding) other (model.isValue (.inr ⟨w, p, stored, in_vars⟩))

/-- The models of what is written back give integers to what the solver was opened on. -/
theorem Anchored.isValue (h : s.Anchored) (quiet : ∀ id, ¬s.agenda.Waits id) (mentioned : s.subst.Mentions v) :
    (θ v).IsValue := by
  rcases mentioned with domain | ⟨x, p, stored, in_vars⟩
  · obtain ⟨a, at_v⟩ := Option.ne_none_iff_exists'.mp domain
    have undecided := sound.base.domain v a at_v
    have unbound : s.subst.get? v = none :=
      sound.base.unbound_of_get? (Subst.getAttr_domain_iff.mpr at_v)
    obtain ⟨n, out⟩ := undecided.canonical.not_all undecided.finite
    refine Held.isValue sound back model (.inl ⟨n, fun mem => out ?_⟩) (resolve_of_unbound unbound)
    have before := h.smaller v n mem
    rwa [Subst.storedDomain, at_v] at before
  · by_cases loaded : x ∈ s.domains
    · cases found : s.resolve v with
      | value n => exact ⟨n, reading_of_value (back.agrees model.binding) found, sound.isValue_of_value found⟩
      | free w =>
        rw [reading_of_free (back.agrees model.binding) found]
        exact (h.held x loaded p stored v in_vars w found).isValue sound back model
          (resolve_of_unbound (sound.unbound_of_free found))
      | other => exact ((h.barred x loaded p stored v in_vars found).elim sound back model quiet).elim
    · exact model.isValue (.inr ⟨x, p, back.mem_storedWatchers.mpr (.inl ⟨loaded, stored⟩), in_vars⟩)

end WrittenBack

/-- The attributes of the substitution below a solver stay as they are. -/
theorem lasting_attrs (K : Scope) (subst : Subst) : Lasting K fun s => s.subst.attrs = subst.attrs where
  aside _ _ _ _ aside _ h := aside.attrs.trans h
  turn _ _ _ _ turn h := turn.framed.attrs.trans h

end Solver

/-- The models of the answers of labeling give integers to what the substitution
    mentions that is labeled. -/
theorem Subst.Orderly.isValue_of_label {K : Scope} {s t : Subst} {vs : List Var} {solver : Solver}
    {θ : Var → Term} {v : Var} (h : s.Orderly K) (complete : s.Complete) (integral : ∀ v ∈ vs, s.Integral K v)
    (started : (do Solver.requireNonempty vs; modify Solver.wakeAll; Narrow.fixpoint : Narrow Unit)
      (Solver.new s) = .ok () solver)
    (leaf : solver.Leaf vs t) (model : t.Models θ) (mentioned : s.Mentions v) : (θ v).IsValue := by
  obtain ⟨u, poised, ⟨anchored, attrs⟩, _, written⟩ := h.lasting_of_label complete
    ((Solver.lasting_anchored K).and (Solver.lasting_attrs K s))
    (fun m awake => ⟨awake.anchored complete, congrArg Subst.attrs awake.grows.subst⟩) integral started leaf
  obtain ⟨t', written', back⟩ := Solver.toSubst?_spec poised.steady
  cases written.symm.trans written'
  refine anchored.isValue poised.steady back model poised.quiet ?_
  unfold Mentions storedWatchers attributes at mentioned ⊢
  rwa [attrs]

end ConstraintLogic
