import ConstraintLogic.Proofs.Solver.Subscriptions

/-!
# Filing what a solver leaves

What a solver writes back is filed like what it was opened on: a propagator is left
with all of its variables that are still without value. The variables that were not
loaded keep what they have, and no propagator is filed both there and with a loaded
variable. What was missing for a posted propagator has been put right, for all of its
variables have been loaded.

Results:
* `Solver.recorded_toSubst?`: no record of attributes is left empty.
* `Solver.WrittenBack.filed`: what is written back is filed.
* `Subst.Filed.solveAll`: the answer to requests is filed.
-/

namespace ConstraintLogic

open Subst (Recorded Filed Complete)

namespace Solver

variable {K : Scope} {E : PropId → Prop} {P : Var → Prop} {Z R R' : Propagator → Prop}
variable {O : Propagator → Var → Prop} {s : Solver} {t : Subst}

/-! ## Records of attributes -/

theorem recorded_writeBack (s : Solver) {u : Subst} (h : u.Recorded) (v : Var) (d : Domain) :
    (s.writeBack u v d).Recorded := by
  have domain : (if d.isUnbounded then u else
      (u.stamped (DomainFact.mk v d)).2.setAttr v (.domain (u.stamped (DomainFact.mk v d)).1)).Recorded := by
    split
    · exact h
    · exact Recorded.setAttr (s := (u.stamped (DomainFact.mk v d)).2) h v _
  unfold writeBack
  dsimp only at domain ⊢
  split
  · exact domain
  · exact fun w m found => domain.setAttr v _ w m found

theorem recorded_assign {u : Subst} (h : u.Recorded) {v : Var} {n : Int} (run : u.assign v n = .ok t) :
    t.Recorded := by
  have dropped := h.dropAttrs v
  unfold Subst.assign at run
  dsimp only at run
  split at run
  · split at run <;> cases run
    exact dropped
  · split at run <;> cases run
    exact dropped

/-- No record of attributes is left empty. -/
theorem recorded_toSubst? (h : s.subst.Recorded) (run : s.toSubst? = .ok t) : t.Recorded := by
  unfold toSubst? at run
  dsimp only at run
  refine foldlM_keeps (J := Recorded) _ ?_ (List.foldlRecOn _ _ (List.foldlRecOn _ _ h ?_) ?_) run
  · intro u e _ u' recorded assigned
    split at assigned
    · exact recorded_assign recorded assigned
    · cases assigned
      exact recorded
  · intro u recorded e _
    exact (recorded.removeAttr e.1 .domain).removeAttr e.1 .watchers
  · intro u recorded e _
    split
    · exact recorded
    · exact s.recorded_writeBack recorded e.1 e.2

/-! ## Writing back -/

namespace WrittenBack

/-- The propagators that are left with a loaded variable. -/
theorem storedWatchers_of_loaded (back : s.WrittenBack t) {w : Var} {d : Domain}
    (at_w : s.domains[w]? = some d) :
    t.storedWatchers w = if d.hasSolution then [] else (s.subscribersOf w).filterMap s.prop? := by
  have written := back.loaded w d at_w
  have stored : t.storedWatchers w = ((t.attributes w).watchers.map Stamped.val).getD [] := by
    unfold Subst.storedWatchers
    cases (t.attributes w).watchers <;> rfl
  rw [stored]
  cases only : d.hasSolution with
  | true => simp [written.solved only]
  | false => simpa using written.watchers only

/-- What leads to an unbound variable led there before. -/
theorem resolve_of_walk (back : s.WrittenBack t) (sound : s.Steady K) {v u : Var}
    (leads : t.walk (.var v) = .var u) : s.resolve v = .free u ∧ t.get? u = none := by
  refine ⟨?_, back.acyclic.get?_of_walk leads⟩
  have resolves := resolve_of_extends (s := s) (t := Solver.new t) back.acyclic back.extends_ v
  rw [resolve_eq_free_iff.mpr leads] at resolves
  cases found : s.resolve v with
  | value n =>
    rw [found] at resolves
    cases resolves
  | other =>
    rw [found] at resolves
    cases resolves
  | free w =>
    rcases back.resolve_of_free sound found with ⟨_, n, _, _, value⟩ | ⟨_, free⟩
    · cases (resolve_eq_free_iff.mpr leads).symm.trans value
    · cases (resolve_eq_free_iff.mpr leads).symm.trans free
      rfl

/-- A relation that was regular before is regular after. -/
theorem regular (back : s.WrittenBack t) (sound : s.Steady K) {r : Relation}
    (regular : s.subst.Regular r) : t.Regular r :=
  regular.of_alias fun _ _ _ _ ⟨u, leads_v, leads_w⟩ =>
    ⟨u, resolve_eq_free_iff.mp (back.resolve_of_walk sound leads_v).1,
      resolve_eq_free_iff.mp (back.resolve_of_walk sound leads_w).1⟩

/-- No two of the propagators that subscribe to a variable have one stamp. -/
theorem nodup_stamps (sound : s.Steady K) (w : Var) :
    (((s.subscribersOf w).filterMap s.prop?).map Stamped.stamp).Nodup := by
  rw [List.map_filterMap]
  refine (sound.distinct w).filterMap fun i j n at_i at_j => ?_
  obtain ⟨p, found, same⟩ := Option.map_eq_some_iff.mp at_i
  obtain ⟨q, found', same'⟩ := Option.map_eq_some_iff.mp at_j
  have one := (sound.interned n i).mpr ⟨p, found, same⟩
  have other := (sound.interned n j).mpr ⟨q, found', same'⟩
  exact Option.some.inj (one.symm.trans other)

/-- A propagator that is left with a variable that is not loaded mentions no loaded one. -/
theorem not_rounded (sound : s.Steady K) {w : Var} {p : Propagator} (out : w ∉ s.domains)
    (stored : p ∈ s.subst.storedWatchers w) : ¬s.Rounded p := fun rounded => by
  obtain ⟨x, in_vars, leads⟩ := sound.base.mentions w p stored
  exact out (rounded x in_vars w (resolve_eq_free_iff.mpr leads))

/-- What is written back is left with all of its variables that are without value. For a
    propagator whose variables are all loaded no exception is left. -/
theorem spread (back : s.WrittenBack t) (sound : s.Steady K) (tended : s.Tended Z R') (base : s.subst.Filed O R)
    {w u v : Var} {p : Propagator} (mem : p ∈ t.storedWatchers w) (in_vars : v ∈ p.val.vars)
    (leads : t.walk (.var v) = .var u) : p ∈ t.storedWatchers u ∨ O p u ∧ ¬Z p := by
  obtain ⟨free, unbound⟩ := back.resolve_of_walk sound leads
  rcases back.mem_storedWatchers.mp mem with ⟨out, stored⟩ | ⟨_, id, subscribed, found⟩
  · refine (base.spread w p stored v in_vars u (resolve_eq_free_iff.mp free)).imp
      (fun stored' => back.mem_storedWatchers.mpr (.inl ⟨fun loaded => ?_, stored'⟩))
      fun missed => ⟨missed, fun known => ?_⟩
    · exact not_rounded sound out stored (tended.rounded p (.inr ⟨u, loaded, stored'⟩))
    · exact not_rounded sound out stored (tended.rounded p (.inl known))
  · obtain ⟨d, at_u⟩ := mem_domains_iff.mp
      ((sound.closed p ⟨id, found⟩ v in_vars u free).resolve_right fun later => later)
    have open_ : d.solution = none := by
      rw [Option.eq_none_iff_forall_ne_some]
      intro n only
      rw [back.solved u d n at_u only] at unbound
      cases unbound
    refine .inl (back.mem_storedWatchers.mpr (.inr ⟨⟨d, at_u, open_⟩, id, ?_, found⟩))
    refine (tended.complete w id subscribed p found v in_vars u free).resolve_right fun decided => ?_
    rw [Decided, peek_of_free (resolve_of_unbound (sound.unbound_of_free free)),
      current_of_loaded at_u] at decided
    exact decided open_

/-- What a solver without waiting propagators writes back is filed. For a propagator
    whose variables are all loaded no exception is left. -/
theorem filed (back : s.WrittenBack t) (sound : s.Steady K) (quiet : ∀ id, ¬s.agenda.Waits id)
    (tended : s.Tended Z R') (base : s.subst.Filed O R) (recorded : t.Recorded)
    (posted : ∀ p, R p → Z p ∨ R' p) : t.Filed (fun p u => O p u ∧ ¬Z p) R' := by
  refine ⟨fun v w bound => ?_, recorded, fun w => ?_, fun w p mem v in_vars u leads => ?_,
    fun w p mem => ?_⟩
  · rcases back.bound v _ bound with before | ⟨_, n, _, _, same⟩
    · exact base.lower v w before
    · cases same
  · by_cases loaded : w ∈ s.domains
    · obtain ⟨d, at_w⟩ := mem_domains_iff.mp loaded
      rw [back.storedWatchers_of_loaded at_w]
      split
      · exact List.nodup_nil
      · exact nodup_stamps sound w
    · rw [Subst.storedWatchers, back.kept w loaded]
      exact base.distinct w
  · exact back.spread sound tended base mem in_vars leads
  · rcases back.mem_storedWatchers.mp mem with ⟨out, stored⟩ | ⟨_, id, subscribed, found⟩
    · rcases base.regular w p stored with regular | exempt
      · exact .inl (back.regular sound regular)
      · refine .inr ((posted p exempt).resolve_left fun known => ?_)
        exact not_rounded sound out stored (tended.rounded p (.inl known))
    · refine (tended.regular w id subscribed p found).imp (back.regular sound) fun rest => ?_
      exact rest.resolve_right (quiet id)

end WrittenBack

/-- The answer of a run is what is written back at its end. -/
theorem of_runToSubst {m : Narrow Unit} {Q : Unit → Solver → Prop} (leaves : Narrow.Leaves s m Q)
    (run : s.runToSubst m = .ok t) : ∃ u, Q () u ∧ u.toSubst? = .ok t := by
  unfold runToSubst EStateM.run at run
  split at run
  · rename_i u ended
    exact ⟨u, leaves () u ended, run⟩
  · cases run

/-- At a fixpoint nothing waits, and the substitution is filed as it was. -/
theorem Sound.fixpoint_filed (h : s.Steady K) (tended : s.Tended Z R') (base : s.subst.Filed O R) :
    Narrow.Leaves s Narrow.fixpoint fun _ u =>
      u.Steady K ∧ (∀ id, ¬u.agenda.Waits id) ∧ u.Tended Z R' ∧ u.subst.Filed O R := by
  have kept := h.fixpoint_keeps (J := fun u => u.Tended Z R' ∧ u.subst.Filed O R) ⟨tended, base⟩
    fun _ _ _ steady turn ⟨tended, base⟩ =>
      ⟨tended.turn steady turn, base.congr turn.framed.bindings turn.framed.attrs⟩
  refine (kept.and h.fixpoint.leaves).mono ?_
  rintro _ u ⟨⟨tended', base'⟩, steady, _, _, quiet⟩
  exact ⟨steady, quiet, tended', base'⟩

/-- What is written back at a fixpoint is filed. -/
theorem Sound.filed_toSubst? (h : s.Steady K) (quiet : ∀ id, ¬s.agenda.Waits id) (tended : s.Tended Z R')
    (base : s.subst.Filed O R) (posted : ∀ p, R p → Z p ∨ R' p) (run : s.toSubst? = .ok t) :
    t.Filed (fun p u => O p u ∧ ¬Z p) R' := by
  obtain ⟨t', run', back⟩ := toSubst?_spec h
  rw [run] at run'
  cases run'
  exact back.filed h quiet tended base (recorded_toSubst? base.recorded run) posted

end Solver

namespace Subst

variable {K : Scope} {T : Term → Prop} {O : Propagator → Var → Prop} {R : Propagator → Prop} {s t : Subst}

/-- The answer to requests is filed, without exceptions for the propagators that were
    posted. -/
theorem Filed.solveAll (h : s.Filed O R) (orderly : s.Orderly K) (requests : List Request)
    (fair : ∀ r ∈ requests, r.Fair K s) (run : s.solveAll requests = .ok t) :
    t.Filed (fun p u => O p u ∧ .post p ∉ requests) fun p => R p ∧ .post p ∉ requests := by
  have vigilant : (Solver.new s).Vigilant R := Solver.attentive_new h.regular
  have requested := (vigilant.requests requests _ R orderly.steady_new fair).and
    (orderly.steady_new.requests requests _ fair).leaves
  obtain ⟨u, ⟨steady, quiet, tended, base⟩, written⟩ := Solver.of_runToSubst
    (requested.bind (f := fun _ => Narrow.fixpoint) fun _ u ⟨⟨vigilant', work⟩, steady, subst, _⟩ =>
      steady.fixpoint_filed (Z := fun p => .post p ∈ requests)
        (vigilant'.tended steady fun p posted => work p (.inr posted))
        (O := O) (R := R) (by rw [subst]; exact h)) run
  exact steady.filed_toSubst? quiet tended base (fun p exempt =>
    or_iff_not_imp_left.mpr fun other => ⟨exempt, other⟩) written

end Subst

end ConstraintLogic
