import ConstraintLogic.Proofs.Labeling.Invariants
import ConstraintLogic.Proofs.Subst.Exactness
import ConstraintLogic.Proofs.Unification.Filed

/-!
# Well-formed substitutions

The substitutions that goals produce are well formed: bindings lead down, what has no
value has at most a finite domain that leaves a choice and a list of propagators, and a
propagator is listed with all variables without value that it mentions.

Results:
* `Goal.Yields.complete`: goals leave no propagator missing.
* `Subst.WellFormed`: what is to be known of a substitution.
* `Subst.Produced.wellFormed`: the substitutions that goals produce are well formed.
-/

namespace ConstraintLogic

/-- A goal that can be stated leads from a substitution in order that misses no
    propagator to one that misses none. -/
theorem Goal.Yields.complete {program : Program} (fair : program.Fair) {g : Goal} {s t : Subst}
    (h : g.Yields program s t) : ∀ {known : Propagator → Prop}, g.Fair known →
      s.Orderly (.ints known) → s.Complete → t.Complete := by
  induction h with
  | succeed => exact fun _ _ complete => complete
  | eq unified => exact fun stated good complete => good.unify_complete complete stated.1 stated.2 unified
  | conj first _ ih ih' =>
    exact fun stated good complete => ih' stated.2 (first.orderly fair stated.1 good) (ih stated.1 good complete)
  | disjLeft _ ih => exact fun stated good complete => ih stated.1 good complete
  | disjRight _ ih => exact fun stated good complete => ih stated.2 good complete
  | suspend _ ih => exact fun stated good complete => ih stated good complete
  | fresh _ ih =>
    exact fun stated good complete => ih (stated _) (good.congr rfl rfl (Nat.le_refl _)) (complete.congr rfl rfl)
  | call _ ih =>
    exact fun stated good complete => ih ((RelName.fair_body fair _ stated).mono fun _ => False.elim) good complete
  | not => exact fun _ _ complete => complete
  | ifteYes found _ ih ih' =>
    exact fun stated good complete => ih' stated.2.1 (found.orderly fair stated.1 good) (ih stated.1 good complete)
  | ifteNo _ ih => exact fun stated good complete => ih stated.2.2 good complete
  | once _ ih => exact fun stated good complete => ih stated good complete
  | parLeft _ ih => exact fun stated good complete => ih stated.1 good complete
  | parRight _ ih => exact fun stated good complete => ih stated.2 good complete
  | always => exact fun _ _ complete => complete
  | @post r s t solved =>
    intro known stated good complete
    have stamped := good.stamp stated fun v _ => Subst.integral_ints v
    exact (complete.congr (t := (s.stamped r).2) rfl rfl).solveWith_complete stamped
      (List.forall_mem_singleton.mpr (.inr rfl)) (fun p u none => none.elim) (fun p none => none.elim) solved
  | posted solved =>
    exact fun stated good complete => complete.solveWith_complete good (List.forall_mem_singleton.mpr stated)
      (fun p u none => none.elim) (fun p none => none.elim) solved
  | narrow solved =>
    exact fun stated good complete => complete.solveReduced good stated (fun _ => Subst.integral_ints _) solved
  | label started leaf =>
    exact fun _ good complete => good.complete_of_label complete (fun v _ => Subst.integral_ints v) started leaf
  | unlabeled _ => exact fun _ _ complete => complete
  | labelAll _ ih => exact fun _ good complete => ih trivial good complete
  | reserve _ ih =>
    intro known stated good complete
    obtain ⟨own, ranges, coherent, holds⟩ := stated _
    exact ih holds (good.reserve ranges coherent) (complete.congr rfl rfl)

/-- An undecided domain has two values. -/
theorem Domain.Undecided.exists_two {d : Domain} (h : d.Undecided) :
    ∃ m ∈ d, ∃ n ∈ d, m ≠ n := by
  obtain ⟨m, mem⟩ := h.canonical.exists_mem h.nonempty
  by_contra alone
  have only : d.solution = some m := h.canonical.solution_eq_some_iff.mpr fun n =>
    ⟨fun in_d => not_not.mp fun other => alone ⟨m, mem, n, in_d, fun same => other same.symm⟩,
      fun same => same ▸ mem⟩
  cases h.open_.symm.trans only

namespace Subst

variable {s : Subst}

/-- Substitutions that goals produce miss no propagator. -/
theorem Produced.complete (h : s.Produced) : s.Complete := by
  obtain ⟨program, g, n, allowance, answers, fair, stated, applied, reached⟩ := h
  refine (Goal.yields_of_reaches applied reached).complete fair stated ?_ (complete_empty.congr rfl rfl)
  exact (orderly_empty fun _ => id).congr rfl rfl (Nat.le_refl _)

/-- The bindings have no cycle and lead from variable to lower variable. A bound variable
    has no attributes, and no record of attributes is empty. The domain of a variable is
    in its one form and finite, and leaves two values or more. The list of its propagators
    is not empty, has no propagator twice, and each of them mentions the variable and is
    listed with all unbound variables that its variables stand for. -/
structure WellFormed (s : Subst) : Prop where
  acyclic : s.Acyclic
  lower : ∀ v w, s.get? v = some (.var w) → w.index < v.index
  bare : ∀ v, s.get? v ≠ none → s.attrs[v]? = none
  recorded : s.Recorded
  domain : ∀ v a, s.getAttr v .domain = some (.domain a) →
    a.val.domain.Canonical ∧ a.val.domain ≠ .unbounded ∧ ∃ m ∈ a.val.domain, ∃ n ∈ a.val.domain, m ≠ n
  listed : ∀ v a, s.getAttr v .watchers = some (.watchers a) →
    a.val ≠ [] ∧ (a.val.map Stamped.stamp).Nodup
  mentions : ∀ v a, s.getAttr v .watchers = some (.watchers a) → ∀ p ∈ a.val,
    ∃ w ∈ p.val.vars, s.walk (.var w) = .var v
  spread : ∀ v a, s.getAttr v .watchers = some (.watchers a) → ∀ p ∈ a.val, ∀ w ∈ p.val.vars, ∀ u,
    s.walk (.var w) = .var u → ∃ b, s.getAttr u .watchers = some (.watchers b) ∧ p ∈ b.val

/-- Substitutions in order that miss no propagator are well formed. -/
theorem Orderly.wellFormed_of_complete {K : Scope} (h : s.Orderly K) (complete : s.Complete) : s.WellFormed := by
  have stored {v : Var} {a : Stamped (List Propagator)}
      (found : s.getAttr v .watchers = some (.watchers a)) : s.storedWatchers v = a.val := by
    simp [storedWatchers, getAttr_watchers_iff.mp found]
  refine
    { acyclic := h.acyclic
      lower := complete.lower
      bare := fun v bound => ?_
      recorded := complete.recorded
      domain := fun v a found => ?_
      listed := fun v a found => ?_
      mentions := fun v a found p mem => h.mentions v p (stored found ▸ mem)
      spread := fun v a found p mem w in_vars u leads => ?_ }
  · cases found : s.attrs[v]? with
    | none => rfl
    | some m =>
      have unbound := h.unbound v bound
      rw [attributes, found] at unbound
      exact absurd unbound (complete.recorded v m found)
  · have undecided := h.domain v a (getAttr_domain_iff.mp found)
    exact ⟨undecided.canonical, undecided.finite, undecided.exists_two⟩
  · exact ⟨h.watched v a (getAttr_watchers_iff.mp found), stored found ▸ complete.distinct v⟩
  · have here := (complete.spread v p (stored found ▸ mem) w in_vars u leads).resolve_right fun none => none
    obtain ⟨b, found', mem'⟩ := mem_storedWatchers_iff.mp here
    exact ⟨b, getAttr_watchers_iff.mpr found', mem'⟩

/-- The substitutions that goals produce are well formed. -/
theorem Produced.wellFormed (h : s.Produced) : s.WellFormed := h.orderly.wellFormed_of_complete h.complete

/-- Two goals that answer once, one after the other. -/
theorem apply_conj_of_unit {c : Context} {g h : Goal} {m t : Subst} (first : g.apply c s = .ok (.unit m))
    (second : h.apply c m = .ok (.unit t)) :
    ∃ rest, (Goal.conj g h).apply c s = .ok (.cons t rest) := by
  rw [Goal.apply, first]
  show ∃ rest, (do
    let answers ← h.apply c m
    return answers.append _) = Except.ok (Series.cons t rest)
  rw [second]
  exact ⟨_, rfl⟩

/-- The goal `_0 + 1 = _1` with `_0` from 1 to 3 leaves a domain to each variable, and
    its propagator at both of them. -/
theorem exists_successor : ∃ s : Subst, s.Produced ∧
    s.storedDomain ⟨0⟩ = .interval 1 3 ∧ s.storedDomain ⟨1⟩ = .interval 2 4 ∧
    s.storedWatchers ⟨0⟩ = [⟨0, .plusConst ⟨0⟩ 1 ⟨1⟩⟩] ∧ s.storedWatchers ⟨1⟩ = s.storedWatchers ⟨0⟩ := by
  let stamped := (empty.freshMany 2).2.stamped (Relation.plusConst ⟨0⟩ 1 ⟨1⟩)
  let s := (stamped.2.solveWith [stamped.1]).toOption.getD empty
  let t := (s.solveReduced ⟨0⟩ (.range 1 3)).toOption.getD empty
  have posted : stamped.2.solveWith [stamped.1] = .ok s := eq_ok_of_isSome (by decide +kernel)
  have narrowed : s.solveReduced ⟨0⟩ (.range 1 3) = .ok t := eq_ok_of_isSome (by decide +kernel)
  have fair : (Goal.conj (.post (.plusConst ⟨0⟩ 1 ⟨1⟩)) (.narrow ⟨0⟩ (.range 1 3))).Fair fun _ => False :=
    ⟨by simp [Goal.Fair, Relation.Proper, isValue, minValue, maxValue],
      Domain.canonical_range (by decide) (by decide)⟩
  have first : (Goal.post (.plusConst ⟨0⟩ 1 ⟨1⟩)).apply (Program.context (fun _ _ => .fail) 0)
      (empty.freshMany 2).2 = .ok (.unit s) := by
    show Answers.ofAttempt (stamped.2.solveWith [stamped.1]) = _
    rw [posted]
    rfl
  have second : (Goal.narrow ⟨0⟩ (.range 1 3)).apply (Program.context (fun _ _ => .fail) 0) s = .ok (.unit t) := by
    show Answers.ofAttempt (s.solveReduced ⟨0⟩ (.range 1 3)) = _
    rw [narrowed]
    rfl
  obtain ⟨rest, applied⟩ := apply_conj_of_unit first second
  refine ⟨t, ⟨fun _ _ => .fail, _, 2, 0, _, fun _ _ _ => trivial, fair, applied, .here⟩, ?_⟩
  exact ⟨by decide +kernel, by decide +kernel, by decide +kernel, by decide +kernel⟩

/-- The substitution that `_0 + 1 = _1` with `_0` from 1 to 3 leads to. -/
theorem wellFormed_successor : ∃ s : Subst, s.Produced ∧
    s.storedDomain ⟨1⟩ = .interval 2 4 ∧ s.storedWatchers ⟨0⟩ = [⟨0, .plusConst ⟨0⟩ 1 ⟨1⟩⟩] ∧
    s.storedWatchers ⟨1⟩ = s.storedWatchers ⟨0⟩ ∧ s.WellFormed := by
  obtain ⟨s, produced, _, domain, stored, same⟩ := exists_successor
  exact ⟨s, produced, domain, stored, same, produced.wellFormed⟩

end Subst

end ConstraintLogic
