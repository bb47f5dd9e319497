import ConstraintLogic.Proofs.Solver.UnmetVariables

/-!
# Products of zero

A product of zero looks at its result only. Where the other operand is an unbound variable
without attributes, no stored propagator mentions it either, and what a solver does does
not depend on whether the variable is bound to a term that is no variable: it loads,
subscribes and runs the same propagators, in step with the solver on the bound variable.

Results:
* `Subst.Orderly.masked_zero`: the solver sees all of the variables of its propagators, the
  factor of the product apart.
* `Subst.Orderly.solveWith_zero`: posting a product of zero comes to the same when the
  variable is bound, and leaves it without attributes when it is not.
-/

namespace ConstraintLogic

/-- What a masked solver is written back as has no attributes on a hidden variable, if it
    misses no propagator: a product of zero is not regular, so that it is not stored anywhere. -/
theorem Solver.Masked.bare {H : Var → Prop} {K : Scope} {s : Solver} {x w : Var} {answer : Subst} (h : s.Masked H)
    (hid : H w) (full : s.domains[w]? = some .unbounded) (steady : s.Steady K) (back : s.WrittenBack answer)
    (free : s.resolve x = .free w) (complete : answer.Complete) :
    answer.walk (.var x) = .var w ∧ answer.attributes w = {} := by
  rcases back.resolve_of_free steady free with ⟨d, n, at_w, only, _⟩ | ⟨unbound, leads⟩
  · rw [full] at at_w
    cases at_w
    cases only
  refine ⟨resolve_eq_free_iff.mp leads, ?_⟩
  by_contra some
  rcases (back.orderly steady).domain_or_watchers some with finite | ⟨p, stored⟩
  · rw [back.storedDomain_eq unbound, current_of_loaded full] at finite
    exact finite rfl
  · rcases back.mem_storedWatchers.mp stored with ⟨absent, _⟩ | ⟨_, j, mem, found⟩
    · exact absent (mem_domains_iff.mpr ⟨_, full⟩)
    obtain ⟨q, found', v, in_vars, at_v⟩ := steady.subscribed w j mem
    cases found.symm.trans found'
    rcases h j p found with seen | ⟨y, z, zero, _⟩
    · exact (seen v in_vars w at_v).1 hid
    · have regular := (complete.regular w p stored).resolve_right fun none => none
      rw [zero] at regular
      exact regular.1 rfl

namespace Subst

variable {known : Propagator → Prop} {s t : Subst} {x z w : Var} {b : Term}

section Zero

variable (h : s.Orderly (.ints known)) (complete : s.Complete) (leads : s.walk (.var x) = .var w)
variable (bare : s.attributes w = {}) (apart : ¬s.Alias x z) (fresh : s.occurs w b = false) (sized : b.Sized)
variable (not_var : ∀ u, b ≠ .var u)

theorem Orderly.complete_posting_zero (h : s.Orderly (.ints known)) (complete : s.Complete)
    (run : (s.posting (.scale 0 x z)).solve? = .ok t) : t.Complete := by
  have stamped := h.stamp (r := Relation.scale 0 x z) (show isValue 0 = true by decide) fun v _ => integral_ints v
  have before : (s.stamped (Relation.scale 0 x z)).2.Complete := complete.congr rfl rfl
  rw [← solveWith_posting] at run
  refine before.solveWith_complete stamped (fun p mem => ?_) (fun _ _ => False.elim) (fun _ => False.elim) run
  exact .inr (List.mem_singleton.mp mem)

include h complete leads bare apart

/-- The solver sees all of the variables of its propagators, those of the product of zero
    apart, of which it sees the result. The variable is loaded with any value. -/
theorem Orderly.masked_zero :
    (s.posting (.scale 0 x z)).Masked (· = w) ∧ (s.posting (.scale 0 x z)).domains[w]? = some .unbounded := by
  obtain ⟨steady, grows, j, found⟩ := h.steady_posting (r := .scale 0 x z) (show isValue 0 = true by decide)
  have resolve : (s.posting (.scale 0 x z)).resolve = (Solver.new s).resolve :=
    grows.resolve.trans (resolve_stamped s _)
  have loaded {p : Propagator} {j : PropId} {v u : Var} (found : (s.posting (.scale 0 x z)).prop? j = some p)
      (mem : v ∈ p.val.vars) (free : (s.posting (.scale 0 x z)).resolve v = .free u) :
      u ∈ (s.posting (.scale 0 x z)).domains :=
    (steady.closed p ⟨j, found⟩ v mem u free).resolve_right id
  refine ⟨fun j q found => ?_, ?_⟩
  · rcases work_posting ⟨j, found⟩ with rfl | ⟨u, stored⟩
    · refine .inr ⟨x, z, rfl, fun u free => ⟨fun same => apart ?_, loaded found (by simp [Relation.vars]) free⟩⟩
      rw [resolve, same] at free
      exact ⟨w, leads, Solver.resolve_eq_free_iff.mp free⟩
    · refine .inl fun v mem y free => ⟨fun same => ?_, loaded found mem free⟩
      rw [resolve, same] at free
      exact complete.unmet bare stored mem free
  · have free : (s.posting (.scale 0 x z)).resolve x = .free w := by
      rw [resolve]
      exact Solver.resolve_eq_free_iff.mpr leads
    obtain ⟨d, at_w⟩ := Solver.mem_domains_iff.mp (loaded found (by simp [Relation.vars]) free)
    have current := grows.current w
    rw [Solver.current_of_loaded at_w] at current
    rw [at_w, current]
    simp [Solver.current, Solver.new, storedDomain, bare]

include fresh sized not_var

/-- Posting the product of zero comes to the same whether the variable is bound or not, and
    leaves it without attributes if it is not. -/
theorem Orderly.solveWith_zero :
    (∃ why, (s.posting (.scale 0 x z)).solve? = .error why ∧
        ((s.bindBare w b).posting (.scale 0 x z)).solve? = .error why) ∨
      ∃ t u, (s.posting (.scale 0 x z)).solve? = .ok t ∧ ((s.bindBare w b).posting (.scale 0 x z)).solve? = .ok u ∧
        t.walk (.var x) = .var w ∧ t.attributes w = {} := by
  have proper : (Relation.scale 0 x z).Proper := show isValue 0 = true by decide
  have unbound : s.get? w = none := h.acyclic.get?_of_walk leads
  obtain ⟨steady, grows, _⟩ := h.steady_posting proper
  obtain ⟨steady', _⟩ := Orderly.steady_posting (h.bindBare unbound fresh sized) proper
  obtain ⟨masked, full⟩ := h.masked_zero complete leads bare apart
  have abreast := h.posting_abreast complete unbound bare fresh not_var proper
  rcases Solver.written_inStep (masked.fixpoint abreast steady steady') (steady.fixpoint.leaves.mono fun _ _ => And.left)
    (steady'.fixpoint.leaves.mono fun _ _ => And.left) with
    ⟨why, first, second⟩ | ⟨v, v', t, u, ended, keeps, _, steady_v, _, first, back, second, _⟩
  · exact .inl ⟨why, first, second⟩
  · refine .inr ⟨t, u, first, second, (masked.keeps keeps).bare rfl ((keeps.hidden w rfl).trans full) steady_v back ?_
      (h.complete_posting_zero complete first)⟩
    rw [Solver.resolve_of_bindings keeps.bindings, grows.resolve, resolve_stamped]
    exact Solver.resolve_eq_free_iff.mpr leads

end Zero

end Subst

end ConstraintLogic
