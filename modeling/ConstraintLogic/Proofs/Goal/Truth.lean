import ConstraintLogic.Proofs.Unification.Symmetry

/-!
# What answers attest

A reading makes a goal true if its equations hold of the reading, by the connectives and by
what the list relations mean. Every reading that agrees with an answer of a goal makes the
goal true, whatever the modes of its arguments are and whatever else has been bound.

Results:
* `Goal.HoldsOf`: the goal is true of a reading.
* `Goal.holdsOf_append`, `Goal.holdsOf_member`: the list relations mean what their clauses say.
* `Goal.Yields.holdsOf`: answers attest their goal.
-/

namespace ConstraintLogic

variable {program : Program} {s t : Subst} {θ : Var → Term}

namespace Goal

/-- The equations of the goal and its calls of list relations are true of the reading. What
    other parts say of it is left open. -/
def HoldsOf (θ : Var → Term) : Goal → Prop
  | .fail => False
  | .never => False
  | .eq a b => a.expand θ = b.expand θ
  | .conj g h => g.HoldsOf θ ∧ h.HoldsOf θ
  | .disj g h => g.HoldsOf θ ∨ h.HoldsOf θ
  | .par _ g h => g.HoldsOf θ ∨ h.HoldsOf θ
  | .suspend g => g.HoldsOf θ
  | .once g => g.HoldsOf θ
  | .ifte cond yes no => cond.HoldsOf θ ∧ yes.HoldsOf θ ∨ no.HoldsOf θ
  | .fresh n body => ∃ vs : List Var, vs.length = n ∧ (body vs).HoldsOf θ
  | .reserve _ body => ∃ k, (body k).HoldsOf θ
  | .call .append [l, b, out] =>
    ∃ xs, l.expand θ = .ofList xs ∧ out.expand θ = .listOnto xs (b.expand θ)
  | .call .member [x, l] => ∃ before behind, l.expand θ = .listOnto before (.pair (x.expand θ) behind)
  | _ => True

variable {l b out x : Term}

/-- One list is appended to another by the cases of the first one. -/
theorem holdsOf_append (h : (appendBody l b out).HoldsOf θ) : (append l b out).HoldsOf θ := by
  rcases h with ⟨empty, same⟩ | ⟨vs, length, holds⟩
  · exact ⟨[], empty, same.symm⟩
  · obtain ⟨a, d, r, rfl⟩ := List.length_eq_three.mp length
    obtain ⟨split, joined, xs, rest, result⟩ := holds
    have split : Term.pair (θ a) (θ d) = l.expand θ := split
    have joined : Term.pair (θ a) (θ r) = out.expand θ := joined
    have rest : θ d = .ofList xs := rest
    have result : θ r = .listOnto xs (b.expand θ) := result
    refine ⟨θ a :: xs, ?_, ?_⟩
    · rw [← split, rest]
      rfl
    · rw [← joined, result]
      rfl

/-- An element of a list is its head or an element of its tail. -/
theorem holdsOf_member (h : (memberBody x l).HoldsOf θ) : (member x l).HoldsOf θ := by
  rcases h with ⟨vs, length, split⟩ | ⟨vs, length, holds⟩
  · obtain ⟨tail, rfl⟩ := List.length_eq_one_iff.mp length
    have split : Term.pair (x.expand θ) (θ tail) = l.expand θ := split
    exact ⟨[], θ tail, split.symm⟩
  · obtain ⟨tail, rfl⟩ := List.length_eq_one_iff.mp length
    obtain ⟨⟨us, length', split⟩, before, behind, rest⟩ := holds
    obtain ⟨head, rfl⟩ := List.length_eq_one_iff.mp length'
    have split : Term.pair (θ head) (θ tail) = l.expand θ := split
    have rest : θ tail = .listOnto before (.pair (x.expand θ) behind) := rest
    refine ⟨θ head :: before, behind, ?_⟩
    rw [← split, rest]
    rfl

/-- What a called relation means makes the call true. -/
theorem holdsOf_call {r : RelName} {args : List Term} (h : (r.body program args).HoldsOf θ) :
    (call r args).HoldsOf θ := by
  unfold RelName.body at h
  split at h
  · exact holdsOf_append h
  · exact holdsOf_member h
  · trivial
  · exact h.elim

/-- Every reading that agrees with what a goal yields makes the goal true. -/
theorem Yields.holdsOf (fair : program.Fair) {g : Goal} (h : g.Yields program s t) :
    ∀ {known : Propagator → Prop}, g.Fair known → s.Orderly (.ints known) → s.Complete →
      ∀ θ, t.Agrees θ → g.HoldsOf θ := by
  induction h with
  | @eq a b s t unified =>
    intro known stated good _ θ agrees
    obtain ⟨_, alike⟩ := good.alike_of_unify stated.1 stated.2 unified
    show a.expand θ = b.expand θ
    rw [← agrees.expand_walkDeep a, alike, agrees.expand_walkDeep b]
  | conj first second ih ih' =>
    intro known stated good complete θ agrees
    have good' := first.orderly fair stated.1 good
    have complete' := first.complete fair stated.1 good complete
    have more := second.informs fair stated.2 good' complete'
    exact ⟨ih stated.1 good complete θ (agrees.of_extends more.extends_), ih' stated.2 good' complete' θ agrees⟩
  | disjLeft _ ih => exact fun stated good complete θ agrees => .inl (ih stated.1 good complete θ agrees)
  | disjRight _ ih => exact fun stated good complete θ agrees => .inr (ih stated.2 good complete θ agrees)
  | suspend _ ih => exact ih
  | @fresh n body s t _ ih =>
    intro known stated good complete θ agrees
    exact ⟨(s.freshMany n).1, by simp [Subst.freshMany],
      ih (stated _) (good.congr rfl rfl (Nat.le_refl _)) (complete.congr rfl rfl) θ agrees⟩
  | call _ ih =>
    exact fun stated good complete θ agrees =>
      holdsOf_call (ih ((RelName.fair_body fair _ stated).mono fun _ => False.elim) good complete θ agrees)
  | ifteYes found holds ih ih' =>
    intro known stated good complete θ agrees
    have good' := found.orderly fair stated.1 good
    have complete' := found.complete fair stated.1 good complete
    have more := holds.informs fair stated.2.1 good' complete'
    exact .inl ⟨ih stated.1 good complete θ (agrees.of_extends more.extends_), ih' stated.2.1 good' complete' θ agrees⟩
  | ifteNo _ ih => exact fun stated good complete θ agrees => .inr (ih stated.2.2 good complete θ agrees)
  | once _ ih => exact ih
  | parLeft _ ih => exact fun stated good complete θ agrees => .inl (ih stated.1 good complete θ agrees)
  | parRight _ ih => exact fun stated good complete θ agrees => .inr (ih stated.2 good complete θ agrees)
  | reserve _ ih =>
    intro known stated good complete θ agrees
    obtain ⟨own, ranges, coherent, holds⟩ := stated _
    exact ⟨_, ih holds (good.reserve ranges coherent) (complete.congr rfl rfl) θ agrees⟩
  | _ => exact fun _ _ _ _ _ => trivial

end Goal

end ConstraintLogic
