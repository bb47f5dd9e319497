import ConstraintLogic.Propagator.Meaning
import ConstraintLogic.Subst.Lemmas

/-!
# Models of substitutions

A substitution with attributes describes a set of readings of the variables: those
that agree with the bindings, put every variable with a domain at an integer of
that domain, and satisfy every attached propagator.

Results:
* `Subst.Agrees`: the readings that agree with the bindings.
* `Subst.Admits`, `Subst.Models`: the readings that a substitution describes, and
  those among them that leave no variable.
* `Subst.Agrees.expand_walkDeep`: a reading that agrees with the bindings does not
  tell a term from what it is read as.
-/

namespace ConstraintLogic

/-- The term is an integer of 64 bits from the domain. -/
def Domain.Holds (d : Domain) (t : Term) : Prop := ∃ n, t = .int n ∧ isValue n = true ∧ n ∈ d

/-- The relation holds of a reading: its variables are read as integers of 64 bits
    of which it holds. -/
def Relation.HoldsOf (θ : Var → Term) (r : Relation) : Prop :=
  ∃ σ : Assignment, (∀ v ∈ r.vars, θ v = .int (σ v) ∧ isValue (σ v) = true) ∧ r.Holds σ

namespace Subst

/-- The reading gives a bound variable what it gives the term of the binding. -/
def Agrees (s : Subst) (θ : Var → Term) : Prop := ∀ v t, s.get? v = some t → θ v = t.expand θ

/-- The reading agrees with the bindings, the domains and the propagators. -/
structure Admits (s : Subst) (θ : Var → Term) : Prop where
  /-- A bound variable is read as the term that it is bound to. -/
  binding : s.Agrees θ
  /-- A variable with a domain is read as an integer of the domain. -/
  domain : ∀ v a, (s.attributes v).domain = some a → a.val.domain.Holds (θ v)
  /-- The attached propagators hold. -/
  watchers : ∀ v a, (s.attributes v).watchers = some a → ∀ p ∈ a.val, p.val.HoldsOf θ

/-- The reading gives every variable a term without variables, and it agrees with
    the bindings, the domains and the propagators. -/
structure Models (s : Subst) (θ : Var → Term) : Prop extends s.Admits θ where
  /-- The terms have no variables. -/
  ground : ∀ v, (θ v).vars = []

theorem Agrees.expand_image {s : Subst} {θ : Var → Term} (h : s.Agrees θ) (n : Nat) (v : Var) :
    (s.image n v).expand θ = θ v := by
  induction n generalizing v with
  | zero => rfl
  | succ n ih =>
    rw [image]
    split
    · rename_i t bound
      rw [Term.expand_expand, h v t bound]
      exact Term.expand_congr fun w _ => ih w
    · rfl

/-- A reading that agrees with the bindings gives a term and what the term is read
    as under the substitution one and the same value. -/
theorem Agrees.expand_walkDeep {s : Subst} {θ : Var → Term} (h : s.Agrees θ) (t : Term) :
    (s.walkDeep t).expand θ = t.expand θ := by
  rw [walkDeep, Term.expand_expand]
  exact Term.expand_congr fun v _ => h.expand_image s.size v

end Subst

end ConstraintLogic
