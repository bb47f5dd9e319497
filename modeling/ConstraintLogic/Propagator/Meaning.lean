import ConstraintLogic.Domain.Basic
import ConstraintLogic.Propagator.Basic

/-!
# What relations mean

A relation holds of integers for its variables, read exactly and without bounds;
only the integers themselves have 64 bits.

Results:
* `Relation.Holds`: the relation holds of an assignment of integers.
* `Relation.holds_congr`: it looks at its own variables only.
-/

namespace ConstraintLogic

/-- An integer for each variable. -/
abbrev Assignment := Var → Int

namespace Relation

/-- The relation holds of the integers. -/
def Holds (σ : Assignment) : Relation → Prop
  | plusConst x c z => σ x + c = σ z
  | sumConst x y c => σ x + σ y = c
  | sum x y z => σ x + σ y = σ z
  | scale c x z => c * σ x = σ z
  | allDifferent vs cs => (vs.map σ ++ cs).Nodup
  | table vs rows _ => vs.map σ ∈ rows

instance (σ : Assignment) (r : Relation) : Decidable (r.Holds σ) := by
  cases r <;> unfold Holds <;> infer_instance

/-- Assignments that agree on the variables of the relation are alike to it. -/
theorem holds_congr {σ τ : Assignment} {r : Relation} (h : ∀ v ∈ r.vars, σ v = τ v) :
    r.Holds σ ↔ r.Holds τ := by
  cases r with
  | allDifferent vs cs => simp only [Holds, List.map_congr_left (l := vs) h]
  | table vs rows origin => simp only [Holds, List.map_congr_left (l := vs) h]
  | _ => simp_all [Holds, vars]

end Relation

end ConstraintLogic
