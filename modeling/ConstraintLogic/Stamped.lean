/-!
# Stamped values

Some values have an identity besides their content: two constraints that read
alike are still two constraints when they were stated twice. A stamped value
carries the number of its making, and two stamped values are one object just
when the numbers agree.
-/

namespace ConstraintLogic

/-- A value and the number of its making. -/
structure Stamped (α : Type) where
  /-- The number of the making. -/
  stamp : Nat
  /-- The value made. -/
  val : α
deriving DecidableEq, Repr

/-- Both are one object. -/
def Stamped.isSame {α : Type} (a b : Stamped α) : Bool := a.stamp = b.stamp

end ConstraintLogic
