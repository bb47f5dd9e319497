import ConstraintLogic.Domain.Basic

/-!
# Printed domains

`Domain.render` is the short form, `1..3` or `{1, 3}`; `Domain.describe` names
the shape of the domain as well.
-/

namespace ConstraintLogic.Domain

/-- Integers separated by commas. -/
def commaSeparated (vs : List Int) : String := ", ".intercalate (vs.map toString)

/-- The short written form of a domain (`Domain::fmt`). -/
def render : Domain → String
  | empty => "empty"
  | unbounded => "unbounded"
  | interval lb ub => toString lb ++ ".." ++ toString ub
  | enumerated vs => "\x7b" ++ commaSeparated vs ++ "\x7d"

/-- An interval by its bounds. -/
def describeBounds (lb ub : Int) : String :=
  "Bounded \x7b lb: " ++ toString lb ++ ", ub: " ++ toString ub ++ " \x7d"

/-- A domain by its shape; no value is the inverted interval from 1 to 0. -/
def describe : Domain → String
  | empty => describeBounds 1 0
  | unbounded => "Unbounded"
  | interval lb ub => describeBounds lb ub
  | enumerated vs => "Enumerated([" ++ commaSeparated vs ++ "])"

end ConstraintLogic.Domain
