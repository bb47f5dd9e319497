import ConstraintLogic.Domain.Basic
import ConstraintLogic.Domain.Printer

/-!
# Why a computation stops without an answer

Failing search is no fault: a conflict is an ordinary outcome, and the branch in
which it arises has no answers. A fault is a broken contract, such as splitting
a domain of one value; it ends the whole step. A computation that would need
more rounds than it was allowed ends as exhausted.

Contents:
* `Fault.message`: the text of a fault.
* `Halt`: how narrowing and unification end early.
-/

namespace ConstraintLogic

/-- The broken contracts. -/
inductive Fault where
  /-- A sum left the integers of 64 bits. -/
  | addOverflow
  /-- The least integer of 64 bits was negated. -/
  | negateOverflow
  /-- A domain without two values was split. -/
  | bisect (d : Domain)
  /-- The least value was asked of a domain that has none. -/
  | lowerBound (d : Domain)
  /-- The greatest value was asked of a domain that has none. -/
  | upperBound (d : Domain)
  /-- The values of the unbounded domain were enumerated. -/
  | enumerate
  /-- A parallel branch ended without delivering its answers. -/
  | lostBranch
deriving DecidableEq, Repr

namespace Fault

/-- The text of a fault. -/
def message : Fault → String
  | addOverflow => "attempt to add with overflow"
  | negateOverflow => "attempt to negate with overflow"
  | bisect d => "bisect of " ++ d.render ++ " domain: need at least two values"
  | lowerBound d => "lower_bound of " ++ d.render ++ " domain"
  | upperBound d => "upper_bound of " ++ d.render ++ " domain"
  | enumerate => "cannot enumerate an unbounded domain"
  | lostBranch => "parallel branch terminated without producing a result"

end Fault

/-- Why a search ends before its next answer is known. -/
inductive Stop where
  | fault (f : Fault)
  /-- The allowance of rounds is used up. -/
  | exhausted
deriving DecidableEq, Repr

/-- How narrowing and unification end early: with a conflict, which only means
    that the branch has no answer, or for a reason that stops the search. -/
inductive Halt where
  | conflict
  | stop (why : Stop)
deriving DecidableEq, Repr

/-- The fault `f`, as a way to end early. -/
def Halt.fault (f : Fault) : Halt := .stop (.fault f)

/-- The end of the allowance, as a way to end early. -/
def Halt.exhausted : Halt := .stop .exhausted

end ConstraintLogic
