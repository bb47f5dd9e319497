import ConstraintLogic.Domain.Arithmetic
import ConstraintLogic.Goal.Basic

/-!
# Finite-domain goals

Goals over integers whose operands are variables or constants. A goal without a
variable is decided on the spot, one with a single unknown narrows that variable
to the value it must have, and any other posts a constraint.

Contents:
* `Goal.dom`, `Goal.inRange`, `Goal.inSet`: domains.
* `Goal.plus`, `Goal.minus`, `Goal.times`: arithmetic.
* `Goal.neq`, `Goal.distinct`: difference.
-/

namespace ConstraintLogic

/-- An operand: a constant or a variable. -/
inductive Operand where
  | const (n : Int)
  | var (v : Var)
deriving DecidableEq, Repr

namespace Goal

/-- The variable takes the value, if there is one (`fix`). -/
def fix (v : Var) : Option Int → Goal
  | some n => narrow v (.singleton n)
  | none => fail

/-- The operand is a value of the domain (`dom`). -/
def dom (x : Operand) (d : Domain) : Goal :=
  match x with
  | .const n => check (d.contains n)
  | .var v => if d.isEmpty then fail else narrow v d

/-- The operand lies between the bounds (`in_range`). -/
def inRange (x : Operand) (lb ub : Int) : Goal := dom x (.range lb ub)

/-- The operand is one of the values (`in_set`). -/
def inSet (x : Operand) (vs : List Int) : Goal := dom x (.values vs)

/-- `x + y = z` (`plus`). -/
def plus : Operand → Operand → Operand → Goal
  | .const a, .const b, .const c => check (value? (a + b) = some c)
  | .const a, .const b, .var z => fix z (value? (a + b))
  | .const a, .var y, .const c => fix y (value? (c - a))
  | .var x, .const b, .const c => fix x (value? (c - b))
  | .var x, .const b, .var z => post (.plusConst x b z)
  | .const a, .var y, .var z => post (.plusConst y a z)
  | .var x, .var y, .const c => post (.sumConst x y c)
  | .var x, .var y, .var z => post (.sum x y z)

/-- `x - y = z` (`minus`). -/
def minus (x y z : Operand) : Goal := plus y z x

/-- `c * x = z` (`times`). -/
def times (c : Int) : Operand → Operand → Goal
  | .const a, .const b => check (value? (c * a) = some b)
  | .const a, .var z => fix z (value? (c * a))
  | .var x, .const b =>
    if c = 0 then check (b = 0)
    else if Int.tmod b c = 0 then fix x (value? (Int.tdiv b c))
    else fail
  | .var x, .var z => post (.scale c x z)

/-- No value occurs twice in the list. -/
def allDistinct : List Int → Bool
  | [] => true
  | n :: rest => !rest.contains n && allDistinct rest

/-- The variables among the operands. -/
def operandVars (xs : List Operand) : List Var :=
  xs.filterMap fun x =>
    match x with
    | .var v => some v
    | .const _ => none

/-- The constants among the operands. -/
def operandConsts (xs : List Operand) : List Int :=
  xs.filterMap fun x =>
    match x with
    | .const n => some n
    | .var _ => none

/-- The operands are pairwise different (`distinct`). -/
def distinct (xs : List Operand) : Goal :=
  let vs := operandVars xs
  let cs := operandConsts xs
  if vs.isEmpty then check (allDistinct cs) else post (.allDifferent vs cs)

/-- The operands are different (`neq`). -/
def neq (x y : Operand) : Goal := distinct [x, y]

end Goal

end ConstraintLogic
