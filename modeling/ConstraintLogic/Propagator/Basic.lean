import ConstraintLogic.Domain.Printer
import ConstraintLogic.Stamped
import ConstraintLogic.Term.Printer

/-!
# Propagators

A relation over integer variables narrows their domains; a propagator is a
relation with an identity. A table lists the value rows that a relation still
admits and goes on to display the relation it was made from.

Contents:
* `Relation.vars`, `Relation.priority`: what a relation watches and how late it
  is run.
* `Relation.statement`: the relation as a term.
* `Relation.describe`: the relation with all its parts.
-/

namespace ConstraintLogic

/-- The relations that can be posted. -/
inductive Relation where
  /-- `x + c = z` (`PlusConst`). -/
  | plusConst (x : Var) (c : Int) (z : Var)
  /-- `x + y = c` (`SumConst`). -/
  | sumConst (x y : Var) (c : Int)
  /-- `x + y = z` (`Sum`). -/
  | sum (x y z : Var)
  /-- `c * x = z` (`Scale`). -/
  | scale (c : Int) (x z : Var)
  /-- The variables and the constants are pairwise different (`AllDifferent`). -/
  | allDifferent (vars : List Var) (consts : List Int)
  /-- The variables take the values of one of the rows (`Table`). -/
  | table (vars : List Var) (rows : List (List Int)) (origin : Term)
deriving DecidableEq, Repr

/-- A relation with an identity. -/
abbrev Propagator := Stamped Relation

namespace Relation

/-- The variables of the relation, in its own order (`Propagator::vars`). -/
def vars : Relation → List Var
  | plusConst x _ z => [x, z]
  | sumConst x y _ => [x, y]
  | sum x y z => [x, y, z]
  | scale _ x z => [x, z]
  | allDifferent vs _ => vs
  | table vs _ _ => vs

/-- The weight of the relation on the agenda (`Propagator::priority`): light ones are run first. -/
def priority : Relation → Nat
  | plusConst .. => 1
  | sumConst .. => 2
  | sum .. => 3
  | scale .. => 2
  | allDifferent .. => 4
  | table .. => 1

/-- The relation as a term (`Propagator::to_term`): a name and its operands. -/
def statement : Relation → Term
  | plusConst x c z => .ofList [.str "+", .var x, .int c, .var z]
  | sumConst x y c => .ofList [.str "+", .var x, .var y, .int c]
  | sum x y z => .ofList [.str "+", .var x, .var y, .var z]
  | scale c x z => .ofList [.str "*", .int c, .var x, .var z]
  | allDifferent vs cs =>
    .ofList [.str "distinct", .ofList (vs.map .var ++ cs.map .int)]
  | table _ _ origin => origin

end Relation

/-! ## Descriptions -/

/-- A variable with its kind. -/
def Var.describe (v : Var) : String := "Var(" ++ toString v.index ++ ")"

/-- A bracketed list of descriptions. -/
def bracketed (items : List String) : String := "[" ++ ", ".intercalate items ++ "]"

/-- A named record of described fields. -/
def recordText (name : String) (fields : List (String × String)) : String :=
  name ++ " \x7b " ++ ", ".intercalate (fields.map fun f => f.1 ++ ": " ++ f.2) ++ " \x7d"

/-- The relation with all its parts. -/
def Relation.describe : Relation → String
  | plusConst x c z =>
    recordText "PlusConst" [("x", x.describe), ("c", toString c), ("z", z.describe)]
  | sumConst x y c =>
    recordText "SumConst" [("x", x.describe), ("y", y.describe), ("c", toString c)]
  | sum x y z => recordText "Sum" [("x", x.describe), ("y", y.describe), ("z", z.describe)]
  | scale c x z => recordText "Scale" [("c", toString c), ("x", x.describe), ("z", z.describe)]
  | allDifferent vs cs =>
    recordText "AllDifferent"
      [("vars", bracketed (vs.map Var.describe)), ("consts", bracketed (cs.map toString))]
  | table vs rows origin =>
    recordText "Table"
      [("vars", bracketed (vs.map Var.describe)),
        ("tuples", bracketed (rows.map fun row => bracketed (row.map toString))),
        ("origin", origin.render)]

end ConstraintLogic
