import ConstraintLogic.Domain.Basic
import ConstraintLogic.Series.Basic

/-!
# Series of integers

A small language of integer series: endless ones, silent ones, lost branches, and
functions from integers to series. It gives the algebra of series something to
work on that is easy to predict.

Contents:
* `NumberMap`, `NumberSource`: the codes for functions and computations.
* `NumberPlan.build`: the series that a plan describes.
* `numbers`: the meaning of the codes.
-/

namespace ConstraintLogic

/-- Functions from integers to series of integers. -/
inductive NumberMap where
  /-- The element itself. -/
  | unit
  /-- Nothing. -/
  | none
  /-- The element plus `k`. -/
  | add (k : Int)
  /-- The element if it is even. -/
  | even
  /-- The element twice. -/
  | dup
  /-- The integers from 0 up to the element, which is left out. -/
  | upto
  /-- The element, then `step` more each time, without end. -/
  | repeated (step : Int)
  /-- The series of another function behind `k` suspensions. -/
  | suspended (k : Nat) (f : NumberMap)
  /-- The series of another function as a pending branch. -/
  | pending (f : NumberMap)
  /-- The series of two functions, interleaved. -/
  | fork (f g : NumberMap)
deriving DecidableEq, Repr

/-- Descriptions of integer series. -/
inductive NumberPlan where
  | empty
  | never
  | lost
  | unit (n : Int)
  | option (n : Option Int)
  | list (ns : List Int)
  | range (a b : Int)
  | repeated (n step : Int)
  | suspended (k : Nat) (s : NumberPlan)
  | pending (s : NumberPlan)
  | append (s t : NumberPlan)
  | map (s : NumberPlan) (f : NumberMap)
deriving Repr

/-- Computations that deliver series of integers. -/
inductive NumberSource where
  /-- Suspends again. -/
  | never
  /-- Never delivers, because its branch has ended. -/
  | lost
  /-- The integer `n`, then `step` more each time, without end. -/
  | repeated (n step : Int)
  /-- The series that `f` makes of `n`, behind `k` suspensions. -/
  | image (k : Nat) (f : NumberMap) (n : Int)
  /-- The series that `s` describes, behind `k` suspensions. -/
  | planned (k : Nat) (s : NumberPlan)
deriving Repr

/-- Series of integers. -/
abbrev Numbers := Series NumberSource NumberMap Int

/-- The endless series `n`, `n + step`, and so on. -/
def Numbers.repeated (n step : Int) : Numbers :=
  .cons n (.suspend (.start (.repeated (n + step) step)))

/-- The series of integers that a function makes of an element. Suspensions are
    counted, and what is behind them is made when they have been forced. -/
def NumberMap.apply (n : Int) : NumberMap → Numbers
  | unit => .unit n
  | none => .empty
  | add k => .unit (n + k)
  | even => if Int.tmod n 2 = 0 then .unit n else .empty
  | dup => .ofList [n, n]
  | upto => .ofList (ascending 0 (n - 1))
  | repeated step => Numbers.repeated n step
  | suspended 0 f => f.apply n
  | suspended (k + 1) f => .suspend (.start (.image k f n))
  | pending f => .pending (.done (f.apply n))
  | fork f g => (f.apply n).append (g.apply n)

/-- The series that a plan describes. -/
def NumberPlan.build : NumberPlan → Except Stop Numbers
  | empty => .ok .empty
  | never => .ok (.suspend (.start .never))
  | lost => .ok (.pending (.start .lost))
  | unit n => .ok (.unit n)
  | option n => .ok (.ofOption n)
  | list ns => .ok (.ofList ns)
  | range a b => .ok (.ofList (ascending a b))
  | repeated n step => .ok (Numbers.repeated n step)
  | suspended 0 s => s.build
  | suspended (k + 1) s => .ok (.suspend (.start (.planned k s)))
  | pending s => return .pending (.done (← s.build))
  | append s t => return (← s.build).append (← t.build)
  | map s f => do Series.bindWith (fun n => .ok (f.apply n)) f (← s.build)

/-- The meaning of the codes for integer series. -/
def numbers : Interp NumberSource NumberMap Int where
  start
    | .never => .ok (.suspend (.start .never))
    | .lost => .error (.fault .lostBranch)
    | .repeated n step => .ok (Numbers.repeated n step)
    | .image k f n => .ok ((NumberMap.suspended k f).apply n)
    | .planned k s => (NumberPlan.suspended k s).build
  bind f n := .ok (f.apply n)

end ConstraintLogic
