/-!
# Domains

A domain is a set of integers of 64 bits: every integer, none, an interval, or
an enumerated set. Each finite set has one form only: `enumerated` holds at
least two ascending values that do not fill an interval, and `interval` is never
inverted. `Domain.range` and `Domain.values` build that form.

Contents:
* `Domain.contains`, `Domain.toList`, `Domain.size`: the set behind a domain.
* `Domain.Canonical`: the one form of a set.
* `Domain.intersect`, `Domain.isSubsetOf`: the order of sets.
-/

namespace ConstraintLogic

/-- The least integer of 64 bits. -/
def minValue : Int := -9223372036854775808

/-- The greatest integer of 64 bits. -/
def maxValue : Int := 9223372036854775807

/-- The integer has 64 bits. -/
def isValue (n : Int) : Bool := minValue ≤ n && n ≤ maxValue

/-- The integer itself when it has 64 bits. -/
def value? (n : Int) : Option Int := if isValue n then some n else none

/-- The integers from `lb` to `ub` in ascending order. -/
def ascending (lb ub : Int) : List Int :=
  (List.range (ub - lb + 1).toNat).map fun i : Nat => lb + (i : Int)

/-- `n` put into an ascending list, unless it is there already. -/
def insertAscending (n : Int) : List Int → List Int
  | [] => [n]
  | m :: rest =>
    if n < m then n :: m :: rest
    else if n = m then m :: rest
    else m :: insertAscending n rest

/-- Sets of integers. -/
inductive Domain where
  /-- No value. -/
  | empty
  /-- Every value. -/
  | unbounded
  /-- The values from `lb` to `ub`. -/
  | interval (lb ub : Int)
  /-- The listed values, ascending. -/
  | enumerated (vs : List Int)
deriving DecidableEq, Repr

namespace Domain

/-- The largest interval that is listed value by value when a value is taken out of its inside or
    when it is scaled (`MATERIALIZE_LIMIT`). -/
def materializeLimit : Nat := 4096

/-- The greatest size that is reported. -/
def maxSize : Nat := 18446744073709551615

/-! ## Building domains -/

/-- The values from `lb` to `ub`, none if `ub < lb` (`Domain::range`). -/
def range (lb ub : Int) : Domain := if ub < lb then empty else interval lb ub

/-- The values of 64 bits among the integers from `lb` to `ub` (`range_i128`). -/
def clampedRange (lb ub : Int) : Domain :=
  if ub < lb ∨ ub < minValue ∨ maxValue < lb then empty
  else range (max lb minValue) (min ub maxValue)

/-- The single value `n` (`Domain::singleton`). -/
def singleton (n : Int) : Domain := interval n n

/-- The set of an ascending list, in its one form (`from_sorted`). -/
def ofAscending : List Int → Domain
  | [] => empty
  | lo :: rest =>
    let hi := rest.getLastD lo
    if hi - lo + 1 = (rest.length : Int) + 1 then interval lo hi else enumerated (lo :: rest)

/-- The set of a list in any order, repetitions allowed (`Domain::values`). -/
def values (vs : List Int) : Domain := ofAscending (vs.foldr insertAscending [])

/-! ## Queries -/

/-- The domain has no value (`is_empty`). -/
def isEmpty : Domain → Bool
  | empty => true
  | _ => false

/-- The domain has every value (`is_unbounded`). -/
def isUnbounded : Domain → Bool
  | unbounded => true
  | _ => false

/-- The number of values of a finite domain, at most `maxSize` (`size`). -/
def size : Domain → Option Nat
  | empty => some 0
  | unbounded => none
  | interval lb ub => some (min (ub - lb + 1).toNat maxSize)
  | enumerated vs => some vs.length

/-- The value `n` belongs to the domain (`contains`). -/
def contains : Domain → Int → Bool
  | empty, _ => false
  | unbounded, _ => true
  | interval lb ub, n => lb ≤ n && n ≤ ub
  | enumerated vs, n => vs.contains n

/-- A domain is the set of the values that it contains. -/
instance : Membership Int Domain := ⟨fun d n => d.contains n = true⟩

instance (n : Int) (d : Domain) : Decidable (n ∈ d) :=
  inferInstanceAs (Decidable (d.contains n = true))

/-- The domain has the one form of its set: all of its values have 64 bits, an
    interval is not inverted, and a listed set is ascending and leaves out an
    integer between two of its values. -/
def Canonical : Domain → Prop
  | empty => True
  | unbounded => True
  | interval lb ub => minValue ≤ lb ∧ lb ≤ ub ∧ ub ≤ maxValue
  | enumerated vs =>
    vs.Pairwise (· < ·) ∧ (∀ n ∈ vs, isValue n = true) ∧
      ∃ n, n ∉ vs ∧ (∃ lo ∈ vs, lo < n) ∧ ∃ hi ∈ vs, n < hi

/-- The one value of a domain that has just one (`solution`). -/
def solution : Domain → Option Int
  | interval lb ub => if lb = ub then some lb else none
  | _ => none

/-- The domain has just one value (`has_solution`). -/
def hasSolution (d : Domain) : Bool := d.solution.isSome

/-- The least value of a finite domain (`min`). -/
def min? : Domain → Option Int
  | interval lb _ => some lb
  | enumerated vs => vs.head?
  | _ => none

/-- The greatest value of a finite domain (`max`). -/
def max? : Domain → Option Int
  | interval _ ub => some ub
  | enumerated vs => vs.getLast?
  | _ => none

/-- The values of a finite domain in ascending order (`iter`). -/
def toList : Domain → List Int
  | interval lb ub => ascending lb ub
  | enumerated vs => vs
  | _ => []

/-! ## The order of sets -/

/-- The values of both domains (`intersect`). -/
def intersect : Domain → Domain → Domain
  | empty, _ => empty
  | _, empty => empty
  | unbounded, d => d
  | d, unbounded => d
  | interval a b, interval c d => range (max a c) (min b d)
  | enumerated vs, d => ofAscending (vs.filter d.contains)
  | d, enumerated vs => ofAscending (vs.filter d.contains)

/-- Every value of the first domain belongs to the second (`is_subset_of`). An interval is only
    enumerated when it is no larger than the listed set it is compared with. -/
def isSubsetOf : Domain → Domain → Bool
  | empty, _ => true
  | _, unbounded => true
  | unbounded, _ => false
  | _, empty => false
  | interval a b, interval c d => c ≤ a && b ≤ d
  | interval a b, enumerated vs =>
    (b - a + 1).toNat ≤ vs.length && (ascending a b).all vs.contains
  | enumerated vs, d => vs.all d.contains

end Domain

end ConstraintLogic
