import ConstraintLogic.Fault

/-!
# Splitting and moving domains

Images of a domain under sums, negation, multiples and exact quotients keep
only values of 64 bits. An interval of more than `materializeLimit` values is
not listed: scaling it gives the interval spanned by its ends, and a value
inside it is not taken out.

Contents:
* `Domain.bisect`: the two halves of a domain with at least two values.
* `Domain.remove`: a domain without one value.
* `Domain.shift`, `Domain.negate`, `Domain.subtractFrom`, `Domain.scale`,
  `Domain.divideExact`: images and preimages under arithmetic.
-/

namespace ConstraintLogic.Domain

/-! ## Partial queries -/

/-- The least value of the domain (`lower_bound`). -/
def lowerBound (d : Domain) : Except Fault Int :=
  match d.min? with
  | some n => .ok n
  | none => .error (.lowerBound d)

/-- The greatest value of the domain (`upper_bound`). -/
def upperBound (d : Domain) : Except Fault Int :=
  match d.max? with
  | some n => .ok n
  | none => .error (.upperBound d)

/-- The first `n` values of the domain in ascending order (`iter`). -/
def firstValues (n : Nat) : Domain → Except Fault (List Int)
  | unbounded => .error .enumerate
  | interval lb ub => .ok (ascending lb (min ub (lb + n - 1)))
  | enumerated vs => .ok (vs.take n)
  | empty => .ok []

/-! ## Splitting -/

/-- The lower and the upper half of the domain (`bisect`). -/
def bisect : Domain → Except Fault (Domain × Domain)
  | interval lb ub =>
    if lb < ub then
      let mid := lb + (ub - lb) / 2
      .ok (range lb mid, range (mid + 1) ub)
    else .error (.bisect (interval lb ub))
  | enumerated vs =>
    .ok (ofAscending (vs.take (vs.length / 2)), ofAscending (vs.drop (vs.length / 2)))
  | d => .error (.bisect d)

/-- The domain without `n` (`remove`). A large interval keeps a value from its inside; the value
    after the greatest one of 64 bits cannot become a lower end. -/
def remove (d : Domain) (n : Int) : Except Fault Domain :=
  if d.contains n then
    match d with
    | interval lb ub =>
      if n = lb then
        if lb = maxValue then .error .addOverflow else .ok (range (lb + 1) ub)
      else if n = ub then .ok (range lb (ub - 1))
      else if ub - lb + 1 ≤ materializeLimit then
        .ok (ofAscending ((ascending lb ub).filter (· ≠ n)))
      else .ok d
    | enumerated vs => .ok (ofAscending (vs.filter (· ≠ n)))
    | d => .ok d
  else .ok d

/-! ## Images -/

/-- The image under `x ↦ sign * x + c` (`affine`). -/
def affine (sign c : Int) : Domain → Domain
  | empty => empty
  | unbounded => unbounded
  | interval lb ub =>
    let a := sign * lb + c
    let b := sign * ub + c
    clampedRange (min a b) (max a b)
  | enumerated vs => values (vs.filterMap fun x => value? (sign * x + c))

/-- The image under `x ↦ x + c` (`shift`). -/
def shift (d : Domain) (c : Int) : Domain := d.affine 1 c

/-- The image under `x ↦ -x` (`negate`). -/
def negate (d : Domain) : Domain := d.affine (-1) 0

/-- The image under `x ↦ c - x` (`subtract_from`). -/
def subtractFrom (d : Domain) (c : Int) : Domain := d.affine (-1) c

/-- The image under `x ↦ c * x` (`scale`); for a large interval the interval that its images span. -/
def scale (d : Domain) (c : Int) : Domain :=
  match d with
  | empty => empty
  | d =>
    if c = 0 then singleton 0
    else if c = 1 then d
    else if c = -1 then d.negate
    else
      match d with
      | interval lb ub =>
        if ub - lb + 1 ≤ materializeLimit then
          values ((ascending lb ub).filterMap fun x => value? (x * c))
        else clampedRange (min (lb * c) (ub * c)) (max (lb * c) (ub * c))
      | enumerated vs => values (vs.filterMap fun x => value? (x * c))
      | d => d

/-- The least integer that is at least `a / b` (`div_ceil`). -/
def ceilDiv (a b : Int) : Int := -Int.fdiv (-a) b

/-- The integers `x` with `c * x` in the domain (`divide_exact`). -/
def divideExact (d : Domain) (c : Int) : Domain :=
  if c = 0 then
    if d.contains 0 then unbounded else empty
  else
    match d with
    | empty => empty
    | unbounded => unbounded
    | interval lb ub =>
      if 0 < c then clampedRange (ceilDiv lb c) (Int.fdiv ub c)
      else clampedRange (ceilDiv ub c) (Int.fdiv lb c)
    | enumerated vs =>
      values (vs.filterMap fun x => if Int.tmod x c = 0 then value? (Int.tdiv x c) else none)

end ConstraintLogic.Domain
