import ConstraintLogic.Proofs.Domain.Arithmetic
import Mathlib.Algebra.Order.Ring.Int
import Mathlib.Order.Lattice

/-!
# Exact arithmetic of domains

Sums, negations, multiples and exact quotients of a domain are the sets that these words
mean, cut to the integers of 64 bits; only a large interval is scaled to the interval that its
multiples span. The ends are computed with 128 bits, which no step leaves, and no step divides
by zero. Multiplying and dividing, or moving back and forth, gives a domain back, except for
what was cut off.

Results:
* `Domain.affine?`, `Domain.scale?`, `Domain.divideExact?`: the operations with every step
  of their arithmetic checked.
* `floorDiv?_eq`, `ceilDiv?_eq`: quotients toward zero that are corrected by one.
* `Domain.Canonical.arithmetic_exact`: the sets that the operations answer.
* `Domain.Canonical.round_trip`: what is left of a domain on the way back.
-/

namespace ConstraintLogic

/-! ## Steps of 128 bits -/

/-- The integer itself when it has 128 bits. -/
def wide? (n : Int) : Option Int := if -2 ^ 127 ≤ n ∧ n < 2 ^ 127 then some n else none

/-- The quotient toward zero and the remainder, if the divisor is not zero and the quotient
    has 128 bits. -/
def divideWide? (a b : Int) : Option (Int × Int) :=
  if b = 0 then none else (wide? (Int.tdiv a b)).map fun q => (q, Int.tmod a b)

/-- The greatest integer that is at most `a / b`. -/
def floorDiv? (a b : Int) : Option Int := do
  let (q, r) ← divideWide? a b
  if r ≠ 0 ∧ decide (a < 0) ≠ decide (b < 0) then wide? (q - 1) else some q

/-- The least integer that is at least `a / b`. -/
def ceilDiv? (a b : Int) : Option Int := do
  let (q, r) ← divideWide? a b
  if r ≠ 0 ∧ decide (a < 0) = decide (b < 0) then wide? (q + 1) else some q

section Wide

variable {a b c n sign : Int}

theorem wide?_eq (low : -2 ^ 127 ≤ n) (high : n < 2 ^ 127) : wide? n = some n := if_pos ⟨low, high⟩

theorem natAbs_le_of_isValue (value : isValue n = true) : n.natAbs ≤ 2 ^ 63 := by
  obtain ⟨low, high⟩ := (isValue_iff n).mp value
  simp only [minValue, maxValue] at low high
  omega

/-- A product of integers of 64 bits has 128 bits. -/
theorem wide?_mul (ha : isValue a = true) (hb : isValue b = true) : wide? (a * b) = some (a * b) := by
  have product : (a * b).natAbs ≤ 2 ^ 63 * 2 ^ 63 := by
    rw [Int.natAbs_mul]
    exact Nat.mul_le_mul (natAbs_le_of_isValue ha) (natAbs_le_of_isValue hb)
  exact wide?_eq (by omega) (by omega)

theorem divideWide?_eq (ha : isValue a = true) (nonzero : b ≠ 0) :
    divideWide? a b = some (Int.tdiv a b, Int.tmod a b) := by
  have quotient := Int.natAbs_tdiv_le_natAbs a b
  have := natAbs_le_of_isValue ha
  rw [divideWide?, if_neg nonzero, wide?_eq (by omega) (by omega), Option.map_some]

/-- The quotient toward zero is corrected where it is rounded up. -/
theorem floorDiv?_eq (ha : isValue a = true) (nonzero : b ≠ 0) : floorDiv? a b = some (Int.fdiv a b) := by
  have quotient := Int.natAbs_tdiv_le_natAbs a b
  have := natAbs_le_of_isValue ha
  have down := Int.fdiv_eq_tdiv (a := a) (b := b)
  simp only [floorDiv?, divideWide?_eq ha nonzero, Option.bind_eq_bind, Option.bind_some]
  by_cases exact_ : Int.tmod a b = 0
  · rw [if_neg (by simp [exact_]), down, if_pos (Int.dvd_iff_tmod_eq_zero.mpr exact_), Int.sub_zero]
  rw [if_neg (fun divides => exact_ (Int.dvd_iff_tmod_eq_zero.mp divides))] at down
  rcases Int.lt_or_gt_of_ne nonzero with neg | pos
  · rw [Int.sign_eq_neg_one_of_neg neg] at down
    by_cases sign_a : 0 ≤ a
    · rw [if_pos (by simp [exact_, neg, sign_a]), wide?_eq (by omega) (by omega)]
      grind
    · rw [if_neg (by simp [neg]; omega)]
      grind
  · rw [Int.sign_eq_one_of_pos pos] at down
    by_cases sign_a : 0 ≤ a
    · rw [if_neg (by simp; omega)]
      grind
    · rw [if_pos ⟨exact_, by simp; omega⟩, wide?_eq (by omega) (by omega)]
      grind

/-- The quotient toward zero is corrected where it is rounded down. -/
theorem ceilDiv?_eq (ha : isValue a = true) (nonzero : b ≠ 0) : ceilDiv? a b = some (Domain.ceilDiv a b) := by
  have quotient := Int.natAbs_tdiv_le_natAbs a b
  have := natAbs_le_of_isValue ha
  have down := Int.fdiv_eq_tdiv (a := -a) (b := b)
  rw [Int.neg_tdiv] at down
  simp only [ceilDiv?, divideWide?_eq ha nonzero, Option.bind_eq_bind, Option.bind_some, Domain.ceilDiv]
  by_cases exact_ : Int.tmod a b = 0
  · have divides := Int.dvd_iff_tmod_eq_zero.mpr exact_
    rw [if_neg (by simp [exact_]), down, if_pos (Int.dvd_neg.mpr divides), Int.sub_zero, Int.neg_neg]
  rw [if_neg (fun divides => exact_ (Int.dvd_iff_tmod_eq_zero.mp (Int.dvd_neg.mp divides)))] at down
  have not_zero : a ≠ 0 := by
    rintro rfl
    exact exact_ (Int.zero_tmod b)
  rcases Int.lt_or_gt_of_ne nonzero with neg | pos
  · rw [Int.sign_eq_neg_one_of_neg neg] at down
    by_cases sign_a : a < 0
    · rw [if_pos (by simp [exact_, neg, sign_a]), wide?_eq (by omega) (by omega)]
      grind
    · rw [if_neg (by simp [neg, sign_a])]
      grind
  · rw [Int.sign_eq_one_of_pos pos] at down
    by_cases sign_a : a < 0
    · rw [if_neg (by simp [sign_a]; omega)]
      grind
    · rw [if_pos ⟨exact_, by simp [sign_a]; omega⟩, wide?_eq (by omega) (by omega)]
      grind

end Wide

namespace Domain

variable {d : Domain} {c n : Int} {ns : List Int}

/-! ## Checked operations -/

/-- The set of a list, or none if its width has more than 128 bits. -/
def values? (ns : List Int) : Option Domain :=
  match ns.foldr insertAscending [] with
  | [] => some empty
  | lo :: rest => do
    let span ← wide? (rest.getLastD lo - lo)
    let width ← wide? (span + 1)
    if width = (rest.length : Int) + 1 then some (interval lo (rest.getLastD lo)) else some (enumerated (lo :: rest))

/-- The value `sign * x + c`, or none if the product or the sum has more than 128 bits. -/
def image? (sign c x : Int) : Option Int := do
  let product ← wide? (sign * x)
  wide? (product + c)

/-- The image under `x ↦ sign * x + c`, or none if a step has more than 128 bits. -/
def affine? (sign c : Int) : Domain → Option Domain
  | interval lb ub => do
    let a ← image? sign c lb
    let b ← image? sign c ub
    some (clampedRange (min a b) (max a b))
  | enumerated vs => do
    let images ← vs.mapM (image? sign c)
    values? (images.filterMap value?)
  | d => some d

/-- The image under `x ↦ c * x` or what it spans, or none if a width or a product has more
    than 128 bits. -/
def scale? (c : Int) : Domain → Option Domain
  | empty => some empty
  | d =>
    if c = 0 then some (singleton 0)
    else if c = 1 then some d
    else if c = -1 then d.affine? (-1) 0
    else
      match d with
      | interval lb ub => do
        let width ← wide? ((← wide? (ub - lb)) + 1)
        if width ≤ materializeLimit then values? ((ascending lb ub).filterMap fun x => value? (x * c))
        else
          let a ← wide? (lb * c)
          let b ← wide? (ub * c)
          some (clampedRange (min a b) (max a b))
      | enumerated vs => values? (vs.filterMap fun x => value? (x * c))
      | d => some d

/-- The exact quotients by `c`, or none if a step divides by zero or has more than 128 bits. -/
def divideExact? (c : Int) (d : Domain) : Option Domain :=
  if c = 0 then
    if d.contains 0 then some unbounded else some empty
  else
    match d with
    | interval lb ub =>
      if 0 < c then do some (clampedRange (← ceilDiv? lb c) (← floorDiv? ub c))
      else do some (clampedRange (← ceilDiv? ub c) (← floorDiv? lb c))
    | enumerated vs =>
      values? (vs.filterMap fun x => if Int.tmod x c = 0 then value? (Int.tdiv x c) else none)
    | d => some d

theorem values?_eq (value : ∀ n ∈ ns, isValue n = true) : values? ns = some (values ns) := by
  unfold values? values
  have value' (n : Int) (mem : n ∈ ns.foldr insertAscending []) : n.natAbs ≤ 2 ^ 63 :=
    natAbs_le_of_isValue (value n (mem_foldr_insertAscending.mp mem))
  generalize ns.foldr insertAscending [] = sorted at value'
  cases sorted with
  | nil => rfl
  | cons lo rest =>
    have low := value' lo (by simp)
    have high := value' (rest.getLastD lo) List.getLastD_mem_cons
    have span : wide? (rest.getLastD lo - lo) = some (rest.getLastD lo - lo) := wide?_eq (by omega) (by omega)
    have width : wide? (rest.getLastD lo - lo + 1) = some (rest.getLastD lo - lo + 1) := wide?_eq (by omega) (by omega)
    simp only [ofAscending, span, width, Option.bind_eq_bind, Option.bind_some]
    split <;> rfl

theorem values?_filterMap {f : Int → Option Int} (vs : List Int) (value : ∀ x n, f x = some n → isValue n = true) :
    values? (vs.filterMap f) = some (values (vs.filterMap f)) := by
  refine values?_eq fun n mem => ?_
  obtain ⟨x, _, image⟩ := List.mem_filterMap.mp mem
  exact value x n image

/-- The image of an integer of 64 bits takes no more than 128 bits. -/
theorem image?_eq {sign x : Int} (unit : sign = 1 ∨ sign = -1) (value : isValue c = true) (value_x : isValue x = true) :
    image? sign c x = some (sign * x + c) := by
  have := natAbs_le_of_isValue value
  have := natAbs_le_of_isValue value_x
  have product : wide? (sign * x) = some (sign * x) := by
    rcases unit with rfl | rfl <;> exact wide?_eq (by omega) (by omega)
  have sum : wide? (sign * x + c) = some (sign * x + c) := by
    rcases unit with rfl | rfl <;> exact wide?_eq (by omega) (by omega)
  simp only [image?, product, sum, Option.bind_eq_bind, Option.bind_some]

theorem mapM_image? {sign : Int} (unit : sign = 1 ∨ sign = -1) (value : isValue c = true) :
    ∀ vs : List Int, (∀ x ∈ vs, isValue x = true) → vs.mapM (image? sign c) = some (vs.map fun x => sign * x + c) := by
  intro vs
  induction vs with
  | nil => exact fun _ => rfl
  | cons x vs ih =>
    intro values
    rw [List.forall_mem_cons] at values
    simp [List.mapM_cons, image?_eq unit value values.1, ih values.2]

/-- No step of a sum or a negation leaves 128 bits. -/
theorem Canonical.affine?_eq {sign : Int} (h : d.Canonical) (unit : sign = 1 ∨ sign = -1) (value : isValue c = true) :
    d.affine? sign c = some (d.affine sign c) := by
  cases d with
  | empty => rfl
  | unbounded => rfl
  | interval lb ub =>
    obtain ⟨low, le, high⟩ := h
    have first := image?_eq unit value ((isValue_iff lb).mpr ⟨low, by omega⟩)
    have second := image?_eq unit value ((isValue_iff ub).mpr ⟨by omega, high⟩)
    simp only [affine?, affine, first, second, Option.bind_eq_bind, Option.bind_some]
  | enumerated vs =>
    simp only [affine?, affine, mapM_image? unit value vs h.2.1, Option.bind_eq_bind, Option.bind_some,
      List.filterMap_map]
    exact values?_filterMap vs fun x n => isValue_of_value?

/-- No step of a multiplication leaves 128 bits. -/
theorem Canonical.scale?_eq (h : d.Canonical) (value : isValue c = true) : d.scale? c = some (d.scale c) := by
  by_cases zero : c = 0
  · subst zero
    cases d <;> rfl
  by_cases one : c = 1
  · subst one
    cases d <;> rfl
  by_cases minus : c = -1
  · subst minus
    cases d with
    | empty => rfl
    | _ => exact h.affine?_eq (c := 0) (.inr rfl) (by decide)
  cases d with
  | empty => rfl
  | unbounded => simp only [scale?, scale, if_neg zero, if_neg one, if_neg minus]
  | interval lb ub =>
    obtain ⟨low, le, high⟩ := h
    have value_lb : isValue lb = true := (isValue_iff lb).mpr ⟨low, by omega⟩
    have value_ub : isValue ub = true := (isValue_iff ub).mpr ⟨by omega, high⟩
    have := natAbs_le_of_isValue value_lb
    have := natAbs_le_of_isValue value_ub
    have span : wide? (ub - lb) = some (ub - lb) := wide?_eq (by omega) (by omega)
    have width : wide? (ub - lb + 1) = some (ub - lb + 1) := wide?_eq (by omega) (by omega)
    simp only [scale?, scale, if_neg zero, if_neg one, if_neg minus, span, width, wide?_mul value_lb value,
      wide?_mul value_ub value, Option.bind_eq_bind, Option.bind_some]
    split
    · exact values?_filterMap _ fun x n => isValue_of_value?
    · rfl
  | enumerated vs =>
    simp only [scale?, scale, if_neg zero, if_neg one, if_neg minus]
    exact values?_filterMap _ fun x n => isValue_of_value?

/-- No step of a division leaves 128 bits or divides by zero. -/
theorem Canonical.divideExact?_eq (h : d.Canonical) (c : Int) : d.divideExact? c = some (d.divideExact c) := by
  unfold divideExact? divideExact
  split
  · split <;> rfl
  rename_i nonzero
  cases d with
  | empty => rfl
  | unbounded => rfl
  | interval lb ub =>
    obtain ⟨low, le, high⟩ := h
    have value_lb : isValue lb = true := (isValue_iff lb).mpr ⟨low, by omega⟩
    have value_ub : isValue ub = true := (isValue_iff ub).mpr ⟨by omega, high⟩
    simp only [ceilDiv?_eq value_lb nonzero, ceilDiv?_eq value_ub nonzero, floorDiv?_eq value_lb nonzero,
      floorDiv?_eq value_ub nonzero, Option.bind_eq_bind, Option.bind_some]
    split <;> rfl
  | enumerated vs =>
    refine values?_filterMap vs fun x n image => ?_
    split at image
    · exact isValue_of_value? image
    · cases image

/-! ## Images -/

/-- The second domain has just the integers of 64 bits that the function makes of the values of
    the first one. -/
def IsImage (f : Int → Int) (d e : Domain) : Prop := ∀ n, isValue n = true → (n ∈ e ↔ ∃ x ∈ d, f x = n)

theorem Canonical.image_shift (h : d.Canonical) (c : Int) : IsImage (· + c) d (d.shift c) := by
  intro n value
  rw [h.mem_shift]
  constructor
  · rintro (rfl | ⟨_, mem⟩)
    · exact ⟨n - c, mem_unbounded _, Int.sub_add_cancel n c⟩
    · exact ⟨n - c, mem, Int.sub_add_cancel n c⟩
  · rintro ⟨x, mem, rfl⟩
    rw [Int.add_sub_cancel]
    exact .inr ⟨value, mem⟩

theorem Canonical.image_subtractFrom (h : d.Canonical) (c : Int) : IsImage (c - ·) d (d.subtractFrom c) := by
  intro n value
  rw [h.mem_subtractFrom]
  constructor
  · rintro (rfl | ⟨_, mem⟩)
    · exact ⟨c - n, mem_unbounded _, Int.sub_sub_self c n⟩
    · exact ⟨c - n, mem, Int.sub_sub_self c n⟩
  · rintro ⟨x, mem, rfl⟩
    rw [Int.sub_sub_self]
    exact .inr ⟨value, mem⟩

theorem Canonical.image_negate (h : d.Canonical) : IsImage (-·) d d.negate := by
  intro n value
  have image := h.image_subtractFrom 0 n value
  simp only [Int.zero_sub] at image
  exact image

theorem mem_divideExact_iff {n : Int} (value : isValue n = true) : n ∈ d.divideExact c ↔ c * n ∈ d := by
  by_cases zero : c = 0
  · subst zero
    unfold divideExact
    rw [if_pos rfl, Int.zero_mul, mem_iff_contains (n := 0)]
    split <;> rename_i contains
    · exact iff_of_true (mem_unbounded n) contains
    · exact iff_of_false (not_mem_empty n) contains
  · rw [mem_divideExact zero]
    constructor
    · rintro (rfl | ⟨_, mem⟩)
      · exact mem_unbounded _
      · exact mem
    · exact fun mem => .inr ⟨value, mem⟩

/-- The domain is listed value by value when it is scaled. -/
def Listed (d : Domain) : Prop := (∃ vs, d = enumerated vs) ∨ ∃ k ≤ materializeLimit, d.size = some k

/-- A large interval is scaled to what its multiples span. -/
theorem scale_interval {lb ub : Int} (large : materializeLimit < ub - lb + 1) (zero : c ≠ 0) (one : c ≠ 1)
    (minus : c ≠ -1) : (interval lb ub).scale c = clampedRange (min (lb * c) (ub * c)) (max (lb * c) (ub * c)) := by
  unfold scale
  dsimp only
  rw [if_neg zero, if_neg one, if_neg minus, if_neg (by omega)]

theorem listed_interval {lb ub : Int} (listed : (interval lb ub).Listed) : ub - lb + 1 ≤ materializeLimit := by
  rcases listed with ⟨vs, same⟩ | ⟨k, few, size_eq⟩
  · cases same
  · rw [size, Option.some.injEq] at size_eq
    simp only [maxSize, materializeLimit] at size_eq few ⊢
    omega

theorem large_of_not_listed {lb ub : Int} (not_listed : ¬(interval lb ub).Listed) : materializeLimit < ub - lb + 1 := by
  by_contra few
  exact not_listed (.inr ⟨_, by omega, rfl⟩)

/-- A finite domain that is not listed when it is scaled is a large interval. -/
theorem interval_of_not_listed (finite : d ≠ unbounded) (not_listed : ¬d.Listed) : ∃ lb ub, d = interval lb ub := by
  cases d with
  | empty => exact absurd (.inr ⟨0, by decide, rfl⟩) not_listed
  | unbounded => exact absurd rfl finite
  | interval lb ub => exact ⟨lb, ub, rfl⟩
  | enumerated vs => exact absurd (.inl ⟨vs, rfl⟩) not_listed

/-- Where it does not scale a large interval, a multiplication adds nothing. -/
theorem Canonical.image_scale (h : d.Canonical) (small : d.Listed ∨ c = 0 ∨ c = 1 ∨ c = -1) :
    IsImage (c * ·) d (d.scale c) := by
  intro n value
  constructor
  swap
  · rintro ⟨x, mem, rfl⟩
    exact h.mem_scale mem value
  have listed (ns : List Int) (mem : n ∈ values (ns.filterMap fun x => value? (x * c))) : ∃ x ∈ ns, c * x = n := by
    rw [mem_values, List.mem_filterMap] at mem
    obtain ⟨x, in_ns, image⟩ := mem
    obtain ⟨_, rfl⟩ := value?_eq_some_iff.mp image
    exact ⟨x, in_ns, Int.mul_comm c x⟩
  intro mem
  unfold scale at mem
  split at mem
  · exact absurd mem (not_mem_empty n)
  rename_i some_value
  split at mem
  · rename_i zero
    obtain ⟨x, in_d⟩ := h.exists_mem (Bool.eq_false_iff.mpr fun is_empty => some_value (isEmpty_iff.mp is_empty))
    exact ⟨x, in_d, by simp only [zero, Int.zero_mul, mem_singleton.mp mem]⟩
  split at mem
  · rename_i one
    exact ⟨n, mem, by simp only [one, Int.one_mul]⟩
  split at mem
  · rename_i minus
    obtain ⟨x, in_d, image⟩ := (h.image_negate n value).mp mem
    exact ⟨x, in_d, by simp only [minus, Int.neg_one_mul, image]⟩
  rename_i zero one minus
  have few : d.Listed := by
    rcases small with few | rfl | rfl | rfl
    · exact few
    · exact absurd rfl zero
    · exact absurd rfl one
    · exact absurd rfl minus
  split at mem
  · rename_i lb ub _
    rw [if_pos (listed_interval few)] at mem
    obtain ⟨x, in_list, image⟩ := listed _ mem
    exact ⟨x, mem_interval.mpr (mem_ascending.mp in_list), image⟩
  · rename_i vs
    obtain ⟨x, in_list, image⟩ := listed vs mem
    exact ⟨x, mem_enumerated.mpr in_list, image⟩
  · rename_i not_interval not_enumerated
    rcases few with ⟨vs, rfl⟩ | ⟨k, _, size_eq⟩
    · exact absurd rfl (not_enumerated vs)
    · cases d with
      | empty => exact absurd rfl some_value
      | unbounded => cases size_eq
      | interval lb ub => exact absurd rfl (not_interval lb ub)
      | enumerated vs => exact absurd rfl (not_enumerated vs)

/-- Arithmetic of a domain is exact: the results have just the integers of 64 bits that it
    makes of the values. Only a large interval is scaled to the interval between the multiples of
    its ends. No step leaves 128 bits or divides by zero. -/
theorem Canonical.arithmetic_exact (h : d.Canonical) (value : isValue c = true) :
    IsImage (· + c) d (d.shift c) ∧ IsImage (-·) d d.negate ∧ IsImage (c - ·) d (d.subtractFrom c) ∧
    (∀ n, isValue n = true → (n ∈ d.divideExact c ↔ c * n ∈ d)) ∧
    (∀ x ∈ d, isValue (c * x) = true → c * x ∈ d.scale c) ∧
    (d.Listed ∨ c = 0 ∨ c = 1 ∨ c = -1 → IsImage (c * ·) d (d.scale c)) ∧
    (∀ lb ub, d = interval lb ub → ¬(d.Listed ∨ c = 0 ∨ c = 1 ∨ c = -1) →
      ∀ n, isValue n = true → (n ∈ d.scale c ↔ min (c * lb) (c * ub) ≤ n ∧ n ≤ max (c * lb) (c * ub))) ∧
    (d.affine? 1 c = some (d.shift c) ∧ d.affine? (-1) 0 = some d.negate ∧
      d.affine? (-1) c = some (d.subtractFrom c) ∧ d.scale? c = some (d.scale c) ∧
      d.divideExact? c = some (d.divideExact c)) := by
  refine ⟨h.image_shift c, h.image_negate, h.image_subtractFrom c, fun n value_n => mem_divideExact_iff value_n,
    fun x mem value_cx => h.mem_scale mem value_cx, h.image_scale, ?_, h.affine?_eq (.inl rfl) value,
    h.affine?_eq (.inr rfl) rfl, h.affine?_eq (.inr rfl) value, h.scale?_eq value, h.divideExact?_eq c⟩
  rintro lb ub rfl large n value_n
  push Not at large
  obtain ⟨not_listed, zero, one, minus⟩ := large
  rw [scale_interval (large_of_not_listed not_listed) zero one minus, mem_clampedRange, Int.mul_comm c lb, Int.mul_comm c ub]
  exact and_iff_left value_n

/-- The multiples of a large interval by 2 ^ 62 span all integers of 64 bits, though only four of
    them are multiples. -/
theorem arithmetic_exact_spanning :
    let d := interval (-5000) 5000
    let c := 4611686018427387904
    d.Canonical ∧ isValue c = true ∧ d.scale c = interval minValue maxValue ∧
      d.scale? c = some (interval minValue maxValue) ∧
      (∀ n, isValue n = true → (n ∈ d.scale c ↔ min (c * -5000) (c * 5000) ≤ n ∧ n ≤ max (c * -5000) (c * 5000))) ∧
      IsImage (· + c) d (d.shift c) ∧ ∀ n, isValue n = true → (n ∈ d.divideExact c ↔ c * n ∈ d) := by
  intro d c
  have canonical : d.Canonical := ⟨by decide, by decide, by decide⟩
  have value : isValue c = true := by decide
  have large : ¬(d.Listed ∨ c = 0 ∨ c = 1 ∨ c = -1) := by
    rintro (listed | zero | one | minus)
    · exact absurd (listed_interval listed) (by decide)
    · exact absurd zero (by decide)
    · exact absurd one (by decide)
    · exact absurd minus (by decide)
  obtain ⟨shift, _, _, divide, _, _, spanned, _, _, _, checked, _⟩ := canonical.arithmetic_exact value
  have scaled : d.scale c = interval minValue maxValue := by decide
  exact ⟨canonical, value, scaled, scaled ▸ checked, spanned _ _ rfl large, shift, divide⟩

/-! ## There and back -/

/-- The values of the domain that have the property; the unbounded domain is kept whole. -/
def keep (p : Int → Bool) : Domain → Domain
  | unbounded => unbounded
  | d => values (d.toList.filter p)

theorem keep_of_finite (finite : d ≠ unbounded) (p : Int → Bool) : d.keep p = values (d.toList.filter p) := by
  cases d with
  | unbounded => exact absurd rfl finite
  | _ => rfl

theorem mem_keep {p : Int → Bool} (finite : d ≠ unbounded) : n ∈ d.keep p ↔ n ∈ d ∧ p n = true := by
  rw [keep_of_finite finite, mem_values, List.mem_filter, mem_toList finite]

theorem Canonical.canonical_keep (h : d.Canonical) (p : Int → Bool) : (d.keep p).Canonical := by
  by_cases finite : d = unbounded
  · subst finite
    trivial
  · rw [keep_of_finite finite]
    refine canonical_values fun n mem => h.isValue_of_mem finite ?_
    exact (mem_toList finite).mp (List.mem_filter.mp mem).1

/-- An integer whose multiple lies between the multiples of two ends lies between the ends. -/
theorem between_of_mul {lb ub x : Int} (le : lb ≤ ub) (nonzero : c ≠ 0)
    (between : min (lb * c) (ub * c) ≤ x * c ∧ x * c ≤ max (lb * c) (ub * c)) : lb ≤ x ∧ x ≤ ub := by
  rcases Int.lt_or_gt_of_ne nonzero with neg | pos
  · have turned := mul_le_mul_of_nonpos_right le (Int.le_of_lt neg)
    rw [min_eq_right turned, max_eq_left turned] at between
    exact ⟨(mul_le_mul_right_of_neg neg).mp between.2, (mul_le_mul_right_of_neg neg).mp between.1⟩
  · have kept := mul_le_mul_of_nonneg_right le (Int.le_of_lt pos)
    rw [min_eq_left kept, max_eq_right kept] at between
    exact ⟨(mul_le_mul_iff_of_pos_right pos).mp between.1, (mul_le_mul_iff_of_pos_right pos).mp between.2⟩

/-- A multiplication adds no multiple of an integer that was not there. -/
theorem Canonical.mem_of_mul_mem_scale (h : d.Canonical) (finite : d ≠ unbounded) (nonzero : c ≠ 0) {x : Int}
    (value : isValue (c * x) = true) (mem : c * x ∈ d.scale c) : x ∈ d := by
  by_cases small : d.Listed ∨ c = 0 ∨ c = 1 ∨ c = -1
  · obtain ⟨y, in_d, same⟩ := (h.image_scale small (c * x) value).mp mem
    obtain rfl := Int.eq_of_mul_eq_mul_left nonzero same
    exact in_d
  push Not at small
  obtain ⟨not_listed, _, one, minus⟩ := small
  obtain ⟨lb, ub, rfl⟩ := interval_of_not_listed finite not_listed
  rw [scale_interval (large_of_not_listed not_listed) nonzero one minus, mem_clampedRange, Int.mul_comm c x] at mem
  exact mem_interval.mpr (between_of_mul h.2.1 nonzero mem.1)

/-- What a multiplication adds to a domain a division takes away again. -/
theorem Canonical.divideExact_scale (h : d.Canonical) (finite : d ≠ unbounded) (nonzero : c ≠ 0) :
    (d.scale c).divideExact c = d.keep fun x => isValue (c * x) := by
  refine (canonical_divideExact _ _).ext (h.canonical_keep _) fun x => ?_
  rw [mem_divideExact nonzero, scale_eq_unbounded_iff nonzero, or_iff_right finite, mem_keep finite]
  constructor
  · rintro ⟨_, mem⟩
    have value : isValue (c * x) = true :=
      (canonical_scale h c).isValue_of_mem (fun full => finite ((scale_eq_unbounded_iff nonzero).mp full)) mem
    exact ⟨h.mem_of_mul_mem_scale finite nonzero value mem, value⟩
  · rintro ⟨mem, value⟩
    exact ⟨h.isValue_of_mem finite mem, h.mem_scale mem value⟩

/-- Moving back, a domain misses what left the integers of 64 bits. -/
theorem Canonical.shift_shift_neg (h : d.Canonical) (c : Int) :
    (d.shift c).shift (-c) = d.keep fun x => isValue (x + c) := by
  by_cases full : d = unbounded
  · subst full
    rfl
  have moved : (d.shift c).Canonical := canonical_affine d 1 c
  have moved_full : d.shift c ≠ unbounded := fun same => full (affine_eq_unbounded_iff.mp same)
  have back : ((d.shift c).shift (-c)).Canonical := canonical_affine _ 1 (-c)
  refine back.ext (h.canonical_keep _) fun x => ?_
  rw [moved.mem_shift, or_iff_right moved_full, h.mem_shift, or_iff_right full, mem_keep full,
    Int.sub_neg, Int.add_sub_cancel]
  exact ⟨fun ⟨_, value, mem⟩ => ⟨mem, value⟩, fun ⟨mem, value⟩ => ⟨h.isValue_of_mem full mem, value, mem⟩⟩

/-- Dividing after a multiplication gives a finite domain back, and moving back any domain, but
    for the values that the first operation took out of the integers of 64 bits. -/
theorem Canonical.round_trip (h : d.Canonical) (value : isValue c = true) :
    (d ≠ unbounded → c ≠ 0 → (d.scale c).divideExact c = d.keep fun x => isValue (c * x)) ∧
    (c ≠ minValue → isValue (-c) = true ∧ (d.shift c).shift (-c) = d.keep fun x => isValue (x + c)) := by
  refine ⟨h.divideExact_scale, fun not_least => ⟨?_, h.shift_shift_neg c⟩⟩
  rw [isValue_iff] at value ⊢
  simp only [minValue, maxValue] at *
  omega

/-- A multiplication by 2 ^ 62 spans all integers of 64 bits, and only four values come back; a
    list loses its last value on the way up. -/
theorem round_trip_clipped :
    let c := 4611686018427387904
    ((interval (-5000) 5000).scale c).divideExact c = interval (-2) 1 ∧
      ((enumerated [0, 2, maxValue]).shift 1).shift (-1) = enumerated [0, 2] ∧
      (interval (-5000) 5000).Canonical ∧ (enumerated [0, 2, maxValue]).Canonical ∧
      ((interval (-5000) 5000).scale c).divideExact c = (interval (-5000) 5000).keep (fun x => isValue (c * x)) ∧
      ((enumerated [0, 2, maxValue]).shift 1).shift (-1) = (enumerated [0, 2, maxValue]).keep fun x => isValue (x + 1) := by
  intro c
  have wide : (interval (-5000) 5000).Canonical := ⟨by decide, by decide, by decide⟩
  have apart : (enumerated [0, 2, maxValue]).Canonical :=
    ⟨by decide, by decide, 1, by decide, ⟨0, by decide, by decide⟩, 2, by decide, by decide⟩
  exact ⟨by decide, by decide, wide, apart, (wide.round_trip (by decide)).1 (by decide) (by decide),
    ((apart.round_trip (by decide)).2 (by decide)).2⟩

end Domain

end ConstraintLogic
