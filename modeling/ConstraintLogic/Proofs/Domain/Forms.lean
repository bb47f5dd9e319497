import ConstraintLogic.Proofs.Domain.Arithmetic
import Mathlib.Data.Set.Card
import Mathlib.Order.Bounds.Basic

/-!
# The forms of domains

Domains are built from integers of 64 bits and from each other. Whatever operations are
used, and in whatever order, each result has one of four forms, two results are equal just
where they have the same values, and the queries report these values: how many there are,
the only one, the ends, and all of them in ascending order.

Results:
* `Domain.Built`: the domains that the operations build.
* `Domain.Built.canonical`: they have the one form of their set.
* `Domain.Canonical.formed`: what that form looks like.
* `Domain.Canonical.reported`: what the queries report.
* `Domain.Built.one_form`: all of this for the domains that are built.
-/

namespace ConstraintLogic.Domain

variable {d e : Domain} {n : Int}

/-! ## Operations -/

/-- The domains that come of building them and of operations on them. -/
inductive Built : Domain → Prop
  | empty : Built empty
  | unbounded : Built unbounded
  | range {lb ub : Int} (low : isValue lb = true) (high : isValue ub = true) : Built (range lb ub)
  | singleton {n : Int} (value : isValue n = true) : Built (singleton n)
  | values {ns : List Int} (value : ∀ n ∈ ns, isValue n = true) : Built (values ns)
  | clampedRange (lb ub : Int) : Built (clampedRange lb ub)
  | intersect {a b : Domain} (first : Built a) (second : Built b) : Built (a.intersect b)
  | lower {d left right : Domain} (whole : Built d) (halves : d.bisect = .ok (left, right)) : Built left
  | upper {d left right : Domain} (whole : Built d) (halves : d.bisect = .ok (left, right)) : Built right
  | remove {d e : Domain} (n : Int) (whole : Built d) (removed : d.remove n = .ok e) : Built e
  | shift {d : Domain} (c : Int) (preimage : Built d) : Built (d.shift c)
  | negate {d : Domain} (preimage : Built d) : Built d.negate
  | subtractFrom {d : Domain} (c : Int) (preimage : Built d) : Built (d.subtractFrom c)
  | scale {d : Domain} (c : Int) (preimage : Built d) : Built (d.scale c)
  | divideExact {d : Domain} (c : Int) (image : Built d) : Built (d.divideExact c)

/-- A domain that has halves is finite and has more than one value. -/
theorem Canonical.bisected (h : d.Canonical) {left right : Domain} (halves : d.bisect = .ok (left, right)) :
    d ≠ unbounded ∧ d.isEmpty = false ∧ d.solution = none := by
  cases d with
  | empty => cases halves
  | unbounded => cases halves
  | interval lb ub =>
    refine ⟨Domain.noConfusion, rfl, ?_⟩
    rw [bisect] at halves
    split at halves
    · rw [solution, if_neg (by omega)]
    · cases halves
  | enumerated vs => exact ⟨Domain.noConfusion, rfl, rfl⟩

theorem Canonical.canonical_bisect (h : d.Canonical) {left right : Domain} (halves : d.bisect = .ok (left, right)) :
    left.Canonical ∧ right.Canonical := by
  obtain ⟨finite, some_value, open_⟩ := h.bisected halves
  obtain ⟨left', right', halves', canonical, canonical', _⟩ := h.bisect_spec finite some_value open_
  cases halves.symm.trans halves'
  exact ⟨canonical, canonical'⟩

/-- Every domain that is built has the one form of its set. -/
theorem Built.canonical (h : d.Built) : d.Canonical := by
  induction h with
  | empty => trivial
  | unbounded => trivial
  | range low high => exact canonical_range ((isValue_iff _).mp low).1 ((isValue_iff _).mp high).2
  | singleton value =>
    obtain ⟨low, high⟩ := (isValue_iff _).mp value
    exact ⟨low, Int.le_refl _, high⟩
  | values value => exact canonical_values value
  | clampedRange lb ub => exact canonical_clampedRange lb ub
  | intersect _ _ first second => exact canonical_intersect first second
  | lower _ halves whole => exact (whole.canonical_bisect halves).1
  | upper _ halves whole => exact (whole.canonical_bisect halves).2
  | remove n _ removed whole => exact whole.canonical_remove removed
  | shift c _ _ => exact canonical_affine _ _ _
  | negate _ _ => exact canonical_affine _ _ _
  | subtractFrom c _ _ => exact canonical_affine _ _ _
  | scale c _ preimage => exact canonical_scale preimage c
  | divideExact c _ _ => exact canonical_divideExact _ c

/-! ## Forms -/

/-- All integers, none, an interval that is not inverted, or at least two ascending values that
    do not fill an interval. -/
def Formed : Domain → Prop
  | empty => True
  | unbounded => True
  | interval lb ub => lb ≤ ub
  | enumerated vs => 2 ≤ vs.length ∧ vs.Pairwise (· < ·) ∧ ∀ lb ub, vs ≠ ascending lb ub

theorem Canonical.formed (h : d.Canonical) : d.Formed := by
  cases d with
  | empty => trivial
  | unbounded => trivial
  | interval lb ub => exact h.2.1
  | enumerated vs =>
    refine ⟨?_, h.1, fun lb ub same => h.ne_interval lb ub fun n => ?_⟩
    · have open_ : ¬(enumerated vs).hasSolution = true := Bool.false_ne_true
      rw [h.hasSolution_of_size rfl rfl] at open_
      omega
    · rw [same, mem_ascending]

/-- Finite domains are equal if they contain the same integers of 64 bits. -/
theorem Canonical.eq_iff_contains (h : d.Canonical) (h' : e.Canonical) (finite : d ≠ unbounded) (finite' : e ≠ unbounded) :
    d = e ↔ ∀ n, isValue n = true → d.contains n = e.contains n := by
  constructor
  · rintro rfl n _
    rfl
  · intro same
    refine h.ext h' fun n => ?_
    by_cases value : isValue n = true
    · rw [mem_iff_contains, mem_iff_contains, same n value]
    · exact iff_of_false (fun mem => value (h.isValue_of_mem finite mem)) fun mem => value (h'.isValue_of_mem finite' mem)

/-! ## Reports -/

/-- The queries report the set of the values. -/
structure Reported (d : Domain) : Prop where
  /-- All values have 64 bits. -/
  valued : ∀ n ∈ d, isValue n = true
  /-- The size is the number of values, as far as that can be reported. -/
  size : d.size = some (min {n | n ∈ d}.ncard maxSize)
  /-- The solution is the only value. -/
  solution : ∀ n, d.solution = some n ↔ {m | m ∈ d} = {n}
  least : ∀ n, d.min? = some n ↔ IsLeast {m | m ∈ d} n
  greatest : ∀ n, d.max? = some n ↔ IsGreatest {m | m ∈ d} n
  /-- The values are listed in ascending order, each once. -/
  ascending : d.toList.Pairwise (· < ·)
  listed : ∀ n, n ∈ d.toList ↔ n ∈ d
  /-- The values that are enumerated first are the first ones of the list. -/
  first : ∀ k, d.firstValues k = .ok (d.toList.take k)

/-- The values of a finite domain are as many as its list has. -/
theorem Canonical.ncard_eq (h : d.Canonical) (finite : d ≠ unbounded) : {n | n ∈ d}.ncard = d.toList.length := by
  have same : {n | n ∈ d} = ((d.toList.toFinset : Finset Int) : Set Int) := by
    ext n
    simp [mem_toList finite]
  rw [same, Set.ncard_coe_finset, List.toFinset_card_of_nodup h.nodup_toList]

theorem Canonical.size_eq (h : d.Canonical) (finite : d ≠ unbounded) : d.size = some (min d.toList.length maxSize) := by
  cases d with
  | empty => rfl
  | unbounded => exact absurd rfl finite
  | interval lb ub => rw [size, toList, length_ascending]
  | enumerated vs =>
    have few : vs.length ≤ maxSize := by
      obtain ⟨_, sorted, not_filled⟩ := h.formed
      cases vs with
      | nil => exact Nat.zero_le _
      | cons lo rest =>
        -- The values span more than their number, and what they span has 64 bits.
        have span := length_le_of_pairwise sorted
        have low := (isValue_iff lo).mp (h.2.1 lo (by simp))
        have high := (isValue_iff _).mp (h.2.1 _ (List.getLastD_mem_cons (a := lo) (l := rest)))
        have gap : rest.getLastD lo - lo ≠ rest.length := fun fills =>
          h.ne_interval lo (rest.getLastD lo) fun n => mem_of_fills sorted fills
        simp only [minValue, maxValue] at low high
        simp only [List.length_cons, maxSize]
        omega
    rw [size, toList, Nat.min_eq_left few]

theorem take_ascending (lb ub : Int) (k : Nat) : (ascending lb ub).take k = ascending lb (min ub (lb + k - 1)) := by
  rw [ascending, ascending, ← List.map_take, List.take_range]
  congr 2
  omega

theorem firstValues_eq (finite : d ≠ unbounded) (k : Nat) : d.firstValues k = .ok (d.toList.take k) := by
  cases d with
  | empty => rw [firstValues, toList, List.take_nil] <;> simp
  | unbounded => exact absurd rfl finite
  | interval lb ub => rw [firstValues, toList, take_ascending]
  | enumerated vs => rfl

theorem Canonical.min?_eq_some_iff (h : d.Canonical) (finite : d ≠ unbounded) :
    d.min? = some n ↔ IsLeast {m | m ∈ d} n := by
  constructor
  · intro least
    exact ⟨h.min?_mem least, fun m mem => h.min?_le least mem⟩
  · rintro ⟨mem, bound⟩
    have some_value : d ≠ empty := by
      rintro rfl
      exact not_mem_empty n mem
    obtain ⟨m, least⟩ := h.exists_min? finite some_value
    have := h.min?_le least mem
    have := bound (h.min?_mem least)
    rw [least, Option.some.injEq]
    omega

theorem Canonical.max?_eq_some_iff (h : d.Canonical) (finite : d ≠ unbounded) :
    d.max? = some n ↔ IsGreatest {m | m ∈ d} n := by
  constructor
  · intro greatest
    exact ⟨h.max?_mem greatest, fun m mem => h.le_max? greatest mem⟩
  · rintro ⟨mem, bound⟩
    have some_value : d ≠ empty := by
      rintro rfl
      exact not_mem_empty n mem
    obtain ⟨m, greatest⟩ := h.exists_max? finite some_value
    have := h.le_max? greatest mem
    have := bound (h.max?_mem greatest)
    rw [greatest, Option.some.injEq]
    omega

/-- The queries of a finite domain report its values. -/
theorem Canonical.reported (h : d.Canonical) (finite : d ≠ unbounded) : d.Reported where
  valued n mem := h.isValue_of_mem finite mem
  size := by rw [h.ncard_eq finite, h.size_eq finite]
  solution n := by rw [h.solution_eq_some_iff, Set.ext_iff]; rfl
  least n := h.min?_eq_some_iff finite
  greatest n := h.max?_eq_some_iff finite
  ascending := h.pairwise_toList
  listed n := mem_toList finite
  first k := firstValues_eq finite k

/-- A domain that is built has one of the four forms, is equal to another one just if both
    contain the same integers, and reports its values, if it is finite. -/
theorem Built.one_form (h : d.Built) :
    d.Formed ∧
    (∀ e : Domain, e.Built → d ≠ .unbounded → e ≠ .unbounded →
      (d = e ↔ ∀ n, isValue n = true → d.contains n = e.contains n)) ∧
    (d ≠ .unbounded → d.Reported) := by
  refine ⟨h.canonical.formed, ?_, h.canonical.reported⟩
  intro e h' finite finite'
  exact h.canonical.eq_iff_contains h'.canonical finite finite'

/-- The multiples -2, -4, -6 of 1, 2, 3 are moved to 8, 6, 4, and then 6 is taken out. -/
theorem one_form_moved :
    ∃ d : Domain, d.Built ∧ d = enumerated [4, 8] ∧ d.Formed ∧
      (∀ e : Domain, e.Built → d ≠ unbounded → e ≠ unbounded →
        (d = e ↔ ∀ n, isValue n = true → d.contains n = e.contains n)) ∧ d.Reported := by
  have built : (enumerated [4, 8]).Built :=
    .remove 6 (.shift 10 (.scale (-2) (@Built.range 1 3 rfl rfl))) (by decide)
  have finite : enumerated [4, 8] ≠ unbounded := nofun
  obtain ⟨formed, same, reported⟩ := built.one_form
  exact ⟨_, built, rfl, formed, same, reported finite⟩

end ConstraintLogic.Domain
