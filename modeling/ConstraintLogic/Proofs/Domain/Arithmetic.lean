import ConstraintLogic.Domain.Lemmas
import ConstraintLogic.Solver.Propagate
import Mathlib.Algebra.GroupWithZero.Nat
import Mathlib.Data.List.Sort
import Mathlib.Data.List.Perm.Subperm

/-!
# The arithmetic of domains

What the images, the splits and the queries of a domain say about its set. A
domain in its one form is determined by that set, and a smaller set makes a
domain that can shrink less often.

Results:
* `Domain.Canonical.ext`: canonical domains of the same values are equal.
* `Domain.Canonical.mem_affine`, `Domain.Canonical.mem_scale`,
  `Domain.mem_divideExact`: images and preimages; only scaling may add values.
* `Domain.Canonical.mem_remove`: taking a value out loses no other.
* `Domain.Canonical.bisect_spec`: both halves of a domain with at least two values.
* `Domain.room_lt`: a domain that loses a value can shrink less often.
-/

namespace ConstraintLogic

theorem value?_bind_eq_some_iff {α : Type} {n : Int} {f : Int → Option α} {a : α} :
    (value? n).bind f = some a ↔ isValue n = true ∧ f n = some a := by
  unfold value?
  split <;> simp_all

namespace Domain

/-! ## Values -/

theorem isValue_of_value? {m n : Int} (h : value? m = some n) : isValue n = true := by
  obtain ⟨value, rfl⟩ := value?_eq_some_iff.mp h
  exact value

theorem Canonical.isValue_of_mem {d : Domain} (h : d.Canonical) (finite : d ≠ unbounded) {n : Int}
    (mem : n ∈ d) : isValue n = true := by
  cases d with
  | empty => simp at mem
  | unbounded => exact absurd rfl finite
  | interval lb ub =>
    rw [mem_interval] at mem
    obtain ⟨hl, _, hu⟩ := h
    exact (isValue_iff n).mpr ⟨by omega, by omega⟩
  | enumerated vs => exact h.2.1 n (mem_enumerated.mp mem)

theorem mem_toList {d : Domain} (finite : d ≠ unbounded) {n : Int} : n ∈ d.toList ↔ n ∈ d := by
  cases d with
  | empty => simp [toList]
  | unbounded => exact absurd rfl finite
  | interval lb ub => simp [toList]
  | enumerated vs => simp [toList]

theorem pairwise_ascending (lb ub : Int) : (ascending lb ub).Pairwise (· < ·) := by
  unfold ascending
  rw [List.pairwise_map]
  exact List.pairwise_lt_range.imp fun less => by omega

theorem Canonical.pairwise_toList {d : Domain} (h : d.Canonical) :
    d.toList.Pairwise (· < ·) := by
  cases d with
  | interval lb ub => exact pairwise_ascending lb ub
  | enumerated vs => exact h.1
  | _ => exact .nil

theorem Canonical.nodup_toList {d : Domain} (h : d.Canonical) : d.toList.Nodup :=
  h.pairwise_toList.imp Int.ne_of_lt

/-- A canonical domain is only empty if it has no value. -/
theorem Canonical.exists_mem {d : Domain} (h : d.Canonical) (some_value : d.isEmpty = false) :
    ∃ n, n ∈ d := by
  cases d with
  | empty => simp [isEmpty] at some_value
  | unbounded => exact ⟨0, mem_unbounded 0⟩
  | interval lb ub => exact ⟨lb, mem_interval.mpr ⟨Int.le_refl lb, h.2.1⟩⟩
  | enumerated vs =>
    obtain ⟨_, _, n, _, ⟨lo, mem, _⟩, _⟩ := h
    exact ⟨lo, mem_enumerated.mpr mem⟩

theorem isEmpty_iff {d : Domain} : d.isEmpty = true ↔ d = empty := by
  cases d <;> simp [isEmpty]

theorem isUnbounded_iff {d : Domain} : d.isUnbounded = true ↔ d = unbounded := by
  cases d <;> simp [isUnbounded]

/-- The values of an enumerated domain do not fill an interval. -/
theorem Canonical.ne_interval {vs : List Int} (h : (enumerated vs).Canonical) (lb ub : Int) :
    ¬∀ n, n ∈ vs ↔ lb ≤ n ∧ n ≤ ub := by
  intro same
  obtain ⟨_, _, n, gap, ⟨lo, mem_lo, low⟩, hi, mem_hi, high⟩ := h
  have := (same lo).mp mem_lo
  have := (same hi).mp mem_hi
  exact gap ((same n).mpr (by omega))

theorem Canonical.not_all {d : Domain} (h : d.Canonical) (finite : d ≠ unbounded) :
    ∃ n, n ∉ d :=
  ⟨maxValue + 1, fun mem => absurd (h.isValue_of_mem finite mem) (by decide)⟩

/-- A canonical domain is determined by its values. -/
theorem Canonical.ext {a b : Domain} (ha : a.Canonical) (hb : b.Canonical)
    (same : ∀ n, n ∈ a ↔ n ∈ b) : a = b := by
  by_cases full_a : a = unbounded
  · by_contra differ
    obtain ⟨n, out⟩ := hb.not_all fun full_b => differ (full_a.trans full_b.symm)
    exact out ((same n).mp (full_a ▸ mem_unbounded n))
  by_cases full_b : b = unbounded
  · obtain ⟨n, out⟩ := ha.not_all full_a
    exact absurd ((same n).mpr (full_b ▸ mem_unbounded n)) out
  cases a with
  | unbounded => exact absurd rfl full_a
  | empty =>
    by_contra differ
    obtain ⟨n, mem⟩ := hb.exists_mem (by cases b <;> simp_all [isEmpty])
    exact not_mem_empty n ((same n).mpr mem)
  | interval lb ub =>
    cases b with
    | unbounded => exact absurd rfl full_b
    | empty =>
      obtain ⟨n, mem⟩ := ha.exists_mem rfl
      exact absurd ((same n).mp mem) (not_mem_empty n)
    | interval lb' ub' =>
      simp only [mem_interval] at same
      have := (same lb).mp ⟨Int.le_refl lb, ha.2.1⟩
      have := (same ub).mp ⟨ha.2.1, Int.le_refl ub⟩
      have := (same lb').mpr ⟨Int.le_refl lb', hb.2.1⟩
      have := (same ub').mpr ⟨hb.2.1, Int.le_refl ub'⟩
      rw [interval.injEq]
      omega
    | enumerated vs =>
      refine absurd (fun n => ?_) (hb.ne_interval lb ub)
      rw [← mem_enumerated, ← mem_interval, same]
  | enumerated vs =>
    cases b with
    | unbounded => exact absurd rfl full_b
    | empty =>
      obtain ⟨n, mem⟩ := ha.exists_mem rfl
      exact absurd ((same n).mp mem) (not_mem_empty n)
    | interval lb ub =>
      refine absurd (fun n => ?_) (ha.ne_interval lb ub)
      rw [← mem_enumerated, ← mem_interval, same]
    | enumerated ws =>
      rw [enumerated.injEq]
      refine List.Pairwise.eq_of_mem_iff ha.1 hb.1 fun n => ?_
      rw [← mem_enumerated, ← mem_enumerated, same]

/-! ## Queries -/

/-- The solution of a domain is its only value. -/
theorem Canonical.solution_eq_some_iff {d : Domain} (h : d.Canonical) {n : Int} :
    d.solution = some n ↔ ∀ m, m ∈ d ↔ m = n := by
  constructor
  · intro only
    cases d with
    | interval lb ub =>
      rw [solution] at only
      split at only
      · cases only
        intro m
        rw [mem_interval]
        omega
      · cases only
    | _ => cases only
  · intro only
    have : d = interval n n := by
      by_cases finite : d = unbounded
      · have := (only (n + 1)).mp (finite ▸ mem_unbounded _)
        omega
      · have value := (isValue_iff n).mp (h.isValue_of_mem finite ((only n).mpr rfl))
        refine h.ext ⟨value.1, Int.le_refl n, value.2⟩ fun m => ?_
        rw [only, mem_interval]
        omega
    rw [this, solution, if_pos rfl]

theorem Canonical.mem_of_solution {d : Domain} (h : d.Canonical) {n : Int}
    (only : d.solution = some n) : n ∈ d := (h.solution_eq_some_iff.mp only n).mpr rfl

theorem ne_unbounded_of_size {d : Domain} {k : Nat} (h : d.size = some k) : d ≠ unbounded := by
  rintro rfl
  cases h

/-- A domain of less than two values that is not empty has a solution. -/
theorem Canonical.hasSolution_of_size {d : Domain} (h : d.Canonical) (some_value : d.isEmpty = false)
    {k : Nat} (size : d.size = some k) : d.hasSolution = true ↔ k < 2 := by
  cases d with
  | empty => simp [isEmpty] at some_value
  | unbounded => cases size
  | interval lb ub =>
    obtain ⟨_, le, _⟩ := h
    cases size
    simp only [hasSolution, solution, maxSize]
    split
    · simp
      omega
    · simp
      omega
  | enumerated vs =>
    obtain ⟨_, _, n, gap, ⟨lo, mem_lo, low⟩, hi, mem_hi, high⟩ := h
    cases size
    simp only [hasSolution, solution, Option.isSome_none, Bool.false_eq_true, false_iff, not_lt]
    cases vs with
    | nil => cases mem_lo
    | cons a vs =>
      cases vs with
      | nil =>
        rw [List.mem_singleton] at mem_lo mem_hi
        omega
      | cons b vs => simp

/-- The least value bounds the domain from below. -/
theorem Canonical.min?_le {d : Domain} (h : d.Canonical) {lo n : Int} (least : d.min? = some lo)
    (mem : n ∈ d) : lo ≤ n := by
  cases d with
  | empty => cases least
  | unbounded => cases least
  | interval lb ub =>
    cases least
    exact (mem_interval.mp mem).1
  | enumerated vs =>
    cases vs with
    | nil => cases least
    | cons m rest =>
      cases least
      exact (le_getLastD_of_mem h.1 (mem_enumerated.mp mem)).1

/-- The greatest value bounds the domain from above. -/
theorem Canonical.le_max? {d : Domain} (h : d.Canonical) {hi n : Int} (greatest : d.max? = some hi)
    (mem : n ∈ d) : n ≤ hi := by
  cases d with
  | empty => cases greatest
  | unbounded => cases greatest
  | interval lb ub =>
    cases greatest
    exact (mem_interval.mp mem).2
  | enumerated vs =>
    cases vs with
    | nil => cases greatest
    | cons m rest =>
      rw [max?, List.getLast?_cons, Option.some.injEq] at greatest
      rw [← greatest, ← List.getLastD_eq_getLast?]
      exact (le_getLastD_of_mem h.1 (mem_enumerated.mp mem)).2

theorem min?_of_solution {d : Domain} {n : Int} (h : d.solution = some n) : d.min? = some n := by
  cases d with
  | interval lb ub =>
    rw [solution] at h
    split at h
    · exact h
    · cases h
  | _ => cases h

theorem max?_of_solution {d : Domain} {n : Int} (h : d.solution = some n) : d.max? = some n := by
  cases d with
  | interval lb ub =>
    rw [solution] at h
    split at h
    · rename_i same
      rw [max?, ← same]
      exact h
    · cases h
  | _ => cases h

/-! ## Images -/

/-- An image under `x ↦ sign * x + c` has the values that come from the domain. -/
theorem Canonical.mem_affine {sign c n : Int} {d : Domain} (h : d.Canonical)
    (unit : sign = 1 ∨ sign = -1) :
    n ∈ d.affine sign c ↔ d = unbounded ∨ isValue n = true ∧ sign * (n - c) ∈ d := by
  cases d with
  | empty => simp [affine]
  | unbounded => simp [affine]
  | interval lb ub =>
    have := h.2.1
    simp only [affine, mem_clampedRange, mem_interval, reduceCtorEq, false_or]
    rw [and_comm]
    refine and_congr_right fun _ => ?_
    rcases unit with rfl | rfl <;> omega
  | enumerated vs =>
    simp only [affine, mem_values, List.mem_filterMap, value?_eq_some_iff, mem_enumerated,
      reduceCtorEq, false_or]
    constructor
    · rintro ⟨x, mem, value, rfl⟩
      refine ⟨value, ?_⟩
      rcases unit with rfl | rfl
      · rwa [show (1 : Int) * (1 * x + c - c) = x by omega]
      · rwa [show (-1 : Int) * (-1 * x + c - c) = x by omega]
    · rintro ⟨value, mem⟩
      refine ⟨_, mem, ?_⟩
      have : sign * (sign * (n - c)) + c = n := by rcases unit with rfl | rfl <;> omega
      rw [this]
      exact ⟨value, rfl⟩

theorem canonical_filterMap {f : Int → Option Int} (vs : List Int)
    (h : ∀ x n, f x = some n → isValue n = true) : (values (vs.filterMap f)).Canonical := by
  refine canonical_values fun n mem => ?_
  obtain ⟨x, _, image⟩ := List.mem_filterMap.mp mem
  exact h x n image

theorem canonical_affine (d : Domain) (sign c : Int) : (d.affine sign c).Canonical := by
  cases d with
  | empty => trivial
  | unbounded => trivial
  | interval lb ub => exact canonical_clampedRange _ _
  | enumerated vs =>
    exact canonical_filterMap vs fun x n => isValue_of_value?

theorem Canonical.mem_shift {c n : Int} {d : Domain} (h : d.Canonical) :
    n ∈ d.shift c ↔ d = unbounded ∨ isValue n = true ∧ n - c ∈ d := by
  rw [shift, h.mem_affine (.inl rfl), Int.one_mul]

theorem Canonical.mem_subtractFrom {c n : Int} {d : Domain} (h : d.Canonical) :
    n ∈ d.subtractFrom c ↔ d = unbounded ∨ isValue n = true ∧ c - n ∈ d := by
  rw [subtractFrom, h.mem_affine (.inr rfl), show -1 * (n - c) = c - n by omega]

theorem Canonical.of_mem_affine {sign c n : Int} {d : Domain} (h : d.Canonical) (unit : sign = 1 ∨ sign = -1)
    (mem : n ∈ d.affine sign c) : sign * (n - c) ∈ d := by
  rcases (h.mem_affine unit).mp mem with full | ⟨_, mem⟩
  · rw [full]
    exact mem_unbounded _
  · exact mem

/-- The multiple of a value belongs to the scaled domain. -/
theorem Canonical.mem_scale {c x : Int} {d : Domain} (h : d.Canonical) (mem : x ∈ d)
    (value : isValue (c * x) = true) : c * x ∈ d.scale c := by
  have comm : x * c = c * x := Int.mul_comm x c
  unfold scale
  split
  · exact absurd mem (not_mem_empty x)
  · split
    · rename_i zero
      simp [zero]
    · split
      · rename_i one
        rwa [one, Int.one_mul]
      · split
        · rename_i minus
          subst minus
          rw [negate, h.mem_affine (.inr rfl)]
          refine .inr ⟨value, ?_⟩
          rwa [show (-1 : Int) * (-1 * x - 0) = x by omega]
        · split
          · rename_i lb ub
            rw [mem_interval] at mem
            split
            · rw [mem_values, List.mem_filterMap]
              exact ⟨x, mem_ascending.mpr mem, value?_eq_some_iff.mpr ⟨comm ▸ value, comm⟩⟩
            · rw [mem_clampedRange, ← comm]
              refine ⟨?_, comm ▸ value⟩
              rcases Int.le_total 0 c with pos | neg
              · have := Int.mul_le_mul_of_nonneg_right mem.1 pos
                have := Int.mul_le_mul_of_nonneg_right mem.2 pos
                omega
              · have := Int.mul_le_mul_of_nonpos_right mem.1 neg
                have := Int.mul_le_mul_of_nonpos_right mem.2 neg
                omega
          · rw [mem_values, List.mem_filterMap]
            exact ⟨x, mem_enumerated.mp mem, value?_eq_some_iff.mpr ⟨comm ▸ value, comm⟩⟩
          · cases d <;> simp_all

theorem canonical_scale {d : Domain} (h : d.Canonical) (c : Int) : (d.scale c).Canonical := by
  unfold scale
  split
  · trivial
  · split
    · exact ⟨by decide, Int.le_refl 0, by decide⟩
    · split
      · exact h
      · split
        · exact canonical_affine _ _ _
        · split
          · split
            · exact canonical_filterMap _ fun x n => isValue_of_value?
            · exact canonical_clampedRange _ _
          · exact canonical_filterMap _ fun x n => isValue_of_value?
          · exact h

theorem le_fdiv_iff {x a c : Int} (pos : 0 < c) : x ≤ Int.fdiv a c ↔ c * x ≤ a := by
  rw [Int.fdiv_eq_ediv_of_nonneg a (by omega), Int.le_ediv_iff_mul_le pos, Int.mul_comm]

theorem ceilDiv_le_iff {x a c : Int} (pos : 0 < c) : ceilDiv a c ≤ x ↔ a ≤ c * x := by
  have := le_fdiv_iff (x := -x) (a := -a) pos
  rw [Int.mul_neg] at this
  unfold ceilDiv
  omega

/-- The exact quotients are the values whose multiple belongs to the domain. -/
theorem mem_divideExact {c x : Int} {d : Domain} (h : c ≠ 0) :
    x ∈ d.divideExact c ↔ d = unbounded ∨ isValue x = true ∧ c * x ∈ d := by
  unfold divideExact
  rw [if_neg h]
  cases d with
  | empty => simp
  | unbounded => simp
  | interval lb ub =>
    simp only [reduceCtorEq, false_or, mem_interval]
    split
    · rename_i pos
      rw [mem_clampedRange, ceilDiv_le_iff pos, le_fdiv_iff pos, and_comm]
    · rename_i neg
      have pos : 0 < -c := by omega
      have low := ceilDiv_le_iff (x := x) (a := -ub) pos
      have high := le_fdiv_iff (x := x) (a := -lb) pos
      rw [Int.neg_fdiv_neg] at high
      rw [ceilDiv, Int.neg_fdiv_neg] at low
      rw [Int.neg_mul] at low high
      rw [mem_clampedRange, ceilDiv, low, high, and_comm]
      refine and_congr_right fun _ => ?_
      omega
  | enumerated vs =>
    simp only [mem_values, List.mem_filterMap, mem_enumerated, reduceCtorEq, false_or]
    constructor
    · rintro ⟨a, mem, image⟩
      split at image
      · rename_i divides
        obtain ⟨value, rfl⟩ := value?_eq_some_iff.mp image
        rw [Int.mul_tdiv_cancel_of_tmod_eq_zero divides]
        exact ⟨value, mem⟩
      · cases image
    · rintro ⟨value, mem⟩
      refine ⟨c * x, mem, ?_⟩
      rw [if_pos (Int.mul_tmod_right c x), Int.mul_tdiv_cancel_left x h]
      exact value?_eq_some_iff.mpr ⟨value, rfl⟩

theorem of_mem_divideExact {c x : Int} {d : Domain} (h : c ≠ 0) (mem : x ∈ d.divideExact c) :
    c * x ∈ d := by
  rcases (mem_divideExact h).mp mem with full | ⟨_, mem⟩
  · rw [full]
    exact mem_unbounded _
  · exact mem

theorem canonical_divideExact (d : Domain) (c : Int) : (d.divideExact c).Canonical := by
  unfold divideExact
  split
  · split <;> trivial
  · split
    · trivial
    · trivial
    · split <;> exact canonical_clampedRange _ _
    · refine canonical_filterMap _ fun x n h => ?_
      split at h
      · exact isValue_of_value? h
      · cases h

/-! ## Finite domains -/

theorem range_ne_unbounded (lb ub : Int) : range lb ub ≠ unbounded := by
  unfold range
  split <;> simp

theorem clampedRange_ne_unbounded (lb ub : Int) : clampedRange lb ub ≠ unbounded := by
  unfold clampedRange
  split
  · simp
  · exact range_ne_unbounded _ _

theorem values_ne_unbounded (ns : List Int) : values ns ≠ unbounded := by
  unfold values ofAscending
  split
  · simp
  · dsimp only
    split <;> simp

/-- An image under `x ↦ sign * x + c` is finite just where the domain is. -/
theorem affine_eq_unbounded_iff {sign c : Int} {d : Domain} :
    d.affine sign c = unbounded ↔ d = unbounded := by
  cases d <;> simp [affine, clampedRange_ne_unbounded, values_ne_unbounded]

theorem scale_eq_unbounded_iff {c : Int} {d : Domain} (h : c ≠ 0) : d.scale c = unbounded ↔ d = unbounded := by
  unfold scale
  split
  · simp
  · rw [if_neg h]
    split
    · rfl
    · split
      · exact affine_eq_unbounded_iff
      · split
        · split <;> simp [values_ne_unbounded, clampedRange_ne_unbounded]
        · simp [values_ne_unbounded]
        · rfl

theorem divideExact_eq_unbounded_iff {c : Int} {d : Domain} (h : c ≠ 0) :
    d.divideExact c = unbounded ↔ d = unbounded := by
  unfold divideExact
  rw [if_neg h]
  cases d with
  | interval lb ub =>
    dsimp only
    split <;> simp [clampedRange_ne_unbounded]
  | _ => simp [values_ne_unbounded]

/-- A finite domain that is not empty has a least value. -/
theorem Canonical.exists_min? {d : Domain} (h : d.Canonical) (finite : d ≠ unbounded) (some_value : d ≠ empty) :
    ∃ n, d.min? = some n := by
  cases d with
  | empty => exact absurd rfl some_value
  | unbounded => exact absurd rfl finite
  | interval lb ub => exact ⟨lb, rfl⟩
  | enumerated vs =>
    obtain ⟨_, _, n, _, ⟨lo, mem, _⟩, _⟩ := h
    exact ⟨_, List.head?_eq_some_head (List.ne_nil_of_mem mem)⟩

theorem Canonical.exists_max? {d : Domain} (h : d.Canonical) (finite : d ≠ unbounded) (some_value : d ≠ empty) :
    ∃ n, d.max? = some n := by
  cases d with
  | empty => exact absurd rfl some_value
  | unbounded => exact absurd rfl finite
  | interval lb ub => exact ⟨ub, rfl⟩
  | enumerated vs =>
    obtain ⟨_, _, n, _, ⟨lo, mem, _⟩, _⟩ := h
    exact ⟨_, List.getLast?_eq_some_getLast (List.ne_nil_of_mem mem)⟩

/-- The least and the greatest value of the domain. -/
structure Spans (d : Domain) (lo hi : Int) : Prop where
  low : lo ∈ d
  high : hi ∈ d
  between : ∀ n ∈ d, lo ≤ n ∧ n ≤ hi

theorem Canonical.min?_mem {d : Domain} (h : d.Canonical) {n : Int} (least : d.min? = some n) : n ∈ d := by
  cases d with
  | empty => cases least
  | unbounded => cases least
  | interval lb ub =>
    cases least
    exact mem_interval.mpr ⟨Int.le_refl _, h.2.1⟩
  | enumerated vs => exact mem_enumerated.mpr (List.mem_of_head? least)

theorem Canonical.max?_mem {d : Domain} (h : d.Canonical) {n : Int} (greatest : d.max? = some n) : n ∈ d := by
  cases d with
  | empty => cases greatest
  | unbounded => cases greatest
  | interval lb ub =>
    cases greatest
    exact mem_interval.mpr ⟨h.2.1, Int.le_refl _⟩
  | enumerated vs => exact mem_enumerated.mpr (List.mem_of_getLast? greatest)

/-- A domain that has a least and a greatest value is finite, and answers them. -/
theorem Canonical.ends_of_spans {d : Domain} (h : d.Canonical) {lo hi : Int} (spans : d.Spans lo hi) :
    d.min? = some lo ∧ d.max? = some hi := by
  have finite : d ≠ unbounded := by
    rintro rfl
    have := (spans.between (hi + 1) (mem_unbounded _)).2
    omega
  have some_value : d ≠ empty := by
    rintro rfl
    exact not_mem_empty lo spans.low
  obtain ⟨least, at_least⟩ := h.exists_min? finite some_value
  obtain ⟨greatest, at_greatest⟩ := h.exists_max? finite some_value
  have := h.min?_le at_least spans.low
  have := h.le_max? at_greatest spans.high
  have := (spans.between least (h.min?_mem at_least)).1
  have := (spans.between greatest (h.max?_mem at_greatest)).2
  refine ⟨at_least.trans (congrArg some ?_), at_greatest.trans (congrArg some ?_)⟩ <;> omega

/-! ## Taking values out -/

/-- Without `n` a domain keeps every other value. -/
theorem Canonical.mem_remove {d e : Domain} (h : d.Canonical) {n m : Int}
    (removed : d.remove n = .ok e) (differ : m ≠ n) : m ∈ e ↔ m ∈ d := by
  unfold remove at removed
  split at removed
  · split at removed
    · split at removed
      · split at removed
        · cases removed
        · cases removed
          rw [mem_range, mem_interval]
          omega
      · split at removed
        · cases removed
          rw [mem_range, mem_interval]
          omega
        · split at removed
          · cases removed
            rw [mem_ofAscending ((pairwise_ascending _ _).filter _), List.mem_filter]
            simp [differ]
          · cases removed
            exact Iff.rfl
    · cases removed
      rw [mem_ofAscending (h.1.filter _), List.mem_filter]
      simp [differ]
    · cases removed
      exact Iff.rfl
  · cases removed
    exact Iff.rfl

theorem Canonical.canonical_remove {d e : Domain} (h : d.Canonical) {n : Int}
    (removed : d.remove n = .ok e) : e.Canonical := by
  unfold remove at removed
  split at removed
  · split at removed
    · obtain ⟨hl, _, hu⟩ := h
      split at removed
      · split at removed
        · cases removed
        · cases removed
          exact canonical_range (by omega) hu
      · split at removed
        · cases removed
          exact canonical_range hl (by omega)
        · split at removed
          · cases removed
            refine canonical_ofAscending ((pairwise_ascending _ _).filter _) fun m mem => ?_
            have := mem_ascending.mp (List.mem_filter.mp mem).1
            exact (isValue_iff m).mpr ⟨by omega, by omega⟩
          · cases removed
            exact ⟨hl, by omega, hu⟩
    · cases removed
      exact canonical_ofAscending_filter _ h
    · cases removed
      exact h
  · cases removed
    exact h

theorem mem_of_mem_remove {d e : Domain} (h : d.Canonical) {n m : Int} (removed : d.remove n = .ok e) (mem : m ∈ e) : m ∈ d := by
  by_cases same : m = n
  · subst same
    by_contra out
    have : d.remove m = .ok d := if_neg out
    rw [this] at removed
    cases removed
    exact out mem
  · exact (h.mem_remove removed same).mp mem

/-- A value is taken out in vain only where it is the greatest integer and its domain starts
    with it. -/
theorem remove_error {d : Domain} {n : Int} {f : Fault} (h : d.remove n = .error f) :
    f = .addOverflow ∧ maxValue ∈ d ∧ n = maxValue := by
  unfold remove at h
  split at h
  · rename_i here
    split at h
    · split at h
      · rename_i first
        split at h
        · rename_i greatest
          cases h
          subst greatest first
          exact ⟨rfl, here, rfl⟩
        · cases h
      · split at h
        · cases h
        · split at h <;> cases h
    · cases h
    · cases h
  · cases h

/-! ## Splitting -/

/-- A finite domain without solution has two halves, and the lower one lies below
    the upper one. -/
theorem Canonical.bisect_spec {d : Domain} (h : d.Canonical) (finite : d ≠ unbounded)
    (some_value : d.isEmpty = false) (open_ : d.solution = none) :
    ∃ left right, d.bisect = .ok (left, right) ∧ left.Canonical ∧ right.Canonical ∧
      left.isEmpty = false ∧ right.isEmpty = false ∧ left ≠ unbounded ∧ right ≠ unbounded ∧
      (∀ n, n ∈ d ↔ n ∈ left ∨ n ∈ right) ∧ ∀ m ∈ left, ∀ n ∈ right, m < n := by
  cases d with
  | empty => simp [isEmpty] at some_value
  | unbounded => exact absurd rfl finite
  | interval lb ub =>
    obtain ⟨hl, le, hu⟩ := h
    have less : lb < ub := by
      rw [solution] at open_
      split at open_
      · cases open_
      · omega
    have half : lb ≤ lb + (ub - lb) / 2 ∧ lb + (ub - lb) / 2 < ub := by omega
    refine ⟨_, _, by rw [bisect, if_pos less], ?_⟩
    refine ⟨canonical_range hl (by omega), canonical_range (by omega) hu, ?_⟩
    refine ⟨by rw [range, if_neg (by omega)]; rfl, by rw [range, if_neg (by omega)]; rfl, ?_⟩
    refine ⟨by rw [range, if_neg (by omega)]; simp, by rw [range, if_neg (by omega)]; simp, ?_⟩
    refine ⟨fun n => ?_, fun m low n high => ?_⟩
    · simp only [mem_interval, mem_range]
      omega
    · rw [mem_range] at low high
      omega
  | enumerated vs =>
    obtain ⟨sorted, value, n, gap, ⟨lo, mem_lo, low⟩, hi, mem_hi, high⟩ := h
    have two : 2 ≤ vs.length := by
      by_contra few
      obtain ⟨i, hi', rfl⟩ := List.mem_iff_getElem.mp mem_lo
      obtain ⟨j, hj', rfl⟩ := List.mem_iff_getElem.mp mem_hi
      have : i = j := by omega
      subst this
      omega
    have split_ : vs.take (vs.length / 2) ++ vs.drop (vs.length / 2) = vs :=
      List.take_append_drop _ vs
    have sorted' := sorted
    rw [← split_, List.pairwise_append] at sorted'
    obtain ⟨left_sorted, right_sorted, across⟩ := sorted'
    have in_left (m : Int) : m ∈ ofAscending (vs.take (vs.length / 2)) ↔
        m ∈ vs.take (vs.length / 2) := mem_ofAscending left_sorted
    have in_right (m : Int) : m ∈ ofAscending (vs.drop (vs.length / 2)) ↔
        m ∈ vs.drop (vs.length / 2) := mem_ofAscending right_sorted
    have left_form := canonical_ofAscending left_sorted fun m mem => value m (List.mem_of_mem_take mem)
    have right_form := canonical_ofAscending right_sorted fun m mem =>
      value m (List.mem_of_mem_drop mem)
    have nonempty (ws : List Int) (some_ws : ws ≠ []) : (ofAscending ws).isEmpty = false ∧
        ofAscending ws ≠ unbounded := by
      cases ws with
      | nil => exact absurd rfl some_ws
      | cons w ws =>
        rw [ofAscending]
        split
        · exact ⟨rfl, by simp⟩
        · exact ⟨rfl, by simp⟩
    have some_left := nonempty (vs.take (vs.length / 2)) fun nil => by
      have := congrArg List.length nil
      rw [List.length_take, List.length_nil] at this
      omega
    have some_right := nonempty (vs.drop (vs.length / 2)) fun nil => by
      have := congrArg List.length nil
      rw [List.length_drop, List.length_nil] at this
      omega
    refine ⟨_, _, rfl, left_form, right_form, some_left.1, some_right.1, some_left.2, some_right.2,
      fun m => ?_, fun m low n high => ?_⟩
    · rw [in_left, in_right, mem_enumerated, ← List.mem_append, split_]
    · exact across m ((in_left m).mp low) n ((in_right n).mp high)

/-! ## How often a domain can shrink -/

/-- How often a domain can still shrink, and one more. -/
def room (d : Domain) : Nat := if d = unbounded then maxChanges else d.toList.length

theorem room_of_finite {d : Domain} (h : d ≠ unbounded) : d.room = d.toList.length := if_neg h

theorem length_ascending (lb ub : Int) : (ascending lb ub).length = (ub - lb + 1).toNat := by
  rw [ascending, List.length_map, List.length_range]

theorem Canonical.length_toList_lt {d : Domain} (h : d.Canonical) :
    d.toList.length < maxChanges := by
  have within {lo : Int} {ns : List Int} (sorted : (lo :: ns).Pairwise (· < ·))
      (value : ∀ n ∈ lo :: ns, isValue n = true) : (lo :: ns).length < maxChanges := by
    have span := length_le_of_pairwise sorted
    have low := (isValue_iff lo).mp (value lo (by simp))
    have last : ns.getLastD lo ∈ lo :: ns := List.getLastD_mem_cons
    have high := (isValue_iff _).mp (value _ last)
    simp only [maxValue, minValue] at low high
    simp only [maxChanges, maxSize, List.length_cons]
    omega
  cases d with
  | interval lb ub =>
    obtain ⟨hl, _, hu⟩ := h
    simp only [maxValue, minValue] at hl hu
    simp only [toList, length_ascending, maxChanges, maxSize]
    omega
  | enumerated vs =>
    cases vs with
    | nil => simp [toList, maxChanges]
    | cons lo ns => exact within h.1 h.2.1
  | _ => simp [toList, maxChanges]

theorem Canonical.room_le {d : Domain} (h : d.Canonical) : d.room ≤ maxChanges := by
  unfold room
  split
  · exact Nat.le_refl _
  · exact Nat.le_of_lt h.length_toList_lt

/-- A domain of fewer values can shrink less often. -/
theorem room_lt {a b : Domain} (ha : a.Canonical) (hb : b.Canonical) (sub : ∀ n, n ∈ a → n ∈ b)
    (differ : a ≠ b) : a.room < b.room := by
  by_cases full_b : b = unbounded
  · have finite : a ≠ unbounded := fun full_a => differ (full_a.trans full_b.symm)
    rw [room_of_finite finite, full_b]
    exact ha.length_toList_lt
  · have finite : a ≠ unbounded := by
      rintro rfl
      obtain ⟨n, out⟩ := hb.not_all full_b
      exact out (sub n (mem_unbounded n))
    rw [room_of_finite finite, room_of_finite full_b]
    have inside : a.toList ⊆ b.toList := fun n mem =>
      (mem_toList full_b).mpr (sub n ((mem_toList finite).mp mem))
    have fewer := ha.nodup_toList.subperm inside
    rcases Nat.lt_or_ge a.toList.length b.toList.length with less | more
    · exact less
    · have perm := fewer.perm_of_length_le more
      refine absurd (ha.ext hb fun n => ?_) differ
      rw [← mem_toList finite, ← mem_toList full_b]
      exact perm.mem_iff

theorem room_le_of_subset {a b : Domain} (ha : a.Canonical) (hb : b.Canonical)
    (sub : ∀ n, n ∈ a → n ∈ b) : a.room ≤ b.room := by
  by_cases same : a = b
  · rw [same]
  · exact Nat.le_of_lt (room_lt ha hb sub same)

end Domain

end ConstraintLogic
