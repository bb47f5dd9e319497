import ConstraintLogic.Proofs.Domain.Forms

/-!
# The order of domains

Domains in their one form are ordered as the sets that they stand for. Inclusion is decided
form by form, and an interval is only listed where it is no larger than the list that it is
compared with; still just the inclusions of sets are found. The intersection is the greatest
domain below both, whatever form it takes, so that it obeys the laws of a meet on the nose.

Results:
* `Domain.Canonical.isSubsetOf_iff`: inclusion of domains is inclusion of sets.
* `Domain.Canonical.isSubsetOf_antisymm`: domains that include each other are equal.
* `Domain.Canonical.isSubsetOf_intersect_iff`: what lies below an intersection.
* `Domain.Canonical.intersect_comm`, `Domain.Canonical.intersect_assoc`: the laws of a meet.
* `Domain.Canonical.intersect_meet`: all of this together.
-/

namespace ConstraintLogic.Domain

variable {a b d : Domain} {n : Int}

/-! ## Inclusion -/

/-- Integers that all belong to a list are no more than the list has. -/
theorem width_le_of_forall_mem {lb ub : Int} {vs : List Int} (inside : ∀ n, lb ≤ n ∧ n ≤ ub → n ∈ vs) :
    (ub - lb + 1).toNat ≤ vs.length := by
  rw [← length_ascending]
  have distinct : (ascending lb ub).Nodup := (pairwise_ascending lb ub).imp Int.ne_of_lt
  exact (distinct.subperm fun n mem => inside n (mem_ascending.mp mem)).length_le

/-- The comparison of sizes takes no inclusion away. -/
theorem interval_isSubsetOf_enumerated {lb ub : Int} {vs : List Int} :
    (interval lb ub).isSubsetOf (enumerated vs) = true ↔ ∀ n ∈ interval lb ub, n ∈ enumerated vs := by
  simp only [isSubsetOf, Bool.and_eq_true, decide_eq_true_eq, List.all_eq_true, mem_ascending, mem_interval,
    mem_enumerated, List.contains_iff_mem]
  exact and_iff_right_of_imp width_le_of_forall_mem

/-- An interval that is not inverted lies within another one if its ends do. -/
theorem interval_subset_iff {lb ub lb' ub' : Int} (le : lb ≤ ub) :
    (∀ n ∈ interval lb ub, n ∈ interval lb' ub') ↔ lb' ≤ lb ∧ ub ≤ ub' := by
  simp only [mem_interval]
  constructor
  · intro inside
    have := inside lb ⟨Int.le_refl lb, le⟩
    have := inside ub ⟨le, Int.le_refl ub⟩
    omega
  · intro ends n between
    omega

/-- Inclusion of domains is inclusion of sets. -/
theorem Canonical.isSubsetOf_iff (ha : a.Canonical) (hb : b.Canonical) : a.isSubsetOf b = true ↔ ∀ n ∈ a, n ∈ b := by
  by_cases none : a = empty
  · subst none
    simp [isSubsetOf]
  by_cases full : b = unbounded
  · subst full
    cases a <;> simp [isSubsetOf]
  by_cases none' : b = empty
  · subst none'
    obtain ⟨n, mem⟩ := ha.exists_mem (by cases a <;> simp_all [isEmpty])
    refine iff_of_false ?_ fun inside => not_mem_empty n (inside n mem)
    cases a <;> simp_all [isSubsetOf]
  cases a with
  | empty => exact absurd rfl none
  | unbounded =>
    -- A finite domain leaves an integer out.
    obtain ⟨n, out⟩ := hb.not_all full
    refine iff_of_false ?_ fun inside => out (inside n (mem_unbounded n))
    cases b <;> simp_all [isSubsetOf]
  | interval lb ub =>
    cases b with
    | empty => exact absurd rfl none'
    | unbounded => exact absurd rfl full
    | interval lb' ub' =>
      rw [interval_subset_iff ha.2.1]
      simp [isSubsetOf]
    | enumerated vs => exact interval_isSubsetOf_enumerated
  | enumerated vs =>
    cases b with
    | empty => exact absurd rfl none'
    | unbounded => exact absurd rfl full
    | _ => simp only [isSubsetOf, List.all_eq_true, mem_enumerated, ← mem_iff_contains]

theorem Canonical.isSubsetOf_refl (ha : a.Canonical) : a.isSubsetOf a = true :=
  (ha.isSubsetOf_iff ha).mpr fun _ => id

/-- Domains that include each other are equal, as each set has one form only. -/
theorem Canonical.isSubsetOf_antisymm (ha : a.Canonical) (hb : b.Canonical) (below : a.isSubsetOf b = true)
    (above : b.isSubsetOf a = true) : a = b := by
  rw [ha.isSubsetOf_iff hb] at below
  rw [hb.isSubsetOf_iff ha] at above
  exact ha.ext hb fun n => ⟨below n, above n⟩

theorem Canonical.isSubsetOf_trans (ha : a.Canonical) (hb : b.Canonical) (hd : d.Canonical) (first : a.isSubsetOf b = true)
    (second : b.isSubsetOf d = true) : a.isSubsetOf d = true := by
  rw [ha.isSubsetOf_iff hb] at first
  rw [hb.isSubsetOf_iff hd] at second
  exact (ha.isSubsetOf_iff hd).mpr fun n mem => second n (first n mem)

/-! ## The meet -/

/-- Below an intersection lies what lies below both domains. -/
theorem Canonical.isSubsetOf_intersect_iff (hd : d.Canonical) (ha : a.Canonical) (hb : b.Canonical) :
    d.isSubsetOf (a.intersect b) = true ↔ d.isSubsetOf a = true ∧ d.isSubsetOf b = true := by
  rw [hd.isSubsetOf_iff (canonical_intersect ha hb), hd.isSubsetOf_iff ha, hd.isSubsetOf_iff hb]
  simp only [mem_intersect ha hb, forall_and]

theorem Canonical.intersect_comm (ha : a.Canonical) (hb : b.Canonical) : a.intersect b = b.intersect a :=
  (canonical_intersect ha hb).ext (canonical_intersect hb ha) fun n => by
    rw [mem_intersect ha hb, mem_intersect hb ha, and_comm]

theorem Canonical.intersect_assoc (ha : a.Canonical) (hb : b.Canonical) (hd : d.Canonical) :
    (a.intersect b).intersect d = a.intersect (b.intersect d) := by
  have first := canonical_intersect ha hb
  have last := canonical_intersect hb hd
  refine (canonical_intersect first hd).ext (canonical_intersect ha last) fun n => ?_
  rw [mem_intersect first hd, mem_intersect ha hb, mem_intersect ha last, mem_intersect hb hd, and_assoc]

theorem Canonical.intersect_self (ha : a.Canonical) : a.intersect a = a :=
  (canonical_intersect ha ha).ext ha fun n => by rw [mem_intersect ha ha, and_self]

theorem unbounded_intersect (a : Domain) : unbounded.intersect a = a := by
  cases a <;> rfl

theorem intersect_unbounded (a : Domain) : a.intersect unbounded = a := by
  cases a <;> rfl

/-- Inclusion is decided exactly and orders the domains that have the one form of their set, and
    the intersection is their meet. -/
theorem Canonical.intersect_meet (ha : a.Canonical) (hb : b.Canonical) (hd : d.Canonical) :
    ((a.intersect b).Canonical ∧ ∀ n, n ∈ a.intersect b ↔ n ∈ a ∧ n ∈ b) ∧
    (a.isSubsetOf b = true ↔ ∀ n ∈ a, n ∈ b) ∧
    (a.isSubsetOf a = true ∧ (a.isSubsetOf b = true → b.isSubsetOf a = true → a = b) ∧
      (a.isSubsetOf b = true → b.isSubsetOf d = true → a.isSubsetOf d = true)) ∧
    (d.isSubsetOf (a.intersect b) = true ↔ d.isSubsetOf a = true ∧ d.isSubsetOf b = true) ∧
    a.intersect b = b.intersect a ∧ (a.intersect b).intersect d = a.intersect (b.intersect d) ∧
    a.intersect a = a ∧ unbounded.intersect a = a ∧ a.intersect unbounded = a := by
  refine ⟨⟨canonical_intersect ha hb, fun n => mem_intersect ha hb⟩, ha.isSubsetOf_iff hb, ?_,
    hd.isSubsetOf_intersect_iff ha hb, ha.intersect_comm hb, ha.intersect_assoc hb hd, ha.intersect_self,
    unbounded_intersect a, intersect_unbounded a⟩
  exact ⟨ha.isSubsetOf_refl, ha.isSubsetOf_antisymm hb, ha.isSubsetOf_trans hb hd⟩

/-- Two listed sets meet in an interval, which lies below both of them. -/
theorem intersect_meet_listed :
    let a := enumerated [1, 2, 3, 7]
    let b := enumerated [2, 3, 5]
    let d := interval 2 3
    a.Canonical ∧ b.Canonical ∧ d.Canonical ∧ a.intersect b = d ∧
      (∀ n, n ∈ a.intersect b ↔ n ∈ a ∧ n ∈ b) ∧ a.intersect b = b.intersect a ∧
      (d.isSubsetOf (a.intersect b) = true ↔ d.isSubsetOf a = true ∧ d.isSubsetOf b = true) := by
  intro a b d
  have ha : a.Canonical := ⟨by decide, by decide, 4, by decide, ⟨3, by decide, by decide⟩, 7, by decide, by decide⟩
  have hb : b.Canonical := ⟨by decide, by decide, 4, by decide, ⟨3, by decide, by decide⟩, 5, by decide, by decide⟩
  have hd : d.Canonical := ⟨by decide, by decide, by decide⟩
  obtain ⟨⟨_, mem⟩, _, _, below, comm, _⟩ := ha.intersect_meet hb hd
  exact ⟨ha, hb, hd, by decide, mem, comm, below⟩

end ConstraintLogic.Domain
