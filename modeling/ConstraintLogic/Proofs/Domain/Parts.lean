import ConstraintLogic.Proofs.Domain.Forms

/-!
# Parts of domains

Splitting a domain and taking a value out of it are exact. The halves have the values of the
domain between them, the lower ones first, and none is counted twice or lost, though the count of
all integers of 64 bits is one more than can be reported. A value that is taken out is gone and
all others stay; only where the result would have to list the values of a large interval, or all
integers, the domain is kept as it is.

Results:
* `Domain.Canonical.toList_bisect`: the values of the halves are those of the domain.
* `Domain.Canonical.size_bisect`: the sizes add up.
* `Domain.Unremovable`: the domain is kept as it is without the value.
* `Domain.Canonical.remove_spec`: what is left when a value is taken out.
* `Domain.Canonical.parts_exact`: all of this together.
-/

namespace ConstraintLogic.Domain

variable {d e left right : Domain} {n : Int}

/-! ## Halves -/

/-- A finite domain with two different values is not empty and has no solution. -/
theorem Canonical.open_of_two (h : d.Canonical) {m n : Int} (mem : m ∈ d) (mem' : n ∈ d) (differ : m ≠ n) :
    d.isEmpty = false ∧ d.solution = none := by
  constructor
  · cases d with
    | empty => exact absurd mem (not_mem_empty m)
    | _ => rfl
  · rw [Option.eq_none_iff_forall_not_mem]
    intro k only
    have only := h.solution_eq_some_iff.mp only
    exact differ (((only m).mp mem).trans ((only n).mp mem').symm)

/-- The values of the lower half, and then those of the upper one, are the values of the domain. -/
theorem Canonical.toList_bisect (h : d.Canonical) (halves : d.bisect = .ok (left, right)) :
    d.toList = left.toList ++ right.toList := by
  obtain ⟨finite, some_value, open_⟩ := h.bisected halves
  obtain ⟨left', right', halves', hl, hr, _, _, finite_l, finite_r, whole, across⟩ := h.bisect_spec finite some_value open_
  cases halves.symm.trans halves'
  refine List.Pairwise.eq_of_mem_iff h.pairwise_toList ?_ fun n => ?_
  · refine List.pairwise_append.mpr ⟨hl.pairwise_toList, hr.pairwise_toList, fun m low n high => ?_⟩
    exact across m ((mem_toList finite_l).mp low) n ((mem_toList finite_r).mp high)
  · rw [List.mem_append, mem_toList finite, mem_toList finite_l, mem_toList finite_r, whole]

theorem length_toList_full : (interval minValue maxValue).toList.length = maxSize + 1 := by
  rw [toList, length_ascending]
  rfl

/-- Only the domain of all integers of 64 bits has more values than can be reported. -/
theorem Canonical.size_eq_length (h : d.Canonical) (finite : d ≠ unbounded) (part : d ≠ interval minValue maxValue) :
    d.size = some d.toList.length := by
  have full : (interval minValue maxValue).Canonical := ⟨Int.le_refl _, by decide, Int.le_refl _⟩
  have less := room_lt h full (fun n mem => mem_interval.mpr ((isValue_iff n).mp (h.isValue_of_mem finite mem))) part
  rw [room_of_finite finite, room_of_finite Domain.noConfusion, length_toList_full] at less
  rw [h.size_eq finite, Nat.min_eq_left (Nat.lt_succ_iff.mp less)]

/-- A domain that leaves out a value of 64 bits is not the domain of all of them. -/
theorem ne_full_of_not_mem (value : isValue n = true) (out : n ∉ d) : d ≠ interval minValue maxValue := by
  rintro rfl
  exact out (mem_interval.mpr ((isValue_iff n).mp value))

/-- The sizes of the halves add up to that of the domain, or to 2 ^ 64 for all integers of 64 bits. -/
theorem Canonical.size_bisect (h : d.Canonical) (halves : d.bisect = .ok (left, right)) :
    ∃ i j, left.size = some i ∧ right.size = some j ∧ (d ≠ interval minValue maxValue → d.size = some (i + j)) ∧
      (d = interval minValue maxValue → i + j = 2 ^ 64 ∧ d.size = some maxSize) := by
  obtain ⟨finite, some_value, open_⟩ := h.bisected halves
  obtain ⟨_, _, halves', hl, hr, some_l, some_r, finite_l, finite_r, _, across⟩ := h.bisect_spec finite some_value open_
  cases halves.symm.trans halves'
  -- Each half leaves out the values of the other one.
  obtain ⟨m, low⟩ := hl.exists_mem some_l
  obtain ⟨n, high⟩ := hr.exists_mem some_r
  have part_l := ne_full_of_not_mem (hr.isValue_of_mem finite_r high) fun mem => Int.lt_irrefl n (across n mem n high)
  have part_r := ne_full_of_not_mem (hl.isValue_of_mem finite_l low) fun mem => Int.lt_irrefl m (across m low m mem)
  have count : d.toList.length = left.toList.length + right.toList.length := by
    rw [h.toList_bisect halves, List.length_append]
  refine ⟨_, _, hl.size_eq_length finite_l part_l, hr.size_eq_length finite_r part_r, fun part => ?_, fun full => ?_⟩
  · rw [h.size_eq_length finite part, count]
  · rw [← count, full, length_toList_full]
    exact ⟨rfl, rfl⟩

/-! ## Taking a value out -/

/-- The domain cannot be without the integer: it has all integers, or more values than are listed
    one by one and the integer strictly between its ends. -/
def Unremovable (d : Domain) (n : Int) : Prop :=
  d = unbounded ∨ ∃ lb ub, d = interval lb ub ∧ materializeLimit < ub - lb + 1 ∧ lb < n ∧ n < ub

theorem remove_of_unremovable (kept : d.Unremovable n) : d.remove n = .ok d := by
  obtain rfl | ⟨lb, ub, rfl, large, low, high⟩ := kept
  · rfl
  · have inside : (interval lb ub).contains n = true := mem_interval.mpr ⟨by omega, by omega⟩
    unfold remove
    rw [if_pos inside]
    dsimp only
    rw [if_neg (by omega), if_neg (by omega), if_neg (by omega)]

/-- Only the greatest integer of 64 bits cannot be taken out where it stands alone. -/
theorem Canonical.exists_remove (h : d.Canonical) (not_last : ¬(d = singleton maxValue ∧ n = maxValue)) :
    ∃ e, d.remove n = .ok e := by
  cases removed : d.remove n with
  | ok e => exact ⟨e, rfl⟩
  | error f =>
    unfold remove at removed
    split at removed
    · split at removed
      · rename_i lb ub
        obtain ⟨_, le, high⟩ := h
        split at removed
        · rename_i at_lb
          split at removed
          · rename_i last
            refine absurd ⟨?_, at_lb.trans last⟩ not_last
            rw [singleton, interval.injEq]
            omega
          · cases removed
        · split at removed
          · cases removed
          · split at removed <;> cases removed
      · cases removed
      · cases removed
    · cases removed

/-- A value that can be taken out is gone then. -/
theorem Canonical.not_mem_remove (h : d.Canonical) (removable : ¬d.Unremovable n) (removed : d.remove n = .ok e) :
    n ∉ e := by
  unfold remove at removed
  split at removed
  · cases d with
    | empty => rename_i mem; cases mem
    | unbounded => exact absurd (.inl rfl) removable
    | interval lb ub =>
      rename_i mem
      have between := mem_interval.mp mem
      dsimp only at removed
      split at removed
      · split at removed <;> cases removed
        rw [mem_range]
        omega
      · split at removed
        · cases removed
          rw [mem_range]
          omega
        · split at removed
          · cases removed
            rw [mem_ofAscending ((pairwise_ascending _ _).filter _), List.mem_filter]
            simp
          · exact absurd (.inr ⟨lb, ub, rfl, by omega, by omega, by omega⟩) removable
    | enumerated vs =>
      cases removed
      rw [mem_ofAscending (h.1.filter _), List.mem_filter]
      simp
  · rename_i out
    cases removed
    exact out

/-- A value is taken out and no other, but for the domains that cannot be without it. -/
theorem Canonical.remove_spec (h : d.Canonical) (not_last : ¬(d = singleton maxValue ∧ n = maxValue)) :
    ∃ e, d.remove n = .ok e ∧ e.Canonical ∧ (d.Unremovable n → e = d) ∧
      (¬d.Unremovable n → ∀ m, m ∈ e ↔ m ∈ d ∧ m ≠ n) := by
  obtain ⟨e, removed⟩ := h.exists_remove not_last
  refine ⟨e, removed, h.canonical_remove removed, fun kept => ?_, fun removable m => ?_⟩
  · rw [remove_of_unremovable kept] at removed
    cases removed
    rfl
  · by_cases same : m = n
    · subst same
      exact iff_of_false (h.not_mem_remove removable removed) fun mem => mem.2 rfl
    · rw [h.mem_remove removed same, and_iff_left same]

/-- A finite domain with two values is split into two parts, and a value is taken out of any
    domain that can be without it. -/
theorem Canonical.parts_exact (h : d.Canonical) :
    (∀ m n, d ≠ unbounded → m ∈ d → n ∈ d → m ≠ n → ∃ left right i j, d.bisect = .ok (left, right) ∧
      (left.Canonical ∧ right.Canonical) ∧ ((∃ k, k ∈ left) ∧ ∃ k, k ∈ right) ∧ (∀ k ∈ left, ∀ l ∈ right, k < l) ∧
      (∀ k ∈ left, k ∉ right) ∧ (∀ k, k ∈ d ↔ k ∈ left ∨ k ∈ right) ∧ left.size = some i ∧ right.size = some j ∧
      (d ≠ interval minValue maxValue → d.size = some (i + j)) ∧
      (d = interval minValue maxValue → i + j = 2 ^ 64 ∧ d.size = some maxSize)) ∧
    ∀ n, ¬(d = singleton maxValue ∧ n = maxValue) → ∃ e, d.remove n = .ok e ∧ e.Canonical ∧
      (d.Unremovable n → e = d) ∧ (¬d.Unremovable n → ∀ m, m ∈ e ↔ m ∈ d ∧ m ≠ n) := by
  refine ⟨fun m n finite mem mem' differ => ?_, fun n not_last => h.remove_spec not_last⟩
  obtain ⟨some_value, open_⟩ := h.open_of_two mem mem' differ
  obtain ⟨left, right, halves, hl, hr, some_l, some_r, _, _, whole, across⟩ := h.bisect_spec finite some_value open_
  obtain ⟨i, j, size_l, size_r, sizes⟩ := h.size_bisect halves
  exact ⟨left, right, i, j, halves, ⟨hl, hr⟩, ⟨hl.exists_mem some_l, hr.exists_mem some_r⟩, across,
    fun k low high => Int.lt_irrefl k (across k low k high), whole, size_l, size_r, sizes⟩

/-- All integers of 64 bits fall into the negative ones and the others, 2 ^ 63 each; 0 cannot be
    taken out of them, but it leaves -1, 0 and 1 to a list. -/
theorem parts_exact_full :
    let d := interval minValue maxValue
    (∃ left right i j, d.bisect = .ok (left, right) ∧ left = interval minValue (-1) ∧ right = interval 0 maxValue ∧
      left.size = some i ∧ right.size = some j ∧ i + j = 2 ^ 64) ∧
    (d.Unremovable 0 ∧ d.remove 0 = .ok d) ∧
    ¬(interval (-1) 1).Unremovable 0 ∧ ∃ e, (interval (-1) 1).remove 0 = .ok e ∧ e = enumerated [-1, 1] ∧
      ∀ m, m ∈ e ↔ m ∈ interval (-1) 1 ∧ m ≠ 0 := by
  intro d
  have full : d.Canonical := ⟨by decide, by decide, by decide⟩
  have small : (interval (-1) 1).Canonical := ⟨by decide, by decide, by decide⟩
  have kept : d.Unremovable 0 := .inr ⟨_, _, rfl, by decide, by decide, by decide⟩
  have removable : ¬(interval (-1) 1).Unremovable 0 := by
    rintro (none | ⟨_, _, same, large, _⟩)
    · cases none
    · cases same
      exact absurd large (by decide)
  obtain ⟨left, right, i, j, halves, _, _, _, _, _, size_l, size_r, _, sum⟩ :=
    full.parts_exact.1 0 1 Domain.noConfusion (by decide) (by decide) (by decide)
  cases halves
  obtain ⟨_, removed, _, same, _⟩ := full.parts_exact.2 0 (by decide)
  obtain ⟨e, removed', _, _, gone⟩ := small.parts_exact.2 0 (by decide)
  refine ⟨⟨_, _, i, j, rfl, by decide, by decide, size_l, size_r, (sum rfl).1⟩, ⟨kept, (same kept) ▸ removed⟩, removable,
    e, removed', ?_, gone removable⟩
  cases removed'
  decide

end ConstraintLogic.Domain
