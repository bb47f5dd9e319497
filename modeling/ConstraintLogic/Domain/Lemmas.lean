import ConstraintLogic.Domain.Basic

/-!
# The sets behind domains

What the operations on domains do to the sets that domains stand for, and that
they keep to the one form of each set.

Results:
* `Domain.mem_ofAscending`, `Domain.mem_values`, `Domain.mem_clampedRange`: the
  values of a domain that was built.
* `Domain.mem_intersect`: an intersection has the values of both domains.
* `Domain.canonical_ofAscending`, `Domain.canonical_values`,
  `Domain.canonical_intersect`: the forms that are built.
-/

namespace ConstraintLogic

theorem isValue_iff (n : Int) : isValue n = true ↔ minValue ≤ n ∧ n ≤ maxValue := by
  simp [isValue]

theorem value?_eq_some_iff {n m : Int} : value? n = some m ↔ isValue n = true ∧ n = m := by
  simp [value?]

@[simp] theorem mem_ascending {n lb ub : Int} : n ∈ ascending lb ub ↔ lb ≤ n ∧ n ≤ ub := by
  simp only [ascending, List.mem_map, List.mem_range]
  constructor
  · rintro ⟨i, hi, rfl⟩
    omega
  · rintro ⟨h1, h2⟩
    exact ⟨(n - lb).toNat, by omega, by omega⟩

/-! ## Ascending lists -/

@[simp] theorem mem_insertAscending {n m : Int} {ns : List Int} :
    n ∈ insertAscending m ns ↔ n = m ∨ n ∈ ns := by
  induction ns with
  | nil => simp [insertAscending]
  | cons k ns ih =>
    rw [insertAscending]
    split
    · simp
    · split
      · simp_all
      · simp only [List.mem_cons, ih]
        grind

theorem pairwise_insertAscending (m : Int) {ns : List Int} (h : ns.Pairwise (· < ·)) :
    (insertAscending m ns).Pairwise (· < ·) := by
  induction ns with
  | nil => simp [insertAscending]
  | cons k ns ih =>
    have sorted := h
    rw [List.pairwise_cons] at sorted
    rw [insertAscending]
    split
    · refine List.pairwise_cons.mpr ⟨fun a ha => ?_, h⟩
      rcases List.mem_cons.mp ha with rfl | ha
      · assumption
      · have := sorted.1 a ha
        omega
    · split
      · exact h
      · refine List.pairwise_cons.mpr ⟨fun a ha => ?_, ih sorted.2⟩
        rcases mem_insertAscending.mp ha with rfl | ha
        · omega
        · exact sorted.1 a ha

/-- The elements of a list, put one by one into an ascending list, form an
    ascending list. -/
theorem pairwise_foldr_insertAscending (ns : List Int) :
    (ns.foldr insertAscending []).Pairwise (· < ·) := by
  induction ns with
  | nil => simp
  | cons n ns ih => exact pairwise_insertAscending n ih

theorem mem_foldr_insertAscending {n : Int} {ns : List Int} :
    n ∈ ns.foldr insertAscending [] ↔ n ∈ ns := by
  induction ns with
  | nil => simp
  | cons m ns ih => simp [ih]

theorem getLastD_cons_cons (lo m : Int) (ns : List Int) :
    (m :: ns).getLastD lo = ns.getLastD m := by
  simp [List.getLastD_eq_getLast?, List.getLast?_cons]

/-- The elements of an ascending list lie between its first and its last. -/
theorem le_getLastD_of_mem {lo n : Int} {ns : List Int} (h : (lo :: ns).Pairwise (· < ·))
    (hn : n ∈ lo :: ns) : lo ≤ n ∧ n ≤ ns.getLastD lo := by
  induction ns generalizing lo n with
  | nil => simp_all
  | cons m ns ih =>
    have sorted := List.pairwise_cons.mp h
    have := sorted.1 m (by simp)
    rw [getLastD_cons_cons]
    rcases List.mem_cons.mp hn with rfl | hn
    · have := ih sorted.2 (n := m) (by simp)
      omega
    · have := ih sorted.2 hn
      omega

/-- The last element of an ascending list lies at least its length above the first. -/
theorem length_le_of_pairwise {lo : Int} {ns : List Int} (h : (lo :: ns).Pairwise (· < ·)) :
    (ns.length : Int) ≤ ns.getLastD lo - lo := by
  induction ns generalizing lo with
  | nil => simp
  | cons m ns ih =>
    have sorted := List.pairwise_cons.mp h
    have := sorted.1 m (by simp)
    have := ih sorted.2
    rw [getLastD_cons_cons, List.length_cons]
    omega

/-- An ascending list that spans no more than its length fills an interval. -/
theorem mem_of_fills {lo n : Int} {ns : List Int} (h : (lo :: ns).Pairwise (· < ·))
    (fills : ns.getLastD lo - lo = ns.length) : n ∈ lo :: ns ↔ lo ≤ n ∧ n ≤ ns.getLastD lo := by
  induction ns generalizing lo with
  | nil => simp; omega
  | cons m ns ih =>
    have sorted := List.pairwise_cons.mp h
    have := sorted.1 m (by simp)
    have := length_le_of_pairwise sorted.2
    rw [getLastD_cons_cons, List.length_cons] at fills
    rw [getLastD_cons_cons, List.mem_cons, ih sorted.2 (by omega)]
    omega

/-- An ascending list that spans more than its length leaves out an integer between
    two of its elements. -/
theorem exists_gap {lo : Int} {ns : List Int} (h : (lo :: ns).Pairwise (· < ·))
    (gap : (ns.length : Int) < ns.getLastD lo - lo) :
    ∃ n, n ∉ lo :: ns ∧ (∃ a ∈ lo :: ns, a < n) ∧ ∃ b ∈ lo :: ns, n < b := by
  induction ns generalizing lo with
  | nil => simp at gap
  | cons m ns ih =>
    have sorted := List.pairwise_cons.mp h
    have := sorted.1 m (by simp)
    rw [getLastD_cons_cons, List.length_cons] at gap
    by_cases next : m = lo + 1
    · obtain ⟨n, left, ⟨a, ha, low⟩, b, hb, high⟩ := ih sorted.2 (by omega)
      have := (le_getLastD_of_mem sorted.2 ha).1
      refine ⟨n, ?_, ⟨a, by simp_all, low⟩, b, by simp_all, high⟩
      simp only [List.mem_cons, not_or] at left ⊢
      exact ⟨by omega, left⟩
    · refine ⟨lo + 1, fun mem => ?_, ⟨lo, by simp, by omega⟩, m, by simp, by omega⟩
      rcases List.mem_cons.mp mem with same | mem
      · omega
      · have := (le_getLastD_of_mem sorted.2 mem).1
        omega

namespace Domain

/-! ## Membership -/

theorem mem_iff_contains {n : Int} {d : Domain} : n ∈ d ↔ d.contains n = true := Iff.rfl

@[simp] theorem not_mem_empty (n : Int) : ¬n ∈ empty := by simp [mem_iff_contains, contains]

@[simp] theorem mem_unbounded (n : Int) : n ∈ unbounded := rfl

@[simp] theorem mem_interval {n lb ub : Int} : n ∈ interval lb ub ↔ lb ≤ n ∧ n ≤ ub := by
  simp [mem_iff_contains, contains]

@[simp] theorem mem_enumerated {n : Int} {vs : List Int} : n ∈ enumerated vs ↔ n ∈ vs := by
  simp [mem_iff_contains, contains]

@[simp] theorem mem_singleton {n m : Int} : n ∈ singleton m ↔ n = m := by
  simp only [singleton, mem_interval]
  omega

@[simp] theorem mem_range {n lb ub : Int} : n ∈ range lb ub ↔ lb ≤ n ∧ n ≤ ub := by
  rw [range]
  split
  · simp only [not_mem_empty, false_iff]
    omega
  · simp

theorem mem_clampedRange {n lb ub : Int} :
    n ∈ clampedRange lb ub ↔ (lb ≤ n ∧ n ≤ ub) ∧ isValue n = true := by
  rw [clampedRange, isValue_iff]
  split
  · simp only [not_mem_empty, false_iff]
    omega
  · simp only [mem_range]
    omega

/-- The domain of an ascending list has the elements of the list. -/
theorem mem_ofAscending {n : Int} {vs : List Int} (h : vs.Pairwise (· < ·)) :
    n ∈ ofAscending vs ↔ n ∈ vs := by
  cases vs with
  | nil => simp [ofAscending]
  | cons lo rest =>
    rw [ofAscending]
    split
    · rw [mem_interval, mem_of_fills h (by omega)]
    · simp

/-- The domain of a list has the elements of the list. -/
@[simp] theorem mem_values {n : Int} {vs : List Int} : n ∈ values vs ↔ n ∈ vs := by
  rw [values, mem_ofAscending (pairwise_foldr_insertAscending vs), mem_foldr_insertAscending]

theorem mem_ofAscending_filter {n : Int} {vs : List Int} {d : Domain}
    (h : (enumerated vs).Canonical) :
    n ∈ ofAscending (vs.filter d.contains) ↔ n ∈ vs ∧ n ∈ d := by
  rw [mem_ofAscending (h.1.filter _), List.mem_filter, mem_iff_contains]

/-- The intersection has the values of both domains. -/
theorem mem_intersect {n : Int} {a b : Domain} (ha : a.Canonical) (hb : b.Canonical) :
    n ∈ a.intersect b ↔ n ∈ a ∧ n ∈ b := by
  cases a with
  | empty => simp [intersect]
  | unbounded => cases b <;> simp [intersect]
  | interval lb ub =>
    cases b with
    | enumerated vs =>
      rw [intersect, mem_ofAscending_filter hb, mem_enumerated, and_comm] <;> simp
    | interval => simp only [intersect, mem_range, mem_interval]; omega
    | _ => simp [intersect]
  | enumerated vs =>
    cases b with
    | empty => simp [intersect]
    | unbounded => simp [intersect]
    | _ => rw [intersect, mem_ofAscending_filter ha, mem_enumerated] <;> simp

/-! ## Forms -/

theorem canonical_range {lb ub : Int} (hl : minValue ≤ lb) (hu : ub ≤ maxValue) :
    (range lb ub).Canonical := by
  rw [range]
  split
  · trivial
  · exact ⟨hl, by omega, hu⟩

theorem canonical_clampedRange (lb ub : Int) : (clampedRange lb ub).Canonical := by
  rw [clampedRange]
  split
  · trivial
  · exact canonical_range (by omega) (by omega)

theorem canonical_ofAscending {vs : List Int} (h : vs.Pairwise (· < ·))
    (hv : ∀ n ∈ vs, isValue n = true) : (ofAscending vs).Canonical := by
  cases vs with
  | nil => trivial
  | cons lo rest =>
    have span := length_le_of_pairwise h
    rw [ofAscending]
    split
    · rename_i fills
      have mem (n : Int) := mem_of_fills (n := n) h (by omega)
      have lo_value := (isValue_iff lo).mp (hv lo (by simp))
      have hi_value := (isValue_iff _).mp (hv _ ((mem (rest.getLastD lo)).mpr (by omega)))
      exact ⟨lo_value.1, by omega, hi_value.2⟩
    · exact ⟨h, hv, exists_gap h (by omega)⟩

theorem canonical_values {vs : List Int} (hv : ∀ n ∈ vs, isValue n = true) :
    (values vs).Canonical :=
  canonical_ofAscending (pairwise_foldr_insertAscending vs) fun n hn =>
    hv n (mem_foldr_insertAscending.mp hn)

theorem canonical_ofAscending_filter {vs : List Int} (p : Int → Bool)
    (h : (enumerated vs).Canonical) : (ofAscending (vs.filter p)).Canonical :=
  canonical_ofAscending (h.1.filter _) fun n hn => h.2.1 n (List.mem_filter.mp hn).1

theorem canonical_intersect {a b : Domain} (ha : a.Canonical) (hb : b.Canonical) :
    (a.intersect b).Canonical := by
  cases a with
  | empty => trivial
  | unbounded => cases b <;> exact hb
  | interval lb ub =>
    cases b with
    | empty => trivial
    | unbounded => exact ha
    | interval => exact canonical_range (by have := ha.1; omega) (by have := ha.2.2; omega)
    | enumerated => exact canonical_ofAscending_filter _ hb
  | enumerated vs =>
    cases b with
    | empty => trivial
    | unbounded => exact ha
    | _ => exact canonical_ofAscending_filter _ ha

end Domain

end ConstraintLogic
