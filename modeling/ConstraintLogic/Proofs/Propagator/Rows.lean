import ConstraintLogic.Proofs.Propagator.Table

/-!
# Rows of arithmetic relations

A multiple or a sum with few values becomes the table of its rows. The values of one
operand, or of two, are listed from their domains, and the last operand of a row is
computed: a row is kept if its last value has 64 bits and is in the domain. These are
the rows of the relation that fit the domains, no more and no less.

Results:
* `Solver.Running.tabulates_scale`, `Solver.Running.tabulates_sumConst`,
  `Solver.Running.tabulates_sum`: the rows that are listed are those of the relation.
-/

namespace ConstraintLogic.Solver.Running

variable {s : Solver} {x y z : Var} {c : Int} {a b d : Domain}

/-! ## What is listed -/

/-- A domain with a size that is looked at is finite. -/
theorem finite_of_size {few : Nat → Bool} (small : a.size.any few = true) : a ≠ .unbounded := by
  rintro rfl
  simp [Domain.size] at small

/-- Domains with few pairs are finite. -/
theorem finite_of_smallProduct (small : a.smallProduct b = true) : a ≠ .unbounded ∧ b ≠ .unbounded := by
  unfold Domain.smallProduct at small
  split at small
  · rename_i size_a size_b
    exact ⟨Domain.ne_unbounded_of_size size_a, Domain.ne_unbounded_of_size size_b⟩
  · cases small

/-- The values for which a partner is looked up are all values, where there is one. -/
theorem mem_partnered {n m : Int} (finite : a ≠ .unbounded) (partner : m ∈ b) : n ∈ a.partnered b ↔ n ∈ a := by
  have : b.isEmpty ≠ true := by
    intro none_in
    rw [Domain.isEmpty_iff.mp none_in] at partner
    exact Domain.not_mem_empty m partner
  rw [Domain.partnered, if_neg this, Domain.mem_toList finite]

theorem of_mem_partnered {n : Int} (finite : a ≠ .unbounded) (mem : n ∈ a.partnered b) : n ∈ a := by
  rw [Domain.partnered] at mem
  split at mem
  · cases mem
  · exact (Domain.mem_toList finite).mp mem

theorem isValue_of_mem_toList (canonical : a.Canonical) (finite : a ≠ .unbounded) :
    ∀ n ∈ a.toList, isValue n = true := fun _ mem =>
  canonical.isValue_of_mem finite ((Domain.mem_toList finite).mp mem)

theorem isValue_of_mem_partnered (canonical : a.Canonical) (finite : a ≠ .unbounded) :
    ∀ n ∈ a.partnered b, isValue n = true := fun _ mem =>
  canonical.isValue_of_mem finite (of_mem_partnered finite mem)

/-! ## Rows of two operands -/

section Pairs

variable {f : Int → Int} {as : List Int} {row : List Int}

/-- The rows of a function from the listed arguments to a domain. -/
theorem mem_pairRows :
    row ∈ as.filterMap (fun a => (value? (f a)).bind fun b =>
        if d.contains b then some [a, b] else none) ↔
      ∃ a ∈ as, isValue (f a) = true ∧ f a ∈ d ∧ row = [a, f a] := by
  rw [List.mem_filterMap]
  refine exists_congr fun a => and_congr_right fun _ => ?_
  rw [value?_bind_eq_some_iff]
  refine and_congr_right fun _ => ?_
  by_cases inside : d.contains (f a) = true
  · simp [inside, Domain.mem_iff_contains, eq_comm]
  · simp [inside, Domain.mem_iff_contains]

/-- The rows of a function from values are two values each. -/
theorem proper_pairRows (values : ∀ n ∈ as, isValue n = true)
    (mem : row ∈ as.filterMap fun a => (value? (f a)).bind fun b => if d.contains b then some [a, b] else none) :
    row.length = 2 ∧ ∀ n ∈ row, isValue n = true := by
  obtain ⟨a, in_as, value, _, rfl⟩ := mem_pairRows.mp mem
  exact ⟨rfl, by simpa using ⟨values a in_as, value⟩⟩

end Pairs

/-- The rows that are listed for a multiple are those of the multiple. -/
theorem tabulates_scale (canonical : (s.peek x).Canonical) (finite : s.peek x ≠ .unbounded) :
    s.Tabulates (.scale c x z) ((s.peek x).toList.filterMap fun a => (value? (a * c)).bind fun b =>
      if (s.peek z).contains b then some [a, b] else none) where
  proper _ := proper_pairRows (isValue_of_mem_toList canonical finite)
  sound σ mem := by
    obtain ⟨a, _, _, _, row⟩ := mem_pairRows.mp mem
    simp only [Relation.vars, List.map_cons, List.map_nil, List.cons.injEq, and_true] at row
    change c * σ x = σ z
    rw [row.2, row.1, Int.mul_comm]
  complete σ fits holds := by
    have holds : σ x * c = σ z := Int.mul_comm c (σ x) ▸ holds
    have in_dx : σ x ∈ s.peek x := fits.mem x (by simp [Relation.vars])
    have in_dz : σ z ∈ s.peek z := fits.mem z (by simp [Relation.vars])
    refine mem_pairRows.mpr ⟨σ x, (Domain.mem_toList finite).mpr in_dx, ?_, holds ▸ in_dz, by rw [holds]; rfl⟩
    rw [holds]
    exact fits.value z (by simp [Relation.vars])

/-- The rows that are listed for a sum with a known result are those of the sum. -/
theorem tabulates_sumConst (canonical : (s.peek x).Canonical) (finite : s.peek x ≠ .unbounded) :
    s.Tabulates (.sumConst x y c) (((s.peek x).partnered (s.peek y)).filterMap fun a => (value? (c - a)).bind fun b =>
      if (s.peek y).contains b then some [a, b] else none) where
  proper _ := proper_pairRows (isValue_of_mem_partnered canonical finite)
  sound σ mem := by
    obtain ⟨a, _, _, _, row⟩ := mem_pairRows.mp mem
    simp only [Relation.vars, List.map_cons, List.map_nil, List.cons.injEq, and_true] at row
    change σ x + σ y = c
    omega
  complete σ fits holds := by
    have in_dx : σ x ∈ s.peek x := fits.mem x (by simp [Relation.vars])
    have in_dy : σ y ∈ s.peek y := fits.mem y (by simp [Relation.vars])
    have holds : c - σ x = σ y := by
      change σ x + σ y = c at holds
      omega
    refine mem_pairRows.mpr ⟨σ x, (mem_partnered finite in_dy).mpr in_dx, ?_, holds ▸ in_dy, by rw [holds]; rfl⟩
    rw [holds]
    exact fits.value y (by simp [Relation.vars])

/-! ## Rows of three operands -/

section Triples

variable {as bs : List Int} {row : List Int}

/-- The rows of a sum are the values of the three domains of which it holds. -/
theorem mem_sumRows :
    row ∈ as.flatMap (fun a => bs.filterMap fun b => (value? (a + b)).bind fun c =>
        if d.contains c then some [a, b, c] else none) ↔
      ∃ a ∈ as, ∃ b ∈ bs, isValue (a + b) = true ∧ a + b ∈ d ∧ row = [a, b, a + b] := by
  rw [List.mem_flatMap]
  refine exists_congr fun a => and_congr_right fun _ => ?_
  rw [List.mem_filterMap]
  refine exists_congr fun b => and_congr_right fun _ => ?_
  rw [value?_bind_eq_some_iff]
  refine and_congr_right fun _ => ?_
  by_cases inside : d.contains (a + b) = true
  · simp [inside, Domain.mem_iff_contains, eq_comm]
  · simp [inside, Domain.mem_iff_contains]

/-- The rows of a sum of values are three values each. -/
theorem proper_sumRows (left : ∀ n ∈ as, isValue n = true) (right : ∀ n ∈ bs, isValue n = true)
    (mem : row ∈ as.flatMap fun a => bs.filterMap fun b => (value? (a + b)).bind fun c =>
      if d.contains c then some [a, b, c] else none) :
    row.length = 3 ∧ ∀ n ∈ row, isValue n = true := by
  obtain ⟨a, in_as, b, in_bs, value, _, rfl⟩ := mem_sumRows.mp mem
  exact ⟨rfl, by simpa using ⟨left a in_as, right b in_bs, value⟩⟩

end Triples

/-- The rows that are listed for a sum are those of the sum. -/
theorem tabulates_sum (canonical : ∀ v, (s.peek v).Canonical) (finite_x : s.peek x ≠ .unbounded)
    (finite_y : s.peek y ≠ .unbounded) :
    s.Tabulates (.sum x y z) (((s.peek x).partnered (s.peek y)).flatMap fun a => (s.peek y).toList.filterMap fun b =>
      (value? (a + b)).bind fun c => if (s.peek z).contains c then some [a, b, c] else none) where
  proper _ := proper_sumRows (isValue_of_mem_partnered (canonical x) finite_x)
    (isValue_of_mem_toList (canonical y) finite_y)
  sound σ mem := by
    obtain ⟨a, _, b, _, _, _, row⟩ := mem_sumRows.mp mem
    simp only [Relation.vars, List.map_cons, List.map_nil, List.cons.injEq, and_true] at row
    change σ x + σ y = σ z
    omega
  complete σ fits holds := by
    have in_x : σ x ∈ s.peek x := fits.mem x (by simp [Relation.vars])
    have in_y : σ y ∈ s.peek y := fits.mem y (by simp [Relation.vars])
    have in_z : σ z ∈ s.peek z := fits.mem z (by simp [Relation.vars])
    have holds : σ x + σ y = σ z := holds
    refine mem_sumRows.mpr ⟨σ x, (mem_partnered finite_x in_y).mpr in_x, σ y, (Domain.mem_toList finite_y).mpr in_y,
      ?_, holds ▸ in_z, by rw [holds]; rfl⟩
    rw [holds]
    exact fits.value z (by simp [Relation.vars])

end ConstraintLogic.Solver.Running
