import ConstraintLogic.Proofs.Propagator.Frame
import ConstraintLogic.Proofs.Solver.Fixpoint

/-!
# Branches of a run

A run looks at its variables and goes on by one of a few branches: it finishes at once, it
goes on as a simpler relation or as the table of its rows, or it narrows its variables and
subscribes to them again. What a run leaves is what all of its branches leave, given what
is known where they are entered. The rules say this for each relation, so that a property
of runs is proved branch by branch.

Results:
* `Solver.Exchanged`: two variables were narrowed by one another.
* `Solver.Trimmed`: a table has lost rows that do not fit.
* `Solver.Serving.Accounted`, `Solver.Serving.Swept`: the operands of a difference are accounted
  for, and have been swept.
* `Solver.Serving.leaves_runTable`, `Solver.Serving.leaves_runPlusConst`,
  `Solver.Serving.leaves_runScale`, `Solver.Serving.leaves_runSumConst`,
  `Solver.Serving.leaves_runSum`, `Solver.Serving.leaves_runAllDifferent`: the rules.
-/

namespace ConstraintLogic.Solver

variable {K : Scope} {s t u : Solver} {id : PropId} {r q : Relation} {v w x y z : Var} {c : Int}

/-! ## Tables -/

/-- A table of the variables has been run: rows that do not fit may be gone, the variables
    are confined, and no others have been. -/
structure Trimmed (K : Scope) (id : PropId) (vs : List Var) (rows : List (List Int)) (origin : Term)
    (left : List (List Int)) (s t : Solver) : Prop where
  serving : t.Serving K id (.table vs left origin)
  aside : s.Aside (fun j => j = id) t
  sub : left ⊆ rows
  fitting : ∀ row ∈ rows, s.RowFits vs row → row ∈ left
  proper : ∀ v ∈ vs, s.resolve v ≠ .other
  confined : ∀ w, t.Confined w ↔ s.Confined w ∨ ∃ v ∈ vs, s.resolve w = s.resolve v

namespace Serving

section Tables

variable {vs : List Var} {rows live : List (List Int)} {origin : Term}

/-- Narrowing variables to columns finds that they stand for integers or are unbound, and
    confines them and no others. -/
theorem reduceColumns (values : ∀ row ∈ live, ∀ n ∈ row, isValue n = true) (cols : List (Var × Nat)) :
    ∀ s : Solver, s.Serving K id r → (∀ c ∈ cols, s.Names r c.1) →
      Narrow.Leaves s (cols.forM (Running.narrowColumn live)) fun _ t =>
        t.Serving K id r ∧ s.Aside (fun j => j = id) t ∧ (∀ c ∈ cols, s.resolve c.1 ≠ .other) ∧
          ∀ w, t.Confined w ↔ s.Confined w ∨ ∃ c ∈ cols, s.resolve w = s.resolve c.1 := by
  induction cols with
  | nil => exact fun s h _ => Narrow.Leaves.pure ⟨h, .refl s, by simp, by simp⟩
  | cons c cols ih =>
    intro s h names
    have canonical : (Domain.values (live.filterMap (·[c.2]?))).Canonical := by
      refine Domain.canonical_values fun n mem => ?_
      obtain ⟨row, in_live, found⟩ := List.mem_filterMap.mp mem
      exact values row in_live n (List.mem_of_getElem? found)
    change Narrow.Leaves s
      (Running.narrowColumn live c >>= fun _ => cols.forM (Running.narrowColumn live)) _
    refine (h.reduce_spreads (names c (by simp)) canonical).bind ?_
    rintro _ t ⟨serving, aside, proper, spreads⟩
    have names' (d : Var × Nat) (mem : d ∈ cols) : t.Names r d.1 := by
      unfold Names
      rw [aside.resolve]
      exact names d (List.mem_cons_of_mem c mem)
    refine (ih t serving names').mono ?_
    rintro _ u ⟨serving', aside', proper', spreads'⟩
    rw [aside.resolve] at proper' spreads'
    refine ⟨serving', aside.trans aside', List.forall_mem_cons.mpr ⟨proper, proper'⟩, fun w => ?_⟩
    simp only [spreads', spreads, or_assoc, List.mem_cons, exists_eq_or_imp]
    exact or_congr_right (or_congr_left (and_iff_left (Domain.values_ne_unbounded _)))

/-- A run of a table subscribes to the variables again, with the rows that are left. -/
theorem leaves_runTable {Q : Unit → Solver → Prop} (h : s.Serving K id (.table vs rows origin))
    (rest : ∀ left t, Trimmed K id vs rows origin left s t → Narrow.Leaves t (Narrow.resubscribe id vs) Q) :
    Narrow.Leaves s (Narrow.runTable id vs rows origin) Q := by
  have proper : ∀ row ∈ rows, row.length = vs.length ∧ ∀ n ∈ row, isValue n = true := h.running.proper
  have names (v : Var) (mem : v ∈ vs) : s.Names (.table vs rows origin) v := names_of_mem mem
  unfold Narrow.runTable
  refine Narrow.Leaves.step (h.running.domains_eq vs names) ?_
  refine Narrow.Leaves.step (a := s.aliasPairs vs) (t := s) rfl ?_
  dsimp only
  have live_iff (row : List Int) : row ∈ rows.filter (Narrow.rowFits (vs.map s.peek) (s.aliasPairs vs)) ↔
      row ∈ rows ∧ s.RowFits vs row := by rw [List.mem_filter, rowFits_iff]
  generalize rows.filter (Narrow.rowFits (vs.map s.peek) (s.aliasPairs vs)) = live at live_iff ⊢
  have sub : live ⊆ rows := fun row mem => ((live_iff row).mp mem).1
  refine Narrow.leaves_require_bind fun _ => ?_
  refine (reduceColumns (fun row mem => (proper row (sub mem)).2) vs.zipIdx s h fun c mem => ?_).bind ?_
  · exact names c.1 (List.mem_of_getElem? (List.mem_zipIdx_iff_getElem?.mp mem))
  rintro _ t ⟨serving, aside, reduced, spreads⟩
  have column (v : Var) : (∃ k, (v, k) ∈ vs.zipIdx) ↔ v ∈ vs :=
    (exists_congr fun _ => List.mem_zipIdx_iff_getElem?).trans List.mem_iff_getElem?.symm
  have resolved (v : Var) (mem : v ∈ vs) : s.resolve v ≠ .other := by
    obtain ⟨k, in_columns⟩ := (column v).mpr mem
    exact reduced (v, k) in_columns
  have confined (w : Var) : t.Confined w ↔ s.Confined w ∨ ∃ v ∈ vs, s.resolve w = s.resolve v := by
    simp only [spreads, Prod.exists, ← column, exists_and_right]
  split
  · refine (serving.replaceWith (q := .table vs live origin) (fun row mem => proper row (sub mem))
      fun v => names_of_mem).bind ?_
    rintro _ u replaced
    exact rest live u ⟨replaced.serving, aside.trans replaced.aside, sub,
      fun row mem fits => (live_iff row).mpr ⟨mem, fits⟩, resolved, fun w => (replaced.confined w).trans (confined w)⟩
  · exact rest rows t ⟨serving, aside, List.Subset.refl rows, fun _ mem _ => mem, resolved, confined⟩

end Tables

end Serving

/-! ## Two variables -/

/-- Two variables that are narrowed by one another, with `z` before `x`. -/
theorem level_of_exchange (to_z : ∀ w, t.Confined w ↔ s.Confined w ∨ s.resolve w = s.resolve z ∧ s.Confined x)
    (to_x : ∀ w, u.Confined w ↔ t.Confined w ∨ s.resolve w = s.resolve x ∧ t.Confined z) :
    (u.Confined x ↔ u.Confined z) ∧ ((s.Confined x ↔ s.Confined z) → s.Level u) := by
  have both : t.Confined z ↔ s.Confined x ∨ s.Confined z := by simp [to_z, or_comm]
  have at_x : u.Confined x ↔ s.Confined x ∨ s.Confined z := by
    simp only [to_x, both, to_z, true_and]
    tauto
  have at_z : u.Confined z ↔ s.Confined x ∨ s.Confined z := by
    simp only [to_x, both]
    tauto
  refine ⟨at_x.trans at_z.symm, fun even w confined => ?_⟩
  rcases (to_x w).mp confined with before | ⟨same, finite⟩
  · rcases (to_z w).mp before with before | ⟨same, finite⟩
    · exact before
    · exact (even.mp finite).congr same.symm
  · exact ((both.mp finite).elim (fun here => here) even.mpr).congr same.symm

/-- Two variables have been narrowed by one another: they are confined both or not at all,
    and nothing is if they were so before. -/
structure Exchanged (K : Scope) (id : PropId) (r : Relation) (x z : Var) (s t : Solver) : Prop where
  serving : t.Serving K id r
  aside : s.Aside (fun j => j = id) t
  proper : s.resolve x ≠ .other ∧ s.resolve z ≠ .other
  even : t.Confined x ↔ t.Confined z
  level : (s.Confined x ↔ s.Confined z) → s.Level t

theorem Exchanged.symm (h : Exchanged K id r x z s t) : Exchanged K id r z x s t :=
  ⟨h.serving, h.aside, h.proper.symm, h.even.symm, fun even => h.level even.symm⟩

namespace Serving

variable {Q : Unit → Solver → Prop}

/-- Narrowing two variables by one another, where finite domains have finite images. -/
theorem exchange {f g : Domain → Domain} (h : s.Serving K id r) (names_x : s.Names r x)
    (names_z : s.Names r z) (canonical_f : (f (s.peek x)).Canonical) (canonical_g : ∀ d, (g d).Canonical)
    (finite_f : ∀ d, f d = .unbounded ↔ d = .unbounded) (finite_g : ∀ d, g d = .unbounded ↔ d = .unbounded)
    {next : Narrow Unit} (rest : ∀ t, Exchanged K id r x z s t → Narrow.Leaves t next Q) :
    Narrow.Leaves s (do Narrow.reduce z (f (s.peek x)); Narrow.reduce x (g (← Narrow.domain z)); next) Q := by
  refine (h.reduce_spreads names_z canonical_f).bind ?_
  rintro _ t ⟨serving, aside, proper_z, to_z⟩
  have names_x' : t.Names r x := by
    unfold Names
    rwa [aside.resolve]
  have names_z' : t.Names r z := by
    unfold Names
    rwa [aside.resolve]
  refine serving.domain names_z' ?_
  refine (serving.reduce_spreads names_x' (canonical_g _)).bind ?_
  rintro _ u ⟨serving', aside', proper_x, to_x⟩
  rw [aside.resolve] at proper_x to_x
  have at_x : f (s.peek x) ≠ .unbounded ↔ s.Confined x := by
    rw [ne_eq, finite_f, h.sound.confined_iff, and_iff_right proper_x]
  have at_z : g (t.peek z) ≠ .unbounded ↔ t.Confined z := by
    rw [ne_eq, finite_g, serving.sound.confined_iff, aside.resolve, and_iff_right proper_z]
  simp only [at_x] at to_z
  simp only [at_z] at to_x
  obtain ⟨even, level⟩ := level_of_exchange to_z to_x
  exact rest u ⟨serving', aside.trans aside', ⟨proper_x, proper_z⟩, even, level⟩

/-- A difference of aliased variables says nothing; the others are narrowed by one another. -/
theorem leaves_runPlusConst (h : s.Serving K id (.plusConst x c z)) (alike : s.sameVar x z = true → Q () s)
    (apart : s.sameVar x z = false → ∀ t, Exchanged K id (.plusConst x c z) x z s t →
      Narrow.Leaves t (Narrow.resubscribe id [x, z]) Q) :
    Narrow.Leaves s (Narrow.runPlusConst id x c z) Q := by
  have in_x : x ∈ (Relation.plusConst x c z).vars := by simp [Relation.vars]
  have in_z : z ∈ (Relation.plusConst x c z).vars := by simp [Relation.vars]
  unfold Narrow.runPlusConst
  refine Narrow.leaves_sameVar ?_
  split
  · rename_i same
    exact Narrow.leaves_require fun _ => alike same
  rename_i differ
  refine h.domain (names_of_mem in_x) ?_
  by_cases overflow : c = minValue
  · refine (h.reduce (names_of_mem in_z) (Domain.canonical_affine _ 1 c)).bind ?_
    rintro _ t ⟨serving, _⟩
    refine serving.domain (names_of_mem in_z) ?_
    rw [if_pos overflow]
    exact Narrow.leaves_throw
  · simp only [if_neg overflow]
    exact h.exchange (f := fun d => d.shift c) (g := fun d => d.shift (-c)) (names_of_mem in_x) (names_of_mem in_z)
      (Domain.canonical_affine _ 1 c) (fun _ => Domain.canonical_affine _ 1 (-c))
      (fun _ => Domain.affine_eq_unbounded_iff) (fun _ => Domain.affine_eq_unbounded_iff)
      (apart (Bool.eq_false_of_not_eq_true differ))

/-- A multiple that is zero narrows a variable to it; a small domain becomes a table, and
    other variables are narrowed by one another. -/
theorem leaves_runScale (h : s.Serving K id (.scale c x z))
    (zero : c = 0 → Narrow.Leaves s (Narrow.reduce z (.singleton 0)) Q)
    (alike : s.sameVar x z = true → Q () s ∧ Narrow.Leaves s (Narrow.reduce x (.singleton 0)) Q)
    (table : s.peek x ≠ .unbounded → ∀ rows, s.Tabulates (.scale c x z) rows →
      Narrow.Leaves s (Narrow.becomeTable id [x, z] rows (Relation.scale c x z).statement) Q)
    (apart : c ≠ 0 → s.sameVar x z = false → ∀ t, Exchanged K id (.scale c x z) x z s t →
      Narrow.Leaves t (Narrow.resubscribe id [x, z]) Q) :
    Narrow.Leaves s (Narrow.runScale id c x z) Q := by
  have in_x : x ∈ (Relation.scale c x z).vars := by simp [Relation.vars]
  have in_z : z ∈ (Relation.scale c x z).vars := by simp [Relation.vars]
  have canonical := h.sound.canonical_peek x
  unfold Narrow.runScale
  split
  · rename_i none_of
    exact zero none_of
  rename_i nonzero
  refine Narrow.leaves_sameVar ?_
  split
  · rename_i same
    obtain ⟨still, zero⟩ := alike same
    split
    · exact Narrow.Leaves.pure still
    · exact zero
  rename_i differ
  refine h.domain (names_of_mem in_x) (h.domain (names_of_mem in_z) ?_)
  split
  · rename_i small
    have finite := Running.finite_of_size small
    exact table finite _ (Running.tabulates_scale canonical finite)
  · exact h.exchange (f := fun d => d.scale c) (g := fun d => d.divideExact c) (names_of_mem in_x)
      (names_of_mem in_z) (Domain.canonical_scale canonical c) (fun _ => Domain.canonical_divideExact _ c)
      (fun _ => Domain.scale_eq_unbounded_iff nonzero) (fun _ => Domain.divideExact_eq_unbounded_iff nonzero)
      (apart nonzero (Bool.eq_false_of_not_eq_true differ))

/-- Aliased operands of a sum with known result are half of it; small domains become a
    table, and other variables are narrowed by one another. -/
theorem leaves_runSumConst (h : s.Serving K id (.sumConst x y c))
    (alike : s.sameVar x y = true → ∀ n, isValue n = true → Narrow.Leaves s (Narrow.reduce x (.singleton n)) Q)
    (table : s.peek x ≠ .unbounded → s.peek y ≠ .unbounded → ∀ rows, s.Tabulates (.sumConst x y c) rows →
      Narrow.Leaves s (Narrow.becomeTable id [x, y] rows (Relation.sumConst x y c).statement) Q)
    (apart : s.sameVar x y = false → ∀ t, Exchanged K id (.sumConst x y c) x y s t →
      Narrow.Leaves t (Narrow.resubscribe id [x, y]) Q) :
    Narrow.Leaves s (Narrow.runSumConst id x y c) Q := by
  have in_x : x ∈ (Relation.sumConst x y c).vars := by simp [Relation.vars]
  have in_y : y ∈ (Relation.sumConst x y c).vars := by simp [Relation.vars]
  unfold Narrow.runSumConst
  refine Narrow.leaves_sameVar ?_
  split
  · rename_i same
    refine Narrow.leaves_require_bind fun even => ?_
    exact alike same _ (Running.isValue_half h.running.proper (decide_eq_true_eq.mp even)).2
  rename_i differ
  refine h.domain (names_of_mem in_x) (h.domain (names_of_mem in_y) ?_)
  split
  · rename_i small
    obtain ⟨finite_x, finite_y⟩ := Running.finite_of_smallProduct small
    exact table finite_x finite_y _ (Running.tabulates_sumConst (h.sound.canonical_peek x) finite_x)
  · refine h.exchange (f := fun d => d.subtractFrom c) (g := fun d => d.subtractFrom c) (names_of_mem in_y)
      (names_of_mem in_x) (Domain.canonical_affine _ (-1) c) (fun _ => Domain.canonical_affine _ (-1) c)
      (fun _ => Domain.affine_eq_unbounded_iff) (fun _ => Domain.affine_eq_unbounded_iff) fun t exchanged => ?_
    exact apart (Bool.eq_false_of_not_eq_true differ) t exchanged.symm

end Serving

/-! ## Sums -/

/-- No two of the operands are aliased. -/
def Distinct (s : Solver) (x y z : Var) : Prop :=
  s.sameVar x y = false ∧ s.sameVar x z = false ∧ s.sameVar y z = false

namespace Serving

variable {Q : Unit → Solver → Prop}

/-- A sum with aliased operands is zero for the third, or a multiple; one with a known
    operand is a relation of the others. Small domains become a table, and of other
    operands the ends are narrowed. -/
theorem leaves_runSum (h : s.Serving K id (.sum x y z))
    (zero_all : s.sameVar x y = true → s.sameVar x z = true → Narrow.Leaves s (Narrow.reduce x (.singleton 0)) Q)
    (double : s.sameVar x y = true → ∀ t, Replaced K id (.scale 2 x z) s t → Narrow.Leaves t (Narrow.runScale id 2 x z) Q)
    (zero_y : s.sameVar x z = true → Narrow.Leaves s (Narrow.reduce y (.singleton 0)) Q)
    (zero_x : s.sameVar y z = true → Narrow.Leaves s (Narrow.reduce x (.singleton 0)) Q)
    (known_x : s.Distinct x y z → ∀ n, (s.peek x).solution = some n → ∀ t, Replaced K id (.plusConst y n z) s t →
      Narrow.Leaves t (Narrow.runPlusConst id y n z) Q)
    (known_y : s.Distinct x y z → ∀ n, (s.peek y).solution = some n → ∀ t, Replaced K id (.plusConst x n z) s t →
      Narrow.Leaves t (Narrow.runPlusConst id x n z) Q)
    (known_z : s.Distinct x y z → ∀ n, (s.peek z).solution = some n → ∀ t, Replaced K id (.sumConst x y n) s t →
      Narrow.Leaves t (Narrow.runSumConst id x y n) Q)
    (table : (∀ v ∈ [x, y, z], s.peek v ≠ .unbounded) → ∀ rows, s.Tabulates (.sum x y z) rows →
      Narrow.Leaves s (Narrow.becomeTable id [x, y, z] rows (Relation.sum x y z).statement) Q)
    (ends : s.Distinct x y z → (∀ v ∈ [x, y, z], (s.peek v).solution = none) →
      ¬((s.peek x).smallProduct (s.peek y) && (s.peek z).size.isSome) = true →
      Narrow.Leaves s (do Narrow.narrowEnds x y z (3 * Domain.maxChanges + 1); Narrow.resubscribe id [x, y, z]) Q) :
    Narrow.Leaves s (Narrow.runSum id x y z) Q := by
  have in_x : x ∈ (Relation.sum x y z).vars := by simp [Relation.vars]
  have in_y : y ∈ (Relation.sum x y z).vars := by simp [Relation.vars]
  have in_z : z ∈ (Relation.sum x y z).vars := by simp [Relation.vars]
  unfold Narrow.runSum
  refine Narrow.leaves_sameVar (Narrow.leaves_sameVar (Narrow.leaves_sameVar ?_))
  split
  · rename_i all
    obtain ⟨same_xy, same_xz⟩ := Bool.and_eq_true_iff.mp all
    exact zero_all same_xy same_xz
  split
  · rename_i same_xy
    exact (h.replaceWith (q := .scale 2 x z) (show isValue 2 = true by decide) (names_pair in_x in_z)).bind fun _ =>
      double same_xy
  rename_i differ_xy
  split
  · rename_i same_xz
    exact zero_y same_xz
  rename_i differ_xz
  split
  · rename_i same_yz
    exact zero_x same_yz
  rename_i differ_yz
  have distinct : s.Distinct x y z := ⟨Bool.eq_false_of_not_eq_true differ_xy, Bool.eq_false_of_not_eq_true differ_xz,
    Bool.eq_false_of_not_eq_true differ_yz⟩
  refine h.domain (names_of_mem in_x) (h.domain (names_of_mem in_y) (h.domain (names_of_mem in_z) ?_))
  split
  · rename_i a only
    exact (h.replaceWith (q := .plusConst y a z) (h.running.eq_of_solution only).1 (names_pair in_y in_z)).bind fun _ =>
      known_x distinct a only
  · rename_i b _ only
    exact (h.replaceWith (q := .plusConst x b z) (h.running.eq_of_solution only).1 (names_pair in_x in_z)).bind fun _ =>
      known_y distinct b only
  · rename_i c _ _ only
    exact (h.replaceWith (q := .sumConst x y c) (h.running.eq_of_solution only).1 (names_pair in_x in_y)).bind fun _ =>
      known_z distinct c only
  · rename_i open_x open_y open_z
    split
    · rename_i small
      obtain ⟨few, size_z⟩ := Bool.and_eq_true_iff.mp small
      obtain ⟨finite_x, finite_y⟩ := Running.finite_of_smallProduct few
      obtain ⟨k, size_z⟩ := Option.isSome_iff_exists.mp size_z
      refine table ?_ _ (Running.tabulates_sum h.sound.canonical_peek finite_x finite_y)
      simpa using ⟨finite_x, finite_y, Domain.ne_unbounded_of_size size_z⟩
    · rename_i large
      exact ends distinct (by simpa using ⟨open_x, open_y, open_z⟩) large

end Serving

/-! ## Pairwise difference -/

namespace Serving

variable {Q : Unit → Solver → Prop} {vs : List Var}

/-- The operands of a pairwise difference are accounted for: their number, and for each
    of its variables one that is still to be sorted or open, or a single value. -/
structure Accounted (vs : List Var) (cs : List Int) (rest : List Var) (o : Narrow.Operands) (s : Solver) :
    Prop where
  names : ∀ v ∈ rest ++ o.opened, s.Names (.allDifferent vs cs) v
  free : ∀ v ∈ o.opened, s.resolve v = .free v
  values : ∀ n ∈ o.fixed, isValue n = true
  number : rest.length + o.opened.length + o.fixed.length = vs.length + cs.length
  covers : ∀ v ∈ vs, (∃ u ∈ rest ++ o.opened, s.resolve u = s.resolve v) ∨ Decided s v

section AllDifferent

variable {cs : List Int} {rest : List Var} {o : Narrow.Operands}

namespace Accounted

theorem start (proper : ∀ n ∈ cs, isValue n = true) :
    Accounted vs cs vs { fixed := cs, opened := [] } s where
  names v mem := ⟨v, by simpa [Relation.vars] using mem, rfl⟩
  free := by simp
  values := proper
  number := by simp
  covers v mem := .inl ⟨v, by simp [mem], rfl⟩

theorem aside (h : Accounted vs cs rest o s) (hs : s.Serving K id r) (ht : t.Serving K id q)
    {E : PropId → Prop} (aside : s.Aside E t) : Accounted vs cs rest o t := by
  refine { h with names := ?_, free := ?_, covers := fun v mem => ?_ }
  · unfold Names
    rw [aside.resolve]
    exact h.names
  · rw [aside.resolve]
    exact h.free
  · rw [aside.resolve]
    exact (h.covers v mem).imp_right (hs.sound.decided_of_aside ht.sound aside)

/-- The next operand is a value. -/
theorem take (h : Accounted vs cs (v :: rest) o s) (hs : s.Serving K id r) {n : Int}
    (only : (s.peek v).solution = some n) :
    Accounted vs cs rest { o with fixed := o.fixed ++ [n] } s where
  names u mem := h.names u (List.mem_cons_of_mem v mem)
  free := h.free
  values := List.forall_mem_append.mpr ⟨h.values, List.forall_mem_singleton.mpr (hs.running.eq_of_solution only).1⟩
  number := by
    have := h.number
    simp only [List.length_cons, List.length_append, List.length_nil] at this ⊢
    omega
  covers u mem := by
    rcases h.covers u mem with ⟨x, mem_x, same⟩ | decided
    · rcases List.mem_cons.mp mem_x with rfl | mem_x
      · refine .inr ?_
        unfold Decided peek at *
        rw [← same, only]
        exact Option.some_ne_none n
      · exact .inl ⟨x, mem_x, same⟩
    · exact .inr decided

/-- The next operand stays open. -/
theorem keep (h : Accounted vs cs (v :: rest) o s) (free : s.resolve w = .free w)
    (alike : s.resolve v = s.resolve w) :
    Accounted vs cs rest { o with opened := o.opened ++ [w] } s where
  names := names_append h.names alike
  free := List.forall_mem_append.mpr ⟨h.free, List.forall_mem_singleton.mpr free⟩
  values := h.values
  number := by
    have := h.number
    simp only [List.length_cons, List.length_append, List.length_nil] at this ⊢
    omega
  covers u mem := by
    refine (h.covers u mem).imp_left fun ⟨x, mem_x, same⟩ => ?_
    rw [← List.append_assoc]
    rcases List.mem_cons.mp mem_x with rfl | mem_x
    · exact ⟨w, by simp, by rw [← alike, same]⟩
    · exact ⟨x, List.mem_append.mpr (.inl mem_x), same⟩

end Accounted

/-- Sorting the operands changes nothing and loses none of them. -/
theorem addAll (h : s.Serving K id (.allDifferent vs cs)) (rest : List Var) : ∀ o : Narrow.Operands,
    Accounted vs cs rest o s → Narrow.Leaves s (rest.foldlM Narrow.Operands.add o) fun o' t =>
      t = s ∧ Accounted vs cs [] o' s := by
  induction rest with
  | nil => exact fun o accounted => Narrow.Leaves.pure ⟨rfl, accounted⟩
  | cons v rest ih =>
    intro o accounted
    rw [List.foldlM_cons]
    refine Narrow.Leaves.bind (Q := fun o' t => t = s ∧ Accounted vs cs rest o' s) ?_ ?_
    · unfold Narrow.Operands.add
      refine Narrow.Leaves.step (a := s.resolve v) (t := s) rfl ?_
      cases found : s.resolve v with
      | free w =>
        have free := resolve_of_unbound (h.sound.unbound_of_free found)
        exact Narrow.leaves_require_bind fun _ =>
          Narrow.Leaves.pure ⟨rfl, accounted.keep free (found.trans free.symm)⟩
      | value n =>
        have only : (s.peek v).solution = some n := by simp [peek, found, Domain.solution, Domain.singleton]
        exact Narrow.leaves_require_bind fun _ => Narrow.Leaves.pure ⟨rfl, accounted.take h only⟩
      | other => exact Narrow.leaves_throw
    · rintro o' _ ⟨rfl, accounted'⟩
      exact ih o' accounted'

theorem sweepOne (h : s.Serving K id (.allDifferent vs cs)) (accounted : Accounted vs cs (v :: rest) o s)
    (free : s.resolve v = .free v) :
    Narrow.Leaves s (Running.sweepOne o v) fun o' t =>
      t.Serving K id (.allDifferent vs cs) ∧ s.Aside (fun j => j = id) t ∧ Accounted vs cs rest o' t ∧
        s.Level t := by
  have named := accounted.names v (by simp)
  unfold Running.sweepOne
  refine h.domain named ?_
  cases removed : Narrow.removeAll (s.peek v) o.fixed with
  | error f => exact Narrow.leaves_throw
  | ok d =>
    refine Narrow.Leaves.step (a := d) (t := s) rfl ?_
    dsimp only
    have canonical := ((h.sound.canonical_peek v).removeAll o.fixed removed).1
    refine Narrow.Leaves.ite_bind (Q := fun _ t =>
      t.Serving K id (.allDifferent vs cs) ∧ s.Aside (fun j => j = id) t ∧ s.Level t) ?_ ?_
    · split
      · rename_i narrower
        have confined : s.Confined v := h.sound.confined_iff.mpr ⟨by simp [free], fun full => narrower ?_⟩
        · refine (h.reduce_spreads named canonical).mono ?_
          rintro _ t ⟨serving, aside, _, spreads⟩
          refine ⟨serving, aside, fun w confined' => ?_⟩
          exact ((spreads w).mp confined').elim (fun before => before) fun same => confined.congr same.1.symm
        · rw [full, Domain.removeAll_unbounded] at removed
          rw [full, Except.ok.inj removed]
      · exact Narrow.Leaves.pure ⟨h, .refl s, .refl s⟩
    · rintro _ t ⟨serving, aside, level⟩
      have accounted' := accounted.aside h serving aside
      refine serving.domain (accounted'.names v (by simp)) ?_
      cases only : (t.peek v).solution with
      | some n =>
        exact Narrow.leaves_require_bind fun _ =>
          Narrow.Leaves.pure ⟨serving, aside, accounted'.take serving only, level⟩
      | none =>
        exact Narrow.Leaves.pure ⟨serving, aside, accounted'.keep (by rw [aside.resolve, free]) rfl, level⟩

theorem sweepRest (rest : List Var) : ∀ (s : Solver) (o : Narrow.Operands),
    s.Serving K id (.allDifferent vs cs) → Accounted vs cs rest o s →
    (∀ v ∈ rest, s.resolve v = .free v) →
    Narrow.Leaves s (rest.foldlM Running.sweepOne o) fun o' t =>
      t.Serving K id (.allDifferent vs cs) ∧ s.Aside (fun j => j = id) t ∧ Accounted vs cs [] o' t ∧
        s.Level t := by
  induction rest with
  | nil => exact fun s o h accounted _ => Narrow.Leaves.pure ⟨h, .refl s, accounted, .refl s⟩
  | cons v rest ih =>
    intro s o h accounted free
    rw [List.foldlM_cons]
    refine (h.sweepOne accounted (free v (by simp))).bind ?_
    rintro o' t ⟨serving, aside, accounted', level⟩
    refine (ih t o' serving accounted' fun u mem => ?_).mono ?_
    · rw [aside.resolve]
      exact free u (List.mem_cons_of_mem v mem)
    · rintro o'' u ⟨serving', aside', accounted'', level'⟩
      exact ⟨serving', aside.trans aside', accounted'', level.trans level'⟩

theorem sweepAll (n : Nat) : ∀ (s : Solver) (o : Narrow.Operands),
    s.Serving K id (.allDifferent vs cs) → Accounted vs cs [] o s →
    Narrow.Leaves s (Narrow.sweepAll n o) fun o' t =>
      t.Serving K id (.allDifferent vs cs) ∧ s.Aside (fun j => j = id) t ∧ Accounted vs cs [] o' t ∧
        s.Level t := by
  induction n with
  | zero => exact fun s o _ _ => Narrow.leaves_throw
  | succ n ih =>
    intro s o h accounted
    have again : Accounted vs cs o.opened { fixed := o.fixed, opened := [] } s := by
      refine ⟨fun v mem => accounted.names v (by simpa using mem), by simp, accounted.values, ?_, ?_⟩
      · simpa using accounted.number
      · simpa using accounted.covers
    unfold Narrow.sweepAll
    refine (sweepRest o.opened s _ h again accounted.free).bind ?_
    rintro o' t ⟨serving, aside, accounted', level⟩
    split
    · exact Narrow.Leaves.pure ⟨serving, aside, accounted', level⟩
    · refine (ih t o' serving accounted').mono ?_
      rintro o'' u ⟨serving', aside', accounted'', level'⟩
      exact ⟨serving', aside.trans aside', accounted'', level.trans level'⟩

/-- Counting values changes nothing. -/
theorem countValues (h : s.Serving K id r) (vs : List Var) : ∀ (budget : Nat)
    (seen : Std.ExtTreeMap Int Unit), (∀ v ∈ vs, s.Names r v) →
    Narrow.Leaves s (Narrow.countValues vs budget seen) fun _ t => t = s := by
  induction vs with
  | nil => exact fun _ _ _ => Narrow.Leaves.pure rfl
  | cons v vs ih =>
    intro budget seen names
    unfold Narrow.countValues
    refine h.domain (names v (by simp)) ?_
    split
    · split
      · exact ih _ _ fun u mem => names u (List.mem_cons_of_mem v mem)
      · exact Narrow.Leaves.pure rfl
    · exact Narrow.Leaves.pure rfl

theorem pigeonhole (h : s.Serving K id r) (names : ∀ v ∈ o.opened, s.Names r v) :
    Narrow.Leaves s (Narrow.pigeonhole o.opened) fun _ t => t = s := by
  unfold Narrow.pigeonhole
  split
  · refine (h.countValues o.opened _ _ names).bind ?_
    rintro count t rfl
    split
    · exact Narrow.leaves_require fun _ => rfl
    · exact Narrow.Leaves.pure rfl
  · exact Narrow.Leaves.pure rfl

/-- A difference that has nothing left to do leaves its variables confined if it had two
    operands; any other one has two. -/
theorem settled (h : s.Serving K id (.allDifferent vs cs)) (accounted : Accounted vs cs [] o s) :
    Narrow.Leaves s (Narrow.settled o) fun done t => t = s ∧
      (done = true → 2 ≤ vs.length + cs.length → ∀ v ∈ vs, s.Confined v) ∧
      (done = false → 2 ≤ o.opened.length + o.fixed.length) := by
  have number := accounted.number
  rw [List.length_nil, Nat.zero_add] at number
  unfold Narrow.settled
  split
  · rename_i none_open
    refine Narrow.Leaves.pure ⟨rfl, fun _ _ v mem => ?_, by simp⟩
    rcases accounted.covers v mem with ⟨u, mem_u, _⟩ | decided
    · simp [none_open] at mem_u
    · exact h.sound.confined_of_decided decided
  · rename_i u one_open
    refine h.domain (accounted.names u (by simp [one_open])) ?_
    rw [one_open, List.length_singleton] at number ⊢
    refine Narrow.Leaves.pure ⟨rfl, fun apart two v mem => ?_, fun taken => ?_⟩
    · obtain ⟨n, in_fixed⟩ : ∃ n, n ∈ o.fixed :=
        List.exists_mem_of_length_pos (by omega)
      have out := List.all_eq_true.mp apart n in_fixed
      rw [Bool.not_eq_true', ← Bool.not_eq_true] at out
      rcases accounted.covers v mem with ⟨x, mem_x, same⟩ | decided
      · simp only [List.nil_append, one_open, List.mem_singleton] at mem_x
        subst mem_x
        have confined : s.Confined x :=
          ⟨by rw [accounted.free x (by simp [one_open])]; exact Resolved.noConfusion, n, out⟩
        exact confined.congr same
      · exact h.sound.confined_of_decided decided
    · have some_fixed : o.fixed ≠ [] := fun none_fixed => by simp [none_fixed] at taken
      have := List.length_pos_iff.mpr some_fixed
      omega
  · rename_i not_none not_one
    refine Narrow.Leaves.pure ⟨rfl, by simp, fun _ => ?_⟩
    cases opened : o.opened with
    | nil => exact absurd opened not_none
    | cons v l =>
      cases l with
      | nil => exact absurd opened (not_one v)
      | cons w l =>
        simp only [List.length_cons]
        omega

/-- The values that are taken have been swept out of the open variables, and no variable has
    been confined by it. -/
structure Swept (K : Scope) (id : PropId) (vs : List Var) (cs : List Int) (o : Narrow.Operands) (s t : Solver) :
    Prop where
  serving : t.Serving K id (.allDifferent vs cs)
  aside : s.Aside (fun j => j = id) t
  accounted : Accounted vs cs [] o t
  level : s.Level t

/-- Open operands are unbound variables. -/
theorem Swept.proper (h : Swept K id vs cs o s t) (mem : v ∈ o.opened) : t.resolve v ≠ .other := by
  rw [h.accounted.free v mem]
  exact Resolved.noConfusion

/-- A difference that is settled is done; another one subscribes to its open variables, for
    itself or for the difference of these from the values that are taken. -/
theorem leaves_runAllDifferent (h : s.Serving K id (.allDifferent vs cs))
    (done : ∀ o t, Swept K id vs cs o s t → (2 ≤ vs.length + cs.length → ∀ v ∈ vs, t.Confined v) → Q () t)
    (fewer : ∀ o t u, Swept K id vs cs o s t → 2 ≤ o.opened.length + o.fixed.length →
      Replaced K id (.allDifferent o.opened o.fixed) t u → Narrow.Leaves u (Narrow.resubscribe id o.opened) Q)
    (same : ∀ o t, Swept K id vs cs o s t → 2 ≤ o.opened.length + o.fixed.length →
      Narrow.Leaves t (Narrow.resubscribe id o.opened) Q) :
    Narrow.Leaves s (Narrow.runAllDifferent id vs cs) Q := by
  unfold Narrow.runAllDifferent
  refine ((Running.takeAll (M := fun _ => False) cs {} List.nodup_nil fun _ => False.elim).leaves).bind ?_
  rintro _ s' ⟨rfl, rfl, _⟩
  refine (h.addAll vs _ (.start h.running.proper)).bind ?_
  rintro o s' ⟨rfl, sorted⟩
  refine (sweepAll _ s' o h sorted).bind ?_
  rintro o' t ⟨serving, aside, accounted, level⟩
  have swept : Swept K id vs cs o' s' t := ⟨serving, aside, accounted, level⟩
  refine (serving.pigeonhole accounted.names).bind ?_
  rintro _ t' rfl
  refine (serving.settled accounted).bind ?_
  rintro finished t'' ⟨rfl, confined, two⟩
  cases finished with
  | true => exact Narrow.Leaves.pure (done o' t'' swept (confined rfl))
  | false =>
    rw [if_neg Bool.false_ne_true]
    split
    · exact (serving.replaceWith (q := .allDifferent o'.opened o'.fixed) accounted.values accounted.names).bind
        fun _ u => fewer o' t'' u swept (two rfl)
    · exact same o' t'' swept (two rfl)

end AllDifferent

end Serving

end ConstraintLogic.Solver
