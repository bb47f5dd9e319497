import ConstraintLogic.Proofs.Propagator.Branches

/-!
# What remains of a propagator

A propagator that is run is either dropped, and then every variable of a regular one
has a value or a finite domain, or it goes on for a regular relation that names all of
its variables that are still open. This is seen run by run: a relation that becomes
another one leaves what the other one leaves.

Results:
* `Solver.Serving.runTable`, `Solver.Serving.runPlusConst`, `Solver.Serving.runScale`,
  `Solver.Serving.runSumConst`, `Solver.Serving.runSum`,
  `Solver.Serving.runAllDifferent`: what the runs leave.
* `Solver.Serving.propagate`: what any run leaves.
-/

namespace ConstraintLogic.Solver

variable {K : Scope} {s t u : Solver} {id : PropId} {r q : Relation} {v w x y z : Var} {c : Int}

theorem alias_iff : s.subst.Alias v w ↔ s.sameVar v w = true := by
  simp only [sameVar_iff, resolve_eq_free_iff, Subst.Alias]

theorem not_alias (apart : s.sameVar v w = false) : ¬s.subst.Alias v w := fun alike => by
  rw [alias_iff, apart] at alike
  cases alike

namespace Serving

/-! ## Tables -/

variable {vs : List Var} {rows : List (List Int)} {origin : Term}

theorem runTable (h : s.Serving K id (.table vs rows origin)) :
    Narrow.Leaves s (Narrow.runTable id vs rows origin) fun _ t =>
      s.Served id (.table vs rows origin) t := by
  refine h.leaves_runTable fun left t trimmed => ?_
  refine (trimmed.serving.keep trimmed.aside trivial trimmed.proper).mono fun _ _ served => ?_
  exact served.widen (.refl s) (fun _ => trivial) fun _ v mem => .inl (names_of_mem mem)

/-- A relation goes on as the table of its rows. -/
theorem becomeTable (h : s.Serving K id r) (tabulates : s.Tabulates r rows) :
    Narrow.Leaves s (Narrow.becomeTable id r.vars rows origin) fun _ t => s.Served id r t := by
  unfold Narrow.becomeTable
  refine (h.replaceWith (q := .table r.vars rows origin) tabulates.proper fun v mem => names_of_mem mem).bind ?_
  rintro _ t ⟨serving, aside, _⟩
  refine serving.runTable.mono fun _ _ served => ?_
  exact served.widen aside (fun _ => trivial) fun _ v mem => .inl (names_of_mem mem)

/-! ## Differences and multiples -/

/-- Two variables that are narrowed by one another are subscribed to again. -/
theorem keep_exchanged (h : Exchanged K id r x z s t) (vars : r.vars = [x, z]) (regular : s.subst.Regular r) :
    Narrow.Leaves t (Narrow.resubscribe id [x, z]) fun _ u => s.Served id r u := by
  rw [← vars]
  refine h.serving.keep h.aside regular fun v mem => ?_
  rw [vars] at mem
  rcases List.mem_pair.mp mem with rfl | rfl
  · exact h.proper.1
  · exact h.proper.2

theorem runPlusConst (h : s.Serving K id (.plusConst x c z)) :
    Narrow.Leaves s (Narrow.runPlusConst id x c z) fun _ t => s.Served id (.plusConst x c z) t := by
  refine h.leaves_runPlusConst (fun same => ?_) fun apart t exchanged => ?_
  · exact .dropped (.refl s) h.silent fun regular => absurd (alias_iff.mpr same) regular
  · exact keep_exchanged exchanged rfl (not_alias apart)

/-- A relation that is dropped for a narrowing was not regular. -/
theorem dropped_of_reduce (h : s.Serving K id r) (names : s.Names r v) {n : Int} (value : isValue n = true)
    (irregular : ¬s.subst.Regular r) :
    Narrow.Leaves s (Narrow.reduce v (.singleton n)) fun _ t => s.Served id r t := by
  refine (h.reduce names (canonical_singleton value)).mono ?_
  rintro _ t ⟨serving, _, aside, _⟩
  exact .dropped aside serving.silent fun regular => absurd regular irregular

theorem runScale (h : s.Serving K id (.scale c x z)) :
    Narrow.Leaves s (Narrow.runScale id c x z) fun _ t => s.Served id (.scale c x z) t := by
  have in_x : x ∈ (Relation.scale c x z).vars := by simp [Relation.vars]
  have in_z : z ∈ (Relation.scale c x z).vars := by simp [Relation.vars]
  have zero_value : isValue 0 = true := by decide
  refine h.leaves_runScale (fun zero => ?_) (fun same => ?_) (fun _ _ rows => h.becomeTable rows)
    fun nonzero apart t exchanged => ?_
  · exact h.dropped_of_reduce (names_of_mem in_z) zero_value fun regular => regular.1 zero
  · have irregular : ¬s.subst.Regular (.scale c x z) := fun regular => regular.2 (alias_iff.mpr same)
    exact ⟨.dropped (.refl s) h.silent fun regular => absurd regular irregular,
      h.dropped_of_reduce (names_of_mem in_x) zero_value irregular⟩
  · exact keep_exchanged exchanged rfl ⟨nonzero, not_alias apart⟩

/-! ## Sums -/

theorem runSumConst (h : s.Serving K id (.sumConst x y c)) :
    Narrow.Leaves s (Narrow.runSumConst id x y c) fun _ t => s.Served id (.sumConst x y c) t := by
  have in_x : x ∈ (Relation.sumConst x y c).vars := by simp [Relation.vars]
  refine h.leaves_runSumConst (fun same n value => ?_) (fun _ _ _ rows => h.becomeTable rows)
    fun _ t exchanged => keep_exchanged exchanged rfl trivial
  refine (h.reduce_confined (names_of_mem in_x) (canonical_singleton value) Domain.noConfusion).mono ?_
  rintro _ t ⟨serving, aside, confined⟩
  refine .dropped aside serving.silent fun _ v mem => ?_
  rcases List.mem_pair.mp mem with rfl | rfl
  · exact confined
  · exact confined.congr (by rw [aside.resolve, resolve_of_sameVar same])

/-- Narrowing to an interval changes nothing where an end is not known, and cannot be
    done for a variable that stands for something else than an integer. Where both ends are
    known it confines the variable. -/
theorem reduceBetween (h : s.Serving K id r) (names : s.Names r v) (lb ub : Option Int) :
    Narrow.Leaves s (Narrow.reduceBetween v lb ub) fun _ t =>
      t.Serving K id r ∧ s.Aside (fun j => j = id) t ∧
        (lb = none ∨ s.resolve v = .other → t = s) ∧
        ∀ w, t.Confined w ↔ s.Confined w ∨ s.resolve w = s.resolve v ∧ lb ≠ none ∧ ub ≠ none := by
  unfold Narrow.reduceBetween
  split
  · rename_i a b
    refine (h.reduce_spreads names (Domain.canonical_clampedRange a b)).mono ?_
    rintro _ t ⟨serving, aside, proper, spreads⟩
    refine ⟨serving, aside, fun blocked => absurd (blocked.resolve_left (Option.some_ne_none a)) proper, fun w => ?_⟩
    rw [spreads]
    simp [Domain.clampedRange_ne_unbounded]
  · rename_i unknown
    refine Narrow.Leaves.pure ⟨h, .refl s, fun _ => rfl, fun w => (or_iff_left ?_).symm⟩
    rintro ⟨_, known, known'⟩
    obtain ⟨a, rfl⟩ := Option.ne_none_iff_exists'.mp known
    obtain ⟨b, rfl⟩ := Option.ne_none_iff_exists'.mp known'
    exact unknown a b rfl rfl

theorem min?_of_other (other : s.resolve v = .other) : (s.peek v).min? = none := by
  simp [peek, other, Domain.min?]

theorem max?_of_other (other : s.resolve v = .other) : (s.peek v).max? = none := by
  simp [peek, other, Domain.max?]

/-- Narrowing the ends of a sum changes nothing where a variable stands for something
    else than an integer. -/
theorem narrowEnds (n : Nat) : ∀ s : Solver, s.Serving K id (.sum x y z) →
    Narrow.Leaves s (Narrow.narrowEnds x y z n) fun _ t =>
      t.Serving K id (.sum x y z) ∧ s.Aside (fun j => j = id) t ∧
        ((∃ v ∈ [x, y, z], s.resolve v = .other) → t = s) := by
  have in_x : x ∈ (Relation.sum x y z).vars := by simp [Relation.vars]
  have in_y : y ∈ (Relation.sum x y z).vars := by simp [Relation.vars]
  have in_z : z ∈ (Relation.sum x y z).vars := by simp [Relation.vars]
  induction n with
  | zero => exact fun s _ => Narrow.leaves_throw
  | succ n ih =>
    intro s h
    unfold Narrow.narrowEnds
    refine h.domain (names_of_mem in_x) (h.domain (names_of_mem in_y) (h.domain (names_of_mem in_z) ?_))
    refine (h.reduceBetween (names_of_mem in_z) _ _).bind ?_
    rintro _ t ⟨ht, aside_z, blocked_z, _⟩
    refine ht.domain (names_of_mem in_z) ?_
    refine (ht.reduceBetween (names_of_mem in_x) _ _).bind ?_
    rintro _ u ⟨hu, aside_x, blocked_x, _⟩
    refine hu.domain (names_of_mem in_x) ?_
    refine (hu.reduceBetween (names_of_mem in_y) _ _).bind ?_
    rintro _ w ⟨hw, aside_y, blocked_y, _⟩
    refine hw.domain (names_of_mem in_x) (hw.domain (names_of_mem in_y) (hw.domain (names_of_mem in_z) ?_))
    have aside := (aside_z.trans aside_x).trans aside_y
    -- Each of the three steps has an unknown end, or is one of the variable itself.
    have still (other : ∃ v ∈ [x, y, z], s.resolve v = .other) : w = s := by
      simp only [List.mem_cons, List.not_mem_nil, or_false, exists_eq_or_imp, exists_eq_left] at other
      have same_z : t = s := blocked_z <| by
        rcases other with other | other | other
        · exact .inl (by rw [min?_of_other other]; rfl)
        · exact .inl (by rw [min?_of_other other]; cases (s.peek x).min? <;> rfl)
        · exact .inr other
      subst same_z
      have same_x : u = t := blocked_x <| by
        rcases other with other | other | other
        · exact .inr other
        · exact .inl (by rw [max?_of_other other]; cases (t.peek z).min? <;> rfl)
        · exact .inl (by rw [min?_of_other other]; rfl)
      subst same_x
      refine blocked_y ?_
      rcases other with other | other | other
      · exact .inl (by rw [max?_of_other other]; cases (u.peek z).min? <;> rfl)
      · exact .inr other
      · exact .inl (by rw [min?_of_other other]; rfl)
    dsimp only
    split
    · exact Narrow.Leaves.pure ⟨hw, aside, still⟩
    · refine (ih w hw).mono ?_
      rintro _ w' ⟨hw', aside', still'⟩
      refine ⟨hw', aside.trans aside', fun other => ?_⟩
      have same := still other
      subst same
      exact still' other

/-- Where the rows of a sum are too many for a table and no operand has a single value,
    one of the variables is unbound. -/
theorem exists_open
    (large : ¬((s.peek x).smallProduct (s.peek y) && (s.peek z).size.isSome) = true)
    (open_x : (s.peek x).solution = none) (open_y : (s.peek y).solution = none)
    (open_z : (s.peek z).solution = none) :
    ∃ v ∈ [x, y, z], ∃ w, s.resolve v = .free w ∧ (s.current w).solution = none := by
  -- What is neither a value nor without integers is an unbound variable.
  have free (v : Var) (open_ : (s.peek v).solution = none) (some_left : s.peek v ≠ .empty) :
      ∃ w, s.resolve v = .free w ∧ (s.current w).solution = none := by
    cases found : s.resolve v with
    | free w => exact ⟨w, rfl, by rwa [peek_of_free found] at open_⟩
    | value n => simp [peek, found, Domain.solution, Domain.singleton] at open_
    | other => exact absurd (by simp [peek, found]) some_left
  by_cases none_x : s.peek x = .empty
  · by_cases full_y : s.peek y = .empty ∨ (s.peek y).size ≠ none
    · refine ⟨z, by simp, free z open_z fun none_z => large ?_⟩
      have size_y : ∃ n, (s.peek y).size = some n := by
        rcases full_y with none_y | known
        · exact ⟨0, by rw [none_y]; rfl⟩
        · exact Option.ne_none_iff_exists'.mp known
      obtain ⟨n, size_y⟩ := size_y
      have few : (Domain.empty.smallProduct (s.peek y)) = true := by
        unfold Domain.smallProduct
        rw [size_y]
        simp [Domain.size]
      rw [none_x, few, none_z]
      rfl
    · rw [not_or] at full_y
      exact ⟨y, by simp, free y open_y full_y.1⟩
  · exact ⟨x, by simp, free x open_x none_x⟩

/-- Where a sum goes on as a relation, its operands are named by it or confined. -/
theorem widen_sum (h : t.Served id q u) (replaced : Replaced K id q s t)
    (regular : s.subst.Regular (.sum x y z) → s.subst.Regular q)
    (vars : ∀ v ∈ [x, y, z], s.Names q v ∨ s.Confined v) : s.Served id (.sum x y z) u :=
  h.widen replaced.aside regular fun _ v mem => (vars v mem).imp_right (replaced.confined v).mpr

theorem runSum (h : s.Serving K id (.sum x y z)) :
    Narrow.Leaves s (Narrow.runSum id x y z) fun _ t => s.Served id (.sum x y z) t := by
  have in_x : x ∈ (Relation.sum x y z).vars := by simp [Relation.vars]
  have in_y : y ∈ (Relation.sum x y z).vars := by simp [Relation.vars]
  have zero_value : isValue 0 = true := by decide
  have named {q : Relation} {v : Var} (mem : v ∈ q.vars) : s.Names q v ∨ s.Confined v := .inl (names_of_mem mem)
  have fixed {v : Var} {n : Int} (q : Relation) (only : (s.peek v).solution = some n) : s.Names q v ∨ s.Confined v :=
    .inr (h.sound.confined_of_solution only)
  refine h.leaves_runSum (fun _ same => ?_) (fun same t replaced => ?_) (fun same => ?_) (fun same => ?_)
    (fun _ n only t replaced => ?_) (fun _ n only t replaced => ?_) (fun _ n only t replaced => ?_)
    (fun _ _ rows => h.becomeTable rows) fun distinct opened large => ?_
  · exact h.dropped_of_reduce (names_of_mem in_x) zero_value fun regular => regular.1 (alias_iff.mpr same)
  · refine replaced.serving.runScale.mono fun _ _ served => widen_sum served replaced
      (fun regular => ⟨by decide, regular.1⟩) ?_
    simp only [List.forall_mem_cons, List.not_mem_nil, false_imp_iff, implies_true, and_true]
    exact ⟨named (by simp [Relation.vars]), .inl ⟨x, by simp [Relation.vars], resolve_of_sameVar same⟩,
      named (by simp [Relation.vars])⟩
  · exact h.dropped_of_reduce (names_of_mem in_y) zero_value fun regular => regular.1 (alias_iff.mpr same)
  · exact h.dropped_of_reduce (names_of_mem in_x) zero_value fun regular => regular.2 (alias_iff.mpr same)
  · refine replaced.serving.runPlusConst.mono fun _ _ served => widen_sum served replaced
      (fun regular => regular.2) ?_
    simp only [List.forall_mem_cons, List.not_mem_nil, false_imp_iff, implies_true, and_true]
    exact ⟨fixed _ only, named (by simp [Relation.vars]), named (by simp [Relation.vars])⟩
  · refine replaced.serving.runPlusConst.mono fun _ _ served => widen_sum served replaced
      (fun regular => regular.1) ?_
    simp only [List.forall_mem_cons, List.not_mem_nil, false_imp_iff, implies_true, and_true]
    exact ⟨named (by simp [Relation.vars]), fixed _ only, named (by simp [Relation.vars])⟩
  · refine replaced.serving.runSumConst.mono fun _ _ served => widen_sum served replaced (fun _ => trivial) ?_
    simp only [List.forall_mem_cons, List.not_mem_nil, false_imp_iff, implies_true, and_true]
    exact ⟨named (by simp [Relation.vars]), named (by simp [Relation.vars]), fixed _ only⟩
  · obtain ⟨_, apart_xz, apart_yz⟩ := distinct
    refine (narrowEnds _ s h).bind ?_
    rintro _ t ⟨serving, aside, still⟩
    refine serving.resubscribe (q := .sum x y z) aside (fun v mem => names_of_mem mem)
      (fun v mem _ _ _ => List.mem_map_of_mem mem) ⟨not_alias apart_xz, not_alias apart_yz⟩
      (fun other => ?_) fun _ v mem => .inl (names_of_mem mem)
    rw [aside.resolve] at other
    rw [still other]
    exact exists_open large (opened x (by simp)) (opened y (by simp)) (opened z (by simp))

/-! ## Pairwise difference -/

theorem runAllDifferent {cs : List Int} (h : s.Serving K id (.allDifferent vs cs)) :
    Narrow.Leaves s (Narrow.runAllDifferent id vs cs) fun _ t => s.Served id (.allDifferent vs cs) t := by
  refine h.leaves_runAllDifferent (fun o t swept confined => ?_) (fun o t u swept two replaced => ?_)
    fun o t swept two => ?_
  · exact .dropped swept.aside swept.serving.silent fun regular v mem => confined regular v mem
  · refine replaced.serving.resubscribe (q := .allDifferent o.opened o.fixed) (swept.aside.trans replaced.aside)
      (fun v mem => names_of_mem mem) (fun v mem _ _ _ => List.mem_map_of_mem mem) two ?_ fun _ v mem => ?_
    · rintro ⟨v, mem, other⟩
      rw [replaced.aside.resolve] at other
      exact absurd other (swept.proper mem)
    · rcases swept.accounted.covers v mem with ⟨x, mem_x, same⟩ | decided
      · rw [swept.aside.resolve] at same
        exact .inl ⟨x, mem_x, same⟩
      · exact .inr ((replaced.confined v).mpr (swept.serving.sound.confined_of_decided decided))
  · have number := swept.accounted.number
    rw [List.length_nil, Nat.zero_add] at number
    refine swept.serving.resubscribe (q := .allDifferent vs cs) swept.aside swept.accounted.names ?_
      (show 2 ≤ vs.length + cs.length by omega) ?_ fun _ v mem => .inl (names_of_mem mem)
    · intro v mem w free no_value
      rcases swept.accounted.covers v mem with ⟨x, mem_x, same⟩ | decided
      · exact List.mem_map.mpr ⟨x, mem_x, same⟩
      · rw [Decided, peek_of_free free] at decided
        exact absurd no_value decided
    · rintro ⟨v, mem, other⟩
      rcases swept.accounted.covers v mem with ⟨x, mem_x, same⟩ | decided
      · exact absurd (same.trans other) (swept.proper mem_x)
      · exact absurd other (swept.serving.sound.confined_of_decided decided).1

/-! ## Any relation -/

/-- What any run leaves. -/
theorem propagate (h : s.Serving K id r) :
    Narrow.Leaves s (Narrow.propagate id r) fun _ t => s.Served id r t := by
  cases r with
  | plusConst x c z => exact h.runPlusConst
  | sumConst x y c => exact h.runSumConst
  | sum x y z => exact h.runSum
  | scale c x z => exact h.runScale
  | allDifferent vs cs => exact h.runAllDifferent
  | table vs rows origin => exact h.runTable

end Serving

end ConstraintLogic.Solver
