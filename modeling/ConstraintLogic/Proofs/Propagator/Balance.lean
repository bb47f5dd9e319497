import ConstraintLogic.Proofs.Propagator.Remainder

/-!
# Balanced relations

A run passes finiteness on. Two variables of a difference, a multiple or a sum with known
result end with finite domains both or not at all, a sum with two finite domains gets the
third one, and a table leaves all of its variables with finite domains. Where this is so
already, a run gives no variable a finite domain that had none.

Results:
* `Solver.Balanced`: finiteness has spread through a relation.
* `Solver.Evens`: what a run does to finiteness.
* `Solver.Serving.evens_propagate`: every run evens.
-/

namespace ConstraintLogic.Solver

variable {K : Scope} {E : PropId → Prop} {P : Var → Prop} {s t u : Solver} {id : PropId}
variable {r q : Relation} {v w x y z : Var} {c : Int}

/-- Two of the variables are confined only together with the third. -/
structure Closes (s : Solver) (x y z : Var) : Prop where
  result : s.Confined x → s.Confined y → s.Confined z
  right : s.Confined x → s.Confined z → s.Confined y
  left : s.Confined y → s.Confined z → s.Confined x

/-- Finiteness has spread through the relation. Where operands are aliased, or a multiple
    is that of zero, the relation goes on to confine variables when it is run. -/
def Balanced (s : Solver) : Relation → Prop
  | .plusConst x _ z => s.Confined x ↔ s.Confined z
  | .sumConst x y _ => s.sameVar x y = false ∧ (s.Confined x ↔ s.Confined y)
  | .sum x y z => (s.sameVar x y = false ∧ s.sameVar x z = false ∧ s.sameVar y z = false) ∧ s.Closes x y z
  | .scale c x z => c ≠ 0 ∧ s.sameVar x z = false ∧ (s.Confined x ↔ s.Confined z)
  | .allDifferent .. => True
  | .table vs _ _ => ∀ v ∈ vs, s.Confined v

/-- Whether a relation is balanced depends on which of its variables are confined, and it
    stays so where fewer of them are aliased. -/
theorem Balanced.congr (h : s.Balanced r) (confined : ∀ v ∈ r.vars, t.Confined v ↔ s.Confined v)
    (fewer : ∀ v ∈ r.vars, ∀ w ∈ r.vars, t.sameVar v w = true → s.sameVar v w = true) : t.Balanced r := by
  have apart {v w : Var} (in_v : v ∈ r.vars) (in_w : w ∈ r.vars) (apart : s.sameVar v w = false) :
      t.sameVar v w = false := by
    rw [← Bool.not_eq_true] at apart ⊢
    exact fun same => apart (fewer v in_v w in_w same)
  cases r with
  | plusConst x c z =>
    show t.Confined x ↔ t.Confined z
    rw [confined x (by simp [Relation.vars]), confined z (by simp [Relation.vars])]
    exact h
  | sumConst x y c =>
    refine ⟨apart (by simp [Relation.vars]) (by simp [Relation.vars]) h.1, ?_⟩
    rw [confined x (by simp [Relation.vars]), confined y (by simp [Relation.vars])]
    exact h.2
  | sum x y z =>
    obtain ⟨⟨xy, xz, yz⟩, closes⟩ := h
    have at_x := confined x (by simp [Relation.vars])
    have at_y := confined y (by simp [Relation.vars])
    have at_z := confined z (by simp [Relation.vars])
    refine ⟨⟨?_, ?_, ?_⟩, ⟨?_, ?_, ?_⟩⟩
    · exact apart (by simp [Relation.vars]) (by simp [Relation.vars]) xy
    · exact apart (by simp [Relation.vars]) (by simp [Relation.vars]) xz
    · exact apart (by simp [Relation.vars]) (by simp [Relation.vars]) yz
    · rw [at_x, at_y, at_z]
      exact closes.result
    · rw [at_x, at_y, at_z]
      exact closes.right
    · rw [at_x, at_y, at_z]
      exact closes.left
  | scale c x z =>
    refine ⟨h.1, apart (by simp [Relation.vars]) (by simp [Relation.vars]) h.2.1, ?_⟩
    rw [confined x (by simp [Relation.vars]), confined z (by simp [Relation.vars])]
    exact h.2.2
  | allDifferent vs cs => trivial
  | table vs rows origin => exact fun v mem => (confined v mem).mpr (h v mem)

/-- What a run of `id` for `r` does to finiteness: a relation that is left with
    subscriptions is balanced, and where `r` is balanced no variable becomes confined. -/
structure Evens (id : PropId) (r : Relation) (s t : Solver) : Prop where
  kept : ∀ w, id ∈ t.subscribersOf w → ∀ p, t.prop? id = some p → t.Balanced p.val
  steady : s.Balanced r → s.Level t ∧ ∀ p, t.prop? id = some p → t.Balanced p.val

namespace Evens

/-- A run that ends without subscriptions. -/
theorem dropped (h : t.Serving K id q) (steady : s.Balanced r → s.Level t ∧ t.Balanced q) : s.Evens id r t where
  kept w mem := absurd mem (h.silent w)
  steady balanced := by
    refine ⟨(steady balanced).1, fun p found => ?_⟩
    obtain ⟨n, at_id⟩ := h.relation
    cases at_id.symm.trans found
    exact (steady balanced).2

/-- A run that ends with the subscriptions of a balanced relation. -/
theorem keep (h : t.Serving K id q) {vs : List Var} (names : ∀ v ∈ vs, t.Names q v) (balanced : t.Balanced q)
    (level : s.Balanced r → s.Level t) :
    Narrow.Leaves t (Narrow.resubscribe id vs) fun _ u => s.Evens id r u := by
  intro a u run
  cases run
  obtain ⟨n, found⟩ := h.relation
  obtain ⟨⟨m, eq⟩, _⟩ := resubscribe_spec id vs t fun v mem w => h.loaded (names v mem)
  beta_reduce
  rw [eq]
  have left (p : Propagator) (at_id : ({ t with subscribers := m } : Solver).prop? id = some p) :
      ({ t with subscribers := m } : Solver).Balanced p.val := by
    cases found.symm.trans at_id
    exact balanced.congr (fun _ _ => Iff.rfl) fun _ _ _ _ same => same
  exact ⟨fun _ _ => left, fun before => ⟨level before, left⟩⟩

/-- A run for `r` may go on as a run for `q`. -/
theorem widen (h : t.Evens id q u) (steady : s.Balanced r → s.Level t ∧ t.Balanced q) : s.Evens id r u where
  kept := h.kept
  steady balanced := by
    obtain ⟨level, balanced'⟩ := steady balanced
    exact ⟨level.trans (h.steady balanced').1, (h.steady balanced').2⟩

end Evens

/-! ## Ends -/

/-- The variables that have ends are the confined ones. -/
theorem Sound.ends_iff (h : s.Sound K E P) :
    ((s.peek v).min? ≠ none ↔ s.Confined v) ∧ ((s.peek v).max? ≠ none ↔ s.Confined v) := by
  have canonical := h.canonical_peek v
  have some_left (proper : s.resolve v ≠ .other) : s.peek v ≠ .empty := by
    cases found : s.resolve v with
    | value n => simp [peek, found, Domain.singleton]
    | other => exact absurd found proper
    | free w =>
      rw [peek_of_free found]
      intro none_left
      have nonempty := (h.canonical_current w).2
      rw [none_left] at nonempty
      cases nonempty
  have known_min (known : (s.peek v).min? ≠ none) : s.resolve v ≠ .other ∧ s.peek v ≠ .unbounded := by
    refine ⟨fun other => known (Serving.min?_of_other other), fun full => known ?_⟩
    rw [full]
    rfl
  have known_max (known : (s.peek v).max? ≠ none) : s.resolve v ≠ .other ∧ s.peek v ≠ .unbounded := by
    refine ⟨fun other => known (Serving.max?_of_other other), fun full => known ?_⟩
    rw [full]
    rfl
  rw [h.confined_iff]
  refine ⟨⟨known_min, ?_⟩, ⟨known_max, ?_⟩⟩
  · rintro ⟨proper, finite⟩
    exact Option.ne_none_iff_exists'.mpr (canonical.exists_min? finite (some_left proper))
  · rintro ⟨proper, finite⟩
    exact Option.ne_none_iff_exists'.mpr (canonical.exists_max? finite (some_left proper))

theorem addEnds_ne_none_iff {a b : Option Int} : Narrow.addEnds a b ≠ none ↔ a ≠ none ∧ b ≠ none := by
  cases a <;> cases b <;> simp [Narrow.addEnds]

theorem subEnds_ne_none_iff {a b : Option Int} : Narrow.subEnds a b ≠ none ↔ a ≠ none ∧ b ≠ none := by
  cases a <;> cases b <;> simp [Narrow.subEnds]

section Round

variable {e : Solver}
variable (to_z : ∀ v, t.Confined v ↔ s.Confined v ∨ s.resolve v = s.resolve z ∧ s.Confined x ∧ s.Confined y)
variable (to_x : ∀ v, u.Confined v ↔ t.Confined v ∨ s.resolve v = s.resolve x ∧ t.Confined z ∧ s.Confined y)
variable (to_y : ∀ v, e.Confined v ↔ u.Confined v ∨ s.resolve v = s.resolve y ∧ t.Confined z ∧ u.Confined x)

include to_z to_x to_y

/-- A round that narrows the ends of a sum confines no variable if two of its variables are
    confined only together with the third. -/
theorem Closes.level_of_round (h : s.Closes x y z) : s.Level e := by
  have at_t : s.Level t := fun v confined => by
    rcases (to_z v).mp confined with before | ⟨same, confined_x, confined_y⟩
    · exact before
    · exact (h.result confined_x confined_y).congr same.symm
  have at_u : s.Level u := fun v confined => by
    rcases (to_x v).mp confined with before | ⟨same, confined_z, confined_y⟩
    · exact at_t v before
    · exact (h.left confined_y (at_t z confined_z)).congr same.symm
  intro v confined
  rcases (to_y v).mp confined with before | ⟨same, confined_z, confined_x⟩
  · exact at_u v before
  · exact (h.right (at_u x confined_x) (at_t z confined_z)).congr same.symm

/-- After a round that has confined none of them, two of the variables of a sum are confined
    only together with the third. -/
theorem closes_of_round (same : ∀ v ∈ [x, y, z], e.Confined v → s.Confined v) : e.Closes x y z := by
  have in_t {v : Var} (confined : s.Confined v) : t.Confined v := (to_z v).mpr (.inl confined)
  have in_u {v : Var} (confined : t.Confined v) : u.Confined v := (to_x v).mpr (.inl confined)
  have in_e {v : Var} (confined : u.Confined v) : e.Confined v := (to_y v).mpr (.inl confined)
  have at_x := same x (by simp)
  have at_y := same y (by simp)
  have at_z := same z (by simp)
  refine ⟨fun confined_x confined_y => ?_, fun confined_x confined_z => ?_, fun confined_y confined_z => ?_⟩
  · exact in_e (in_u ((to_z z).mpr (.inr ⟨rfl, at_x confined_x, at_y confined_y⟩)))
  · exact (to_y y).mpr (.inr ⟨rfl, in_t (at_z confined_z), in_u (in_t (at_x confined_x))⟩)
  · exact in_e ((to_x x).mpr (.inr ⟨rfl, in_t (at_z confined_z), at_y confined_y⟩))

end Round

namespace Serving

/-! ## Tables -/

variable {vs : List Var} {rows : List (List Int)} {origin : Term}

/-- A table that is run leaves its variables confined. -/
theorem evens_runTable (h : s.Serving K id (.table vs rows origin)) :
    Narrow.Leaves s (Narrow.runTable id vs rows origin) fun _ t =>
      (∀ v ∈ vs, s.resolve v ≠ .other) ∧ s.Evens id (.table vs rows origin) t := by
  refine h.leaves_runTable fun left t trimmed => ?_
  have confined (v : Var) (mem : v ∈ vs) : t.Confined v := (trimmed.confined v).mpr (.inr ⟨v, mem, rfl⟩)
  have level (before : s.Balanced (.table vs rows origin)) : s.Level t := fun w confined => by
    rcases (trimmed.confined w).mp confined with here | ⟨v, mem, same⟩
    · exact here
    · exact (before v mem).congr same.symm
  exact (Evens.keep trimmed.serving (fun v => names_of_mem) confined level).mono fun _ _ evens => ⟨trimmed.proper, evens⟩

/-- A relation whose variables are confined goes on as a table. -/
theorem evens_becomeTable (h : s.Serving K id r) (tabulates : s.Tabulates r rows)
    (confined : (∀ v ∈ r.vars, s.resolve v ≠ .other) → s.Balanced r → ∀ v ∈ r.vars, s.Confined v) :
    Narrow.Leaves s (Narrow.becomeTable id r.vars rows origin) fun _ t => s.Evens id r t := by
  unfold Narrow.becomeTable
  refine (h.replaceWith (q := .table r.vars rows origin) tabulates.proper fun v mem => names_of_mem mem).bind ?_
  rintro _ t replaced
  refine replaced.serving.evens_runTable.mono ?_
  rintro _ u ⟨resolved, evens⟩
  rw [replaced.aside.resolve] at resolved
  exact evens.widen fun before => ⟨fun v here => (replaced.confined v).mp here, fun v mem =>
    (replaced.confined v).mpr (confined resolved before v mem)⟩

/-- A relation that was not balanced may be dropped for a narrowing. -/
theorem evens_reduce (h : s.Serving K id r) (names : s.Names r v) {n : Int} (value : isValue n = true)
    (unbalanced : ¬s.Balanced r) :
    Narrow.Leaves s (Narrow.reduce v (.singleton n)) fun _ t => s.Evens id r t := by
  refine (h.reduce names (canonical_singleton value)).mono ?_
  rintro _ t ⟨serving, _⟩
  exact Evens.dropped serving fun balanced => absurd balanced unbalanced

/-! ## Differences and multiples -/

theorem evens_runPlusConst (h : s.Serving K id (.plusConst x c z)) :
    Narrow.Leaves s (Narrow.runPlusConst id x c z) fun _ t => s.Evens id (.plusConst x c z) t := by
  refine h.leaves_runPlusConst (fun _ => ?_) fun _ t exchanged => ?_
  · exact Evens.dropped h fun balanced => ⟨.refl s, balanced⟩
  · exact Evens.keep exchanged.serving (fun v mem => names_of_mem mem) exchanged.even exchanged.level

theorem evens_runScale (h : s.Serving K id (.scale c x z)) :
    Narrow.Leaves s (Narrow.runScale id c x z) fun _ t => s.Evens id (.scale c x z) t := by
  have in_x : x ∈ (Relation.scale c x z).vars := by simp [Relation.vars]
  have in_z : z ∈ (Relation.scale c x z).vars := by simp [Relation.vars]
  have zero_value : isValue 0 = true := by decide
  refine h.leaves_runScale (fun zero => ?_) (fun same => ?_) (fun finite rows tabulates => ?_)
    fun nonzero apart t exchanged => ?_
  · exact h.evens_reduce (names_of_mem in_z) zero_value fun balanced => balanced.1 zero
  · have unbalanced : ¬s.Balanced (.scale c x z) := fun balanced => by cases same.symm.trans balanced.2.1
    exact ⟨Evens.dropped h fun balanced => absurd balanced unbalanced,
      h.evens_reduce (names_of_mem in_x) zero_value unbalanced⟩
  · refine h.evens_becomeTable tabulates fun proper balanced => ?_
    have confined : s.Confined x := h.sound.confined_iff.mpr ⟨proper x in_x, finite⟩
    exact List.forall_mem_cons.mpr ⟨confined, List.forall_mem_singleton.mpr (balanced.2.2.mp confined)⟩
  · refine Evens.keep exchanged.serving (fun v mem => names_of_mem mem) ⟨nonzero, ?_, exchanged.even⟩
      fun balanced => exchanged.level balanced.2.2
    rw [sameVar, exchanged.aside.resolve]
    exact apart

/-! ## Sums -/

theorem evens_runSumConst (h : s.Serving K id (.sumConst x y c)) :
    Narrow.Leaves s (Narrow.runSumConst id x y c) fun _ t => s.Evens id (.sumConst x y c) t := by
  have in_x : x ∈ (Relation.sumConst x y c).vars := by simp [Relation.vars]
  have in_y : y ∈ (Relation.sumConst x y c).vars := by simp [Relation.vars]
  refine h.leaves_runSumConst (fun same n value => ?_) (fun finite_x finite_y rows tabulates => ?_)
    fun apart t exchanged => ?_
  · exact h.evens_reduce (names_of_mem in_x) value fun balanced => by cases same.symm.trans balanced.1
  · refine h.evens_becomeTable tabulates fun proper _ => ?_
    exact List.forall_mem_cons.mpr ⟨h.sound.confined_iff.mpr ⟨proper x in_x, finite_x⟩,
      List.forall_mem_singleton.mpr (h.sound.confined_iff.mpr ⟨proper y in_y, finite_y⟩)⟩
  · refine Evens.keep exchanged.serving (fun v mem => names_of_mem mem) ⟨?_, exchanged.even⟩
      fun balanced => exchanged.level balanced.2
    rw [sameVar, exchanged.aside.resolve]
    exact apart

/-- Narrowing the ends of a sum goes on until two of its variables are confined only
    together with the third, and confines no variable where that is so before. -/
theorem narrowEnds_closes (n : Nat) : ∀ s : Solver, s.Serving K id (.sum x y z) →
    Narrow.Leaves s (Narrow.narrowEnds x y z n) fun _ t =>
      t.Serving K id (.sum x y z) ∧ s.Aside (fun j => j = id) t ∧ t.Closes x y z ∧
        (s.Closes x y z → s.Level t) := by
  have in_x : x ∈ (Relation.sum x y z).vars := by simp [Relation.vars]
  have in_y : y ∈ (Relation.sum x y z).vars := by simp [Relation.vars]
  have in_z : z ∈ (Relation.sum x y z).vars := by simp [Relation.vars]
  induction n with
  | zero => exact fun s _ => Narrow.leaves_throw
  | succ n ih =>
    intro s h
    unfold Narrow.narrowEnds
    refine h.domain (names_of_mem in_x) (h.domain (names_of_mem in_y) (h.domain (names_of_mem in_z) ?_))
    refine (h.reduceBetween (names_of_mem in_z) _ _).bind ?_
    rintro _ t ⟨ht, aside_z, _, to_z⟩
    refine ht.domain (names_of_mem in_z) ?_
    refine (ht.reduceBetween (names_of_mem in_x) _ _).bind ?_
    rintro _ u ⟨hu, aside_x, _, to_x⟩
    refine hu.domain (names_of_mem in_x) ?_
    refine (hu.reduceBetween (names_of_mem in_y) _ _).bind ?_
    rintro _ w ⟨hw, aside_y, _, to_y⟩
    refine hw.domain (names_of_mem in_x) (hw.domain (names_of_mem in_y) (hw.domain (names_of_mem in_z) ?_))
    rw [aside_z.resolve] at to_x
    rw [(aside_z.trans aside_x).resolve] at to_y
    simp only [addEnds_ne_none_iff, subEnds_ne_none_iff, h.sound.ends_iff.1, h.sound.ends_iff.2,
      ht.sound.ends_iff.1, ht.sound.ends_iff.2, hu.sound.ends_iff.1, hu.sound.ends_iff.2, and_self] at to_z to_x to_y
    have aside := (aside_z.trans aside_x).trans aside_y
    dsimp only
    split
    · rename_i same
      obtain ⟨at_x, at_y, at_z⟩ : w.peek x = s.peek x ∧ w.peek y = s.peek y ∧ w.peek z = s.peek z := by
        simpa only [Prod.mk.injEq] using same
      have before {v : Var} (same : w.peek v = s.peek v) (confined : w.Confined v) : s.Confined v := by
        unfold Confined at confined ⊢
        rwa [aside.resolve, same] at confined
      refine Narrow.Leaves.pure ⟨hw, aside, closes_of_round to_z to_x to_y ?_, fun closes =>
        closes.level_of_round to_z to_x to_y⟩
      simp only [List.forall_mem_cons, List.not_mem_nil, false_imp_iff, implies_true, and_true]
      exact ⟨before at_x, before at_y, before at_z⟩
    · refine (ih w hw).mono ?_
      rintro _ w' ⟨hw', aside', closes', level'⟩
      refine ⟨hw', aside.trans aside', closes', fun closes => ?_⟩
      have level := closes.level_of_round to_z to_x to_y
      refine level.trans (level' ⟨?_, ?_, ?_⟩)
      · exact fun confined_x confined_y => (closes.result (level x confined_x) (level y confined_y)).aside aside
      · exact fun confined_x confined_z => (closes.right (level x confined_x) (level z confined_z)).aside aside
      · exact fun confined_y confined_z => (closes.left (level y confined_y) (level z confined_z)).aside aside

theorem evens_runSum (h : s.Serving K id (.sum x y z)) :
    Narrow.Leaves s (Narrow.runSum id x y z) fun _ t => s.Evens id (.sum x y z) t := by
  have in_x : x ∈ (Relation.sum x y z).vars := by simp [Relation.vars]
  have in_y : y ∈ (Relation.sum x y z).vars := by simp [Relation.vars]
  have zero_value : isValue 0 = true := by decide
  refine h.leaves_runSum (fun same _ => ?_) (fun same t replaced => ?_) (fun same => ?_) (fun same => ?_)
    (fun _ n only t replaced => ?_) (fun _ n only t replaced => ?_) (fun distinct n only t replaced => ?_)
    (fun finite rows tabulates => ?_) fun distinct _ _ => ?_
  · exact h.evens_reduce (names_of_mem in_x) zero_value fun balanced => by cases same.symm.trans balanced.1.1
  · refine replaced.serving.evens_runScale.mono fun _ _ evens => evens.widen fun balanced => ?_
    cases same.symm.trans balanced.1.1
  · exact h.evens_reduce (names_of_mem in_y) zero_value fun balanced => by cases same.symm.trans balanced.1.2.1
  · exact h.evens_reduce (names_of_mem in_x) zero_value fun balanced => by cases same.symm.trans balanced.1.2.2
  · have fixed := h.sound.confined_of_solution only
    refine replaced.serving.evens_runPlusConst.mono fun _ _ evens => evens.widen fun balanced =>
      ⟨fun v => (replaced.confined v).mp, ?_⟩
    show t.Confined y ↔ t.Confined z
    rw [replaced.confined, replaced.confined]
    exact ⟨balanced.2.result fixed, balanced.2.right fixed⟩
  · have fixed := h.sound.confined_of_solution only
    refine replaced.serving.evens_runPlusConst.mono fun _ _ evens => evens.widen fun balanced =>
      ⟨fun v => (replaced.confined v).mp, ?_⟩
    show t.Confined x ↔ t.Confined z
    rw [replaced.confined, replaced.confined]
    exact ⟨fun confined => balanced.2.result confined fixed, balanced.2.left fixed⟩
  · have fixed := h.sound.confined_of_solution only
    refine replaced.serving.evens_runSumConst.mono fun _ _ evens => evens.widen fun balanced =>
      ⟨fun v => (replaced.confined v).mp, by rw [sameVar, replaced.aside.resolve]; exact distinct.1, ?_⟩
    rw [replaced.confined, replaced.confined]
    exact ⟨fun confined => balanced.2.right confined fixed, fun confined => balanced.2.left confined fixed⟩
  · exact h.evens_becomeTable tabulates fun proper _ v mem => h.sound.confined_iff.mpr ⟨proper v mem, finite v mem⟩
  · refine (narrowEnds_closes _ s h).bind ?_
    rintro _ t ⟨serving, aside, closes, level⟩
    refine Evens.keep serving (fun v mem => names_of_mem mem) ⟨?_, closes⟩ fun balanced => level balanced.2
    unfold sameVar
    rw [aside.resolve]
    exact distinct

/-! ## Pairwise difference -/

theorem evens_runAllDifferent {cs : List Int} (h : s.Serving K id (.allDifferent vs cs)) :
    Narrow.Leaves s (Narrow.runAllDifferent id vs cs) fun _ t => s.Evens id (.allDifferent vs cs) t := by
  refine h.leaves_runAllDifferent (fun o t swept _ => ?_) (fun o t u swept _ replaced => ?_) fun o t swept _ => ?_
  · exact Evens.dropped swept.serving fun _ => ⟨swept.level, trivial⟩
  · exact Evens.keep replaced.serving (fun v mem => names_of_mem mem) trivial fun _ v confined =>
      swept.level v ((replaced.confined v).mp confined)
  · exact Evens.keep swept.serving swept.accounted.names trivial fun _ => swept.level

/-! ## Any relation -/

/-- Every run evens. -/
theorem evens_propagate (h : s.Serving K id r) :
    Narrow.Leaves s (Narrow.propagate id r) fun _ t => s.Evens id r t := by
  cases r with
  | plusConst x c z => exact h.evens_runPlusConst
  | sumConst x y c => exact h.evens_runSumConst
  | sum x y z => exact h.evens_runSum
  | scale c x z => exact h.evens_runScale
  | allDifferent vs cs => exact h.evens_runAllDifferent
  | table vs rows origin => exact h.evens_runTable.mono fun _ _ evens => evens.2

end Serving

end ConstraintLogic.Solver
