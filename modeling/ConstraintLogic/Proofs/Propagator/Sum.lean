import ConstraintLogic.Proofs.Propagator.Rows

/-!
# Running sums and multiples

Every domain that a sum or a multiple narrows keeps the values of all readings that
the solver describes. A run ends with subscriptions, or with domains that entail
the relation; once all variables have their values, the last domains that were read
say that the values satisfy it.

Results:
* `Relation.Affine`, `Solver.Running.narrowPair_spec`: a variable that is an image of another one.
* `Solver.Running.runPlusConst`, `Solver.Running.runScale`,
  `Solver.Running.runSumConst`, `Solver.Running.runSum`: the relations can be run.
* `Solver.Running.narrowEnds`: the ends of a sum come to rest within the allowance.
-/

namespace ConstraintLogic

/-- The relation says of two variables that the first one is the image of the second one under
    `n ↦ sign * n + c`. -/
structure Relation.Affine (r : Relation) (sign c : Int) (v w : Var) : Prop where
  unit : sign = 1 ∨ sign = -1
  value : isValue c = true
  proper : r.Proper
  mem_vars : ∀ u, u ∈ r.vars ↔ u ∈ [v, w]
  holds_iff : ∀ σ, r.Holds σ ↔ σ v = sign * σ w + c

namespace Relation

variable {r : Relation} {sign c : Int} {v w x y z : Var}

theorem affine_plusConst (value : isValue c = true) : (plusConst x c z).Affine 1 c z x where
  unit := .inl rfl
  value := value
  proper := value
  mem_vars u := by simp [vars, or_comm]
  holds_iff σ := by
    change σ x + c = σ z ↔ _
    omega

theorem affine_sumConst (value : isValue c = true) : (sumConst x y c).Affine (-1) c x y where
  unit := .inr rfl
  value := value
  proper := value
  mem_vars _ := Iff.rfl
  holds_iff σ := by
    change σ x + σ y = c ↔ _
    omega

namespace Affine

theorem mem_first (h : r.Affine sign c v w) : v ∈ r.vars := (h.mem_vars v).mpr (by simp)

theorem mem_second (h : r.Affine sign c v w) : w ∈ r.vars := (h.mem_vars w).mpr (by simp)

theorem inverse (h : r.Affine sign c v w) (n m : Int) : n = sign * m + c ↔ m = sign * (n - c) := by
  rcases h.unit with rfl | rfl <;> omega

/-- The way back is an image as well. -/
theorem inverse_neg (h : r.Affine sign c v w) (n m : Int) : sign * (m - -(sign * c)) = n ↔ n = sign * m + c := by
  rcases h.unit with rfl | rfl <;> omega

end Affine

end Relation

namespace Solver.Running

variable {C : Contract} {id : PropId} {s t : Solver} {r : Relation} {v w x y z : Var} {c n : Int}

/-! ## Single values -/

/-- A relation that says that one of its variables has a certain value. -/
theorem reduceOnly (h : s.Running C id r) (mem : v ∈ r.vars) (value : isValue n = true)
    (means : ∀ σ, s.Fits r.vars σ → (r.Holds σ ↔ σ v = n)) :
    Narrow.Ensures C.models s (Narrow.reduce v (.singleton n)) fun _ t => t.Rested C := by
  refine (h.reduce (names_of_mem mem) (canonical_singleton value) fun θ model => ?_).mono ?_
  · have fits : s.Fits r.vars (integers θ) := h.fits (fun v mem => names_of_mem mem) model
    exact Domain.mem_singleton.mpr ((means _ fits).mp (h.holds model))
  · rintro _ t ⟨running, reduced⟩
    refine running.rest fun σ fits => (means σ (reduced.fits fits)).mpr ?_
    exact Domain.mem_singleton.mp (reduced.left _ (fits.mem v mem))

/-! ## Pairs -/

/-- Narrows `v` to the image under `n ↦ sign * n + c` of what `w` had, and `w` back to the
    preimage of what is left, unless this overflows. -/
def narrowPair (id : PropId) (sign c : Int) (v w : Var) (vs : List Var) (overflows : Bool) (dw : Domain) : Narrow Unit := do
  Narrow.reduce v (dw.affine sign c)
  let dv ← Narrow.domain v
  if overflows then throw (.fault .negateOverflow)
  Narrow.reduce w (dv.affine sign (-(sign * c)))
  Narrow.resubscribe id vs

/-- Two variables of which one is an affine image of the other are narrowed by one another. -/
theorem narrowPair_spec (h : s.Running C id r) {sign : Int} (means : r.Affine sign c v w) (overflows : Bool)
    (apart : s.sameVar v w = false) :
    Narrow.Ensures C.models s (narrowPair id sign c v w r.vars overflows (s.peek w)) fun _ t => t.Rested C := by
  have names_v : s.Names r v := names_of_mem means.mem_first
  have names_w : s.Names r w := names_of_mem means.mem_second
  have image {θ : Var → Term} (model : C.models θ) : integers θ v = sign * integers θ w + c :=
    (means.holds_iff _).mp (h.holds model)
  unfold narrowPair
  refine (h.reduce names_v (Domain.canonical_affine _ sign c) fun θ model => ?_).bind ?_
  · refine ((h.sound.canonical_peek w).mem_affine means.unit).mpr (.inr ⟨h.isValue_integers names_v model, ?_⟩)
    rw [← (means.inverse _ _).mp (image model)]
    exact h.mem_peek names_w model
  rintro _ t ⟨running, reduced⟩
  refine running.domain (names_of_mem means.mem_first) ?_
  have cv := running.sound.canonical_peek v
  dsimp only
  split
  · exact .inr rfl
  refine (running.reduce (names_of_mem means.mem_second) (Domain.canonical_affine _ sign _) fun θ model => ?_).bind ?_
  · refine (cv.mem_affine means.unit).mpr (.inr ⟨h.isValue_integers names_w model, ?_⟩)
    rw [(means.inverse_neg _ _).mpr (image model)]
    exact running.mem_peek (names_of_mem means.mem_first) model
  rintro _ u ⟨running', reduced'⟩
  refine running'.resubscribe (fun v mem => names_of_mem mem) fun only σ fits => ?_
  have in_v := cv.of_mem_affine means.unit (reduced'.left _ (fits.mem w means.mem_second))
  rw [← reduced'.mem_peek_of_apart (by rw [sameVar_congr reduced.resolve, apart])] at in_v
  have at_v := fits.eq_of_only means.mem_first (only v means.mem_first) in_v
  exact (means.holds_iff σ).mpr ((means.inverse_neg _ _).mp at_v)

/-! ## Differences -/

theorem runPlusConst (h : s.Running C id (.plusConst x c z)) :
    Narrow.Ensures C.models s (Narrow.runPlusConst id x c z) fun _ t => t.Rested C := by
  have in_x : x ∈ (Relation.plusConst x c z).vars := by simp [Relation.vars]
  have in_z : z ∈ (Relation.plusConst x c z).vars := by simp [Relation.vars]
  unfold Narrow.runPlusConst
  refine Narrow.ensures_sameVar ?_
  split
  · rename_i same
    have alike := resolve_of_sameVar same
    refine Narrow.ensures_require (fun zero => h.rest fun σ fits => ?_) fun nonzero θ model => ?_
    · have := fits.alike x in_x z in_z alike
      rw [decide_eq_true_eq] at zero
      rw [Relation.Holds, this, zero, Int.add_zero]
    · rw [decide_eq_false_iff_not] at nonzero
      have := h.alike (names_of_mem in_x) model alike
      have : integers θ x + c = integers θ z := h.holds model
      omega
  · rename_i apart
    rw [Bool.not_eq_true] at apart
    refine h.domain (names_of_mem in_x) ?_
    have pair := h.narrowPair_spec (Relation.affine_plusConst h.proper) (decide (c = minValue))
      (by rw [sameVar_comm, apart])
    simp only [narrowPair, decide_eq_true_eq, Int.one_mul] at pair
    exact pair

/-! ## Multiples -/

theorem runScale (h : s.Running C id (.scale c x z)) :
    Narrow.Ensures C.models s (Narrow.runScale id c x z) fun _ t => t.Rested C := by
  have in_x : x ∈ (Relation.scale c x z).vars := by simp [Relation.vars]
  have in_z : z ∈ (Relation.scale c x z).vars := by simp [Relation.vars]
  have product {θ : Var → Term} (model : C.models θ) : c * integers θ x = integers θ z :=
    h.holds model
  have zero_value : isValue 0 = true := by decide
  unfold Narrow.runScale
  split
  · rename_i zero
    refine h.reduceOnly in_z zero_value fun σ _ => ?_
    change c * σ x = σ z ↔ σ z = 0
    rw [zero, Int.zero_mul, eq_comm]
  · rename_i nonzero
    refine Narrow.ensures_sameVar ?_
    split
    · rename_i same
      have alike := resolve_of_sameVar same
      split
      · rename_i one
        refine h.rest fun σ fits => ?_
        rw [Relation.Holds, one, Int.one_mul]
        exact fits.alike x in_x z in_z alike
      · rename_i not_one
        refine h.reduceOnly in_x zero_value fun σ fits => ?_
        change c * σ x = σ z ↔ σ x = 0
        rw [← fits.alike x in_x z in_z alike]
        refine ⟨fun fixed => ?_, fun zero => by rw [zero, Int.mul_zero]⟩
        have : (c - 1) * σ x = 0 := by rw [Int.sub_mul, fixed]; omega
        exact (Int.mul_eq_zero.mp this).resolve_left (by omega)
    · rename_i apart
      rw [Bool.not_eq_true] at apart
      refine h.domain (names_of_mem in_x) (h.domain (names_of_mem in_z) ?_)
      split
      · rename_i small
        exact h.becomeTable (tabulates_scale (h.sound.canonical_peek x) (finite_of_size small))
      · refine (h.reduce (names_of_mem in_z) (Domain.canonical_scale (h.sound.canonical_peek x) c)
          fun θ model => ?_).bind ?_
        · rw [← product model]
          refine (h.sound.canonical_peek x).mem_scale (h.mem_peek (names_of_mem in_x) model) ?_
          rw [product model]
          exact h.isValue_integers (names_of_mem in_z) model
        rintro _ t ⟨running, reduced⟩
        refine running.domain (names_of_mem in_z) ?_
        refine (running.reduce (names_of_mem in_x) (Domain.canonical_divideExact _ c)
          fun θ model => ?_).bind ?_
        · refine (Domain.mem_divideExact nonzero).mpr (.inr ⟨?_, ?_⟩)
          · exact h.isValue_integers (names_of_mem in_x) model
          · rw [product model]
            exact running.mem_peek (names_of_mem in_z) model
        rintro _ u ⟨running', reduced'⟩
        refine running'.resubscribe (fun v mem => names_of_mem mem) fun only σ fits => ?_
        have in_dz := Domain.of_mem_divideExact nonzero (reduced'.left _ (fits.mem x in_x))
        rw [← reduced'.mem_peek_of_apart (by
          rw [sameVar_comm, sameVar_congr reduced.resolve, apart])] at in_dz
        exact fits.eq_of_only in_z (only z in_z) in_dz

/-! ## Sums with a known result -/

/-- Half of an even integer of 64 bits. -/
theorem isValue_half {c : Int} (value : isValue c = true) (even : Int.tmod c 2 = 0) :
    2 * Int.tdiv c 2 = c ∧ isValue (Int.tdiv c 2) = true := by
  have half := Int.mul_tdiv_add_tmod c 2
  rw [even, Int.add_zero] at half
  refine ⟨half, ?_⟩
  rw [isValue_iff] at value ⊢
  simp only [minValue, maxValue] at value ⊢
  omega

theorem runSumConst (h : s.Running C id (.sumConst x y c)) :
    Narrow.Ensures C.models s (Narrow.runSumConst id x y c) fun _ t => t.Rested C := by
  have in_x : x ∈ (Relation.sumConst x y c).vars := by simp [Relation.vars]
  have in_y : y ∈ (Relation.sumConst x y c).vars := by simp [Relation.vars]
  unfold Narrow.runSumConst
  refine Narrow.ensures_sameVar ?_
  split
  · rename_i same
    have twice (σ : Assignment) (fits : s.Fits [x, y] σ) : (Relation.sumConst x y c).Holds σ ↔ c = 2 * σ x := by
      have := fits.alike x in_x y in_y (resolve_of_sameVar same)
      change σ x + σ y = c ↔ _
      omega
    refine Narrow.ensures_require_bind (fun odd θ model => ?_) fun even => ?_
    · rw [(twice _ (h.fits (fun v mem => names_of_mem mem) model)).mp (h.holds model)] at odd
      simp at odd
    · rw [decide_eq_true_eq] at even
      obtain ⟨half, value⟩ := isValue_half h.proper even
      refine h.reduceOnly in_x value fun σ fits => ?_
      rw [twice σ fits]
      omega
  · rename_i apart
    rw [Bool.not_eq_true] at apart
    refine h.domain (names_of_mem in_x) (h.domain (names_of_mem in_y) ?_)
    split
    · rename_i small
      exact h.becomeTable (tabulates_sumConst (h.sound.canonical_peek x) (finite_of_smallProduct small).1)
    · have pair := h.narrowPair_spec (Relation.affine_sumConst h.proper) false apart
      simp only [narrowPair, Bool.false_eq_true, if_false, Int.neg_one_mul, Int.neg_neg] at pair
      exact pair

/-! ## Ends -/

theorem addEnds_eq_some_iff {a b : Option Int} {n : Int} :
    Narrow.addEnds a b = some n ↔ ∃ i j, a = some i ∧ b = some j ∧ i + j = n := by
  cases a <;> cases b <;> simp [Narrow.addEnds]

theorem subEnds_eq_some_iff {a b : Option Int} {n : Int} :
    Narrow.subEnds a b = some n ↔ ∃ i j, a = some i ∧ b = some j ∧ i - j = n := by
  cases a <;> cases b <;> simp [Narrow.subEnds]

section Ends

variable {d e : Domain} {m n : Int} (hd : d.Canonical) (he : e.Canonical) (in_d : m ∈ d) (in_e : n ∈ e)

include hd he in_d in_e

/-- Sums of ends bound the sums of values. -/
theorem le_of_addEnds : (∀ a, Narrow.addEnds d.min? e.min? = some a → a ≤ m + n) ∧
    ∀ b, Narrow.addEnds d.max? e.max? = some b → m + n ≤ b := by
  constructor
  · intro a low
    obtain ⟨i, j, least, least', rfl⟩ := addEnds_eq_some_iff.mp low
    exact Int.add_le_add (hd.min?_le least in_d) (he.min?_le least' in_e)
  · intro b high
    obtain ⟨i, j, greatest, greatest', rfl⟩ := addEnds_eq_some_iff.mp high
    exact Int.add_le_add (hd.le_max? greatest in_d) (he.le_max? greatest' in_e)

/-- Differences of ends bound the differences of values. -/
theorem le_of_subEnds : (∀ a, Narrow.subEnds d.min? e.max? = some a → a ≤ m - n) ∧
    ∀ b, Narrow.subEnds d.max? e.min? = some b → m - n ≤ b := by
  constructor
  · intro a low
    obtain ⟨i, j, least, greatest, rfl⟩ := subEnds_eq_some_iff.mp low
    exact Int.sub_le_sub (hd.min?_le least in_d) (he.le_max? greatest in_e)
  · intro b high
    obtain ⟨i, j, greatest, least, rfl⟩ := subEnds_eq_some_iff.mp high
    exact Int.sub_le_sub (hd.le_max? greatest in_d) (he.min?_le least in_e)

end Ends

/-- Narrowing a variable to an interval that has its values in all readings. -/
theorem reduceBetween {r : Relation} (h : s.Running C id r) {v : Var} (names : s.Names r v)
    {lb ub : Option Int} (low : ∀ θ, C.models θ → ∀ a, lb = some a → a ≤ integers θ v)
    (high : ∀ θ, C.models θ → ∀ b, ub = some b → integers θ v ≤ b) :
    Narrow.Ensures C.models s (Narrow.reduceBetween v lb ub) fun _ t =>
      t.Running C id r ∧ s.Shrinks t ∧
        ∀ a b, lb = some a → ub = some b → ∀ n ∈ t.peek v, a ≤ n ∧ n ≤ b := by
  unfold Narrow.reduceBetween
  split
  · rename_i a b
    refine (h.reduce names (Domain.canonical_clampedRange a b) fun θ model => ?_).mono ?_
    · exact Domain.mem_clampedRange.mpr
        ⟨⟨low θ model a rfl, high θ model b rfl⟩, h.isValue_integers names model⟩
    · rintro _ t ⟨running, reduced⟩
      refine ⟨running, reduced.shrinks, fun a' b' same same' n mem => ?_⟩
      cases same
      cases same'
      exact (Domain.mem_clampedRange.mp (reduced.left n mem)).1
  · rename_i not_both
    refine Narrow.Ensures.pure ⟨h, .refl s, fun a b same same' => ?_⟩
    exact absurd same' (not_both a b same)

/-- Once the ends have come to rest, single values in all of the domains satisfy the sum. -/
def EndsMeet (x y z : Var) (s : Solver) : Prop :=
  (∀ v ∈ [x, y, z], ∃ n, ∀ m ∈ s.peek v, m = n) → s.Entails (.sum x y z)

/-- The room of the three domains together. -/
def roomOfThree (x y z : Var) (s : Solver) : Nat :=
  (s.peek x).room + (s.peek y).room + (s.peek z).room

/-- Where one of the three domains has changed there is less room. -/
theorem roomOfThree_lt (hs : ∀ v, (s.peek v).Canonical) (ht : ∀ v, (t.peek v).Canonical)
    (smaller : ∀ v n, n ∈ t.peek v → n ∈ s.peek v)
    (differ : (t.peek x, t.peek y, t.peek z) ≠ (s.peek x, s.peek y, s.peek z)) :
    roomOfThree x y z t < roomOfThree x y z s := by
  have le (v : Var) : (t.peek v).room ≤ (s.peek v).room := Domain.room_le_of_subset (ht v) (hs v) (smaller v)
  have lt (v : Var) (differ : t.peek v ≠ s.peek v) : (t.peek v).room < (s.peek v).room :=
    Domain.room_lt (ht v) (hs v) (smaller v) differ
  have := le x
  have := le y
  have := le z
  unfold roomOfThree
  by_cases same_x : t.peek x = s.peek x
  · by_cases same_y : t.peek y = s.peek y
    · by_cases same_z : t.peek z = s.peek z
      · rw [same_x, same_y, same_z] at differ
        exact absurd rfl differ
      · have := lt z same_z
        omega
    · have := lt y same_y
      omega
  · have := lt x same_x
    omega

/-- The ends of a sum come to rest within the allowance. -/
theorem narrowEnds (n : Nat) : ∀ s : Solver, s.Running C id (.sum x y z) →
    roomOfThree x y z s < n →
    Narrow.Ensures C.models s (Narrow.narrowEnds x y z n) fun _ t =>
      t.Running C id (.sum x y z) ∧ EndsMeet x y z t := by
  have in_x : x ∈ (Relation.sum x y z).vars := by simp [Relation.vars]
  have in_y : y ∈ (Relation.sum x y z).vars := by simp [Relation.vars]
  have in_z : z ∈ (Relation.sum x y z).vars := by simp [Relation.vars]
  induction n with
  | zero => exact fun s _ less => absurd less (Nat.not_lt_zero _)
  | succ n ih =>
    intro s h less
    have sum {θ : Var → Term} (model : C.models θ) : integers θ x + integers θ y = integers θ z :=
      h.holds model
    unfold Narrow.narrowEnds
    refine h.domain (names_of_mem in_x) (h.domain (names_of_mem in_y) (h.domain (names_of_mem in_z) ?_))
    have ends := fun θ (model : C.models θ) => le_of_addEnds (h.sound.canonical_peek x) (h.sound.canonical_peek y)
      (h.mem_peek (names_of_mem in_x) model) (h.mem_peek (names_of_mem in_y) model)
    refine (h.reduceBetween (names_of_mem in_z) (fun θ model a low => ?_)
      fun θ model b high => ?_).bind ?_
    · exact sum model ▸ (ends θ model).1 a low
    · exact sum model ▸ (ends θ model).2 b high
    rintro _ t ⟨ht, shrinks_z, between⟩
    have ends := fun θ (model : C.models θ) => le_of_subEnds (ht.sound.canonical_peek z) (h.sound.canonical_peek y)
      (ht.mem_peek (names_of_mem in_z) model) (h.mem_peek (names_of_mem in_y) model)
    refine ht.domain (names_of_mem in_z) ?_
    refine (ht.reduceBetween (names_of_mem in_x) (fun θ model a low => ?_)
      fun θ model b high => ?_).bind ?_
    · have := (ends θ model).1 a low
      have := sum model
      omega
    · have := (ends θ model).2 b high
      have := sum model
      omega
    rintro _ u ⟨hu, shrinks_x, _⟩
    have ends := fun θ (model : C.models θ) => le_of_subEnds (ht.sound.canonical_peek z) (hu.sound.canonical_peek x)
      (ht.mem_peek (names_of_mem in_z) model) (hu.mem_peek (names_of_mem in_x) model)
    refine hu.domain (names_of_mem in_x) ?_
    refine (hu.reduceBetween (names_of_mem in_y) (fun θ model a low => ?_)
      fun θ model b high => ?_).bind ?_
    · have := (ends θ model).1 a low
      have := sum model
      omega
    · have := (ends θ model).2 b high
      have := sum model
      omega
    rintro _ w ⟨hw, shrinks_y, _⟩
    refine hw.domain (names_of_mem in_x) (hw.domain (names_of_mem in_y) (hw.domain (names_of_mem in_z) ?_))
    have shrinks := shrinks_z.trans (shrinks_x.trans shrinks_y)
    dsimp only
    split
    · rename_i same
      simp only [Prod.mk.injEq] at same
      refine Narrow.Ensures.pure ⟨hw, fun only σ fits => ?_⟩
      have alone (v : Var) (mem : v ∈ [x, y, z]) : (w.peek v).solution = some (σ v) :=
        (hw.sound.canonical_peek v).solution_eq_some_iff.mpr fun m =>
          ⟨fun in_v => fits.eq_of_only mem (only v mem) in_v, fun eq => eq ▸ fits.mem v mem⟩
      have alone_x := alone x (by simp)
      have alone_y := alone y (by simp)
      rw [same.1] at alone_x
      rw [same.2.1] at alone_y
      have mem_z := shrinks_x.mem_peek z _ (shrinks_y.mem_peek z _ (fits.mem z in_z))
      have := between (σ x + σ y) (σ x + σ y)
        (addEnds_eq_some_iff.mpr ⟨_, _, Domain.min?_of_solution alone_x, Domain.min?_of_solution alone_y, rfl⟩)
        (addEnds_eq_some_iff.mpr ⟨_, _, Domain.max?_of_solution alone_x, Domain.max?_of_solution alone_y, rfl⟩)
        _ mem_z
      change σ x + σ y = σ z
      omega
    · rename_i differ
      have := roomOfThree_lt h.sound.canonical_peek hw.sound.canonical_peek shrinks.mem_peek differ
      exact ih w hw (by omega)

/-! ## Sums -/

theorem runSum (h : s.Running C id (.sum x y z)) :
    Narrow.Ensures C.models s (Narrow.runSum id x y z) fun _ t => t.Rested C := by
  have in_x : x ∈ (Relation.sum x y z).vars := by simp [Relation.vars]
  have in_y : y ∈ (Relation.sum x y z).vars := by simp [Relation.vars]
  have in_z : z ∈ (Relation.sum x y z).vars := by simp [Relation.vars]
  have zero_value : isValue 0 = true := by decide
  unfold Narrow.runSum
  refine Narrow.ensures_sameVar (Narrow.ensures_sameVar (Narrow.ensures_sameVar ?_))
  split
  · rename_i all
    obtain ⟨same_xy, same_xz⟩ := Bool.and_eq_true_iff.mp all
    refine h.reduceOnly in_x zero_value fun σ fits => ?_
    have := fits.alike x in_x y in_y (resolve_of_sameVar same_xy)
    have := fits.alike x in_x z in_z (resolve_of_sameVar same_xz)
    change σ x + σ y = σ z ↔ _
    omega
  split
  · rename_i same_xy
    refine (h.replaceWith (q := .scale 2 x z) (show isValue 2 = true by decide) (names_pair in_x in_z)
      fun σ fits => ?_).bind ?_
    · have := fits.alike x (by simp [Relation.vars]) y (by simp [Relation.vars])
        (resolve_of_sameVar same_xy)
      change 2 * σ x = σ z ↔ σ x + σ y = σ z
      omega
    · exact fun _ t running => running.1.runScale
  split
  · rename_i same_xz
    refine h.reduceOnly in_y zero_value fun σ fits => ?_
    have := fits.alike x in_x z in_z (resolve_of_sameVar same_xz)
    change σ x + σ y = σ z ↔ _
    omega
  split
  · rename_i same_yz
    refine h.reduceOnly in_x zero_value fun σ fits => ?_
    have := fits.alike y in_y z in_z (resolve_of_sameVar same_yz)
    change σ x + σ y = σ z ↔ _
    omega
  refine h.domain (names_of_mem in_x) (h.domain (names_of_mem in_y) (h.domain (names_of_mem in_z) ?_))
  split
  · rename_i a only
    obtain ⟨value, alone⟩ := h.eq_of_solution only
    refine (h.replaceWith (q := .plusConst y a z) value (names_pair in_y in_z)
      fun σ fits => ?_).bind ?_
    · have := alone _ (fits.mem x (by simp [Relation.vars]))
      change σ y + a = σ z ↔ σ x + σ y = σ z
      omega
    · exact fun _ t running => running.1.runPlusConst
  · rename_i b _ only
    obtain ⟨value, alone⟩ := h.eq_of_solution only
    refine (h.replaceWith (q := .plusConst x b z) value (names_pair in_x in_z)
      fun σ fits => ?_).bind ?_
    · have := alone _ (fits.mem y (by simp [Relation.vars]))
      change σ x + b = σ z ↔ σ x + σ y = σ z
      omega
    · exact fun _ t running => running.1.runPlusConst
  · rename_i c _ _ only
    obtain ⟨value, alone⟩ := h.eq_of_solution only
    refine (h.replaceWith (q := .sumConst x y c) value (names_pair in_x in_y)
      fun σ fits => ?_).bind ?_
    · have := alone _ (fits.mem z (by simp [Relation.vars]))
      change σ x + σ y = c ↔ σ x + σ y = σ z
      omega
    · exact fun _ t running => running.1.runSumConst
  · split
    · rename_i small
      obtain ⟨finite_x, finite_y⟩ := finite_of_smallProduct (Bool.and_eq_true_iff.mp small).1
      exact h.becomeTable (tabulates_sum h.sound.canonical_peek finite_x finite_y)
    · have few : roomOfThree x y z s < 3 * Domain.maxChanges + 1 := by
        have := (h.sound.canonical_peek x).room_le
        have := (h.sound.canonical_peek y).room_le
        have := (h.sound.canonical_peek z).room_le
        unfold roomOfThree
        omega
      refine (narrowEnds _ s h few).bind ?_
      rintro _ t ⟨running, meet⟩
      exact running.resubscribe (fun v mem => names_of_mem mem) meet

end Solver.Running

end ConstraintLogic
