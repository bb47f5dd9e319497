import ConstraintLogic.Proofs.Propagator.SumBounds

/-!
# Sums on any solver

A sum that knows one of its operands goes on as a relation of two operands, and one of few
pairs as a table: their supports are supports of the sum. Any other sum narrows the ends of
its three domains until they come to rest.

Results:
* `Solver.Backed.widen`: supports of a relation that remains when operands have their values.
* `Solver.Working.narrowEnds`: the ends of a sum come to rest within the allowance.
* `Solver.Working.runSum`: a sum on any solver.
-/

namespace ConstraintLogic

namespace Solver

variable {S : Selection} {s t u : Solver} {id : PropId} {r q : Relation} {v w x y z : Var} {n : Int} {σ : Assignment}

/-! ## Operands with a value -/

/-- The relation `q` remains of `r` where operands have their values: no other operands are
    left out, and it says the same of integers that have these values. -/
structure Remains (s : Solver) (r q : Relation) : Prop where
  vars : q.vars ⊆ r.vars
  solved : ∀ v ∈ r.vars, v ∉ q.vars → ∃ n, (s.peek v).solution = some n
  same : ∀ σ : Assignment, (∀ v ∈ r.vars, ∀ n, (s.peek v).solution = some n → σ v = n) → (q.Accepts σ ↔ r.Accepts σ)

namespace Remains

/-- Integers that fit have the values that are known. -/
theorem accepts_iff (h : s.Remains r q) (tidy : s.Tidy) (fits : s.Fits r.vars σ) : q.Accepts σ ↔ r.Accepts σ :=
  h.same σ fun v mem _ only => ((tidy.eq_of_solution only).2 _).mp (fits.mem v mem)

/-- Integers for the operands that remain are completed by the known values. -/
theorem complete (h : s.Remains r q) (contracts : s.Contracts t) (hs : s.Tidy) (ht : t.Tidy) (fits : t.Fits q.vars σ)
    (accepts : q.Accepts σ) : ∃ τ, t.Fits r.vars τ ∧ r.Accepts τ ∧ ∀ v ∈ q.vars, τ v = σ v := by
  let τ : Assignment := fun v => if v ∈ q.vars then σ v else (s.peek v).solution.getD 0
  have kept (v : Var) (mem : v ∈ q.vars) : τ v = σ v := if_pos mem
  -- A variable that is left out has one value, to begin with and in the end.
  have known (v : Var) (mem : v ∈ r.vars) (out : v ∉ q.vars) : (t.peek v).solution = some (τ v) := by
    obtain ⟨n, only⟩ := h.solved v mem out
    rw [contracts.peek_of_solution hs ht only]
    simp only [τ, if_neg out, only, Option.getD_some]
  have mem_peek (v : Var) (mem : v ∈ r.vars) : τ v ∈ t.peek v := by
    by_cases remains : v ∈ q.vars
    · rw [kept v remains]
      exact fits.mem v remains
    · exact (ht.canonical v).mem_of_solution (known v mem remains)
  have fits' : t.Fits r.vars τ := by
    refine ⟨mem_peek, fun v mem => ?_, fun v mem w mem' alike => ?_⟩
    · by_cases remains : v ∈ q.vars
      · rw [kept v remains]
        exact fits.value v remains
      · exact (ht.eq_of_solution (known v mem remains)).1
    · have peek := peek_congr alike
      by_cases remains : v ∈ q.vars
      · by_cases remains' : w ∈ q.vars
        · rw [kept v remains, kept w remains', fits.alike v remains w remains' alike]
        · have alone := (ht.eq_of_solution (known w mem' remains')).2
          exact (alone _).mp (peek ▸ mem_peek v mem)
      · have alone := (ht.eq_of_solution (known v mem remains)).2
        exact ((alone _).mp (peek ▸ mem_peek w mem')).symm
  refine ⟨τ, fits', ?_, kept⟩
  exact (h.accepts_iff hs (contracts.fits fits')).mp ((Relation.accepts_congr kept).mpr accepts)

end Remains

/-- Supports for what remains of a relation are supports for the relation. -/
theorem Backed.widen (remains : s.Remains r q) (contracts : s.Contracts t) (hs : s.Tidy) (ht : t.Tidy)
    (satisfiable : t.Satisfiable q) (backed : s.Backed q t) : s.Backed r t := by
  intro v in_r finite n mem
  by_cases in_q : v ∈ q.vars
  · rcases backed v in_q finite n mem with ⟨σ, fits, accepts, at_v⟩ | ⟨u, in_q', full, beyond⟩
    · obtain ⟨τ, fits', accepts', agree⟩ := remains.complete contracts hs ht fits accepts
      exact .inl ⟨τ, fits', accepts', by rw [agree v in_q, at_v]⟩
    · refine .inr ⟨u, remains.vars in_q', full, fun σ others accepts at_v => ?_⟩
      refine beyond σ (fun w in_q => others w (remains.vars in_q)) ((remains.same σ fun w in_r k only => ?_).mpr accepts) at_v
      have other : w ≠ u := by
        rintro rfl
        rw [full] at only
        cases only
      exact ((hs.eq_of_solution only).2 _).mp (others w in_r other)
  · -- The variable has its one value in every solution.
    obtain ⟨k, only⟩ := remains.solved v in_r in_q
    obtain ⟨σ, fits, accepts⟩ := satisfiable
    obtain ⟨τ, fits', accepts', _⟩ := remains.complete contracts hs ht fits accepts
    have alone := (ht.eq_of_solution (contracts.peek_of_solution hs ht only)).2
    exact .inl ⟨τ, fits', accepts', by rw [(alone _).mp (fits'.mem v in_r), (alone n).mp mem]⟩

/-! ## Ends -/

namespace Steps

variable {P : Var → Prop} {J : Solver → Prop}

theorem reduceBetween (steps : Steps P id J) (tidy : s.Tidy) (holds : J s) (named : P v) (lb ub : Option Int) :
    Narrow.Leaves s (Narrow.reduceBetween v lb ub) fun _ t => t.Tidy ∧ J t := by
  unfold Narrow.reduceBetween
  split
  · rename_i a b
    have canonical := Domain.canonical_clampedRange a b
    refine ((tidy.reduce (M := fun _ => False) canonical fun _ => False.elim).leaves.and
      (steps.reduce holds tidy named canonical)).mono ?_
    exact fun _ t ⟨after, kept⟩ => ⟨after.1, kept⟩
  · exact Narrow.Leaves.pure ⟨tidy, holds⟩

/-- Narrowing the ends of a sum keeps what steps keep. -/
theorem narrowEnds (steps : Steps P id J) (named : ∀ v ∈ [x, y, z], P v) (n : Nat) :
    ∀ s : Solver, s.Tidy → J s → Narrow.Leaves s (Narrow.narrowEnds x y z n) fun _ t => J t := by
  have ask {α : Type} {f : Domain → Narrow α} {Q : α → Solver → Prop} (v : Var) (s : Solver) (tidy : s.Tidy)
      (holds : J s) (next : ∀ d t, t.Tidy → J t → Narrow.Leaves t (f d) Q) :
      Narrow.Leaves s (Narrow.domain v >>= f) Q :=
    Narrow.Leaves.step rfl (next _ _ ((s.domain_spec v).2.matched.tidy tidy) (steps.domain s v holds))
  induction n with
  | zero => exact fun _ _ _ => Narrow.leaves_throw
  | succ n ih =>
    intro s tidy holds
    unfold Narrow.narrowEnds
    refine ask x s tidy holds fun dx s tidy holds => ask y s tidy holds fun dy s tidy holds => ?_
    refine ask z s tidy holds fun dz s tidy holds => ?_
    refine (steps.reduceBetween tidy holds (named z (by simp)) _ _).bind fun _ s kept => ?_
    refine ask z s kept.1 kept.2 fun dz' s tidy holds => ?_
    refine (steps.reduceBetween tidy holds (named x (by simp)) _ _).bind fun _ s kept => ?_
    refine ask x s kept.1 kept.2 fun dx' s tidy holds => ?_
    refine (steps.reduceBetween tidy holds (named y (by simp)) _ _).bind fun _ s kept => ?_
    refine ask x s kept.1 kept.2 fun ax s tidy holds => ask y s tidy holds fun ay s tidy holds => ?_
    refine ask z s tidy holds fun az s tidy holds => ?_
    dsimp only
    split
    · exact Narrow.Leaves.pure holds
    · exact ih s tidy holds

end Steps

namespace Working

/-- Narrowing variables of a run goes on with the run. -/
theorem trimmed (h : s.Working S id r) {vs : List Var} (named : ∀ v ∈ vs, S.vars v) (trims : s.Trims S.models vs t)
    (framed : S.frame t) : t.Working S id r where
  tidy := trims.tidy
  steps := h.steps
  framed := framed
  slot := h.slot.imp fun n found => trims.props id _ found
  sized := h.sized
  named := h.named
  closed := by rw [trims.contracts.resolve]; exact h.closed
  exact σ := by
    rw [h.exact]
    refine ⟨fun ⟨suits, accepts⟩ => ⟨fun ws all => ?_, accepts⟩, fun ⟨suits, accepts⟩ => ⟨trims.contracts.suits suits, accepts⟩⟩
    have kept : S.kept σ := (h.exact σ).mpr ⟨suits, accepts⟩
    have before := suits ws all
    refine ⟨fun u mem => ?_, before.value, by rw [trims.contracts.resolve]; exact before.alike⟩
    by_cases narrowed : ∃ v ∈ vs, s.sameVar u v = true
    · obtain ⟨v, in_vs, same⟩ := narrowed
      have same := resolve_of_sameVar same
      rw [peek_congr (trims.contracts.resolve ▸ same : t.resolve u = t.resolve v),
        h.alike (all u mem) (named v in_vs) kept same]
      exact (trims.fits (fun w => .int (σ w)) kept).mem v in_vs
    · rw [trims.apart u fun v in_vs => by simpa using fun same => narrowed ⟨v, in_vs, same⟩]
      exact before.mem u mem

/-- The ends of a sum come to rest within the allowance. -/
theorem narrowEnds (n : Nat) (h : s.Working S id (.sum x y z)) (less : Running.roomOfThree x y z s < n) :
    Narrow.Ensures S.models s (Narrow.narrowEnds x y z n) fun _ t =>
      t.Working S id (.sum x y z) ∧ s.Contracts t ∧ Running.EndsMeet x y z t := by
  have trims : s.Trims S.models [x, y, z] s := .refl h.tidy fun θ model => h.fits model
  refine ((trims.narrowEnds n s (fun θ model => h.accepts model) less).and
    (h.steps.narrowEnds h.named n s h.tidy h.framed)).mono ?_
  rintro _ t ⟨⟨trims, meeting⟩, framed⟩
  refine ⟨h.trimmed h.named trims framed, trims.contracts, fun only σ fits => ?_⟩
  have spans (v : Var) (mem : v ∈ [x, y, z]) : (t.peek v).Spans (σ v) (σ v) :=
    ⟨fits.mem v mem, fits.mem v mem, fun n in_v => by simp [fits.eq_of_only mem (only v mem) in_v]⟩
  have between := meeting.result _ _ _ _ (spans x (by simp)) (spans y (by simp)) (σ z) (fits.mem z (by simp [Relation.vars]))
  change σ x + σ y = σ z
  omega

/-! ## Sums -/

/-- A relation goes on as what remains of it. -/
theorem specialize {m : Narrow Unit} (h : s.Working S id r) (remains : s.Remains r q) (sized : q.Sized)
    (run : ∀ t, t.Working S id q → s.Matches t → Narrow.Ensures S.models t m fun _ u =>
      u.Finished S id ∧ t.Contracts u ∧ u.Satisfiable q ∧ t.Backed q u) :
    Narrow.Ensures S.models s (do Narrow.replaceWith id q; m) fun _ t =>
      t.Finished S id ∧ s.Contracts t ∧ s.Backed r t := by
  refine (h.replaceWith sized (fun v mem => h.named v (remains.vars mem)) fun σ suits =>
    remains.accepts_iff h.tidy (suits r.vars h.named)).bind ?_
  rintro _ t ⟨ht, same⟩
  refine (run t ht same).mono ?_
  rintro _ u ⟨finished, contracts, satisfiable, backed⟩
  have whole := same.contracts.trans contracts
  have ⟨_, hu, _⟩ := finished
  exact ⟨finished, whole, .widen remains whole h.tidy hu.tidy satisfiable (same.backed backed)⟩

/-- Where one operand has its value, a relation of the other two remains of a sum. -/
theorem remains_of_solution (only : (s.peek w).solution = some n) (mem : w ∈ [x, y, z]) (vars : q.vars ⊆ [x, y, z])
    (rest : ∀ v ∈ [x, y, z], v ∉ q.vars → v = w)
    (same : ∀ σ : Assignment, σ w = n → (q.Accepts σ ↔ σ x + σ y = σ z)) : s.Remains (.sum x y z) q where
  vars := vars
  solved v in_sum out := ⟨n, by rw [rest v in_sum out]; exact only⟩
  same σ known := same σ (known w mem n only)

/-- A sum of which one operand has its value goes on as a difference of the other operand
    and the result. -/
theorem sumOperand (h : s.Working S id (.sum x y z)) (only : (s.peek w).solution = some n) (apart : s.sameVar v z = false)
    (parts : (w, v) = (x, y) ∨ (w, v) = (y, x)) :
    Narrow.Ensures S.models s (do Narrow.replaceWith id (.plusConst v n z); Narrow.runPlusConst id v n z) fun _ t =>
      t.Finished S id ∧ s.Contracts t ∧ s.Backed (.sum x y z) t := by
  have value := (h.tidy.eq_of_solution only).1
  have run (t : Solver) (ht : t.Working S id (.plusConst v n z)) (same : s.Matches t) :=
    ht.runPlusConst_apart (by rw [sameVar_congr same.resolve, apart])
  rcases parts with parts | parts <;> cases parts
  · refine h.specialize (remains_of_solution only (by simp) (by simp [Relation.vars]) ?_ fun σ at_w => ?_) value run
    · simp only [Relation.vars, List.mem_cons, List.not_mem_nil, or_false]
      tauto
    · change σ v + n = σ z ↔ σ w + σ v = σ z
      omega
  · refine h.specialize (remains_of_solution only (by simp) (by simp [Relation.vars]) ?_ fun σ at_w => ?_) value run
    · simp only [Relation.vars, List.mem_cons, List.not_mem_nil, or_false]
      tauto
    · change σ v + n = σ z ↔ σ v + σ w = σ z
      omega

/-- A sum of which the result has its value goes on as a sum with that result. -/
theorem sumResult (h : s.Working S id (.sum x y z)) (only : (s.peek z).solution = some n) :
    Narrow.Ensures S.models s (do Narrow.replaceWith id (.sumConst x y n); Narrow.runSumConst id x y n) fun _ t =>
      t.Finished S id ∧ s.Contracts t ∧ s.Backed (.sum x y z) t := by
  refine h.specialize (remains_of_solution only (by simp) (by simp [Relation.vars]) ?_ fun σ at_z => ?_)
    (h.tidy.eq_of_solution only).1 fun t ht _ => ht.runSumConst
  · simp only [Relation.vars, List.mem_cons, List.not_mem_nil, or_false]
    tauto
  · change σ x + σ y = n ↔ σ x + σ y = σ z
    omega

/-- The rows of a sum make a table of it. -/
theorem sumTable (h : s.Working S id (.sum x y z)) {origin : Term} (small : (s.peek x).smallProduct (s.peek y) = true) :
    Narrow.Ensures S.models s (Narrow.becomeTable id [x, y, z]
      (((s.peek x).partnered (s.peek y)).flatMap fun a => (s.peek y).toList.filterMap fun b =>
        (value? (a + b)).bind fun c => if (s.peek z).contains c then some [a, b, c] else none)
      origin) fun _ t => t.Finished S id ∧ s.Contracts t ∧ s.Backed (.sum x y z) t := by
  obtain ⟨finite_x, finite_y⟩ := Running.finite_of_smallProduct small
  have rows := Running.tabulates_sum (z := z) h.tidy.canonical finite_x finite_y
  refine (h.becomeTable rfl rows.proper fun σ fits => rows.mem_iff fits).mono ?_
  rintro _ t ⟨finished, contracts, _, supports⟩
  exact ⟨finished, contracts, fun v mem _ n in_v => .inl (supports v mem n in_v)⟩

/-- A sum of which little is known narrows the ends of its domains. -/
theorem sumEnds (h : s.Working S id (.sum x y z)) :
    Narrow.Ensures S.models s (do
        Narrow.narrowEnds x y z (3 * Domain.maxChanges + 1)
        Narrow.resubscribe id [x, y, z]) fun _ t => t.Finished S id ∧ s.Contracts t := by
  refine (h.narrowEnds _ h.tidy.roomOfThree_lt).bind ?_
  rintro _ t ⟨ht, contracts, meet⟩
  refine (ht.finish [x, y, z] (fun v mem => names_of_mem mem) fun only σ fits => meet (fun v mem => ?_) σ fits).mono ?_
  · exact ⟨σ v, fun m in_v => ht.tidy.eq_of_ground (only v mem) in_v (fits.mem v mem)⟩
  · rintro _ u ⟨finished, last⟩
    exact ⟨finished, contracts.trans last.contracts⟩

/-- A run of a sum leaves values with a support, or such for which it lies beyond, if no
    operands are aliased and one of them has its value, or all are finite and two of them
    have few pairs. -/
theorem runSum (h : s.Working S id (.sum x y z)) :
    Narrow.Ensures S.models s (Narrow.runSum id x y z) fun _ t => t.Finished S id ∧ s.Contracts t ∧
      (s.sameVar x y = false → s.sameVar x z = false → s.sameVar y z = false →
        (∃ v ∈ [x, y, z], (s.peek v).hasSolution = true) ∨
          (s.peek x).smallProduct (s.peek y) = true ∧ (s.peek z).size.isSome = true →
        s.Backed (.sum x y z) t) := by
  have in_x : x ∈ (Relation.sum x y z).vars := by simp [Relation.vars]
  have in_y : y ∈ (Relation.sum x y z).vars := by simp [Relation.vars]
  have in_z : z ∈ (Relation.sum x y z).vars := by simp [Relation.vars]
  have zero_value : isValue 0 = true := by decide
  unfold Narrow.runSum
  refine Narrow.ensures_sameVar (Narrow.ensures_sameVar (Narrow.ensures_sameVar ?_))
  split
  · rename_i all
    obtain ⟨same_xy, same_xz⟩ := Bool.and_eq_true_iff.mp all
    refine (h.reduceOnly in_x zero_value fun σ fits => ?_).mono fun _ t zero =>
      ⟨zero.1, zero.2.1, fun apart => by rw [same_xy] at apart; cases apart⟩
    have := fits.alike x in_x y in_y (resolve_of_sameVar same_xy)
    have := fits.alike x in_x z in_z (resolve_of_sameVar same_xz)
    change σ x + σ y = σ z ↔ _
    omega
  split
  · rename_i same_xy
    refine (h.replaceWith (q := .scale 2 x z) (show isValue 2 = true by decide) (fun v mem => ?_) fun σ suits => ?_).bind ?_
    · rcases List.mem_pair.mp mem with rfl | rfl
      · exact h.named _ in_x
      · exact h.named _ in_z
    · have := (suits _ h.named).alike x in_x y in_y (resolve_of_sameVar same_xy)
      change 2 * σ x = σ z ↔ σ x + σ y = σ z
      omega
    · rintro _ t ⟨ht, same⟩
      refine ht.runScale.mono ?_
      rintro _ u ⟨finished, contracts, _⟩
      exact ⟨finished, same.contracts.trans contracts, fun apart => by rw [same_xy] at apart; cases apart⟩
  rename_i not_xy
  split
  · rename_i same_xz
    refine (h.reduceOnly in_y zero_value fun σ fits => ?_).mono fun _ t zero =>
      ⟨zero.1, zero.2.1, fun _ apart => by rw [same_xz] at apart; cases apart⟩
    have := fits.alike x in_x z in_z (resolve_of_sameVar same_xz)
    change σ x + σ y = σ z ↔ _
    omega
  rename_i not_xz
  split
  · rename_i same_yz
    refine (h.reduceOnly in_x zero_value fun σ fits => ?_).mono fun _ t zero =>
      ⟨zero.1, zero.2.1, fun _ _ apart => by rw [same_yz] at apart; cases apart⟩
    have := fits.alike y in_y z in_z (resolve_of_sameVar same_yz)
    change σ x + σ y = σ z ↔ _
    omega
  rename_i not_yz
  refine h.domain x fun s₁ h₁ same₁ => h₁.domain y fun s₂ h₂ same₂ => h₂.domain z fun s₃ h₃ same₃ => ?_
  have same := (same₁.trans same₂).trans same₃
  rw [← (same₂.trans same₃).peek, ← same₃.peek]
  have apart_xz : s₃.sameVar x z = false := by rw [sameVar_congr same.resolve]; simpa using not_xz
  have apart_yz : s₃.sameVar y z = false := by rw [sameVar_congr same.resolve]; simpa using not_yz
  have back {m : Narrow Unit} (run : Narrow.Ensures S.models s₃ m fun _ t =>
      t.Finished S id ∧ s₃.Contracts t ∧ s₃.Backed (.sum x y z) t) :
      Narrow.Ensures S.models s₃ m fun _ t => t.Finished S id ∧ s.Contracts t ∧
        (s.sameVar x y = false → s.sameVar x z = false → s.sameVar y z = false →
          (∃ v ∈ [x, y, z], (s.peek v).hasSolution = true) ∨
            (s.peek x).smallProduct (s.peek y) = true ∧ (s.peek z).size.isSome = true →
          s.Backed (.sum x y z) t) := by
    refine run.mono ?_
    rintro _ t ⟨finished, contracts, backed⟩
    exact ⟨finished, same.contracts.trans contracts, fun _ _ _ _ => same.backed backed⟩
  split
  · rename_i a only
    exact back (h₃.sumOperand only apart_yz (.inl rfl))
  · rename_i b _ only
    exact back (h₃.sumOperand only apart_xz (.inr rfl))
  · rename_i c _ _ only
    exact back (h₃.sumResult only)
  · rename_i none_x none_y none_z
    split
    · rename_i small
      exact back (h₃.sumTable (Bool.and_eq_true_iff.mp small).1)
    · rename_i large
      refine h₃.sumEnds.mono ?_
      rintro _ t ⟨finished, contracts⟩
      refine ⟨finished, same.contracts.trans contracts, fun _ _ _ known => absurd known ?_⟩
      rw [← same.peek, ← Bool.and_eq_true_iff]
      rintro (⟨v, mem, solved⟩ | small)
      · simp only [List.mem_cons, List.not_mem_nil, or_false] at mem
        rcases mem with rfl | rfl | rfl <;> simp_all [Domain.hasSolution]
      · exact large small

end Working

end Solver

end ConstraintLogic
