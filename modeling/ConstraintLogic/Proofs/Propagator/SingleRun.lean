import ConstraintLogic.Proofs.Propagator.Separation
import ConstraintLogic.Proofs.Solver.Idempotence

/-!
# A run of any propagator

What one run does is stated here for any solver and each of the relations. A run loses no
assignment and makes none up, whatever the relation goes on as; a propagator that is not
woken again has nothing left to say. How much of the domains is left differs: some relations
leave a value only if it has a support, but for integers of more than 64 bits, and a pairwise
difference leaves no taken value in a domain unless that was too large.

Results:
* `Solver.Tidy.propagate_lossless`: the relation and the domains say the same as before.
* `Solver.Tidy.propagate_backed`: the values that are left have supports.
* `Solver.Tidy.propagate_separated`: the taken values are taken out.
-/

namespace ConstraintLogic

namespace Solver

variable {S : Selection} {s t : Solver} {id : PropId} {r : Relation} {σ τ : Assignment} {vs ws : List Var}

/-! ## Solvers that are tidy -/

theorem Tidy.of_produced {s : Subst} (h : s.Produced) : (Solver.new s).Tidy :=
  .new h.orderly.acyclic h.orderly.sized fun v => (h.orderly.canonical_storedDomain v).1

theorem grows_enqueue (s : Solver) (id : PropId) : s.Grows (s.enqueue id) := by
  unfold enqueue
  split
  · exact ⟨rfl, fun _ _ h => h, fun _ => rfl, fun _ _ h => h, fun _ _ h => h, fun _ waits => Agenda.waits_push.mpr (.inr waits)⟩
  · exact .refl s

theorem grows_intern (s : Solver) (p : Propagator) : s.Grows (s.intern p).2.2 := by
  unfold intern
  split
  · exact .refl s
  · exact s.grows_enlist p

theorem grows_subscribe (s : Solver) (id : PropId) (v : Var) : s.Grows (s.subscribe id v) := by
  unfold subscribe
  split
  · exact (s.grows_load _).1.trans (grows_addSubscriber _ _ _)
  · exact .refl s

theorem grows_post (s : Solver) (p : Propagator) : s.Grows (s.post p).2 := by
  refine .trans ?_ (grows_enqueue _ (s.intern p).1)
  refine List.foldlRecOn (motive := fun t => s.Grows t) _ _ (s.grows_intern p) fun t grows v _ => ?_
  exact grows.trans (t.grows_subscribe _ v)

/-- Requests leave a solver tidy. -/
theorem Tidy.requests (requests : List Request) (canonical : ∀ v d, .reduce v d ∈ requests → d.Canonical) :
    ∀ {s : Solver}, s.Tidy → Narrow.Ensures (fun _ => False) s (requests.forM Request.run) fun _ t => t.Tidy := by
  induction requests with
  | nil => exact fun tidy => Narrow.Ensures.pure tidy
  | cons q requests ih =>
    intro s tidy
    change Narrow.Ensures _ s (q.run >>= fun _ => requests.forM Request.run) _
    refine Narrow.Ensures.bind (Q := fun _ t => t.Tidy) ?_ fun _ t tidy => ih (fun v d mem => canonical v d (.tail q mem)) tidy
    cases q with
    | post p => exact (s.grows_post p).matched.tidy tidy
    | reduce v d => exact (tidy.reduce (canonical v d (.head _)) fun _ never => never.elim).mono fun _ _ after => after.1

/-! ## Assignments -/

/-- Integers that fit some variables can be given to all that stand for the same. -/
theorem Fits.suits (fits : s.Fits vs σ) :
    ∃ τ, s.Suits (fun w => ∃ v ∈ vs, s.resolve v = s.resolve w) τ ∧ ∀ v ∈ vs, τ v = σ v := by
  classical
  let τ : Assignment := fun w => if named : ∃ v ∈ vs, s.resolve v = s.resolve w then σ named.choose else 0
  have value {v w : Var} (mem : v ∈ vs) (same : s.resolve v = s.resolve w) : τ w = σ v := by
    have named : ∃ v ∈ vs, s.resolve v = s.resolve w := ⟨v, mem, same⟩
    obtain ⟨chosen, alike⟩ := named.choose_spec
    simp only [τ, dif_pos named]
    exact fits.alike _ chosen v mem (alike.trans same.symm)
  refine ⟨τ, fun ws named => ⟨fun w in_ws => ?_, fun w in_ws => ?_, fun u in_ws w in_ws' same => ?_⟩, fun v mem => value mem rfl⟩
  · obtain ⟨v, mem, alike⟩ := named w in_ws
    rw [value mem alike, ← peek_congr alike]
    exact fits.mem v mem
  · obtain ⟨v, mem, alike⟩ := named w in_ws
    rw [value mem alike]
    exact fits.value v mem
  · obtain ⟨v, mem, alike⟩ := named u in_ws
    rw [value mem alike, value mem (alike.trans same)]

theorem Fits.congr (fits : s.Fits vs σ) (agree : ∀ v ∈ vs, τ v = σ v) : s.Fits vs τ where
  mem v mem := by rw [agree v mem]; exact fits.mem v mem
  value v mem := by rw [agree v mem]; exact fits.value v mem
  alike v mem w mem' same := by rw [agree v mem, agree w mem']; exact fits.alike v mem w mem' same

/-- Variables that stand for others take their values along into smaller domains. -/
theorem Suits.of_fits {P : Var → Prop} (suits : s.Suits P σ) (resolve : t.resolve = s.resolve) (fits : t.Fits vs σ)
    (named : ∀ v ∈ vs, P v) (covers : ∀ w, P w → ∃ v ∈ vs, s.resolve v = s.resolve w) : t.Suits P σ := fun ws all => by
  have before := suits ws all
  refine ⟨fun w mem => ?_, before.value, by rw [resolve]; exact before.alike⟩
  obtain ⟨v, in_vs, same⟩ := covers w (all w mem)
  have alike : σ v = σ w := (suits [v, w] (by simp [named v in_vs, all w mem])).alike v (by simp) w (by simp) same
  rw [← alike, ← peek_congr (resolve ▸ same : t.resolve v = t.resolve w)]
  exact fits.mem v in_vs

/-! ## One run -/

/-- The relations whose runs are exact in this solver. -/
def Exact (s : Solver) : Relation → Prop
  | .plusConst .. | .sumConst .. | .table .. => True
  | .scale c x _ => c ≠ 0 ∧ (s.peek x).size.any (· ≤ tableThreshold) = true
  | .sum x y z => s.sameVar x y = false ∧ s.sameVar x z = false ∧ s.sameVar y z = false ∧
      ((∃ v ∈ [x, y, z], (s.peek v).hasSolution = true) ∨
        (s.peek x).smallProduct (s.peek y) = true ∧ (s.peek z).size.isSome = true)
  | .allDifferent .. => False

/-- A run of any relation keeps what is said, and leaves values with a support if it is exact. -/
theorem Working.propagate (h : s.Working S id r) :
    Narrow.Ensures S.models s (Narrow.propagate id r) fun _ t => t.Finished S id ∧ s.Contracts t ∧ (s.Exact r → s.Backed r t) := by
  cases r with
  | plusConst x c z => exact h.runPlusConst.mono fun _ t ⟨finished, contracts, backed⟩ => ⟨finished, contracts, fun _ => backed⟩
  | sumConst x y c => exact h.runSumConst.mono fun _ t ⟨finished, contracts, _, backed⟩ => ⟨finished, contracts, fun _ => backed⟩
  | sum x y z =>
    refine h.runSum.mono fun _ t ⟨finished, contracts, backed⟩ => ⟨finished, contracts, ?_⟩
    rintro ⟨xy, xz, yz, few⟩
    exact backed xy xz yz few
  | scale c x z =>
    refine h.runScale.mono fun _ t ⟨finished, contracts, backed⟩ => ⟨finished, contracts, ?_⟩
    rintro ⟨nonzero, small⟩
    exact backed nonzero small
  | allDifferent vs cs =>
    exact h.runAllDifferent.mono fun _ t ⟨finished, contracts, _⟩ => ⟨finished, contracts, False.elim⟩
  | table vs rows origin =>
    refine h.runTable.mono fun _ t ⟨finished, contracts, _, supports⟩ => ⟨finished, contracts, fun _ v mem _ n left => ?_⟩
    exact .inl (supports v mem n left)

/-- A run of the relation looks at its variables and has to keep what satisfies it. -/
def selection (s : Solver) (r : Relation) : Selection where
  vars := s.Names r
  kept σ := s.Suits (s.Names r) σ ∧ r.Accepts σ
  frame _ := True

theorem Tidy.working (tidy : s.Tidy) {n : Nat} (slot : s.prop? id = some ⟨n, r⟩) (sized : r.Sized) :
    s.Working (s.selection r) id r where
  tidy := tidy
  slot := ⟨n, slot⟩
  sized := sized
  named _ mem := names_of_mem mem
  closed := by
    rintro v w ⟨x, mem, same⟩ alike
    exact ⟨x, mem, same.trans alike.symm⟩
  exact _ := Iff.rfl
  steps := .nothing
  framed := trivial

/-- What is said of all variables that stand for those of the relation is said of those of
    the relations before and after the run. -/
theorem Working.accepts_iff {q : Relation} (ht : t.Working (s.selection r) id q) (contracts : s.Contracts t)
    (fits : s.Fits (r.vars ++ q.vars) σ) : r.Accepts σ ↔ t.Fits (r.vars ++ q.vars) σ ∧ q.Accepts σ := by
  have named (v : Var) (mem : v ∈ r.vars ++ q.vars) : s.Names r v :=
    (List.mem_append.mp mem).elim (fun mem => names_of_mem mem) (ht.named v)
  obtain ⟨τ, suits, agree⟩ := fits.suits
  have suits : s.Suits (s.Names r) τ := fun ws all => suits ws fun w mem =>
    (all w mem).imp fun v ⟨in_r, same⟩ => ⟨List.mem_append.mpr (.inl in_r), same⟩
  have exact : r.Accepts τ ↔ t.Suits (s.Names r) τ ∧ q.Accepts τ :=
    ⟨fun accepts => (ht.exact τ).mp ⟨suits, accepts⟩, fun after => ((ht.exact τ).mpr after).2⟩
  rw [← Relation.accepts_congr (r := r) fun v mem => agree v (List.mem_append.mpr (.inl mem)),
    ← Relation.accepts_congr (r := q) fun v mem => agree v (List.mem_append.mpr (.inr mem)), exact]
  refine and_congr_left fun _ => ⟨fun after => (after _ named).congr fun v mem => (agree v mem).symm, fun after => ?_⟩
  refine suits.of_fits contracts.resolve (after.congr agree) named ?_
  rintro w ⟨x, in_r, same⟩
  exact ⟨x, List.mem_append.mpr (.inl in_r), same⟩

/-- A run from `s` to `t` has put `q` in the place of `r`: with the domains it says the same
    of all variables, and alone it says nothing if its propagator is subscribed to none of its
    unbound variables. -/
structure Lossless (s : Solver) (id : PropId) (r : Relation) (t : Solver) (q : Relation) : Prop where
  tidy : t.Tidy
  resolve : t.resolve = s.resolve
  slot : ∃ n, t.prop? id = some ⟨n, q⟩
  named : ∀ v ∈ q.vars, s.Names r v
  same : ∀ σ, s.Fits (r.vars ++ q.vars) σ → (r.Accepts σ ↔ t.Fits (r.vars ++ q.vars) σ ∧ q.Accepts σ)
  silent : (∀ v ∈ q.vars, ∀ w, t.resolve v = .free w → id ∉ t.subscribersOf w) → ∀ σ, t.Fits q.vars σ → q.Accepts σ

/-- A run is lossless, and one that fails had nothing to lose. Nothing else can happen, unless
    an integer leaves 64 bits. -/
theorem Tidy.propagate_lossless (tidy : s.Tidy) {n : Nat} (slot : s.prop? id = some ⟨n, r⟩) (sized : r.Sized) :
    match Narrow.propagate id r s with
    | .ok _ t => ∃ q, s.Lossless id r t q
    | .error .conflict _ => ∀ σ, s.Fits r.vars σ → ¬r.Accepts σ
    | .error (.stop (.fault f)) _ => f.IsOverflow
    | .error (.stop .exhausted) _ => False := by
  have run := (tidy.working slot sized).propagate
  unfold Narrow.Ensures at run
  split <;> rename_i eq <;> rw [eq] at run
  · obtain ⟨⟨q, ht, silent⟩, contracts, -⟩ := run
    exact ⟨q, ht.tidy, contracts.resolve, ht.slot, ht.named, fun σ fits => ht.accepts_iff contracts fits, silent⟩
  · -- Integers that satisfy the relation would be a reading that the run has to keep.
    intro σ fits accepts
    obtain ⟨τ, suits, agree⟩ := fits.suits
    refine run (fun v => .int (τ v)) ⟨suits, ?_⟩
    exact (Relation.accepts_congr agree).mpr accepts
  · exact run
  · exact run

/-! ## Single propagators -/

open Subst (blank relate leftBy succeeds eq_ok_of_succeeds produced_blank)

/-- A solver over `n` unbound variables with domains for some of them and a relation, which
    has not been run. -/
def posted (n : Nat) (ds : List (Var × Domain)) (r : Relation) : Solver :=
  leftBy ((relate ds r).forM Request.run (Solver.new (blank n)))

theorem tidy_posted {n : Nat} {ds : List (Var × Domain)} (canonical : ∀ d ∈ ds, d.2.Canonical)
    (run : succeeds ((relate ds r).forM Request.run (Solver.new (blank n))) = true) : (posted n ds r).Tidy := by
  have requests := Tidy.requests (relate ds r) (fun v d mem => ?_) (.of_produced (produced_blank n))
  · unfold Narrow.Ensures at requests
    rwa [eq_ok_of_succeeds run] at requests
  · obtain ⟨mem, _⟩ : (v, d) ∈ ds ∧ True := by simpa [relate] using mem
    exact canonical (v, d) mem

/-- The sum `_0 + _1 = _2`, with 2 for `_0`. -/
def addition : Solver := posted 3 [(⟨0⟩, .singleton 2), (⟨1⟩, .interval 0 3)] (.sum ⟨0⟩ ⟨1⟩ ⟨2⟩)

/-- With 2 for `_0` the sum goes on as a difference. -/
theorem propagate_lossless_sum : ∃ t q, addition.Tidy ∧ addition.prop? ⟨0⟩ = some ⟨0, .sum ⟨0⟩ ⟨1⟩ ⟨2⟩⟩ ∧
    (Relation.sum ⟨0⟩ ⟨1⟩ ⟨2⟩).Sized ∧ Narrow.propagate ⟨0⟩ (.sum ⟨0⟩ ⟨1⟩ ⟨2⟩) addition = .ok () t ∧
    addition.Lossless ⟨0⟩ (.sum ⟨0⟩ ⟨1⟩ ⟨2⟩) t q ∧ q = .plusConst ⟨1⟩ 2 ⟨2⟩ := by
  have tidy : addition.Tidy :=
    tidy_posted (by simp [Domain.Canonical, Domain.singleton, minValue, maxValue]) (by decide +kernel)
  have slot : addition.prop? ⟨0⟩ = some ⟨0, .sum ⟨0⟩ ⟨1⟩ ⟨2⟩⟩ := by decide +kernel
  obtain ⟨t, run, found⟩ : ∃ t, Narrow.propagate ⟨0⟩ (.sum ⟨0⟩ ⟨1⟩ ⟨2⟩) addition = .ok () t ∧
      (t.prop? ⟨0⟩).map (·.val) = some (.plusConst ⟨1⟩ 2 ⟨2⟩) :=
    ⟨_, eq_ok_of_succeeds (by decide +kernel), by decide +kernel⟩
  have lossless := tidy.propagate_lossless slot trivial
  rw [run] at lossless
  obtain ⟨q, lossless⟩ := lossless
  obtain ⟨n, at_id⟩ := lossless.slot
  rw [at_id] at found
  cases found
  exact ⟨t, _, tidy, slot, trivial, run, lossless, rfl⟩

/-- A run of an exact relation leaves a value in a finite domain only if it has a support, or
    if its supports would take an integer of more than 64 bits for a variable of which nothing
    was known. -/
theorem Tidy.propagate_backed (tidy : s.Tidy) {n : Nat} (slot : s.prop? id = some ⟨n, r⟩) (sized : r.Sized)
    (exact : s.Exact r) (run : Narrow.propagate id r s = .ok () t) :
    s.Backed r t ∧ ((∀ v ∈ r.vars, s.peek v ≠ .unbounded) → ∀ v ∈ r.vars, ∀ n ∈ t.peek v, t.Supports r v n) := by
  have ensured := (tidy.working slot sized).propagate
  unfold Narrow.Ensures at ensured
  rw [run] at ensured
  obtain ⟨⟨q, ht, -⟩, contracts, backed⟩ := ensured
  refine ⟨backed exact, fun finite v mem n left => ?_⟩
  have still : t.peek v ≠ .unbounded := fun full => by
    refine finite v mem ((tidy.canonical v).eq_unbounded_iff.mpr fun n => contracts.mem_peek v n ?_)
    rw [full]
    exact Domain.mem_unbounded n
  rcases backed exact v mem still n left with supported | ⟨u, in_r, full, -⟩
  · exact supported
  · exact absurd full (finite u in_r)

/-- The greatest integers for `_1`, and `_0 - 5 = _1`. -/
def difference : Solver := posted 2 [(⟨1⟩, .interval (maxValue - 10) maxValue)] (.plusConst ⟨0⟩ (-5) ⟨1⟩)

theorem tidy_difference : difference.Tidy :=
  tidy_posted (by simp [Domain.Canonical, minValue, maxValue]) (by decide +kernel)

/-- `_0 - 5 = _1` is run where `_1` has the greatest integers. -/
theorem propagate_backed_difference : ∃ t, difference.Tidy ∧ difference.prop? ⟨0⟩ = some ⟨0, .plusConst ⟨0⟩ (-5) ⟨1⟩⟩ ∧
    (Relation.plusConst ⟨0⟩ (-5) ⟨1⟩).Sized ∧ Narrow.propagate ⟨0⟩ (.plusConst ⟨0⟩ (-5) ⟨1⟩) difference = .ok () t ∧
    difference.Backed (.plusConst ⟨0⟩ (-5) ⟨1⟩) t := by
  have slot : difference.prop? ⟨0⟩ = some ⟨0, .plusConst ⟨0⟩ (-5) ⟨1⟩⟩ := by decide +kernel
  have sized : (Relation.plusConst ⟨0⟩ (-5) ⟨1⟩).Sized := by decide
  have run : Narrow.propagate ⟨0⟩ (.plusConst ⟨0⟩ (-5) ⟨1⟩) difference = .ok () _ := eq_ok_of_succeeds (by decide +kernel)
  exact ⟨_, tidy_difference, slot, sized, run, (tidy_difference.propagate_backed slot sized trivial run).1⟩

/-- A value can be left without support: `_0 - 5 = _1` narrows `_0` to integers of 64 bits,
    but the greatest integers, which are out of reach then, stay with `_1`. -/
theorem exists_unsupported : ∃ (s t : Solver) (id : PropId) (n : Nat) (r : Relation) (v : Var) (k : Int),
    s.Tidy ∧ s.prop? id = some ⟨n, r⟩ ∧ r.Sized ∧ s.Exact r ∧ Narrow.propagate id r s = .ok () t ∧
      v ∈ r.vars ∧ t.peek v ≠ .unbounded ∧ k ∈ t.peek v ∧ ¬t.Supports r v k := by
  have run : Narrow.propagate ⟨0⟩ (.plusConst ⟨0⟩ (-5) ⟨1⟩) difference = .ok () _ := eq_ok_of_succeeds (by decide +kernel)
  refine ⟨difference, _, ⟨0⟩, 0, .plusConst ⟨0⟩ (-5) ⟨1⟩, ⟨1⟩, maxValue, tidy_difference, by decide +kernel, by decide, trivial, run,
    by simp [Relation.vars], by decide +kernel, by decide +kernel, ?_⟩
  rintro ⟨σ, fits, sum, at_v⟩
  have small := fits.value ⟨0⟩ (by simp [Relation.vars])
  have sum : σ ⟨0⟩ + -5 = σ ⟨1⟩ := sum
  rw [isValue_iff] at small
  omega

/-- A pairwise difference that has been run has different values for its constants and solved
    variables, and leaves none of them to another variable unless the domain of that had more
    values in a row than are listed one by one. -/
theorem Tidy.propagate_separated (tidy : s.Tidy) {n : Nat} {cs : List Int} (slot : s.prop? id = some ⟨n, .allDifferent vs cs⟩)
    (sized : (Relation.allDifferent vs cs).Sized) (run : Narrow.propagate id (.allDifferent vs cs) s = .ok () t) :
    s.Separated vs cs t := by
  have ensured := (tidy.working slot sized).runAllDifferent
  unfold Narrow.Ensures at ensured
  change Narrow.runAllDifferent id vs cs s = .ok () t at run
  rw [run] at ensured
  exact ensured.2.2

/-- The integers from 0 to 4096 for `_0`, which differs from 5 and 0. -/
def distinction : Solver := posted 1 [(⟨0⟩, .interval 0 4096)] (.allDifferent [⟨0⟩] [5, 0])

theorem tidy_distinction : distinction.Tidy :=
  tidy_posted (by simp [Domain.Canonical, minValue, maxValue]) (by decide +kernel)

/-- `_0` is made different from 5 and 0. -/
theorem propagate_separated_constants : ∃ t, distinction.Tidy ∧
    distinction.prop? ⟨0⟩ = some ⟨0, .allDifferent [⟨0⟩] [5, 0]⟩ ∧ (Relation.allDifferent [⟨0⟩] [5, 0]).Sized ∧
    Narrow.propagate ⟨0⟩ (.allDifferent [⟨0⟩] [5, 0]) distinction = .ok () t ∧ distinction.Separated [⟨0⟩] [5, 0] t := by
  have slot : distinction.prop? ⟨0⟩ = some ⟨0, .allDifferent [⟨0⟩] [5, 0]⟩ := by decide +kernel
  have sized : (Relation.allDifferent [⟨0⟩] [5, 0]).Sized := by decide
  have run : Narrow.propagate ⟨0⟩ (.allDifferent [⟨0⟩] [5, 0]) distinction = .ok () _ := eq_ok_of_succeeds (by decide +kernel)
  exact ⟨_, tidy_distinction, slot, sized, run, tidy_distinction.propagate_separated slot sized run⟩

/-- A constant can be left in a domain that can be listed: 5 is taken out of too many values
    in vain, and then 0 is taken out of them. -/
theorem exists_left_over : ∃ (s t : Solver) (id : PropId) (n : Nat) (vs : List Var) (cs : List Int) (v : Var) (size : Nat) (c : Int),
    s.Tidy ∧ s.prop? id = some ⟨n, .allDifferent vs cs⟩ ∧ (Relation.allDifferent vs cs).Sized ∧
      Narrow.propagate id (.allDifferent vs cs) s = .ok () t ∧ v ∈ vs ∧ (t.peek v).solution = none ∧
      (t.peek v).size = some size ∧ size ≤ Domain.materializeLimit ∧ c ∈ cs ∧ c ∈ t.peek v := by
  have run : Narrow.propagate ⟨0⟩ (.allDifferent [⟨0⟩] [5, 0]) distinction = .ok () _ := eq_ok_of_succeeds (by decide +kernel)
  exact ⟨distinction, _, ⟨0⟩, 0, [⟨0⟩], [5, 0], ⟨0⟩, 4096, 5, tidy_distinction, by decide +kernel, by decide, run, by simp,
    by decide +kernel, by decide +kernel, by decide, by simp, by decide +kernel⟩

end Solver

end ConstraintLogic
