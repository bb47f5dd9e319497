import ConstraintLogic.Proofs.Propagator.Support

/-!
# Bounds of sums

A sum of open operands narrows the ends of its three domains, round after round, until a
round changes nothing. It comes to rest, breaks no contract on the way and removes no
solution; and since the last round has read the ends that it leaves, each of the three
domains then lies between the sums or differences of the ends of the other two.

Results:
* `Narrow.Faultless`: a narrowing that breaks no contract.
* `Solver.Trims`: what narrowing some variables changes.
* `Solver.Meeting`: each domain lies between the ends that the other two leave.
* `Solver.Trims.narrowEnds`: the ends of a sum come to rest within the allowance.
* `Solver.Tidy.narrowEnds_meeting`: what they come to.
-/

namespace ConstraintLogic

/-! ## Contracts -/

namespace Narrow

variable {α β : Type} {m : Narrow α} {f : α → Narrow β}

/-- The narrowing breaks no contract, whatever the solver. -/
def Faultless (m : Narrow α) : Prop := ∀ s why t, m s ≠ .error (.stop (.fault why)) t

theorem Faultless.pure (a : α) : Faultless (Pure.pure a) := fun _ _ _ => nofun

theorem Faultless.bind (h : Faultless m) (next : ∀ a, Faultless (f a)) : Faultless (m >>= f) := by
  intro s why t run
  change EStateM.bind m f s = _ at run
  unfold EStateM.bind at run
  split at run
  · exact next _ _ _ _ run
  · rename_i ended
    cases run
    exact h _ _ _ ended

theorem Faultless.ite {c : Prop} [Decidable c] {n : Narrow α} (yes : Faultless m) (no : Faultless n) :
    Faultless (if c then m else n) := by
  split
  · exact yes
  · exact no

theorem faultless_require (holds : Bool) : Faultless (require holds) := by
  cases holds
  · exact fun _ _ _ => nofun
  · exact .pure ()

theorem faultless_domain (v : Var) : Faultless (domain v) := fun _ _ _ => nofun

theorem faultless_reduce (v : Var) (d : Domain) : Faultless (reduce v d) := by
  refine Faultless.bind (m := resolve v) (fun _ _ _ => nofun) fun at_v => ?_
  cases at_v with
  | value n => exact faultless_require _
  | other => exact fun _ _ _ => nofun
  | free w =>
    refine (faultless_domain w).bind fun current => .ite (fun _ _ _ => nofun) (.ite (.pure ()) fun _ _ _ => nofun)

theorem faultless_reduceBetween (v : Var) (lb ub : Option Int) : Faultless (reduceBetween v lb ub) := by
  unfold reduceBetween
  split
  · exact faultless_reduce _ _
  · exact .pure ()

/-- Ends are computed without bounds, and then cut to 64 bits. -/
theorem faultless_narrowEnds (x y z : Var) (n : Nat) : Faultless (narrowEnds x y z n) := by
  induction n with
  | zero => exact fun _ _ _ => nofun
  | succ n ih =>
    unfold narrowEnds
    refine (faultless_domain x).bind fun _ => (faultless_domain y).bind fun _ => (faultless_domain z).bind fun _ => ?_
    refine (faultless_reduceBetween z _ _).bind fun _ => (faultless_domain z).bind fun _ => ?_
    refine (faultless_reduceBetween x _ _).bind fun _ => (faultless_domain x).bind fun _ => ?_
    refine (faultless_reduceBetween y _ _).bind fun _ => (faultless_domain x).bind fun _ => ?_
    exact (faultless_domain y).bind fun _ => (faultless_domain z).bind fun _ => .ite (.pure ()) ih

end Narrow

namespace Subst

theorem storedDomain_setDomain (s : Subst) (v w : Var) (a : Stamped DomainFact) :
    (s.setAttr v (.domain a)).storedDomain w = if v = w then a.val.domain else s.storedDomain w := by
  unfold storedDomain
  rw [attributes_setAttr]
  by_cases same : v = w
  · rw [if_pos same, if_pos same]
    rfl
  · rw [if_neg same, if_neg same]

end Subst

namespace Solver

variable {M : (Var → Term) → Prop} {s t u : Solver} {v w x y z : Var} {vs : List Var} {σ : Assignment}

/-! ## Narrowing some variables -/

/-- The second solver has narrowed the variables `vs`, and what stands for the same as one of
    them; the readings `M` still fit. -/
structure Trims (M : (Var → Term) → Prop) (vs : List Var) (s t : Solver) : Prop where
  tidy : t.Tidy
  contracts : s.Contracts t
  props : ∀ j p, s.prop? j = some p → t.prop? j = some p
  apart : ∀ u, (∀ v ∈ vs, s.sameVar u v = false) → t.peek u = s.peek u
  fits : ∀ θ, M θ → t.Fits vs (integers θ)

namespace Trims

theorem refl (tidy : s.Tidy) (fits : ∀ θ, M θ → s.Fits vs (integers θ)) : s.Trims M vs s :=
  ⟨tidy, .refl s, fun _ _ => id, fun _ _ => rfl, fits⟩

theorem trans (h : s.Trims M vs t) (h' : t.Trims M vs u) : s.Trims M vs u where
  tidy := h'.tidy
  contracts := h.contracts.trans h'.contracts
  props j p found := h'.props j p (h.props j p found)
  apart w others := by
    rw [h'.apart w fun v mem => by rw [sameVar_congr h.contracts.resolve, others v mem], h.apart w others]
  fits := h'.fits

/-- Asking for a domain narrows nothing. -/
theorem domain {α : Type} {f : Domain → Narrow α} {Q : α → Solver → Prop} (h : s.Trims M vs t) (v : Var)
    (next : ∀ u, s.Trims M vs u → t.Matches u → Narrow.Ensures M u (f (u.peek v)) Q) :
    Narrow.Ensures M t (Narrow.domain v >>= f) Q := by
  obtain ⟨eq, grows⟩ := t.domain_spec v
  have same := grows.matched
  refine Narrow.Ensures.step (a := t.peek v) (t := (t.domain v).2) ?_ ?_
  · change EStateM.Result.ok (t.domain v).1 (t.domain v).2 = _
    rw [eq]
  · rw [← same.peek]
    refine next _ ⟨same.tidy h.tidy, h.contracts.trans same.contracts, ?_, ?_, fun θ model => ?_⟩ same
    · exact fun j p found => grows.props j p (h.props j p found)
    · rw [same.peek]
      exact h.apart
    · refine (h.fits θ model).of_peek same.resolve.symm fun v n mem => ?_
      rwa [same.peek]

/-- Narrowing a variable to an interval that has its integers in all readings. -/
theorem reduceBetween (h : s.Trims M vs t) (named : v ∈ vs) {lb ub : Option Int}
    (low : ∀ θ, M θ → ∀ a, lb = some a → a ≤ integers θ v) (high : ∀ θ, M θ → ∀ b, ub = some b → integers θ v ≤ b) :
    Narrow.Ensures M t (Narrow.reduceBetween v lb ub) fun _ u =>
      s.Trims M vs u ∧ t.Contracts u ∧ ∀ a b, lb = some a → ub = some b → ∀ n ∈ u.peek v, a ≤ n ∧ n ≤ b := by
  unfold Narrow.reduceBetween
  split
  · rename_i a b
    have within (θ : Var → Term) (model : M θ) : integers θ v ∈ Domain.clampedRange a b :=
      Domain.mem_clampedRange.mpr ⟨⟨low θ model a rfl, high θ model b rfl⟩, (h.fits θ model).value v named⟩
    refine (h.tidy.reduce (Domain.canonical_clampedRange a b) fun θ model => ⟨(h.fits θ model).mem v named, within θ model⟩).mono ?_
    rintro _ u ⟨tidy, cuts, props⟩
    refine ⟨h.trans ⟨tidy, cuts.contracts, props, fun w others => cuts.peek_of_apart h.tidy tidy (others v named), ?_⟩,
      cuts.contracts, ?_⟩
    · intro θ model
      have fits := h.fits θ model
      refine ⟨fun w mem => (cuts.mem_peek w _).mpr ⟨fits.mem w mem, fun same => ?_⟩, fits.value, ?_⟩
      · rw [fits.alike w mem v named (resolve_of_sameVar same)]
        exact within θ model
      · rw [cuts.resolve]
        exact fits.alike
    · rintro _ _ ⟨⟩ ⟨⟩ n mem
      exact (Domain.mem_clampedRange.mp (cuts.left n mem)).1
  · rename_i not_both
    exact Narrow.Ensures.pure ⟨h, .refl t, fun a b same same' => absurd same' (not_both a b same)⟩

/-- Sums of ends bound the sums of integers. -/
theorem le_of_addEnds (h : s.Trims M vs t) (named : v ∈ vs) (named' : w ∈ vs) {θ : Var → Term} (model : M θ) :
    (∀ a, Narrow.addEnds (t.peek v).min? (t.peek w).min? = some a → a ≤ integers θ v + integers θ w) ∧
      ∀ b, Narrow.addEnds (t.peek v).max? (t.peek w).max? = some b → integers θ v + integers θ w ≤ b :=
  have fits := h.fits θ model
  Running.le_of_addEnds (h.tidy.canonical v) (h.tidy.canonical w) (fits.mem v named) (fits.mem w named')

/-- Differences of ends bound the differences of integers, also where the second end was read
    earlier. -/
theorem le_of_subEnds (ht : s.Trims M vs t) (hu : s.Trims M vs u) (named : v ∈ vs) (named' : w ∈ vs) {θ : Var → Term}
    (model : M θ) :
    (∀ a, Narrow.subEnds (t.peek v).min? (u.peek w).max? = some a → a ≤ integers θ v - integers θ w) ∧
      ∀ b, Narrow.subEnds (t.peek v).max? (u.peek w).min? = some b → integers θ v - integers θ w ≤ b :=
  Running.le_of_subEnds (ht.tidy.canonical v) (hu.tidy.canonical w) ((ht.fits θ model).mem v named)
    ((hu.fits θ model).mem w named')

end Trims

/-- What is the same before and after is the same in between. -/
theorem Contracts.peek_between (h : s.Contracts t) (h' : t.Contracts u) (ht : t.Tidy) (hu : u.Tidy)
    (rest : u.peek v = s.peek v) : t.peek v = u.peek v :=
  (ht.canonical v).ext (hu.canonical v) fun n => ⟨fun mem => rest ▸ h.mem_peek v n mem, h'.mem_peek v n⟩

/-! ## The ends of a sum -/

/-- Each of the three domains of `x + y = z` lies between the sums or differences of the ends
    of the other two, if these have ends. -/
structure Meeting (x y z : Var) (t : Solver) : Prop where
  result : ∀ a a' b b', (t.peek x).Spans a a' → (t.peek y).Spans b b' → ∀ n ∈ t.peek z, a + b ≤ n ∧ n ≤ a' + b'
  left : ∀ b b' c c', (t.peek y).Spans b b' → (t.peek z).Spans c c' → ∀ n ∈ t.peek x, c - b' ≤ n ∧ n ≤ c' - b
  right : ∀ a a' c c', (t.peek x).Spans a a' → (t.peek z).Spans c c' → ∀ n ∈ t.peek y, c - a' ≤ n ∧ n ≤ c' - a

/-- The domains of a sum meet where each was last cut to the ends that the other two have now. -/
theorem Tidy.meeting (tidy : u.Tidy)
    (cut_z : ∀ a b, Narrow.addEnds (u.peek x).min? (u.peek y).min? = some a →
      Narrow.addEnds (u.peek x).max? (u.peek y).max? = some b → ∀ n ∈ u.peek z, a ≤ n ∧ n ≤ b)
    (cut_x : ∀ a b, Narrow.subEnds (u.peek z).min? (u.peek y).max? = some a →
      Narrow.subEnds (u.peek z).max? (u.peek y).min? = some b → ∀ n ∈ u.peek x, a ≤ n ∧ n ≤ b)
    (cut_y : ∀ a b, Narrow.subEnds (u.peek z).min? (u.peek x).max? = some a →
      Narrow.subEnds (u.peek z).max? (u.peek x).min? = some b → ∀ n ∈ u.peek y, a ≤ n ∧ n ≤ b) :
    u.Meeting x y z := by
  have ends {v : Var} {lo hi : Int} (spans : (u.peek v).Spans lo hi) := (tidy.canonical v).ends_of_spans spans
  refine ⟨fun a a' b b' ends_x ends_y => ?_, fun b b' c c' ends_y ends_z => ?_, fun a a' c c' ends_x ends_z => ?_⟩
  · exact cut_z _ _ (Running.addEnds_eq_some_iff.mpr ⟨_, _, (ends ends_x).1, (ends ends_y).1, rfl⟩)
      (Running.addEnds_eq_some_iff.mpr ⟨_, _, (ends ends_x).2, (ends ends_y).2, rfl⟩)
  · exact cut_x _ _ (Running.subEnds_eq_some_iff.mpr ⟨_, _, (ends ends_z).1, (ends ends_y).2, rfl⟩)
      (Running.subEnds_eq_some_iff.mpr ⟨_, _, (ends ends_z).2, (ends ends_y).1, rfl⟩)
  · exact cut_y _ _ (Running.subEnds_eq_some_iff.mpr ⟨_, _, (ends ends_z).1, (ends ends_x).2, rfl⟩)
      (Running.subEnds_eq_some_iff.mpr ⟨_, _, (ends ends_z).2, (ends ends_x).1, rfl⟩)

/-- The ends of a sum come to rest within the allowance, and then they meet. -/
theorem Trims.narrowEnds (n : Nat) : ∀ t : Solver, s.Trims M [x, y, z] t →
    (∀ θ, M θ → integers θ x + integers θ y = integers θ z) → Running.roomOfThree x y z t < n →
    Narrow.Ensures M t (Narrow.narrowEnds x y z n) fun _ u => s.Trims M [x, y, z] u ∧ u.Meeting x y z := by
  have in_x : x ∈ [x, y, z] := by simp
  have in_y : y ∈ [x, y, z] := by simp
  have in_z : z ∈ [x, y, z] := by simp
  induction n with
  | zero => exact fun t _ _ less => absurd less (Nat.not_lt_zero _)
  | succ n ih =>
    intro t h sum less
    unfold Narrow.narrowEnds
    refine h.domain x fun t₁ h₁ same₁ => h₁.domain y fun t₂ h₂ same₂ => h₂.domain z fun t₃ h₃ same₃ => ?_
    have same := (same₁.trans same₂).trans same₃
    rw [← (same₂.trans same₃).peek, ← same₃.peek]
    refine (h₃.reduceBetween in_z (fun θ model a low => ?_) fun θ model b high => ?_).bind ?_
    · exact sum θ model ▸ (h₃.le_of_addEnds in_x in_y model).1 a low
    · exact sum θ model ▸ (h₃.le_of_addEnds in_x in_y model).2 b high
    rintro _ t₄ ⟨h₄, contracts₄, between_z⟩
    refine h₄.domain z fun t₅ h₅ same₅ => ?_
    refine (h₅.reduceBetween in_x (fun θ model a low => ?_) fun θ model b high => ?_).bind ?_
    · have := (le_of_subEnds h₅ h₃ in_z in_y model).1 a low
      have := sum θ model
      omega
    · have := (le_of_subEnds h₅ h₃ in_z in_y model).2 b high
      have := sum θ model
      omega
    rintro _ t₆ ⟨h₆, contracts₆, between_x⟩
    refine h₆.domain x fun t₇ h₇ same₇ => ?_
    refine (h₇.reduceBetween in_y (fun θ model a low => ?_) fun θ model b high => ?_).bind ?_
    · have := (le_of_subEnds h₅ h₇ in_z in_x model).1 a low
      have := sum θ model
      omega
    · have := (le_of_subEnds h₅ h₇ in_z in_x model).2 b high
      have := sum θ model
      omega
    rintro _ t₈ ⟨h₈, contracts₈, between_y⟩
    refine h₈.domain x fun t₉ h₉ same₉ => h₉.domain y fun t' h' same' => h'.domain z fun u hu same'' => ?_
    have last := (same₉.trans same').trans same''
    rw [← (same'.trans same'').peek, ← same''.peek]
    have from₇ : t₇.Contracts u := contracts₈.trans last.contracts
    have from₅ : t₅.Contracts u := contracts₆.trans (same₇.contracts.trans from₇)
    have from₃ : t₃.Contracts u := contracts₄.trans (same₅.contracts.trans from₅)
    dsimp only
    split
    · rename_i rest
      rw [Prod.mk.injEq, Prod.mk.injEq] at rest
      obtain ⟨rest_x, rest_y, rest_z⟩ := rest
      -- No domain has changed in this round, so every reduction has read the ends that are left.
      have z₅ : t₅.peek z = u.peek z :=
        (contracts₄.trans same₅.contracts).peek_between from₅ h₅.tidy hu.tidy rest_z
      have x₇ : t₇.peek x = u.peek x :=
        ((contracts₄.trans same₅.contracts).trans (contracts₆.trans same₇.contracts)).peek_between from₇ h₇.tidy hu.tidy rest_x
      rw [← rest_x, ← rest_y] at between_z
      rw [z₅, ← rest_y] at between_x
      rw [z₅, x₇] at between_y
      refine Narrow.Ensures.pure ⟨hu, hu.tidy.meeting (fun a b low high n mem => ?_) (fun a b low high n mem => ?_)
        fun a b low high n mem => ?_⟩
      · exact between_z a b low high n ((same₅.contracts.trans from₅).mem_peek z n mem)
      · exact between_x a b low high n ((same₇.contracts.trans from₇).mem_peek x n mem)
      · exact between_y a b low high n (last.contracts.mem_peek y n mem)
    · rename_i differ
      have := Running.roomOfThree_lt h₃.tidy.canonical hu.tidy.canonical from₃.mem_peek differ
      have few : Running.roomOfThree x y z t₃ = Running.roomOfThree x y z t := by
        unfold Running.roomOfThree
        rw [same.peek]
      exact ih u hu sum (by omega)

/-- The allowance for a sum is more than its three domains can shrink. -/
theorem Tidy.roomOfThree_lt (tidy : s.Tidy) : Running.roomOfThree x y z s < 3 * Domain.maxChanges + 1 := by
  have := (tidy.canonical x).room_le
  have := (tidy.canonical y).room_le
  have := (tidy.canonical z).room_le
  unfold Running.roomOfThree
  omega

/-- Three variables of which no two are aliased take their values independently. -/
theorem exists_fits_triple (xy : s.sameVar x y = false) (xz : s.sameVar x z = false) (yz : s.sameVar y z = false)
    {a b c : Int} (in_x : a ∈ s.peek x) (in_y : b ∈ s.peek y) (in_z : c ∈ s.peek z)
    (values : isValue a = true ∧ isValue b = true ∧ isValue c = true) :
    ∃ σ, s.Fits [x, y, z] σ ∧ σ x = a ∧ σ y = b ∧ σ z = c := by
  let σ : Assignment := fun v => if v = x then a else if v = y then b else c
  have at_x : σ x = a := if_pos rfl
  have at_y : σ y = b := by
    by_cases same : y = x
    · simp only [σ, if_pos same]
      exact eq_of_apart xy (by rw [same]) in_x in_y
    · simp only [σ, if_neg same, if_true]
  have at_z : σ z = c := by
    by_cases same : z = x
    · simp only [σ, if_pos same]
      exact eq_of_apart xz (by rw [same]) in_x in_z
    · by_cases same' : z = y
      · simp only [σ, if_neg same, if_pos same']
        exact eq_of_apart yz (by rw [same']) in_y in_z
      · simp only [σ, if_neg same, if_neg same']
  refine ⟨σ, ⟨?_, ?_, ?_⟩, at_x, at_y, at_z⟩
  · simp only [List.forall_mem_cons, at_x, at_y, at_z]
    exact ⟨in_x, in_y, in_z, by simp⟩
  · simp only [List.forall_mem_cons, at_x, at_y, at_z]
    exact ⟨values.1, values.2.1, values.2.2, by simp⟩
  · simp only [List.forall_mem_cons, at_x, at_y, at_z]
    refine ⟨⟨fun _ => trivial, fun same => ?_, fun same => ?_, by simp⟩,
      ⟨fun same => ?_, fun _ => trivial, fun same => ?_, by simp⟩,
      ⟨fun same => ?_, fun same => ?_, fun _ => trivial, by simp⟩, by simp⟩
    · exact eq_of_apart xy same in_x in_y
    · exact eq_of_apart xz same in_x in_z
    · exact (eq_of_apart xy same.symm in_x in_y).symm
    · exact eq_of_apart yz same in_y in_z
    · exact (eq_of_apart xz same.symm in_x in_z).symm
    · exact (eq_of_apart yz same.symm in_y in_z).symm

/-- The integers have 64 bits, come from the domains of the three variables, and one of them is
    the sum of the others. -/
structure Sums (s : Solver) (x y z : Var) (a b c : Int) : Prop where
  left : a ∈ s.peek x ∧ isValue a = true
  right : b ∈ s.peek y ∧ isValue b = true
  result : c ∈ s.peek z ∧ isValue c = true
  sum : a + b = c

/-- What narrowing the ends of a sum comes to: its domains meet and no solution of the sum is
    lost, or there is none. It never stops for another reason. -/
def Settles (s : Solver) (x y z : Var) : EStateM.Result Halt Solver Unit → Prop
  | .ok _ t => t.Tidy ∧ s.Contracts t ∧ t.Meeting x y z ∧ ∀ a b c, s.Sums x y z a b c → t.Sums x y z a b c
  | .error .conflict _ => ∀ a b c, ¬s.Sums x y z a b c
  | .error (.stop _) _ => False

/-- The ends of a sum of variables that are not aliased come to rest. Then each of the three
    domains lies between the ends that the other two leave, and no solution is lost. -/
theorem Tidy.narrowEnds_meeting (tidy : s.Tidy) (xy : s.sameVar x y = false) (xz : s.sameVar x z = false)
    (yz : s.sameVar y z = false) :
    s.Settles x y z (Narrow.narrowEnds x y z (3 * Domain.maxChanges + 1) s) := by
  let M : (Var → Term) → Prop := fun θ => s.Fits [x, y, z] (integers θ) ∧ integers θ x + integers θ y = integers θ z
  have reading {a b c : Int} (sums : s.Sums x y z a b c) :
      ∃ θ, M θ ∧ integers θ x = a ∧ integers θ y = b ∧ integers θ z = c := by
    obtain ⟨σ, fits, rfl, rfl, rfl⟩ :=
      exists_fits_triple xy xz yz sums.left.1 sums.right.1 sums.result.1 ⟨sums.left.2, sums.right.2, sums.result.2⟩
    exact ⟨fun v => .int (σ v), ⟨fits, sums.sum⟩, rfl, rfl, rfl⟩
  have trims : s.Trims M [x, y, z] s := .refl tidy fun θ model => model.1
  have ensured := trims.narrowEnds _ s (fun θ model => model.2) tidy.roomOfThree_lt
  have faultless := Narrow.faultless_narrowEnds x y z (3 * Domain.maxChanges + 1) s
  unfold Narrow.Ensures at ensured
  unfold Settles
  split <;> rename_i eq <;> rw [eq] at ensured
  · obtain ⟨ht, meeting⟩ := ensured
    refine ⟨ht.tidy, ht.contracts, meeting, fun a b c sums => ?_⟩
    obtain ⟨θ, model, rfl, rfl, rfl⟩ := reading sums
    have fits := ht.fits θ model
    exact ⟨⟨fits.mem x (by simp), sums.left.2⟩, ⟨fits.mem y (by simp), sums.right.2⟩,
      ⟨fits.mem z (by simp), sums.result.2⟩, sums.sum⟩
  · intro a b c sums
    obtain ⟨θ, model, -⟩ := reading sums
    exact ensured θ model
  · rename_i why t
    cases why with
    | fault why => exact faultless why t eq
    | exhausted => exact ensured

/-- The run came to its end, with a solver that passes the check. -/
def endsWith (check : Solver → Bool) : EStateM.Result Halt Solver Unit → Bool
  | .ok _ t => check t
  | .error _ _ => false

/-- A solver over three unbound variables: 0, 10 or 20 for `_0`, the values from 0 to 3 for `_1`,
    and those from 12 to 30 for `_2`. -/
def stepped : Solver :=
  .new (((Subst.empty.setAttr ⟨0⟩ (.domain ⟨0, ⟨0⟩, .enumerated [0, 10, 20]⟩)).setAttr
    ⟨1⟩ (.domain ⟨1, ⟨1⟩, .interval 0 3⟩)).setAttr ⟨2⟩ (.domain ⟨2, ⟨2⟩, .interval 12 30⟩))

theorem tidy_stepped : stepped.Tidy := by
  refine .new Subst.acyclic_empty (fun v t bound => by cases bound) fun v => ?_
  simp only [Subst.storedDomain_setDomain]
  split
  · simp [Domain.Canonical, minValue, maxValue]
  split
  · simp [Domain.Canonical, minValue, maxValue]
  split
  · exact ⟨by decide, by decide, 5, by decide, ⟨0, by decide, by decide⟩, 10, by decide, by decide⟩
  · trivial

/-- The hole below 10 moves the lower end of `_0` further than the sum asks for. -/
theorem narrowEnds_meeting_stepped : ∃ t, stepped.Tidy ∧ stepped.sameVar ⟨0⟩ ⟨1⟩ = false ∧
    stepped.sameVar ⟨0⟩ ⟨2⟩ = false ∧ stepped.sameVar ⟨1⟩ ⟨2⟩ = false ∧
    Narrow.narrowEnds ⟨0⟩ ⟨1⟩ ⟨2⟩ (3 * Domain.maxChanges + 1) stepped = .ok () t ∧ t.Meeting ⟨0⟩ ⟨1⟩ ⟨2⟩ ∧
    t.peek ⟨0⟩ = .enumerated [10, 20] ∧ t.peek ⟨2⟩ = .interval 12 23 := by
  have xy : stepped.sameVar ⟨0⟩ ⟨1⟩ = false := by decide +kernel
  have xz : stepped.sameVar ⟨0⟩ ⟨2⟩ = false := by decide +kernel
  have yz : stepped.sameVar ⟨1⟩ ⟨2⟩ = false := by decide +kernel
  have ended : endsWith (fun t => t.peek ⟨0⟩ = .enumerated [10, 20] && t.peek ⟨2⟩ = .interval 12 23)
      (Narrow.narrowEnds ⟨0⟩ ⟨1⟩ ⟨2⟩ (3 * Domain.maxChanges + 1) stepped) = true := by decide +kernel
  have settles := @Tidy.narrowEnds_meeting stepped ⟨0⟩ ⟨1⟩ ⟨2⟩ tidy_stepped xy xz yz
  generalize Narrow.narrowEnds ⟨0⟩ ⟨1⟩ ⟨2⟩ (3 * Domain.maxChanges + 1) stepped = r at *
  cases r with
  | ok a t =>
    simp only [endsWith, Bool.and_eq_true, decide_eq_true_eq] at ended
    obtain ⟨at_x, at_z⟩ := ended
    exact ⟨t, tidy_stepped, xy, xz, yz, rfl, settles.2.2.1, at_x, at_z⟩
  | error why t => cases ended

end Solver

end ConstraintLogic
