import ConstraintLogic.Proofs.Query.Direct
import ConstraintLogic.Proofs.Unification.Filed

/-!
# Constraints as goals

The goals over integers are stated between operands, each of them a constant or a
variable, and every combination of the two has its own way: it is decided at once, it
gives a variable its value, or it posts a propagator. Whichever way it goes, the goal
adds just the constraint to what a substitution says.

A constraint is given here over any kind of operands. Over integers it holds or not,
read exactly; over constants and variables it is a goal.

Results:
* `Constraint`, `Constraint.Holds`, `Constraint.goal`: constraints, what they mean and
  what they are as goals.
* `Constraint.attempts`: the goal of a constraint adds just the constraint.
* `Constraint.attempts_conjAll`: the goals of many constraints add all of them.
-/

namespace ConstraintLogic

/-- A constraint between operands. -/
inductive Constraint (α : Type) where
  /-- `x` is a value of the domain. -/
  | dom (x : α) (d : Domain)
  /-- `x` lies between the bounds. -/
  | inRange (x : α) (lb ub : Int)
  /-- `x` is one of the values. -/
  | inSet (x : α) (ns : List Int)
  /-- `x + y = z`. -/
  | plus (x y z : α)
  /-- `x - y = z`. -/
  | minus (x y z : α)
  /-- `c * x = z`. -/
  | times (c : Int) (x z : α)
  /-- `x` and `y` differ. -/
  | neq (x y : α)
  /-- No value occurs twice in the list. -/
  | distinct (xs : List α)

namespace Constraint

variable {α β γ : Type}

/-- The constraint with other operands. -/
def map (f : α → β) : Constraint α → Constraint β
  | dom x d => dom (f x) d
  | inRange x lb ub => inRange (f x) lb ub
  | inSet x ns => inSet (f x) ns
  | plus x y z => plus (f x) (f y) (f z)
  | minus x y z => minus (f x) (f y) (f z)
  | times c x z => times c (f x) (f z)
  | neq x y => neq (f x) (f y)
  | distinct xs => distinct (xs.map f)

/-- The operands of the constraint. -/
def operands : Constraint α → List α
  | dom x _ | inRange x _ _ | inSet x _ => [x]
  | plus x y z | minus x y z => [x, y, z]
  | times _ x z => [x, z]
  | neq x y => [x, y]
  | distinct xs => xs

/-- The constraint holds of integers, read exactly. -/
def Holds : Constraint Int → Prop
  | dom n d => n ∈ d
  | inRange n lb ub => lb ≤ n ∧ n ≤ ub
  | inSet n ns => n ∈ ns
  | plus a b c => a + b = c
  | minus a b c => a - b = c
  | times c a b => c * a = b
  | neq a b => a ≠ b
  | distinct ns => ns.Nodup

/-- The goal that states the constraint. -/
def goal : Constraint Operand → Goal
  | dom x d => .dom x d
  | inRange x lb ub => .inRange x lb ub
  | inSet x ns => .inSet x ns
  | plus x y z => .plus x y z
  | minus x y z => .minus x y z
  | times c x z => .times c x z
  | neq x y => .neq x y
  | distinct xs => .distinct xs

/-- The integers that the constraint has besides its operands have 64 bits, and its
    domain is in its one form. -/
def Proper : Constraint α → Prop
  | dom _ d => d.Canonical
  | inRange _ lb ub => isValue lb = true ∧ isValue ub = true
  | inSet _ ns => ∀ n ∈ ns, isValue n = true
  | times c _ _ => isValue c = true
  | _ => True

/-- The constraint gives the operand a finite domain. -/
def Limits (x : α) : Constraint α → Prop
  | dom y d => y = x ∧ d ≠ .unbounded
  | inRange y _ _ => y = x
  | inSet y _ => y = x
  | _ => False

@[simp] theorem map_map (f : α → β) (g : β → γ) (c : Constraint α) : (c.map f).map g = c.map (g ∘ f) := by
  cases c <;> simp [map]

@[simp] theorem operands_map (f : α → β) (c : Constraint α) : (c.map f).operands = c.operands.map f := by
  cases c <;> simp [map, operands]

@[simp] theorem proper_map (f : α → β) (c : Constraint α) : (c.map f).Proper ↔ c.Proper := by
  cases c <;> rfl

theorem Limits.map {c : Constraint α} {x : α} (h : c.Limits x) (f : α → β) : (c.map f).Limits (f x) := by
  cases c with
  | dom y d => exact ⟨congrArg f h.1, h.2⟩
  | inRange y lb ub => exact congrArg f h
  | inSet y ns => exact congrArg f h
  | _ => exact h

end Constraint

/-! ## Operands -/

/-- The integer that the operand is under a reading. -/
def Operand.read (θ : Var → Term) : Operand → Int
  | .const n => n
  | .var v => (θ v).number

/-- The constant has 64 bits, and the readings that count give the variable an integer. -/
def Operand.Fair (K : Scope) : Operand → Prop
  | .const n => isValue n = true
  | .var v => ∀ θ, K.readings θ → (θ v).IsValue

namespace Subst

/-- Not every integer is left to the variable. -/
def Limited (s : Subst) (v : Var) : Prop := ∃ n, n ∉ s.leaves v

theorem Limited.of_tightens {s t : Subst} {v : Var} (h : s.Limited v) (tightens : s.Tightens t) : t.Limited v := by
  obtain ⟨n, out⟩ := h
  exact ⟨n, fun left => out (tightens v n left)⟩

/-- A substitution that has given out an identity is refined by what refines it then. -/
theorem Refines.of_stamped {K : Scope} {T : Term → Prop} {s t : Subst} {r : Relation} {known : Propagator → Prop}
    (h : (s.stamped r).2.Refines { K with known } T t) (more : ∀ p, K.known p → known p) : s.Refines K T t :=
  ⟨h.good.mono rfl fun p before => .inl (more p before), h.extends_, h.gains, fun v n left => by
    rw [← leaves_congr (s := s) (t := (s.stamped r).2) rfl rfl]
    exact h.tightens v n left⟩

/-- After its domain has been reduced, a variable is left with values of the new one. -/
theorem Orderly.mem_of_solveReduced {K : Scope} {s t : Subst} (h : s.Orderly K) {v : Var} {d : Domain}
    (canonical : d.Canonical) (finite : d ≠ .unbounded) (run : s.solveReduced v d = .ok t) {n : Int}
    (left : n ∈ t.leaves v) : n ∈ d := by
  have poised : (Solver.new s).Poised K [] :=
    ⟨h.steady_new, Agenda.not_waits_empty, by simp⟩
  have narrowed := poised.narrow v canonical finite
  unfold solveReduced Solver.runToSubst EStateM.run at run
  unfold Narrow.Ensures at narrowed
  split at narrowed
  · rename_i u ended
    obtain ⟨poised', _, within, _⟩ := narrowed
    rw [ended] at run
    obtain ⟨t', written, back⟩ := Solver.toSubst?_spec poised'.steady
    cases run.symm.trans written
    exact within n (back.mem_peek poised'.steady left)
  · rename_i ended
    rw [ended] at run
    cases run
  · rename_i ended
    rw [ended] at run
    cases run
  · exact narrowed.elim

end Subst

/-! ## Goals over integers -/

namespace Goal

variable {c : Context} {K : Scope} {s : Subst} (h : s.Orderly K)

include h

theorem attempts_succeed : succeed.Attempts c K (s.Refines K fun _ => True) s fun _ => True :=
  attempts_of_solves (r := .ok s) rfl (.ok (.refl h.inAll) fun _ _ => trivial)

omit h in
theorem attempts_fail {P : Subst → Prop} : fail.Attempts c K P s fun _ => False :=
  attempts_of_solves (r := .error .conflict) rfl (.conflict fun _ _ => id)

theorem attempts_check (b : Bool) :
    (check b).Attempts c K (s.Refines K fun _ => True) s fun _ => b = true := by
  cases b with
  | true => exact (attempts_succeed h).congr fun θ _ _ => by simp
  | false => exact attempts_fail.congr fun θ _ _ => by simp

/-- A variable takes a value of a domain, and is left with none but such values. -/
theorem attempts_narrow {v : Var} {d : Domain} (canonical : d.Canonical)
    (integral : ∀ θ, K.readings θ → (θ v).IsValue) :
    (narrow v d).Attempts c K
      (fun t => s.Refines K (fun _ => True) t ∧ (d ≠ .unbounded → ∀ n ∈ t.leaves v, n ∈ d)) s
      fun θ => (θ v).number ∈ d := by
  have solves := h.inAll.solveAll_refines (fun _ _ => trivial) [.reduce v d] fun r mem => by
    rw [List.mem_singleton.mp mem]
    exact ⟨canonical, fun _ θ reading _ => integral θ reading⟩
  rw [← Subst.solveReduced_eq] at solves
  have narrowed : s.Solves (fun t => s.Refines K (fun _ => True) t ∧ (d ≠ .unbounded → ∀ n ∈ t.leaves v, n ∈ d))
      (fun t θ => K.readings θ ∧ t.Admits θ) Fault.IsOverflow (fun θ => ∀ r ∈ [Request.reduce v d], r.HoldsOf θ)
      (s.solveReduced v d) := by
    cases run : s.solveReduced v d with
    | ok t =>
      rw [run] at solves
      exact ⟨⟨solves.1, fun finite n left => h.mem_of_solveReduced canonical finite run left⟩, solves.2⟩
    | error why =>
      rw [run] at solves
      cases why with
      | conflict => exact solves
      | stop why => cases why <;> exact solves
  refine (attempts_of_solves rfl narrowed).congr fun θ reading _ => ?_
  simp only [List.mem_singleton, forall_eq, Request.HoldsOf]
  exact Domain.holds_iff.trans (and_iff_right (integral θ reading))

/-- A variable takes a value that is given, if it is one of 64 bits. -/
theorem attempts_fix {v : Var} (m : Int) (integral : ∀ θ, K.readings θ → (θ v).IsValue) :
    (fix v (value? m)).Attempts c K (s.Refines K fun _ => True) s fun θ => m = (θ v).number := by
  unfold fix value?
  by_cases value : isValue m = true
  · rw [if_pos value]
    have bounds := (isValue_iff m).mp value
    obtain ⟨r, amounts, solves⟩ := attempts_narrow (c := c) h (v := v) (d := .singleton m)
      ⟨bounds.1, Int.le_refl m, bounds.2⟩ integral
    refine ⟨r, amounts, (solves.mono fun t good => good.1).congr fun θ _ => ?_⟩
    rw [Domain.mem_singleton, eq_comm]
  · rw [if_neg value]
    refine attempts_fail.congr fun θ reading _ => ⟨False.elim, ?_⟩
    rintro rfl
    exact value (integral θ reading).isValue_number

/-- A new constraint is posted for a relation between variables that are integers. -/
theorem attempts_post {r : Relation} (proper : r.Proper)
    (integral : ∀ v ∈ r.vars, ∀ θ, K.readings θ → (θ v).IsValue) :
    (post r).Attempts c K (s.Refines K fun _ => True) s fun θ => r.Holds (integers θ) := by
  have stamped := h.stamp proper fun v mem θ reading _ => integral v mem θ reading
  have solves := stamped.inAll.solveAll_refines (fun _ _ => trivial) [.post (s.stamped r).1] fun q mem => by
    rw [List.mem_singleton.mp mem]
    exact .inr rfl
  have run := (s.stamped r).2.solveWith_eq [(s.stamped r).1]
  rw [List.map_singleton] at run
  rw [← run] at solves
  refine attempts_of_solves (r := (s.stamped r).2.solveWith [(s.stamped r).1]) rfl ?_
  refine (solves.mono fun t good => good.of_stamped fun p => .inl).rebase (fun _ _ => id) fun θ => ?_
  show (K.readings θ ∧ (s.stamped r).2.Admits θ) ∧ _ ↔ (K.readings θ ∧ s.Admits θ) ∧ _
  rw [Subst.admits_congr (s := s) (t := (s.stamped r).2) rfl rfl]
  refine and_congr_right fun admitted => ?_
  simp only [List.mem_singleton, forall_eq, Request.HoldsOf]
  exact Relation.holdsOf_iff.trans (and_iff_right fun v mem => integral v mem θ admitted.1)

/-- Of a variable with a finite domain not every value is left. -/
theorem attempts_dom {x : Operand} {d : Domain} (canonical : d.Canonical) (fair : x.Fair K) :
    (dom x d).Attempts c K
      (fun t => s.Refines K (fun _ => True) t ∧ ∀ v, x = .var v → d ≠ .unbounded → t.Limited v) s
      fun θ => x.read θ ∈ d := by
  cases x with
  | const n => exact (attempts_check h (d.contains n)).mono fun t refines => ⟨refines, by simp⟩
  | var v =>
    show Attempts c K _ s _ (if d.isEmpty then fail else narrow v d)
    split
    · rename_i none
      refine attempts_fail.congr fun θ _ _ => iff_of_false id fun mem => ?_
      cases d with
      | empty => exact Domain.not_mem_empty _ mem
      | _ => cases none
    · refine (attempts_narrow h canonical fair).mono fun t narrowed => ⟨narrowed.1, fun w same finite => ?_⟩
      cases same
      obtain ⟨n, out⟩ := canonical.not_all finite
      exact ⟨n, fun left => out (narrowed.2 finite n left)⟩

theorem attempts_plus {x y z : Operand} (fair_x : x.Fair K) (fair_y : y.Fair K) (fair_z : z.Fair K) :
    (plus x y z).Attempts c K (s.Refines K fun _ => True) s fun θ => x.read θ + y.read θ = z.read θ := by
  cases x with
  | const a =>
    cases y with
    | const b =>
      cases z with
      | const n =>
        refine (attempts_check h (value? (a + b) = some n)).congr fun θ _ _ => ?_
        rw [decide_eq_true_iff, value?_eq_some_iff]
        exact ⟨And.right, fun same => ⟨same ▸ fair_z, same⟩⟩
      | var z => exact attempts_fix h (a + b) fair_z
    | var y =>
      cases z with
      | const n =>
        refine (attempts_fix h (n - a) fair_y).congr fun θ _ _ => ?_
        simp only [Operand.read]
        omega
      | var z =>
        refine (attempts_post h (r := .plusConst y a z) fair_x ?_).congr fun θ _ _ => ?_
        · simpa [Relation.vars] using ⟨fair_y, fair_z⟩
        · show (θ y).number + a = (θ z).number ↔ a + (θ y).number = (θ z).number
          rw [Int.add_comm]
  | var x =>
    cases y with
    | const b =>
      cases z with
      | const n =>
        refine (attempts_fix h (n - b) fair_x).congr fun θ _ _ => ?_
        simp only [Operand.read]
        omega
      | var z =>
        refine attempts_post h (r := .plusConst x b z) fair_y ?_
        simpa [Relation.vars] using ⟨fair_x, fair_z⟩
    | var y =>
      cases z with
      | const n =>
        refine attempts_post h (r := .sumConst x y n) fair_z ?_
        simpa [Relation.vars] using ⟨fair_x, fair_y⟩
      | var z =>
        refine attempts_post h (r := .sum x y z) trivial ?_
        simpa [Relation.vars] using ⟨fair_x, fair_y, fair_z⟩

theorem attempts_times {m : Int} {x z : Operand} (value : isValue m = true) (fair_x : x.Fair K)
    (fair_z : z.Fair K) :
    (times m x z).Attempts c K (s.Refines K fun _ => True) s fun θ => m * x.read θ = z.read θ := by
  cases x with
  | const a =>
    cases z with
    | const b =>
      refine (attempts_check h (value? (m * a) = some b)).congr fun θ _ _ => ?_
      rw [decide_eq_true_iff, value?_eq_some_iff]
      exact ⟨And.right, fun same => ⟨same ▸ fair_z, same⟩⟩
    | var z => exact attempts_fix h (m * a) fair_z
  | var x =>
    cases z with
    | const b =>
      show Attempts c K _ s _
        (if m = 0 then check (b = 0) else if Int.tmod b m = 0 then fix x (value? (Int.tdiv b m)) else fail)
      split
      · rename_i zero
        refine (attempts_check h (b = 0)).congr fun θ _ _ => ?_
        simp [Operand.read, zero, eq_comm]
      · rename_i nonzero
        split
        · rename_i divides
          refine (attempts_fix h (Int.tdiv b m) fair_x).congr fun θ _ _ => ?_
          have whole : m * Int.tdiv b m = b := Int.mul_tdiv_cancel_of_tmod_eq_zero divides
          show Int.tdiv b m = (θ x).number ↔ m * (θ x).number = b
          refine ⟨fun same => same ▸ whole, fun same => ?_⟩
          exact Int.eq_of_mul_eq_mul_left nonzero (whole.trans same.symm)
        · rename_i remainder
          refine attempts_fail.congr fun θ _ _ => iff_of_false id fun same => remainder ?_
          exact Int.tmod_eq_zero_of_dvd ⟨(θ x).number, same.symm⟩
    | var z =>
      refine attempts_post h (r := .scale m x z) value ?_
      simpa [Relation.vars] using ⟨fair_x, fair_z⟩

omit h in
theorem allDistinct_iff (ns : List Int) : allDistinct ns = true ↔ ns.Nodup := by
  induction ns with
  | nil => simp [allDistinct]
  | cons n ns ih => simp [allDistinct, ih]

omit h in
/-- The variables first and then the constants are the operands in another order. -/
theorem perm_operands (θ : Var → Term) (xs : List Operand) :
    ((operandVars xs).map (integers θ) ++ operandConsts xs).Perm (xs.map (Operand.read θ)) := by
  induction xs with
  | nil => exact .nil
  | cons x xs ih =>
    cases x with
    | const n => exact List.perm_middle.trans (ih.cons n)
    | var v => exact ih.cons (θ v).number

omit h in
theorem mem_operandVars {xs : List Operand} {v : Var} : v ∈ operandVars xs ↔ Operand.var v ∈ xs := by
  unfold operandVars
  rw [List.mem_filterMap]
  constructor
  · rintro ⟨x, mem, found⟩
    cases x with
    | const n => cases found
    | var w =>
      cases found
      exact mem
  · exact fun mem => ⟨_, mem, rfl⟩

omit h in
theorem mem_operandConsts {xs : List Operand} {n : Int} : n ∈ operandConsts xs ↔ Operand.const n ∈ xs := by
  unfold operandConsts
  rw [List.mem_filterMap]
  constructor
  · rintro ⟨x, mem, found⟩
    cases x with
    | const m =>
      cases found
      exact mem
    | var v => cases found
  · exact fun mem => ⟨_, mem, rfl⟩

theorem attempts_distinct {xs : List Operand} (fair : ∀ x ∈ xs, x.Fair K) :
    (distinct xs).Attempts c K (s.Refines K fun _ => True) s fun θ => (xs.map (Operand.read θ)).Nodup := by
  show Attempts c K _ s _ (if (operandVars xs).isEmpty then check (allDistinct (operandConsts xs))
    else post (.allDifferent (operandVars xs) (operandConsts xs)))
  split
  · rename_i none
    refine (attempts_check h _).congr fun θ _ _ => ?_
    rw [allDistinct_iff, ← (perm_operands θ xs).nodup_iff, List.isEmpty_iff.mp none]
    rfl
  · refine (attempts_post h (r := .allDifferent (operandVars xs) (operandConsts xs)) ?_ ?_).congr fun θ _ _ => ?_
    · exact fun n mem => fair _ (mem_operandConsts.mp mem)
    · exact fun v mem => fair _ (mem_operandVars.mp mem)
    · exact (perm_operands θ xs).nodup_iff

end Goal

/-! ## Constraints -/

namespace Constraint

variable {c : Context} {K : Scope} {s : Subst}

/-- A goal that leaves an operand with the values of a domain, as a constraint. -/
theorem attempts_of_dom (h : s.Orderly K) {k : Constraint Operand} {x : Operand} {d : Domain}
    (stated : k.goal = Goal.dom x d) (canonical : d.Canonical) (fair : x.Fair K)
    (limits : ∀ v, k.Limits (.var v) → x = .var v ∧ d ≠ .unbounded)
    (holds : ∀ θ, x.read θ ∈ d ↔ (k.map (Operand.read θ)).Holds) :
    k.goal.Attempts c K
      (fun t => s.Refines K (fun _ => True) t ∧ ∀ v, k.Limits (.var v) → t.Limited v) s
      fun θ => (k.map (Operand.read θ)).Holds := by
  rw [stated]
  refine ((Goal.attempts_dom h canonical fair).mono fun t good => ?_).congr fun θ _ _ => holds θ
  exact ⟨good.1, fun v limited => good.2 v (limits v limited).1 (limits v limited).2⟩

/-- A goal that may leave any value to its variables, as a constraint. -/
theorem attempts_of_unlimited {k : Constraint Operand} {E : (Var → Term) → Prop}
    (attempts : k.goal.Attempts c K (s.Refines K fun _ => True) s E) (none : ∀ v, ¬k.Limits (.var v))
    (holds : ∀ θ, E θ ↔ (k.map (Operand.read θ)).Holds) :
    k.goal.Attempts c K
      (fun t => s.Refines K (fun _ => True) t ∧ ∀ v, k.Limits (.var v) → t.Limited v) s
      fun θ => (k.map (Operand.read θ)).Holds :=
  (attempts.mono fun _ good => ⟨good, fun v limits => absurd limits (none v)⟩).congr fun θ _ _ => holds θ

/-- The goal of a constraint has at most one answer, which adds just the constraint. Of the
    variables to which the constraint gives a finite domain not every value is left. -/
theorem attempts (h : s.Orderly K) {k : Constraint Operand} (proper : k.Proper)
    (fair : ∀ x ∈ k.operands, x.Fair K) :
    k.goal.Attempts c K
      (fun t => s.Refines K (fun _ => True) t ∧ ∀ v, k.Limits (.var v) → t.Limited v) s
      fun θ => (k.map (Operand.read θ)).Holds := by
  cases k with
  | dom x d => exact attempts_of_dom h rfl proper (fair x (by simp [operands])) (fun _ => id) fun _ => Iff.rfl
  | inRange x lb ub =>
    have canonical := Domain.canonical_range ((isValue_iff lb).mp proper.1).1 ((isValue_iff ub).mp proper.2).2
    refine attempts_of_dom h rfl canonical (fair x (by simp [operands])) (fun v limits => ?_) fun _ => Domain.mem_range
    exact ⟨limits, Domain.range_ne_unbounded lb ub⟩
  | inSet x ns =>
    have canonical := Domain.canonical_values proper
    refine attempts_of_dom h rfl canonical (fair x (by simp [operands])) (fun v limits => ?_) fun _ => Domain.mem_values
    exact ⟨limits, Domain.values_ne_unbounded ns⟩
  | plus x y z =>
    have attempts := Goal.attempts_plus (c := c) h (fair x (by simp [operands])) (fair y (by simp [operands]))
      (fair z (by simp [operands]))
    exact attempts_of_unlimited attempts (fun _ => id) fun _ => Iff.rfl
  | minus x y z =>
    have attempts := Goal.attempts_plus (c := c) h (fair y (by simp [operands])) (fair z (by simp [operands]))
      (fair x (by simp [operands]))
    refine attempts_of_unlimited attempts (fun _ => id) fun θ => ?_
    show y.read θ + z.read θ = x.read θ ↔ x.read θ - y.read θ = z.read θ
    omega
  | times m x z =>
    have attempts := Goal.attempts_times (c := c) h proper (fair x (by simp [operands])) (fair z (by simp [operands]))
    exact attempts_of_unlimited attempts (fun _ => id) fun _ => Iff.rfl
  | neq x y =>
    have fair' : ∀ u ∈ [x, y], u.Fair K := fair
    refine attempts_of_unlimited (Goal.attempts_distinct h fair') (fun _ => id) fun θ => ?_
    show [x.read θ, y.read θ].Nodup ↔ x.read θ ≠ y.read θ
    simp
  | distinct xs => exact attempts_of_unlimited (Goal.attempts_distinct h fair) (fun _ => id) fun _ => Iff.rfl

/-- The goals of constraints, one after another, add all of the constraints. -/
theorem attempts_conjAll (ks : List (Constraint Operand)) : ∀ s : Subst, s.Orderly K →
    (∀ k ∈ ks, k.Proper ∧ ∀ x ∈ k.operands, x.Fair K) →
    (Goal.conjAll (ks.map goal)).Attempts c K
      (fun t => s.Refines K (fun _ => True) t ∧ ∀ k ∈ ks, ∀ v, k.Limits (.var v) → t.Limited v) s
      fun θ => ∀ k ∈ ks, (k.map (Operand.read θ)).Holds := by
  induction ks with
  | nil => exact fun s h _ => ((Goal.attempts_succeed h).mono fun t good => ⟨good, by simp⟩).congr fun θ _ _ => by simp
  | cons k ks ih =>
    intro s h fair
    have first := attempts (c := c) h (fair k (by simp)).1 (fair k (by simp)).2
    cases ks with
    | nil => exact (first.mono fun t good => ⟨good.1, by simpa using good.2⟩).congr fun θ _ _ => by simp
    | cons k' ks =>
      have rest (t : Subst) (good : s.Refines K (fun _ => True) t) :=
        ih t good.good.orderly fun k mem => fair k (by simp [mem])
      have both := first.conj fun t good => (rest t good.1).mono fun u good' =>
        show s.Refines K (fun _ => True) u ∧ ∀ l ∈ k :: k' :: ks, ∀ v, l.Limits (.var v) → u.Limited v by
          refine ⟨good.1.trans good'.1, List.forall_mem_cons.mpr ⟨fun v limits => ?_, good'.2⟩⟩
          exact (good.2 v limits).of_tightens good'.1.tightens
      exact both.congr fun θ _ _ => by simp only [List.forall_mem_cons]

end Constraint

end ConstraintLogic
