import ConstraintLogic.Proofs.Constraint.ZeroProduct
import ConstraintLogic.Proofs.Search.Stops

/-!
# Binding a variable before or after a constraint

A variable of a constraint may be bound to a term that is no integer before the constraint
is posted or after it, and mostly this comes to the same. Before, the run of the posted
propagator ends in a conflict at the variable; after, the domain or the propagators that
it was given refuse the term. It makes a difference where the constraint is dropped at
once, as `x + 0 = x` is, so that nothing is left to refuse the term.

Results:
* `Goal.Asks`, `Goal.attempt`: what a constraint is stated as, and what it attempts.
* `Subst.Notices`, `Subst.Informs.detects`: a run looks at a term that is no integer.
* `Subst.Heeds`, `Subst.Drops`: the relations that notice the term wherever it matters,
  and those that are dropped without a trace on the variable.
* `Subst.Orderly.alike`: the attempts in both orders.
* `Subst.Produced.bind_constraint`: a variable is bound before or after a constraint.
-/

namespace ConstraintLogic

/-! ## Constraints as attempts -/

/-- The constraint relates its operands, as arithmetic and difference do. -/
def Constraint.Relates {α : Type} : Constraint α → Prop
  | dom _ _ | inRange _ _ _ | inSet _ _ => False
  | _ => True

namespace Goal

/-- What a constraint with the variable as an operand is stated as: it is decided at once,
    gives the variable its value, or posts a relation that mentions it. -/
inductive Asks (x : Var) : Goal → Prop
  | fails : Asks x .fail
  | holds : Asks x .succeed
  | takes {n : Int} (value : isValue n = true) : Asks x (.narrow x (.singleton n))
  | posts {r : Relation} (proper : r.Proper) (mem : x ∈ r.vars) : Asks x (.post r)

/-- The attempt that a constraint makes. -/
def attempt : Goal → Subst → Attempt Subst
  | succeed, s => .ok s
  | narrow v d, s => s.solveReduced v d
  | post r, s => (s.stamped r).2.solveWith [(s.stamped r).1]
  | _, _ => .error .conflict

variable {g : Goal} {x : Var} {c : Context} {s : Subst}

theorem Asks.amounts (asks : g.Asks x) : Answers.Amounts c.interp (g.apply c s) (g.attempt s) := by
  have same : g.apply c s = Answers.ofAttempt (g.attempt s) := by cases asks <;> rfl
  rw [same]
  exact Answers.amounts_ofAttempt c.interp _

/-- The attempts in either order of the constraint and an equation. -/
theorem Asks.amounts_conj {a : Term} (asks : g.Asks x) :
    Answers.Amounts c.interp ((conj (.eq (.var x) a) g).apply c s) (s.unify (.var x) a >>= g.attempt) ∧
      Answers.Amounts c.interp ((conj g (.eq (.var x) a)).apply c s) (g.attempt s >>= fun t => t.unify (.var x) a) := by
  have equation (t : Subst) : Answers.Amounts c.interp ((Goal.eq (.var x) a).apply c t) (t.unify (.var x) a) :=
    Answers.amounts_ofAttempt c.interp _
  exact ⟨(equation s).conj fun _ _ => asks.amounts, asks.amounts.conj fun t _ => equation t⟩

theorem asks_check (b : Bool) : (check b).Asks x := by
  cases b
  · exact .fails
  · exact .holds

theorem asks_fix (m : Int) : (fix x (value? m)).Asks x := by
  unfold fix value?
  by_cases value : isValue m = true
  · rw [if_pos value]
    exact .takes value
  · rw [if_neg value]
    exact .fails

theorem asks_plus {x y z : Operand} {v : Var} (values : ∀ n, .const n ∈ [x, y, z] → isValue n = true)
    (mem : .var v ∈ [x, y, z]) : (plus x y z).Asks v := by
  cases x with
  | const a =>
    have value_a := values a (by simp)
    cases y with
    | const b =>
      cases z with
      | const n => exact asks_check _
      | var z =>
        obtain rfl : v = z := by simpa using mem
        exact asks_fix _
    | var y =>
      cases z with
      | const n =>
        obtain rfl : v = y := by simpa using mem
        exact asks_fix _
      | var z => exact .posts value_a (by simpa [Relation.vars] using mem)
  | var x =>
    cases y with
    | const b =>
      cases z with
      | const n =>
        obtain rfl : v = x := by simpa using mem
        exact asks_fix _
      | var z => exact .posts (values b (by simp)) (by simpa [Relation.vars] using mem)
    | var y =>
      cases z with
      | const n => exact .posts (values n (by simp)) (by simpa [Relation.vars] using mem)
      | var z => exact .posts trivial (by simpa [Relation.vars] using mem)

theorem asks_times {m : Int} {x z : Operand} {v : Var} (value : isValue m = true) (mem : .var v ∈ [x, z]) :
    (times m x z).Asks v := by
  cases x with
  | const a =>
    cases z with
    | const b => exact asks_check _
    | var z =>
      obtain rfl : v = z := by simpa using mem
      exact asks_fix _
  | var x =>
    cases z with
    | const b =>
      obtain rfl : v = x := by simpa using mem
      show (if m = 0 then check (b = 0)
        else if Int.tmod b m = 0 then fix v (value? (Int.tdiv b m)) else fail).Asks v
      split
      · exact asks_check _
      split
      · exact asks_fix _
      · exact .fails
    | var z => exact .posts value (by simpa [Relation.vars] using mem)

theorem asks_distinct {xs : List Operand} {v : Var} (values : ∀ n, .const n ∈ xs → isValue n = true)
    (mem : .var v ∈ xs) : (distinct xs).Asks v := by
  have named := mem_operandVars.mpr mem
  show (if (operandVars xs).isEmpty then check (allDistinct (operandConsts xs))
    else post (.allDifferent (operandVars xs) (operandConsts xs))).Asks v
  rw [if_neg fun none => by simp [List.isEmpty_iff.mp none] at named]
  exact .posts (fun n mem => values n (mem_operandConsts.mp mem)) named

end Goal

/-- A constraint that relates its operands is stated as one of these goals. -/
theorem Constraint.asks {k : Constraint Operand} {v : Var} (relates : k.Relates) (proper : k.Proper)
    (values : ∀ n, .const n ∈ k.operands → isValue n = true) (mem : .var v ∈ k.operands) : k.goal.Asks v := by
  cases k with
  | plus x y z => exact Goal.asks_plus values mem
  | minus x y z =>
    have values' (n : Int) (mem : .const n ∈ [y, z, x]) : isValue n = true :=
      values n (by simpa [operands, or_comm, or_left_comm] using mem)
    exact Goal.asks_plus values' (by simpa [operands, or_comm, or_left_comm] using mem)
  | times m x z => exact Goal.asks_times proper mem
  | neq x y => exact Goal.asks_distinct values mem
  | distinct xs => exact Goal.asks_distinct values mem
  | _ => exact relates.elim

/-! ## Attempts that come to the same -/

namespace Attempt

/-- One of the attempts is stopped, or both succeed, or none does. -/
def Alike (r r' : Attempt Subst) : Prop :=
  (∃ why, r = .error (.stop why)) ∨ (∃ why, r' = .error (.stop why)) ∨
    (r = .error .conflict ∧ r' = .error .conflict) ∨ ∃ t u, r = .ok t ∧ r' = .ok u

variable {r r' : Attempt Subst}

theorem alike_refl (r : Attempt Subst) : Alike r r := by
  match r with
  | .ok t => exact .inr (.inr (.inr ⟨t, t, rfl, rfl⟩))
  | .error .conflict => exact .inr (.inr (.inl ⟨rfl, rfl⟩))
  | .error (.stop why) => exact .inl ⟨why, rfl⟩

/-- Attempts of which none succeeds come to the same. -/
theorem alike_of_not_ok (fails : ∀ t, r ≠ .ok t) (fails' : ∀ t, r' ≠ .ok t) : Alike r r' := by
  cases r with
  | ok t => exact absurd rfl (fails t)
  | error why =>
    cases why with
    | stop why => exact .inl ⟨why, rfl⟩
    | conflict =>
      cases r' with
      | ok t => exact absurd rfl (fails' t)
      | error why' =>
        cases why' with
        | stop why' => exact .inr (.inl ⟨why', rfl⟩)
        | conflict => exact .inr (.inr (.inl ⟨rfl, rfl⟩))

/-- Where only the second attempt may succeed, it does so unless they come to the same. -/
theorem alike_or_succeeds (fails : ∀ t, r ≠ .ok t) : Alike r r' ∨ r = .error .conflict ∧ ∃ u, r' = .ok u := by
  by_cases succeeds : ∃ u, r' = .ok u
  · cases r with
    | ok t => exact absurd rfl (fails t)
    | error why =>
      cases why with
      | stop why => exact .inl (.inl ⟨why, rfl⟩)
      | conflict => exact .inr ⟨rfl, succeeds⟩
  · exact .inl (alike_of_not_ok fails fun u same => succeeds ⟨u, same⟩)

theorem bind_ne_ok {f : Subst → Attempt Subst} (fails : ∀ t, r = .ok t → ∀ u, f t ≠ .ok u) (u : Subst) :
    (r >>= f) ≠ .ok u := by
  intro run
  obtain ⟨t, first, rest⟩ := exists_of_bind_ok run
  exact fails t first u rest

end Attempt

/-! ## Terms that are noticed -/

namespace Subst

variable {K : Scope} {s t u : Subst} {g : Goal} {r : Relation} {v w x : Var} {a : Term}

/-- Should the variable stand for a term that is no integer, a run for the relation notices
    it. A product of zero looks at its result only. A sum looks at all of its variables if
    one of them is an integer, if the other two are one variable, or if none but the
    variable itself may have any value. -/
def Notices (s : Subst) (x : Var) : Relation → Prop
  | .scale c _ z => c ≠ 0 ∨ s.walk (.var z) = s.walk (.var x)
  | .sum a b z => (∃ v ∈ [a, b, z], ∃ n, s.walk (.var v) = .int n) ∨
      (x = a ∧ s.Alias b z ∨ x = b ∧ s.Alias a z ∨ x = z ∧ s.Alias a b) ∨
      ∀ v ∈ [a, b, z], s.Alias x v ∨ s.Limited v
  | _ => True

/-- What stands for a term that is neither a variable nor an integer goes on to do so. -/
theorem Extends.other (ext : s.Extends t) (acyclic : t.Acyclic) (other : (Solver.new s).resolve v = .other) :
    (Solver.new t).resolve v = .other := by
  rw [Solver.resolve_of_extends (s := Solver.new s) (t := Solver.new t) acyclic ext v, other]

/-- A variable to which not every integer is left goes on to be one. -/
theorem Informs.limited (h : s.Informs t) (before : s.Orderly K) (after : t.Orderly K) (limited : s.Limited v) :
    t.Limited v := by
  obtain ⟨n, out⟩ := limited
  by_cases other : (Solver.new s).resolve v = .other
  · refine ⟨n, ?_⟩
    rw [leaves, Solver.peek_of_other (h.extends_.other after.acyclic other)]
    exact Domain.not_mem_empty n
  · have within : s.Within v (s.leaves v) := before.within_iff.mpr ⟨other, ⟨n, out⟩, fun _ mem => mem⟩
    exact (after.within_iff.mp (h.within v _ within)).2.1

/-- Where more is known and the variable stands for another term, a run looks at it. -/
theorem Informs.detects (h : s.Informs t) (before : s.Orderly K) (after : t.Orderly K) (mem : x ∈ r.vars)
    (other : (Solver.new t).resolve x = .other) (notices : s.Notices x r) : (Solver.new t).Detects r := by
  have walks (v : Var) : t.walk (s.walk (.var v)) = t.walk (.var v) := after.acyclic.walk_walk h.extends_ (.var v)
  have alike {v w : Var} (same : s.walk (.var v) = s.walk (.var w)) :
      (Solver.new t).resolve v = (Solver.new t).resolve w := by
    have same' : t.walk (.var v) = t.walk (.var w) := by rw [← walks v, ← walks w, same]
    simp only [Solver.resolve, Solver.new, same']
  have of_alias {v w : Var} (same : s.Alias v w) : (Solver.new t).resolve v = (Solver.new t).resolve w := by
    obtain ⟨u, at_v, at_w⟩ := same
    exact alike (at_v.trans at_w.symm)
  cases r with
  | scale c a z => exact notices.imp_right fun same => (alike same).trans other
  | sum a b z =>
    -- Two variables that were one are one unbound variable, one integer or one other term.
    have one {v w : Var} (mem : v ∈ [a, b, z]) (same : s.Alias v w) :
        (Solver.new t).resolve v = .other ∨ (∃ v ∈ [a, b, z], ∃ n, (Solver.new t).resolve v = .value n) ∨
          (Solver.new t).sameVar v w = true := by
      have same' := of_alias same
      cases found : (Solver.new t).resolve v with
      | other => exact .inl rfl
      | value n => exact .inr (.inl ⟨v, mem, n, found⟩)
      | free u => exact .inr (.inr (Solver.sameVar_iff.mpr ⟨u, found, same' ▸ found⟩))
    have empty {v : Var} (other : (Solver.new t).resolve v = .other) : (Solver.new t).peek v ≠ .unbounded := by
      rw [Solver.peek_of_other other]
      exact Domain.noConfusion
    have all (others : ∀ v ∈ [a, b, z], (Solver.new t).resolve v = .other) : (Solver.new t).Detects (.sum a b z) :=
      .inr (.inr fun v mem => empty (others v mem))
    rcases notices with ⟨v, mem, n, value⟩ | (⟨rfl, same⟩ | ⟨rfl, same⟩ | ⟨rfl, same⟩) | limited
    · refine .inl ⟨v, mem, n, Solver.resolve_eq_value_iff.mpr ?_⟩
      show t.walk (.var v) = .int n
      rw [← walks v, value]
      exact walk_of_not_var (by simp [Term.int])
    · rcases one (by simp) same with other' | value | alike
      · exact all (by simpa using ⟨other, other', of_alias same ▸ other'⟩)
      · exact .inl value
      · exact .inr (.inl (.inr (.inr alike)))
    · rcases one (by simp) same with other' | value | alike
      · exact all (by simpa using ⟨other', other, of_alias same ▸ other'⟩)
      · exact .inl value
      · exact .inr (.inl (.inr (.inl alike)))
    · rcases one (by simp) same with other' | value | alike
      · exact all (by simpa using ⟨other', of_alias same ▸ other', other⟩)
      · exact .inl value
      · exact .inr (.inl (.inl alike))
    · refine .inr (.inr fun v mem => ?_)
      rcases limited v mem with same | limited
      · exact empty (of_alias same ▸ other)
      · obtain ⟨n, out⟩ := h.limited before after limited
        intro full
        rw [leaves, full] at out
        exact out (Domain.mem_unbounded n)
  | _ => trivial

/-! ## Either order -/

theorem detects_stamped {q : Relation} :
    (Solver.new (s.stamped r).2).Detects q ↔ (Solver.new s).Detects q := by
  have resolve := resolve_stamped s r
  have peek (v : Var) : (Solver.new (s.stamped r).2).peek v = (Solver.new s).peek v :=
    leaves_congr (s := s) (t := (s.stamped r).2) rfl rfl
  cases q <;> simp only [Solver.Detects, Solver.sameVar, resolve, peek]

section Either

variable {known : Propagator → Prop} (h : s.Orderly (.ints known)) (asks : g.Asks x)

include h asks

/-- Where the variable stands for a term that is no integer, a constraint does not succeed
    unless it says nothing of the variable. -/
theorem Orderly.attempt_ne_ok (other : (Solver.new s).resolve x = .other) (tells : g ≠ .succeed)
    (detects : ∀ r, g = .post r → x ∈ r.vars → (Solver.new s).Detects r) : g.attempt s ≠ .ok t := by
  cases asks with
  | fails => exact nofun
  | holds => exact absurd rfl tells
  | takes value =>
    intro run
    have within := h.within_solveReduced (Solver.canonical_singleton value) Domain.noConfusion run
    have informs := h.inAll.informs_solveReduced (fun _ _ => trivial) (Solver.canonical_singleton value)
      (fun full => by cases full) run
    have good := good_of_solves (h.inAll.solveReduced (fun _ _ => trivial) (Solver.canonical_singleton value)
      fun full => by cases full) run
    exact (good.orderly.within_iff.mp within).1 (informs.extends_.other good.orderly.acyclic other)
  | @posts r proper mem =>
    have stamped := h.stamp proper fun v _ => integral_ints v
    have same := resolve_stamped s r
    exact stamped.refuses (.inr rfl) mem (same ▸ other) (detects_stamped.mpr (detects r rfl mem))

/-- A constraint leaves a variable an integer that is known to be one. It makes one of a
    variable that it says something of. -/
theorem Orderly.numeric_attempt (complete : s.Complete) (proper : (Solver.new s).resolve x ≠ .other)
    (engaged : s.Numeric x ∨ g ≠ .succeed ∧ ∀ r, g = .post r → ¬s.Spares x r) (run : g.attempt s = .ok t) :
    t.Numeric x := by
  cases asks with
  | fails => cases run
  | holds =>
    cases run
    exact engaged.resolve_right fun tells => tells.1 rfl
  | takes value => exact h.numeric_solveReduced (Solver.canonical_singleton value) Domain.noConfusion run
  | @posts r proper_r mem =>
    have stamped := h.stamp proper_r fun v _ => integral_ints v
    refine stamped.numeric_solveWith (complete.congr rfl rfl) (.inr rfl) (resolve_stamped s r ▸ proper) ?_ run
    refine engaged.imp (fun numeric => numeric.congr rfl rfl) fun unspared => ⟨mem, fun spares => ?_⟩
    exact unspared.2 r rfl (spares.congr rfl)

omit asks in
/-- A constraint that is not stopped refines the substitution. -/
theorem Orderly.refines_attempt (asks : g.Asks x) (run : g.attempt s = .ok t) :
    s.Refines (.ints known) (fun _ => True) t := by
  cases asks with
  | fails => cases run
  | holds =>
    cases run
    exact .refl h.inAll
  | takes value =>
    have solves := h.inAll.solveAll_refines (fun _ _ => trivial) [.reduce x (.singleton _)] fun r mem => by
      rw [List.mem_singleton.mp mem]
      exact ⟨Solver.canonical_singleton value, fun full => by cases full⟩
    rw [← solveReduced_eq] at solves
    exact good_of_solves solves run
  | @posts r proper mem =>
    have stamped := h.stamp proper fun v _ => integral_ints v
    have solves := stamped.inAll.solveAll_refines (fun _ _ => trivial) [.post (s.stamped r).1] fun q mem => by
      rw [List.mem_singleton.mp mem]
      exact .inr rfl
    have eq := (s.stamped r).2.solveWith_eq [(s.stamped r).1]
    rw [List.map_singleton] at eq
    rw [← eq] at solves
    exact (good_of_solves solves run).of_stamped fun p => .inl

end Either

/-! ## Variables without attributes -/

/-- An unbound variable without attributes is bound to a term that it does not occur in. -/
theorem unify_bare (leads : s.walk (.var x) = .var w) (bare : s.attributes w = {}) (not_var : ∀ u, a ≠ .var u) :
    s.unify (.var x) a = if s.occurs w a = true then .error .conflict else .ok (s.bindBare w a) := by
  have none : (s.attributes w).toList = [] := by rw [bare]; rfl
  rw [unify_var_eq (by simp [leads]), leads, walk_of_not_var not_var, unifyEnds_var not_var, Subst.instantiate]
  simp only [none]
  rfl

/-- A variable that was made another term stands for it. -/
theorem Orderly.other_of_unify (h : s.Orderly K) (leads : s.walk (.var x) = .var w) (bare : s.attributes w = {})
    (not_var : ∀ u, a ≠ .var u) (no_int : a.asInt? = none) (unified : s.unify (.var x) a = .ok t) :
    (Solver.new t).resolve x = .other := by
  rw [unify_bare leads bare not_var] at unified
  split at unified
  · cases unified
  rename_i fresh
  cases unified
  have walks : (s.bindBare w a).walk (.var x) = a := by
    rw [walk_bindBare h.acyclic (h.acyclic.get?_of_walk leads) (by simpa using fresh), if_pos leads,
      walk_of_not_var not_var]
  exact Solver.resolve_eq_other walks not_var no_int

/-- The occurs check comes to the same for a variable that remains unbound. -/
theorem Refines.occurs {T : Term → Prop} (refines : s.Refines K T t) (acyclic : s.Acyclic) (unbound : t.get? w = none) :
    t.occurs w a = s.occurs w a := by
  have acyclic_t := refines.good.orderly.acyclic
  have deep : t.walkDeep a = (s.walkDeep a).expand (t.image t.size) :=
    ((acyclic_t.agrees_image.of_extends refines.extends_).expand_walkDeep a).symm
  rw [Bool.eq_iff_iff, occurs_iff, occurs_iff, deep, Term.mem_vars_expand]
  constructor
  · rintro ⟨v, mem, read⟩
    have unbound_v : s.get? v = none := by
      rw [walkDeep, Term.mem_vars_expand] at mem
      obtain ⟨_, _, mem⟩ := mem
      exact acyclic.get?_of_mem_image mem
    cases bound : t.get? v with
    | none =>
      rw [image_of_unbound bound, Term.vars_var, List.mem_singleton] at read
      exact read ▸ mem
    | some b =>
      -- What has been bound since is an integer.
      rcases refines.gains v b bound with old | ⟨n, rfl⟩
      · simp [unbound_v] at old
      · rw [acyclic_t.agrees_image v _ bound] at read
        simp [Term.int, Term.expand] at read
  · exact fun mem => ⟨w, mem, by simp [image_of_unbound unbound]⟩

/-- A variable that occurs in the term does not become equal to it. -/
theorem Refines.unify_occurs {T : Term → Prop} (refines : s.Refines K T t) (acyclic : s.Acyclic)
    (leads : s.walk (.var x) = .var w) (occurs : s.occurs w a = true) (not_var : ∀ u, a ≠ .var u)
    (no_int : a.asInt? = none) : t.unify (.var x) a = .error .conflict := by
  have acyclic_t := refines.good.orderly.acyclic
  have walks : t.walk (.var x) = t.walk (.var w) := by
    rw [← acyclic_t.walk_walk refines.extends_ (.var x), leads]
  cases bound : t.get? w with
  | none =>
    have leads' : t.walk (.var x) = .var w := by
      rw [walks, walk_var_of_unbound bound]
    rw [unify_var_eq (by simp [leads']), leads', walk_of_not_var not_var, unifyEnds_var not_var, Subst.instantiate,
      refines.occurs acyclic bound, if_pos occurs]
  | some b =>
    rcases refines.gains w b bound with old | ⟨n, rfl⟩
    · simp [acyclic.get?_of_walk leads] at old
    · have value : t.walk (.var x) = .int n := by
        rw [walks, acyclic_t.walk_of_bound bound, walk_of_not_var (by simp [Term.int])]
      exact refines.good.orderly.unify_numeric (.inl ⟨n, value⟩) not_var no_int

/-! ## Relations that heed a variable -/

/-- Should the variable be made a term that is no integer, the relation notices it wherever
    it matters. It does not matter to an integer, to a variable with attributes, which
    refuse the term, nor to an unbound variable without attributes that is multiplied by
    zero. -/
def Heeds (s : Subst) (x : Var) (r : Relation) : Prop :=
  match s.walk (.var x) with
  | .var w => s.attributes w ≠ {} ∨ (∃ y z, r = .scale 0 y z) ∨ s.Notices x r
  | .pair _ _ => s.Notices x r
  | _ => True

/-- The goal posts a relation that says nothing of the unbound variable, which is then
    dropped without a trace on it. It is no product of zero. -/
def Drops (s : Subst) (x : Var) (g : Goal) : Prop :=
  ∃ w r, g = .post r ∧ s.walk (.var x) = .var w ∧ s.attributes w = {} ∧ s.Spares x r ∧
    ∀ y z, r ≠ .scale 0 y z

section Both

variable {known : Propagator → Prop} (h : s.Orderly (.ints known)) (complete : s.Complete) (asks : g.Asks x)
variable (sized : a.Sized) (not_var : ∀ u, a ≠ .var u) (no_int : a.asInt? = none)

include h complete asks sized not_var no_int

omit sized in
/-- Where the variable is known to be an integer, neither order succeeds. -/
theorem Orderly.alike_of_numeric (numeric : s.Numeric x) :
    Attempt.Alike (s.unify (.var x) a >>= g.attempt) (g.attempt s >>= fun t => t.unify (.var x) a) := by
  refine Attempt.alike_of_not_ok (Attempt.bind_ne_ok fun t unified => ?_) (Attempt.bind_ne_ok fun t run u => ?_)
  · rw [h.unify_numeric numeric not_var no_int] at unified
    cases unified
  · have good := (h.refines_attempt asks run).good.orderly
    rw [good.unify_numeric (h.numeric_attempt asks complete numeric.proper (.inl numeric) run) not_var no_int]
    exact nofun

omit complete sized no_int in
/-- Where the variable stands for a term that is neither a pair nor a variable, an equation
    that holds changes nothing, and one that does not goes on not to hold. -/
theorem Orderly.alike_of_settled (unbound : ∀ u, s.walk (.var x) ≠ .var u)
    (not_pair : ∀ l m, s.walk (.var x) ≠ .pair l m) :
    Attempt.Alike (s.unify (.var x) a >>= g.attempt) (g.attempt s >>= fun t => t.unify (.var x) a) := by
  have equation (t : Subst) (same : t.walk (.var x) = s.walk (.var x)) :
      t.unify (.var x) a = if s.walk (.var x) = a then .ok t else .error .conflict := by
    rw [unify_var_eq (same ▸ not_pair), same, walk_of_not_var not_var, unifyEnds_of_settled unbound not_var]
  by_cases holds : s.walk (.var x) = a
  · have idle (t : Subst) (run : g.attempt s = .ok t) : t.unify (.var x) a = .ok t := by
      have refines := h.refines_attempt asks run
      have same := refines.good.orderly.acyclic.walk_walk refines.extends_ (.var x)
      rw [equation t (by rw [← same, walk_of_not_var unbound]), if_pos holds]
    have after : (g.attempt s >>= fun t => t.unify (.var x) a) = g.attempt s := by
      cases run : g.attempt s with
      | error why => rfl
      | ok t => exact idle t run
    rw [after, equation s rfl, if_pos holds]
    exact Attempt.alike_refl _
  · refine Attempt.alike_of_not_ok (Attempt.bind_ne_ok fun t unified => ?_) (Attempt.bind_ne_ok fun t run u => ?_)
    · rw [equation s rfl, if_neg holds] at unified
      cases unified
    · have refines := h.refines_attempt asks run
      have same := refines.good.orderly.acyclic.walk_walk refines.extends_ (.var x)
      rw [equation t (by rw [← same, walk_of_not_var unbound]), if_neg holds]
      exact nofun

omit complete not_var no_int in
/-- Where the variable stands for a pair that the constraint notices, neither order
    succeeds. -/
theorem Orderly.alike_of_pair {l m : Term} (leads : s.walk (.var x) = .pair l m) (tells : g ≠ .succeed)
    (notices : ∀ r, g = .post r → s.Notices x r) :
    Attempt.Alike (s.unify (.var x) a >>= g.attempt) (g.attempt s >>= fun t => t.unify (.var x) a) := by
  have other : (Solver.new s).resolve x = .other := by simp [Solver.resolve, Solver.new, leads]
  have fails {t : Subst} (good : t.Orderly (.ints known)) (informs : s.Informs t) (u : Subst) :
      g.attempt t ≠ .ok u := by
    have other' := informs.extends_.other good.acyclic other
    exact good.attempt_ne_ok asks other' tells fun r posted mem => informs.detects h good mem other' (notices r posted)
  refine Attempt.alike_of_not_ok (Attempt.bind_ne_ok fun t unified => ?_) (Attempt.bind_ne_ok fun t run => ?_)
  · have sized_x : (Term.var x).Sized := trivial
    exact fails (good_of_solves (h.unify sized_x sized) unified) (h.informs_unify sized_x sized unified)
  · exact absurd run (fails h (.refl s) t)

omit complete in
/-- An unbound variable without attributes is not made another term before a constraint that
    notices the term. -/
theorem Orderly.bound_first_ne_ok (leads : s.walk (.var x) = .var w) (bare : s.attributes w = {}) (tells : g ≠ .succeed)
    (notices : ∀ r, g = .post r → s.Notices x r) (u : Subst) : (s.unify (.var x) a >>= g.attempt) ≠ .ok u := by
  refine Attempt.bind_ne_ok (fun t unified u => ?_) u
  have sized_x : (Term.var x).Sized := trivial
  have good : t.Orderly (.ints known) := good_of_solves (h.unify sized_x sized) unified
  have informs := h.informs_unify sized_x sized unified
  have other := h.other_of_unify leads bare not_var no_int unified
  exact good.attempt_ne_ok asks other tells fun r posted mem => informs.detects h good mem other (notices r posted)

/-- Where the variable is unbound and has no attributes, and the constraint leaves a trace on
    it and notices the term, neither order succeeds. -/
theorem Orderly.alike_of_bare (leads : s.walk (.var x) = .var w) (bare : s.attributes w = {}) (tells : g ≠ .succeed)
    (notices : ∀ r, g = .post r → s.Notices x r) (traced : ∀ r, g = .post r → ¬s.Spares x r) :
    Attempt.Alike (s.unify (.var x) a >>= g.attempt) (g.attempt s >>= fun t => t.unify (.var x) a) := by
  have free : (Solver.new s).resolve x = .free w := Solver.resolve_eq_free_iff.mpr leads
  have first := h.bound_first_ne_ok asks sized not_var no_int leads bare tells notices
  refine Attempt.alike_of_not_ok first (Attempt.bind_ne_ok fun t run u => ?_)
  have good := (h.refines_attempt asks run).good.orderly
  rw [good.unify_numeric (h.numeric_attempt asks complete (by simp [free]) (.inr ⟨tells, traced⟩) run) not_var no_int]
  exact nofun

/-- Where the variable is unbound and has no attributes, a product of zero comes to the same
    in both orders. -/
theorem Orderly.alike_of_zero {y z : Var} (leads : s.walk (.var x) = .var w) (bare : s.attributes w = {})
    (posted : g = .post (.scale 0 y z)) :
    Attempt.Alike (s.unify (.var x) a >>= g.attempt) (g.attempt s >>= fun t => t.unify (.var x) a) := by
  by_cases same : s.Alias x z
  · -- The product looks at its result, which the variable is.
    obtain ⟨u, at_x, at_z⟩ := id same
    refine h.alike_of_bare complete asks sized not_var no_int leads bare (posted ▸ nofun) (fun r stated => ?_)
      fun r stated spares => ?_
    · cases posted.symm.trans stated
      exact .inr (at_z.trans at_x.symm)
    · cases posted.symm.trans stated
      exact spares.elim (fun drops => drops.2 same) fun keeps => absurd keeps.1 (by decide)
  have factor : x = y := by
    subst posted
    cases asks with
    | posts _ mem =>
      rcases List.mem_pair.mp mem with rfl | rfl
      · rfl
      · exact absurd ⟨w, leads, leads⟩ same
  subst posted factor
  have posts (t : Subst) : (Goal.post (.scale 0 x z)).attempt t = (t.posting (.scale 0 x z)).solve? := by
    rw [Goal.attempt, solveWith_posting]
  have goes_on (t : Subst) (f : Subst → Attempt Subst) : ((.ok t : Attempt Subst) >>= f) = f t := rfl
  rw [unify_bare leads bare not_var]
  by_cases occurs : s.occurs w a = true
  · rw [if_pos occurs]
    refine Attempt.alike_of_not_ok (fun t => nofun) (Attempt.bind_ne_ok fun t run u => ?_)
    rw [(h.refines_attempt asks run).unify_occurs h.acyclic leads occurs not_var no_int]
    exact nofun
  have fresh : s.occurs w a = false := by simpa using occurs
  rw [if_neg occurs]
  rcases h.solveWith_zero complete leads bare same fresh sized not_var with
    ⟨why, first, second⟩ | ⟨t, u, first, second, leads', bare'⟩
  · have run : (Goal.post (.scale 0 x z)).attempt s = .error why := (posts s).trans first
    have run' : (Goal.post (.scale 0 x z)).attempt (s.bindBare w a) = .error why := (posts _).trans second
    rw [run, goes_on, run']
    exact Attempt.alike_refl (.error why)
  · have run : (Goal.post (.scale 0 x z)).attempt s = .ok t := (posts s).trans first
    have run' : (Goal.post (.scale 0 x z)).attempt (s.bindBare w a) = .ok u := (posts _).trans second
    have refines := h.refines_attempt asks run
    have unbound : t.get? w = none := refines.good.orderly.acyclic.get?_of_walk leads'
    have bound : t.unify (.var x) a = .ok (t.bindBare w a) := by
      rw [unify_bare leads' bare' not_var, refines.occurs h.acyclic unbound, if_neg occurs]
    rw [run, goes_on, goes_on, run', bound]
    exact .inr (.inr (.inr ⟨u, t.bindBare w a, rfl, rfl⟩))

end Both

/-- It comes to the same to make a variable another term before or after a constraint that
    heeds it, unless the constraint is dropped. Before that one it does not succeed. -/
theorem Orderly.alike {known : Propagator → Prop} (h : s.Orderly (.ints known)) (complete : s.Complete)
    (asks : g.Asks x) (sized : a.Sized) (not_var : ∀ u, a ≠ .var u) (no_int : a.asInt? = none)
    (heeds : ∀ r, g = .post r → s.Heeds x r) :
    Attempt.Alike (s.unify (.var x) a >>= g.attempt) (g.attempt s >>= fun t => t.unify (.var x) a) ∨
      s.Drops x g ∧ ∀ u, (s.unify (.var x) a >>= g.attempt) ≠ .ok u := by
  by_cases holds : g = .succeed
  · have before : (s.unify (.var x) a >>= Goal.attempt .succeed) = s.unify (.var x) a := by
      cases s.unify (.var x) a <;> rfl
    subst holds
    rw [before]
    exact .inl (Attempt.alike_refl _)
  unfold Heeds at heeds
  cases leads : s.walk (.var x) with
  | var w =>
    simp only [leads] at heeds
    by_cases bare : s.attributes w = {}
    · by_cases zero : ∃ y z, g = .post (.scale 0 y z)
      · obtain ⟨y, z, posted⟩ := zero
        exact .inl (h.alike_of_zero complete asks sized not_var no_int leads bare posted)
      have notices (r : Relation) (posted : g = .post r) : s.Notices x r := by
        refine ((heeds r posted).resolve_left fun some => some bare).resolve_left ?_
        rintro ⟨y, z, rfl⟩
        exact zero ⟨y, z, posted⟩
      by_cases traced : ∀ r, g = .post r → ¬s.Spares x r
      · exact .inl (h.alike_of_bare complete asks sized not_var no_int leads bare holds notices traced)
      · push Not at traced
        obtain ⟨r, posted, spares⟩ := traced
        exact .inr ⟨⟨w, r, posted, leads, bare, spares, fun y z same => zero ⟨y, z, same ▸ posted⟩⟩,
          h.bound_first_ne_ok asks sized not_var no_int leads bare holds notices⟩
    · exact .inl (h.alike_of_numeric complete asks not_var no_int (.inr ⟨w, leads, bare⟩))
  | pair l m =>
    simp only [leads] at heeds
    exact .inl (h.alike_of_pair asks sized leads holds heeds)
  | _ => exact .inl (h.alike_of_settled asks not_var (by simp [leads]) (by simp [leads]))

end Subst

/-! ## Searches -/

open Series (PlaysOut)

/-- Searches for the goals come to the same: an overflow stops one of them, or none has an
    answer, or each of them has one. -/
def Goal.Concur (c : Context) (s : Subst) (g h : Goal) : Prop :=
  (∃ f : Fault, f.IsOverflow ∧ (PlaysOut c.interp (g.apply c s) [] (some (.fault f)) ∨
      PlaysOut c.interp (h.apply c s) [] (some (.fault f)))) ∨
    (PlaysOut c.interp (g.apply c s) [] none ∧ PlaysOut c.interp (h.apply c s) [] none) ∨
    ∃ t u, PlaysOut c.interp (g.apply c s) [t] none ∧ PlaysOut c.interp (h.apply c s) [u] none

section Concur

variable {c : Context} {K : Scope} {P : Subst → Prop} {s : Subst} {E : (Var → Term) → Prop} {g h : Goal}
variable {r r' : Attempt Subst}

/-- Nothing but an overflow stops an attempt. -/
theorem Goal.Attempts.overflow {why : Stop} (attempts : g.Attempts c K P s E)
    (amounts : Answers.Amounts c.interp (g.apply c s) (.error (.stop why))) : ∃ f, why = .fault f ∧ f.IsOverflow := by
  obtain ⟨r, shown, solves⟩ := attempts
  match r, shown, solves with
  | .ok t, shown, _ => cases (Series.PlaysOut.unique amounts shown).1
  | .error .conflict, shown, _ => cases (Series.PlaysOut.unique amounts shown).2
  | .error (.stop (.fault f)), shown, overflow =>
    cases (Series.PlaysOut.unique amounts shown).2
    exact ⟨f, rfl, overflow⟩

/-- Goals come to the same as their attempts do. -/
theorem Goal.concur_of_alike {P' : Subst → Prop} {E' : (Var → Term) → Prop} (attempts : g.Attempts c K P s E)
    (attempts' : h.Attempts c K P' s E') (amounts : Answers.Amounts c.interp (g.apply c s) r)
    (amounts' : Answers.Amounts c.interp (h.apply c s) r') (alike : Attempt.Alike r r') : Concur c s g h := by
  rcases alike with ⟨why, rfl⟩ | ⟨why, rfl⟩ | ⟨rfl, rfl⟩ | ⟨t, u, rfl, rfl⟩
  · obtain ⟨f, rfl, overflow⟩ := attempts.overflow amounts
    exact .inl ⟨f, overflow, .inl amounts⟩
  · obtain ⟨f, rfl, overflow⟩ := attempts'.overflow amounts'
    exact .inl ⟨f, overflow, .inr amounts'⟩
  · exact .inr (.inl ⟨amounts, amounts'⟩)
  · exact .inr (.inr ⟨t, u, amounts, amounts'⟩)

/-- Where only the attempt with the equation last succeeds, the searches differ. -/
theorem Goal.Asks.apart {x : Var} {a : Term} {t : Subst} (asks : g.Asks x)
    (refuted : (s.unify (.var x) a >>= g.attempt) = .error .conflict)
    (bound : (g.attempt s >>= fun t => t.unify (.var x) a) = .ok t) :
    PlaysOut c.interp ((conj (.eq (.var x) a) g).apply c s) [] none ∧
      (∃ t, PlaysOut c.interp ((conj g (.eq (.var x) a)).apply c s) [t] none) ∧
      ¬Concur c s (.conj (.eq (.var x) a) g) (.conj g (.eq (.var x) a)) := by
  obtain ⟨first, second⟩ := asks.amounts_conj (c := c) (s := s) (a := a)
  rw [refuted] at first
  rw [bound] at second
  refine ⟨first, ⟨t, second⟩, ?_⟩
  rintro (⟨f, _, stops | stops⟩ | ⟨_, none⟩ | ⟨t, u, one, _⟩)
  · cases (Series.PlaysOut.unique first stops).2
  · cases (Series.PlaysOut.unique second stops).2
  · cases (Series.PlaysOut.unique second none).1
  · cases (Series.PlaysOut.unique first one).1

end Concur

namespace Subst

variable {s : Subst} {x : Var} {a : Term} {k : Constraint Operand}

/-- On a substitution that goals produce, a variable may be made a term that is no integer
    before or after a constraint that heeds it, which comes to the same unless the
    constraint is dropped. Then there is no answer if the equation comes first, where there
    is one if it comes last. -/
theorem Produced.bind_constraint (h : s.Produced) (c : Context) (relates : k.Relates) (proper : k.Proper)
    (values : ∀ n, .const n ∈ k.operands → isValue n = true) (mem : .var x ∈ k.operands) (sized : a.Sized)
    (not_var : ∀ u, a ≠ .var u) (no_int : a.asInt? = none) (heeds : ∀ r, k.goal = .post r → s.Heeds x r) :
    Goal.Concur c s (.conj (.eq (.var x) a) k.goal) (.conj k.goal (.eq (.var x) a)) ∨
      s.Drops x k.goal ∧ PlaysOut c.interp ((Goal.conj (.eq (.var x) a) k.goal).apply c s) [] none ∧
        ∃ t, PlaysOut c.interp ((Goal.conj k.goal (.eq (.var x) a)).apply c s) [t] none := by
  have orderly := h.orderly
  have asks := Constraint.asks relates proper values mem
  obtain ⟨first, second⟩ := asks.amounts_conj (c := c) (s := s) (a := a)
  have fair (y : Operand) (in_k : y ∈ k.operands) : y.Fair (.ints fun _ => False) := by
    cases y with
    | const n => exact values n in_k
    | var v => exact fun θ reading => reading v
  have sized_x : (Term.var x).Sized := trivial
  have stated (t : Subst) (good : t.Orderly (.ints fun _ => False)) :=
    Constraint.attempts (c := c) good proper fair
  have equated (t : Subst) (good : t.Orderly (.ints fun _ => False)) :=
    Goal.attempts_of_solves (c := c) (g := .eq (.var x) a) rfl (good.unify sized_x sized)
  have before := (equated s orderly).conj fun t good => (stated t good).mono (Q := fun _ => True) fun _ _ => trivial
  have after := (stated s orderly).conj fun t good => equated t good.1.good.orderly
  rcases orderly.alike h.complete asks sized not_var no_int heeds with alike | ⟨drops, refused⟩
  · exact .inl (Goal.concur_of_alike before after first second alike)
  · refine (Attempt.alike_or_succeeds refused).imp (Goal.concur_of_alike before after first second) ?_
    rintro ⟨conflict, u, bound⟩
    rw [conflict] at first
    rw [bound] at second
    exact ⟨drops, first, u, second⟩

/-- The sum `_0 + _1 = _1` and the equation of `_0` and a text. -/
theorem bind_constraint_sum :
    let s : Subst := (empty.freshMany 2).2
    let c : Context := Program.context (fun _ _ => .fail) 0
    let k : Constraint Operand := .plus (.var ⟨0⟩) (.var ⟨1⟩) (.var ⟨1⟩)
    let a : Term := .str "foo"
    s.Produced ∧ k.Relates ∧ k.Proper ∧ (∀ n, .const n ∈ k.operands → isValue n = true) ∧
      .var ⟨0⟩ ∈ k.operands ∧ a.Sized ∧ (∀ u, a ≠ .var u) ∧ a.asInt? = none ∧
      (∀ r, k.goal = .post r → s.Heeds ⟨0⟩ r) ∧
      (Goal.Concur c s (.conj (.eq (.var ⟨0⟩) a) k.goal) (.conj k.goal (.eq (.var ⟨0⟩) a)) ∨
        s.Drops ⟨0⟩ k.goal ∧ PlaysOut c.interp ((Goal.conj (.eq (.var ⟨0⟩) a) k.goal).apply c s) [] none ∧
          ∃ t, PlaysOut c.interp ((Goal.conj k.goal (.eq (.var ⟨0⟩) a)).apply c s) [t] none) := by
  intro s c k a
  have produced : s.Produced := produced_freshMany 2
  have values (n : Int) (mem : .const n ∈ k.operands) : isValue n = true := by simp [k, Constraint.operands] at mem
  have in_k : .var ⟨0⟩ ∈ k.operands := by simp [k, Constraint.operands]
  have sized : a.Sized := trivial
  have not_var (u : Var) : a ≠ .var u := by simp [a, Term.str]
  have heeds (r : Relation) (posted : k.goal = .post r) : s.Heeds ⟨0⟩ r := by
    cases posted
    exact .inr (.inr (.inr (.inl (.inl ⟨rfl, ⟨1⟩, rfl, rfl⟩))))
  exact ⟨produced, trivial, trivial, values, in_k, sized, not_var, rfl, heeds,
    produced.bind_constraint c trivial trivial values in_k sized not_var rfl heeds⟩

theorem eq_conflict {r : Attempt Subst} (h : (match r with | .error .conflict => true | _ => false) = true) :
    r = .error .conflict := by
  match r with
  | .error .conflict => rfl

/-- The difference `_0 + 0 = _0` before and after `_0` is made a text. -/
theorem attempts_dropped :
    ((empty.freshMany 1).2.unify (.var ⟨0⟩) (.str "foo") >>=
      (Constraint.plus (Operand.var ⟨0⟩) (.const 0) (.var ⟨0⟩)).goal.attempt) = .error .conflict ∧
    ∃ t, ((Constraint.plus (Operand.var ⟨0⟩) (.const 0) (.var ⟨0⟩)).goal.attempt (empty.freshMany 1).2 >>=
      fun t => t.unify (.var ⟨0⟩) (.str "foo")) = .ok t :=
  ⟨eq_conflict (by decide +kernel), _, eq_ok_of_isSome (a := empty) (by decide +kernel)⟩

/-- The difference `_0 + 0 = _0` is dropped without a trace on `_0`, which can be made a text
    afterwards, but not before. -/
theorem bind_constraint_dropped :
    let s : Subst := (empty.freshMany 1).2
    let c : Context := Program.context (fun _ _ => .fail) 0
    let k : Constraint Operand := .plus (.var ⟨0⟩) (.const 0) (.var ⟨0⟩)
    let a : Term := .str "foo"
    s.Produced ∧ PlaysOut c.interp ((Goal.conj (.eq (.var ⟨0⟩) a) k.goal).apply c s) [] none ∧
      (∃ t, PlaysOut c.interp ((Goal.conj k.goal (.eq (.var ⟨0⟩) a)).apply c s) [t] none) ∧
      ¬Goal.Concur c s (.conj (.eq (.var ⟨0⟩) a) k.goal) (.conj k.goal (.eq (.var ⟨0⟩) a)) := by
  intro s c k a
  have asks : k.goal.Asks ⟨0⟩ := .posts (show isValue 0 = true by decide) (by simp [Relation.vars])
  obtain ⟨refuted, t, bound⟩ := attempts_dropped
  exact ⟨produced_freshMany 1, asks.apart refuted bound⟩

end Subst

end ConstraintLogic
