import ConstraintLogic.Proofs.Report.Meaning
import ConstraintLogic.Proofs.Search.Stops
import ConstraintLogic.Proofs.Subst.Occurrence

/-!
# New variables are new

A goal that is closed mentions no variables but those that it was given and those that it
allocates itself. In a search for such a goal every substitution has allocated all variables
that occur in it, on whatever branch it came up: a branch only allocates further than the
substitution that it started from. So the variable that is allocated next occurs nowhere.

Results:
* `Goal.Closed`, `Program.Closed`: goals that mention certain variables only.
* `Subst.Allocated`: all variables that occur have been allocated.
* `Goal.Yields.allocated`: they have in what a goal yields.
* `Goal.Passes.allocated`, `Goal.allocated_of_applies`: they have in all that it passes on, and so in
  all that a search applies goals to.
* `Engine.not_occurs_fresh`: in a query the next variable is always new.
-/

namespace ConstraintLogic

variable {P Q : Var → Prop} {program : Program} {g h : Goal} {s t : Subst} {n : Nat}

/-! ## Closed goals -/

/-- The goal mentions no variables but those in `P` and those that it allocates itself. -/
def Goal.Closed : Goal → (Var → Prop) → Prop
  | .eq a b, P => (∀ v ∈ a.vars, P v) ∧ ∀ v ∈ b.vars, P v
  | .conj g h, P => g.Closed P ∧ h.Closed P
  | .disj g h, P => g.Closed P ∧ h.Closed P
  | .suspend g, P => g.Closed P
  | .fresh n body, P => ∀ vs, vs.length = n → (body vs).Closed fun v => P v ∨ v ∈ vs
  | .call _ args, P => ∀ t ∈ args, ∀ v ∈ t.vars, P v
  | .not g, P => g.Closed P
  | .ifte cond yes no, P => cond.Closed P ∧ yes.Closed P ∧ no.Closed P
  | .once g, P => g.Closed P
  | .par _ g h, P => g.Closed P ∧ h.Closed P
  | .post r, P => ∀ v ∈ r.names, P v
  | .posted p, P => ∀ v ∈ p.val.names, P v
  | .narrow v _, P => P v
  | .label vs, P => ∀ v ∈ vs, P v
  | .reserve _ body, P => ∀ k, (body k).Closed P
  | _, _ => True

/-- The relations of the program mention no variables but those of their arguments and those
    that they allocate themselves. -/
def Program.Closed (program : Program) : Prop :=
  ∀ name args P, (∀ t ∈ args, ∀ v ∈ t.vars, P v) → (program name args).Closed P

namespace Goal

theorem closed_conjAll {gs : List Goal} (all : ∀ g ∈ gs, g.Closed P) : (conjAll gs).Closed P :=
  conjAll_of_forall (Q := (·.Closed P)) trivial (fun first second => ⟨first, second⟩) all

theorem closed_disjAll {gs : List Goal} (all : ∀ g ∈ gs, g.Closed P) : (disjAll gs).Closed P :=
  disjAll_of_forall (Q := (·.Closed P)) trivial (fun first second => ⟨first, second⟩) all

theorem closed_conde {clauses : List (List Goal)} (all : ∀ clause ∈ clauses, ∀ g ∈ clause, g.Closed P) :
    (conde clauses).Closed P :=
  conde_of_forall (Q := (·.Closed P)) closed_conjAll closed_disjAll all

/-- An equation between a pair and a term. -/
theorem closed_cons {head tail l : Term} (ph : ∀ v ∈ head.vars, P v) (pt : ∀ v ∈ tail.vars, P v) (pl : ∀ v ∈ l.vars, P v) :
    (cons head tail l).Closed P :=
  ⟨fun v mem => (Term.mem_vars_pair.mp mem).elim (ph v) (pt v), pl⟩

theorem closed_first {l head : Term} (pl : ∀ v ∈ l.vars, P v) (ph : ∀ v ∈ head.vars, P v) : (first l head).Closed P := by
  intro vs length
  obtain ⟨tail, rfl⟩ := List.length_eq_one_iff.mp length
  exact closed_cons (fun v mem => .inl (ph v mem)) (by simp) fun v mem => .inl (pl v mem)

theorem closed_rest {l tail : Term} (pl : ∀ v ∈ l.vars, P v) (pt : ∀ v ∈ tail.vars, P v) : (rest l tail).Closed P := by
  intro vs length
  obtain ⟨head, rfl⟩ := List.length_eq_one_iff.mp length
  exact closed_cons (by simp) (fun v mem => .inl (pt v mem)) fun v mem => .inl (pl v mem)

theorem closed_appendBody {l s out : Term} (pl : ∀ v ∈ l.vars, P v) (ps : ∀ v ∈ s.vars, P v) (po : ∀ v ∈ out.vars, P v) :
    (appendBody l s out).Closed P := by
  refine closed_conde ?_
  simp only [List.mem_cons, List.not_mem_nil, or_false, forall_eq_or_imp, forall_eq]
  refine ⟨⟨⟨pl, by simp⟩, ps, po⟩, fun vs length => ?_⟩
  obtain ⟨a, d, res, rfl⟩ := List.length_eq_three.mp length
  refine closed_conjAll ?_
  simp only [List.mem_cons, List.not_mem_nil, or_false, forall_eq_or_imp, forall_eq]
  refine ⟨closed_cons (by simp) (by simp) fun v mem => .inl (pl v mem),
    closed_cons (by simp) (by simp) fun v mem => .inl (po v mem), ?_⟩
  show ∀ t ∈ [Term.var d, s, .var res], _
  simp only [List.mem_cons, List.not_mem_nil, or_false, forall_eq_or_imp, forall_eq]
  exact ⟨by simp, fun v mem => .inl (ps v mem), by simp⟩

theorem closed_memberBody {x l : Term} (px : ∀ v ∈ x.vars, P v) (pl : ∀ v ∈ l.vars, P v) : (memberBody x l).Closed P := by
  refine closed_conde ?_
  simp only [List.mem_cons, List.not_mem_nil, or_false, forall_eq_or_imp, forall_eq]
  refine ⟨closed_first pl px, fun vs length => ?_⟩
  obtain ⟨tail, rfl⟩ := List.length_eq_one_iff.mp length
  refine ⟨closed_rest (fun v mem => .inl (pl v mem)) (by simp), ?_⟩
  show ∀ t ∈ [x, Term.var tail], _
  simp only [List.mem_cons, List.not_mem_nil, or_false, forall_eq_or_imp, forall_eq]
  exact ⟨fun v mem => .inl (px v mem), by simp⟩

end Goal

/-- What a relation means mentions the variables of its arguments only. -/
theorem Program.Closed.body (closed : program.Closed) (r : RelName) {args : List Term}
    (named : ∀ t ∈ args, ∀ v ∈ t.vars, P v) : (r.body program args).Closed P := by
  unfold RelName.body
  split
  · simp only [List.mem_cons, List.not_mem_nil, or_false, forall_eq_or_imp, forall_eq] at named
    exact Goal.closed_appendBody named.1 named.2.1 named.2.2
  · simp only [List.mem_cons, List.not_mem_nil, or_false, forall_eq_or_imp, forall_eq] at named
    exact Goal.closed_memberBody named.1 named.2
  · exact closed _ _ P named
  · trivial

/-! ## What closed goals yield -/

/-- All variables that occur in the substitution have been allocated. -/
def Subst.Allocated (s : Subst) : Prop := s.Enclosed (fun v => v.index < s.next) s.next

namespace Subst

/-- Variables that have been allocated stay so when others are. -/
theorem Allocated.grow (h : s.Allocated) (bindings : t.bindings = s.bindings) (attrs : t.attrs = s.attrs)
    (more : s.next ≤ t.next) : t.Allocated :=
  ⟨rfl, fun v occurs => Nat.lt_of_lt_of_le (h.occurs v (occurs.congr bindings attrs)) more⟩

/-- Where no variable is allocated, those that occur stay allocated. -/
theorem Enclosed.allocated (h : s.Enclosed (fun v => v.index < n) n) : s.Allocated ∧ n ≤ s.next := by
  refine ⟨?_, Nat.le_of_eq h.next.symm⟩
  unfold Allocated
  rw [h.next]
  exact h

theorem allocated_empty : empty.Allocated := by
  refine ⟨rfl, fun v occurs => ?_⟩
  cases occurs with
  | bound found => simp [empty, get?] at found
  | inTerm found mem => simp [empty, get?] at found
  | attributed has => simp [empty, hasAttrs] at has
  | named found mem => simp [empty, Subst.getAttr, attributes] at found

/-- The variable that is allocated next does not occur. -/
theorem Allocated.next_absent (h : s.Allocated) : ¬s.Occurs s.fresh.1 :=
  fun occurs => Nat.lt_irrefl _ (h.occurs _ occurs)

theorem hasAttrs_of_mem_finiteVars {v : Var} (mem : v ∈ s.finiteVars) : s.hasAttrs v = true := by
  refine Option.isSome_iff_ne_none.mpr fun none => mem_finiteVars.mp mem ?_
  rw [storedDomain, attributes, none]
  rfl

/-- The variables that are allocated for a goal count as given to its body. -/
theorem index_lt_freshMany (less : ∀ v, P v → v.index < s.next) {v : Var} (known : P v ∨ v ∈ (s.freshMany n).1) :
    v.index < (s.freshMany n).2.next := by
  rcases known with given | new
  · exact Nat.lt_of_lt_of_le (less v given) (Nat.le_add_right _ _)
  · obtain ⟨i, small, rfl⟩ := List.mem_map.mp new
    exact Nat.add_lt_add_left (List.mem_range.mp small) s.next

end Subst

/-- A closed goal that is given allocated variables leads to allocated variables. -/
theorem Goal.Yields.allocated (closed : program.Closed) (h : g.Yields program s t) :
    ∀ {P}, g.Closed P → (∀ v, P v → v.index < s.next) → s.Allocated → t.Allocated ∧ s.next ≤ t.next := by
  induction h with
  | succeed => exact fun _ _ good => ⟨good, Nat.le_refl _⟩
  | eq unified =>
    intro P stated less good
    exact (good.unify (fun v mem => less v (stated.1 v mem)) (fun v mem => less v (stated.2 v mem)) unified).allocated
  | conj _ _ ih ih' =>
    intro P stated less good
    obtain ⟨good', more⟩ := ih stated.1 less good
    obtain ⟨good'', more'⟩ := ih' stated.2 (fun v given => Nat.lt_of_lt_of_le (less v given) more) good'
    exact ⟨good'', Nat.le_trans more more'⟩
  | disjLeft _ ih => exact fun stated => ih stated.1
  | disjRight _ ih => exact fun stated => ih stated.2
  | suspend _ ih => exact fun stated => ih stated
  | @fresh n body s t _ ih =>
    intro P stated less good
    obtain ⟨good', more⟩ := ih (stated _ (by simp [Subst.freshMany])) (fun v => Subst.index_lt_freshMany less)
      (good.grow rfl rfl (Nat.le_add_right _ _))
    exact ⟨good', Nat.le_trans (Nat.le_add_right _ _) more⟩
  | call _ ih => exact fun stated => ih (closed.body _ stated)
  | not => exact fun _ _ good => ⟨good, Nat.le_refl _⟩
  | ifteYes _ _ ih ih' =>
    intro P stated less good
    obtain ⟨good', more⟩ := ih stated.1 less good
    obtain ⟨good'', more'⟩ := ih' stated.2.1 (fun v given => Nat.lt_of_lt_of_le (less v given) more) good'
    exact ⟨good'', Nat.le_trans more more'⟩
  | ifteNo _ ih => exact fun stated => ih stated.2.2
  | once _ ih => exact fun stated => ih stated
  | parLeft _ ih => exact fun stated => ih stated.1
  | parRight _ ih => exact fun stated => ih stated.2
  | always => exact fun _ _ good => ⟨good, Nat.le_refl _⟩
  | @post r s t solved =>
    intro P stated less good
    refine ((Subst.Enclosed.congr good rfl rfl rfl : (s.stamped r).2.Enclosed _ _).solveWith ?_ solved).allocated
    exact List.forall_mem_singleton.mpr fun v mem => less v (stated v mem)
  | posted solved =>
    intro P stated less good
    exact (good.solveWith (List.forall_mem_singleton.mpr fun v mem => less v (stated v mem)) solved).allocated
  | narrow solved => exact fun stated less good => (good.solveReduced (less _ stated) solved).allocated
  | label started leaf =>
    exact fun stated less good => (good.label (fun v mem => less v (stated v mem)) started leaf).allocated
  | unlabeled _ => exact fun _ _ good => ⟨good, Nat.le_refl _⟩
  | @labelAll s t _ ih =>
    intro P _ _ good
    exact ih (P := fun v => v.index < s.next)
      (fun v mem => good.occurs v (.attributed (Subst.hasAttrs_of_mem_finiteVars mem))) (fun _ less => less) good
  | reserve _ ih => exact fun stated less good => ih (stated _) less (good.grow rfl rfl (Nat.le_refl _))

/-! ## What subgoals are applied to -/

/-- A closed goal that is given allocated variables has its subgoals applied to allocated
    variables. -/
theorem Goal.Passes.allocated (closed : program.Closed) (passes : Goal.Passes program h t g s) :
    ∀ {P}, g.Closed P → (∀ v, P v → v.index < s.next) → s.Allocated → t.Allocated := by
  induction passes with
  | here => exact fun _ _ good => good
  | conjLeft _ ih => exact fun stated => ih stated.1
  | conjRight first _ ih =>
    intro P stated less good
    obtain ⟨good', more⟩ := first.allocated closed stated.1 less good
    exact ih stated.2 (fun v given => Nat.lt_of_lt_of_le (less v given) more) good'
  | disjLeft _ ih => exact fun stated => ih stated.1
  | disjRight _ ih => exact fun stated => ih stated.2
  | suspend _ ih => exact fun stated => ih stated
  | fresh _ ih =>
    exact fun stated less good => ih (stated _ (by simp [Subst.freshMany])) (fun v => Subst.index_lt_freshMany less)
      (good.grow rfl rfl (Nat.le_add_right _ _))
  | call _ ih => exact fun stated => ih (closed.body _ stated)
  | not _ ih => exact fun stated => ih stated
  | ifteCond _ ih => exact fun stated => ih stated.1
  | ifteYes found _ ih =>
    intro P stated less good
    obtain ⟨good', more⟩ := found.allocated closed stated.1 less good
    exact ih stated.2.1 (fun v given => Nat.lt_of_lt_of_le (less v given) more) good'
  | ifteNo _ ih => exact fun stated => ih stated.2.2
  | once _ ih => exact fun stated => ih stated
  | parLeft _ ih => exact fun stated => ih stated.1
  | parRight _ ih => exact fun stated => ih stated.2
  | reserve _ ih => exact fun stated less good => ih (stated _) less (good.grow rfl rfl (Nat.le_refl _))

/-- A search for a closed goal that is given allocated variables applies goals to allocated variables
    only: those that were put off, and those that they apply at once. -/
theorem Goal.allocated_of_applies {m : Nat} {answers : Answers} {f : Goal} {u : Subst} (closed : program.Closed)
    (stated : g.Closed P) (less : ∀ v, P v → v.index < s.next) (good : s.Allocated) (le : m ≤ n)
    (applied : g.apply (program.context n) s = .ok answers)
    (applies : answers.Applies (program.context m).interp f u)
    (at_once : Goal.AppliesAtOnce (program.context m) h t f u) : t.Allocated :=
  (at_once.passes.trans (Goal.passes_of_applies le applied applies)).allocated closed stated less good

/-! ## Queries -/

/-- New variables are new. Where a closed goal is asked for, all variables that occur in a
    substitution that a subgoal is applied to, or in an answer, have been allocated there, and
    the variable that is allocated next is none of them. -/
theorem Engine.not_occurs_fresh (closed : program.Closed) {goal : Var → Goal} (stated : ∀ q, (goal q).Closed (· = q))
    (config : QueryConfig) :
    let (q, s) := Subst.empty.fresh
    (∀ g t, Goal.Passes program g t (if config.labelAnswers then .conj (goal q) .labelAll else goal q) s →
      (∀ v, t.Occurs v → v.index < t.next) ∧ ¬t.Occurs t.fresh.1) ∧
    ∀ allowance e t, Engine.start program allowance config goal = .ok e → e.Gives t →
      (∀ v, t.Occurs v → v.index < t.next) ∧ ¬t.Occurs t.fresh.1 := by
  dsimp only
  have start : Subst.empty.fresh.2.Allocated := Subst.allocated_empty.grow rfl rfl (Nat.zero_le _)
  have less (v : Var) (query : v = Subst.empty.fresh.1) : v.index < Subst.empty.fresh.2.next := query ▸ Nat.one_pos
  have asked : (if config.labelAnswers then .conj (goal Subst.empty.fresh.1) .labelAll
      else goal Subst.empty.fresh.1 : Goal).Closed (· = Subst.empty.fresh.1) := by
    split
    · exact ⟨stated _, trivial⟩
    · exact stated _
  refine ⟨fun g t passes => ?_, fun allowance e t started given => ?_⟩
  · have good := passes.allocated closed asked less start
    exact ⟨good.occurs, good.next_absent⟩
  · have yields := given.exists_yields started
    have query : e.query = Subst.empty.fresh.1 := by
      unfold Engine.start at started
      obtain ⟨stream, _, same⟩ := exists_of_bind_ok started
      cases same
      rfl
    rw [query] at yields
    have good := (yields.allocated closed asked less start).1
    exact ⟨good.occurs, good.next_absent⟩

/-- A list of one new variable from 1 to 2. -/
theorem Engine.not_occurs_fresh_singleton :
    let program : Program := fun _ _ => .fail
    let goal (q : Var) : Goal := .fresh 1 fun vs =>
      .conjAll (vs.map fun v => .conj (.narrow v (.range 1 2)) (.eq (.var q) (.pair (.var v) .nil)))
    (Goal.Passes program (.narrow ⟨1⟩ (.range 1 2)) Subst.empty.fresh.2.fresh.2 (.conj (goal ⟨0⟩) .labelAll) Subst.empty.fresh.2 ∧
      ¬Subst.empty.fresh.2.fresh.2.Occurs ⟨2⟩) ∧
    ∃ e t, Engine.start program 9 {} goal = .ok e ∧ e.Gives t ∧ ¬t.Occurs t.fresh.1 := by
  intro program goal
  have closed : program.Closed := fun _ _ _ _ => trivial
  have stated (q : Var) : (goal q).Closed (· = q) := by
    refine fun vs _ => Goal.closed_conjAll fun g mem => ?_
    obtain ⟨v, new, rfl⟩ := List.mem_map.mp mem
    refine ⟨.inr new, by simp, fun u mem => ?_⟩
    rcases Term.mem_vars_pair.mp mem with mem | mem
    · exact .inr (by simpa [List.mem_singleton.mp mem] using new)
    · simp at mem
  have new := Engine.not_occurs_fresh closed stated {}
  have passes : Goal.Passes program (.narrow ⟨1⟩ (.range 1 2)) Subst.empty.fresh.2.fresh.2
      (.conj (goal ⟨0⟩) .labelAll) Subst.empty.fresh.2 := .conjLeft (.fresh (.conjLeft .here))
  refine ⟨⟨passes, (new.1 _ _ passes).2⟩, ?_⟩
  let e := (Engine.start program 9 {} goal).toOption.getD ⟨(program.context 9).interp, 9, .empty, ⟨0⟩, none, 0⟩
  have started : Engine.start program 9 {} goal = .ok e := Subst.eq_ok_of_isSome (by decide +kernel)
  obtain ⟨t, given⟩ := Engine.exists_gives (e := e) (by decide +kernel)
  exact ⟨e, t, started, given, (new.2 9 e t started given).2⟩

end ConstraintLogic
