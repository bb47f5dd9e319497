import ConstraintLogic.Proofs.Subst.Balance
import ConstraintLogic.Proofs.Subst.WellFormed

/-!
# Labeling grounds finite domains

Labeling all variables with a finite domain picks the variables once, before the search.
No other variable ever gets a finite domain there: the propagators of the substitution are
balanced, and neither a split nor a run of a balanced propagator confines a variable that
was not confined before.

Results:
* `Goal.Yields.level`: goals leave balanced propagators.
* `Solver.lasting_contained`: labeling confines no further variables.
* `Subst.Orderly.grounds_label`: the answers of labeling all variables with a finite domain.
* `Subst.labelAll_grounds`: in an answer no variable has a finite domain.
-/

namespace ConstraintLogic

namespace Solver

variable {K : Scope} {s t u : Solver} {vs : List Var} {subst : Subst} {v : Var}

/-! ## Balance -/

/-- What is at work stays balanced, in the solver and in the substitution below it. -/
theorem lasting_levelled (K : Scope) : Lasting K fun s =>
    (s.Tended (fun _ => False) (fun _ => False) ∧ s.subst.Complete) ∧
      s.subst.Level ∧ s.Levelled fun _ => False where
  aside s t hs ht aside level h :=
    ⟨(lasting_filed K).aside s t hs ht aside level h.1,
      h.2.1.congr aside.bindings aside.attributes, h.2.2.aside hs h.1.1 aside⟩
  turn s t hs ht turn h :=
    ⟨(lasting_filed K).turn s t hs ht turn h.1,
      h.2.1.congr turn.framed.bindings turn.framed.attributes, h.2.2.turn h.1.1 turn⟩

end Solver

/-- The answers of labeling have balanced propagators. -/
theorem Subst.Orderly.level_of_label {K : Scope} {s t : Subst} {vs : List Var} {solver : Solver}
    (h : s.Orderly K) (complete : s.Complete) (level : s.Level) (integral : ∀ v ∈ vs, s.Integral K v)
    (started : (do Solver.requireNonempty vs; modify Solver.wakeAll; Narrow.fixpoint : Narrow Unit)
      (Solver.new s) = .ok () solver)
    (leaf : solver.Leaf vs t) : t.Level := by
  have awake (m : Solver) (awake : m.Awake K vs s) :
      (m.Tended (fun _ => False) (fun _ => False) ∧ m.subst.Complete) ∧
        m.subst.Level ∧ m.Levelled fun _ => False := by
    refine ⟨awake.filed complete, ?_, fun w id _ p found => .inr (.inr (awake.waiting id p found))⟩
    rw [awake.grows.subst]
    exact level
  obtain ⟨u, poised, ⟨⟨tended, base⟩, level', work⟩, _, written⟩ :=
    h.lasting_of_label complete (Solver.lasting_levelled K) awake integral started leaf
  obtain ⟨t', written', back⟩ := Solver.toSubst?_spec poised.steady
  cases written.symm.trans written'
  exact back.levelled poised.steady poised.quiet tended base level' work (fun _ _ none => none) fun _ none => none.elim

/-- A goal that can be stated leads from balanced propagators to balanced propagators. -/
theorem Goal.Yields.level {program : Program} (fair : program.Fair) {g : Goal} {s t : Subst}
    (h : g.Yields program s t) : ∀ {known : Propagator → Prop}, g.Fair known →
      s.Orderly (.ints known) → s.Complete → s.Level → t.Level := by
  induction h with
  | succeed => exact fun _ _ _ level => level
  | eq unified => exact fun stated good complete level => good.unify_level complete level stated.1 stated.2 unified
  | conj first _ ih ih' =>
    exact fun stated good complete level => ih' stated.2 (first.orderly fair stated.1 good)
      (first.complete fair stated.1 good complete) (ih stated.1 good complete level)
  | disjLeft _ ih => exact fun stated good complete level => ih stated.1 good complete level
  | disjRight _ ih => exact fun stated good complete level => ih stated.2 good complete level
  | suspend _ ih => exact fun stated good complete level => ih stated good complete level
  | fresh _ ih =>
    exact fun stated good complete level => ih (stated _) (good.congr rfl rfl (Nat.le_refl _))
      (complete.congr rfl rfl) (level.congr rfl rfl)
  | call _ ih =>
    exact fun stated good complete level =>
      ih ((RelName.fair_body fair _ stated).mono fun _ => False.elim) good complete level
  | not => exact fun _ _ _ level => level
  | ifteYes found _ ih ih' =>
    exact fun stated good complete level => ih' stated.2.1 (found.orderly fair stated.1 good)
      (found.complete fair stated.1 good complete) (ih stated.1 good complete level)
  | ifteNo _ ih => exact fun stated good complete level => ih stated.2.2 good complete level
  | once _ ih => exact fun stated good complete level => ih stated good complete level
  | parLeft _ ih => exact fun stated good complete level => ih stated.1 good complete level
  | parRight _ ih => exact fun stated good complete level => ih stated.2 good complete level
  | always => exact fun _ _ _ level => level
  | @post r s t solved =>
    intro known stated good complete level
    have stamped := good.stamp stated fun v _ => Subst.integral_ints v
    refine (level.congr (t := (s.stamped r).2) rfl rfl).solveWith_level (complete.congr rfl rfl) stamped
      (fun _ _ none => none) (List.forall_mem_singleton.mpr (.inr rfl)) (fun _ none => none.elim) solved
  | posted solved =>
    exact fun stated good complete level => level.solveWith_level complete good (fun _ _ none => none)
      (List.forall_mem_singleton.mpr stated) (fun _ none => none.elim) solved
  | narrow solved =>
    exact fun stated good complete level => level.solveReduced complete good (fun _ _ none => none) stated
      (fun _ => Subst.integral_ints _) solved
  | label started leaf =>
    exact fun _ good complete level =>
      good.level_of_label complete level (fun v _ => Subst.integral_ints v) started leaf
  | unlabeled _ => exact fun _ _ _ level => level
  | labelAll _ ih => exact fun _ good complete level => ih trivial good complete level
  | reserve _ ih =>
    intro known stated good complete level
    obtain ⟨own, ranges, coherent, holds⟩ := stated _
    exact ih holds (good.reserve ranges coherent) (complete.congr rfl rfl) (level.congr rfl rfl)

theorem Subst.level_empty : Subst.empty.Level := by
  intro w p mem
  simp [Subst.storedWatchers] at mem

/-- Substitutions that goals produce have balanced propagators. -/
theorem Subst.Produced.level {s : Subst} (h : s.Produced) : s.Level := by
  obtain ⟨program, g, n, allowance, answers, fair, stated, applied, reached⟩ := h
  refine (Goal.yields_of_reaches applied reached).level fair stated ?_ (complete_empty.congr rfl rfl)
    (level_empty.congr rfl rfl)
  exact (orderly_empty fun _ => id).congr rfl rfl (Nat.le_refl _)

namespace Solver

variable {K : Scope} {s t u : Solver} {vs : List Var} {subst : Subst} {v : Var}

/-! ## Containment -/

/-- The variables that are confined are those that the substitution confines, and the
    propagators at work are balanced. -/
structure Contained (subst : Subst) (s : Solver) : Prop where
  confined : ∀ v, s.Confined v ↔ (Solver.new subst).Confined v
  balanced : ∀ id p, s.prop? id = some p → s.Balanced p.val

/-- A propagator that is left aside stays balanced where nothing becomes confined. -/
theorem Balanced.of_level {F : PropId → Prop} {r : Relation} (h : s.Balanced r) (aside : s.Aside F t)
    (level : s.Level t) : t.Balanced r := by
  refine h.congr (fun v _ => ⟨level v, fun confined => confined.aside aside⟩) fun v _ w _ same => ?_
  rwa [sameVar, aside.resolve] at same

/-- Neither a split nor a run of a balanced propagator confines a further variable. -/
theorem lasting_contained (K : Scope) (subst : Subst) : Lasting K (Contained subst) where
  aside s t _ _ aside level h := by
    have same (v : Var) : t.Confined v ↔ s.Confined v := ⟨level v, fun confined => confined.aside aside⟩
    refine ⟨fun v => (same v).trans (h.confined v), fun id p found => ?_⟩
    rw [aside.props id fun none => none] at found
    exact (h.balanced id p found).of_level aside level
  turn s t _ _ turn h := by
    cases turn with
    | idle popped absent eq =>
      subst eq
      exact ⟨h.confined, fun id p found =>
        (h.balanced id p found).congr (fun _ _ => Iff.rfl) fun _ _ _ _ same => same⟩
    | @served id a p m popped found withdrawn serving served ran =>
      have before (j : PropId) (q : Propagator) (at_j : s.prop? j = some q) :
          ({ s with agenda := a, subscribers := m } : Solver).Balanced q.val :=
        (h.balanced j q at_j).congr (fun _ _ => Iff.rfl) fun _ _ _ _ same => same
      obtain ⟨level, left⟩ := (serving.evens_propagate () t ran).steady (before id p found)
      have same (v : Var) : t.Confined v ↔ ({ s with agenda := a, subscribers := m } : Solver).Confined v :=
        ⟨level v, fun confined => confined.aside served.aside⟩
      refine ⟨fun v => (same v).trans (h.confined v), fun j q at_j => ?_⟩
      by_cases same : j = id
      · exact left q (same ▸ at_j)
      · rw [served.aside.props j same] at at_j
        exact (before j q at_j).of_level served.aside level

theorem Grows.confined_iff (h : s.Grows t) : t.Confined v ↔ s.Confined v := by
  rw [Confined, Confined, h.resolve, h.peek]

/-- Labeling starts with stored propagators, which are balanced. -/
theorem Awake.contained (h : s.Awake K vs subst) (level : subst.Level) : s.Contained subst := by
  refine ⟨fun v => h.grows.confined_iff, fun id p found => h.grows.balanced_iff.mpr ?_⟩
  obtain ⟨x, stored⟩ := (h.drawn.of_new found).resolve_left fun none => none
  exact (level x p stored).resolve_right fun none => none

/-! ## Labeling -/

/-- The solver is a state between two splits of a search that labels the variables. -/
inductive Visited (vs : List Var) (subst : Subst) : Solver → Prop
  | started {s : Solver} (started : (do Solver.requireNonempty vs; modify Solver.wakeAll; Narrow.fixpoint : Narrow Unit)
      (Solver.new subst) = .ok () s) : Visited vs subst s
  | split {s s' u : Solver} {w : Var} {left right half : Domain} (before : Visited vs subst s)
      (chosen : s.choose vs = (some w, s')) (halved : (s'.domain w).1.bisect = .ok (left, right))
      (either : half = left ∨ half = right)
      (narrowed : (do Narrow.reduce w half; Narrow.fixpoint : Narrow Unit) (s'.domain w).2 = .ok () u) :
      Visited vs subst u

/-- In each state of a search there is what its start has and what reductions and turns keep. -/
theorem Visited.lasting {J : Solver → Prop} (h : u.Visited vs subst) (orderly : subst.Orderly K)
    (complete : subst.Complete) (lasting : Lasting K J) (awake : ∀ m : Solver, m.Awake K vs subst → J m)
    (integral : ∀ v ∈ vs, subst.Integral K v) : u.Poised K vs ∧ J u := by
  induction h with
  | started started => exact orderly.lasting_of_start complete lasting awake integral started
  | split _ chosen halved either narrowed ih => exact lasting.of_split chosen halved either narrowed ih.1 ih.2

end Solver

namespace Subst

variable {K : Scope} {s t : Subst} {vs : List Var} {v w : Var}

theorem confined_of_finite (h : s.Orderly K) (leads : s.walk (.var v) = .var w)
    (finite : s.storedDomain w ≠ .unbounded) : (Solver.new s).Confined v := by
  have free : (Solver.new s).resolve v = .free w := Solver.resolve_eq_free_iff.mpr leads
  refine h.steady_new.confined_iff.mpr ⟨by simp [free], ?_⟩
  have left : (Solver.new s).peek v = s.storedDomain w := leaves_of_walk leads
  rwa [left]

/-- All variables that are confined stand for integers. -/
def Grounded (s : Subst) : Prop := ∀ v, (Solver.new s).Confined v → ∃ n, s.walk (.var v) = .int n

/-- Where no unbound variable has a finite domain, all that is confined stands for integers. -/
theorem grounded_of_unbounded (h : ∀ w, s.storedDomain w = .unbounded) : s.Grounded := by
  intro v confined
  cases found : (Solver.new s).resolve v with
  | other => exact absurd found confined.1
  | value n => exact ⟨n, Solver.resolve_eq_value_iff.mp found⟩
  | free w =>
    have leads : s.walk (.var v) = .var w := Solver.resolve_eq_free_iff.mp found
    obtain ⟨n, out⟩ := (confined_of_walk leads).mp confined
    rw [h w] at out
    exact absurd (Domain.mem_unbounded n) out

/-- The answers of labeling all variables with a finite domain confine what the substitution
    confines, and leave no variable with a finite domain. -/
theorem Orderly.grounds_label {solver : Solver} (h : s.Orderly K) (complete : s.Complete) (level : s.Level)
    (integral : ∀ v ∈ s.finiteVars, s.Integral K v)
    (started : (do Solver.requireNonempty s.finiteVars; modify Solver.wakeAll; Narrow.fixpoint : Narrow Unit)
      (Solver.new s) = .ok () solver)
    (leaf : solver.Leaf s.finiteVars t) :
    (∀ w, t.storedDomain w = .unbounded) ∧ ∀ v, (Solver.new t).Confined v ↔ (Solver.new s).Confined v := by
  obtain ⟨u, poised, ⟨contained, resolve⟩, settled, written⟩ := h.lasting_of_label complete
    ((Solver.lasting_contained K s).and (Solver.lasting_resolve K fun resolve => resolve = (Solver.new s).resolve))
    (fun m awake => ⟨awake.contained level, awake.grows.resolve⟩) integral started leaf
  obtain ⟨t', written', back⟩ := Solver.toSubst?_spec poised.steady
  cases written.symm.trans written'
  have confined (v : Var) : (Solver.new t).Confined v ↔ (Solver.new s).Confined v :=
    (back.confined_iff poised.steady).trans (contained.confined v)
  refine ⟨fun w => ?_, confined⟩
  by_contra finite
  have good := back.orderly poised.steady
  have unbound : t.get? w = none := by
    by_contra bound
    exact finite (by rw [storedDomain, good.unbound w bound])
  have stays : t.walk (.var w) = .var w := walk_var_of_unbound unbound
  -- The variable had a finite domain in the first place, and was labeled.
  have before : u.subst.get? w = none := by
    cases bound : u.subst.get? w with
    | none => rfl
    | some a => cases unbound.symm.trans (back.extends_ w a bound)
  have leads : s.walk (.var w) = .var w :=
    Solver.resolve_eq_free_iff.mp (resolve ▸ Solver.resolve_of_unbound before : (Solver.new s).resolve w = .free w)
  obtain ⟨n, out⟩ := (confined_of_walk leads).mp ((confined w).mp (confined_of_finite good stays finite))
  have labeled : w ∈ s.finiteVars := mem_finiteVars.mpr fun full => out (full ▸ Domain.mem_unbounded n)
  exact finite (settled_of_writtenBack poised back labeled (settled w labeled) stays)

/-- Where no domain is finite, no variable has one. -/
theorem Orderly.getAttr_domain_eq_none (h : s.Orderly K) (unbounded : ∀ w, s.storedDomain w = .unbounded) (v : Var) :
    s.getAttr v .domain = none := by
  cases at_v : (s.attributes v).domain with
  | none => simp [getAttr, Attributes.get?, at_v]
  | some a =>
    refine absurd ?_ (h.domain v a at_v).finite
    rw [← unbounded v, storedDomain, at_v]

end Subst

/-- The same of the goal. -/
theorem Goal.Yields.grounds {program : Program} {s t : Subst} (h : Goal.labelAll.Yields program s t)
    {known : Propagator → Prop} (good : s.Orderly (.ints known)) (complete : s.Complete) (level : s.Level) :
    t.Orderly (.ints known) ∧ (∀ w, t.storedDomain w = .unbounded) ∧
      ∀ v, (Solver.new t).Confined v ↔ (Solver.new s).Confined v := by
  cases h with
  | unlabeled none_finite =>
    refine ⟨good, fun w => ?_, fun v => Iff.rfl⟩
    by_contra finite
    have mem := Subst.mem_finiteVars.mpr finite
    rw [none_finite] at mem
    cases mem
  | labelAll labeled =>
    cases labeled with
    | label started leaf =>
      exact ⟨Subst.orderly_of_leaf leaf (good.poised started),
        good.grounds_label complete level (fun v _ => Subst.integral_ints v) started leaf⟩

/-! ## Engines -/

namespace Engine

/-- The engine gives the answer, at the next step or later. -/
inductive Gives : Engine → Subst → Prop
  | now {e e' : Engine} {t : Subst} (step : e.step = (.ok (.emit t), e')) : Gives e t
  | later {e e' : Engine} {t : Subst} {r : Except Stop StepResult} (step : e.step = (r, e')) (rest : Gives e' t) :
      Gives e t

variable {e e' : Engine} {t : Subst}

/-- The answers that are read are given. -/
theorem gives_of_nextWithin (n : Nat) : ∀ {e : Engine} {r : Except Stop (Option Subst)}, e.nextWithin n = (r, e') →
    (r = .ok (some t) → e.Gives t) ∧ (e'.Gives t → e.Gives t) := by
  induction n with
  | zero =>
    intro e r run
    cases run
    exact ⟨(by cases ·), fun rest => rest⟩
  | succ n ih =>
    intro e r run
    unfold nextWithin at run
    split at run
    · rename_i step
      cases run
      refine ⟨fun found => ?_, .later step⟩
      cases found
      exact .now step
    · rename_i step
      cases run
      exact ⟨(by cases ·), .later step⟩
    · rename_i step
      exact ⟨fun found => .later step ((ih run).1 found), fun rest => .later step ((ih run).2 rest)⟩
    · rename_i step
      cases run
      exact ⟨(by cases ·), .later step⟩

/-- An engine gives the answer that is read first. -/
theorem gives_nextSubst {e : Engine} (found : (e.nextSubst.1.toOption.join).isSome = true) :
    e.Gives ((e.nextSubst.1.toOption.join).getD .empty) := by
  obtain ⟨t, read⟩ := Option.isSome_iff_exists.mp found
  rw [read, Option.getD_some]
  cases run : e.nextSubst with
  | mk r e' =>
    rw [run] at read
    cases r with
    | ok o =>
      cases (read : o = some t)
      exact (gives_of_nextWithin e.allowance run).1 rfl
    | error why => cases read

/-- An engine gives an answer if one can be read. -/
theorem exists_gives {e : Engine} (found : (e.nextSubst.1.toOption.join).isSome = true) : ∃ t, e.Gives t :=
  ⟨_, gives_nextSubst found⟩

/-- What is given is reached by the search. -/
theorem Gives.reaches (h : e.Gives t) : e.stream.Reaches e.interp t := by
  induction h with
  | @now e e' t step =>
    unfold Engine.step at step
    split at step
    · cases step
    · split at step
      · cases step
      · rename_i at_stream
        cases step
        rw [at_stream]
        exact .here
      · split at step <;> cases step
      · split at step <;> cases step
  | @later e e' t r step _ ih =>
    unfold Engine.step at step
    split at step
    · cases step
      cases ih
    · split at step
      · cases step
        exact ih
      · rename_i at_stream
        cases step
        rw [at_stream]
        exact .later ih
      · rename_i at_stream
        rw [at_stream]
        split at step
        · rename_i ran
          cases step
          exact .forced ran ih
        · cases step
          cases ih
      · rename_i at_stream
        rw [at_stream]
        split at step
        · rename_i ran
          cases step
          exact .awaited ran ih
        · cases step
          cases ih

theorem exists_reaches {I : Interp Task Goal Subst} {n : Nat} {answers : Answers}
    (found : ((Engine.mk I n answers ⟨0⟩ none 0).nextSubst.1.toOption.join).isSome = true) :
    ∃ t, answers.Reaches I t := by
  obtain ⟨t, given⟩ := exists_gives found
  exact ⟨t, given.reaches⟩

end Engine

namespace Subst

/-- Labeling all variables with a finite domain leaves none: each variable that had a
    finite domain, and each that has one in a state of the search that leads to the answer,
    stands for an integer. So no answer of an engine that labels has a variable with a
    finite domain. -/
theorem labelAll_grounds :
    (∀ (s t : Subst) (program : Program) (allowance : Nat) (answers : Answers), s.Produced →
      Goal.labelAll.apply (program.context allowance) s = .ok answers →
      answers.Reaches (program.context allowance).interp t →
        (∀ v, t.getAttr v .domain = none) ∧
        (∀ v w, s.walk (.var v) = .var w → s.getAttr w .domain ≠ none → ∃ n, t.walk (.var v) = .int n) ∧
        ∀ u : Solver, u.Visited s.finiteVars s → u.Leaf s.finiteVars t →
          ∀ v w, u.resolve v = .free w → u.current w ≠ .unbounded → ∃ n, t.walk (.var v) = .int n) ∧
    ∀ (program : Program) (goal : Var → Goal) (allowance : Nat) (config : QueryConfig) (e : Engine) (t : Subst),
      program.Fair → (∀ q, (goal q).Fair fun _ => False) → config.labelAnswers = true →
      Engine.start program allowance config goal = .ok e → e.Gives t → ∀ v, t.getAttr v .domain = none := by
  constructor
  · intro s t program allowance answers produced applied reached
    have level := produced.level
    obtain ⟨good, unbounded, confined⟩ :=
      (Goal.yields_of_reaches applied reached).grounds produced.orderly produced.complete level
    have grounded := grounded_of_unbounded unbounded
    refine ⟨good.getAttr_domain_eq_none unbounded, fun v w leads domain => grounded v ((confined v).mpr ?_),
      fun u visited _ v w free finite => grounded v ((confined v).mpr ?_)⟩
    · cases at_w : (s.attributes w).domain with
      | none => exact absurd (by simp [getAttr, Attributes.get?, at_w]) domain
      | some a =>
        have finite := (produced.orderly.domain w a at_w).finite
        exact confined_of_finite produced.orderly leads (by rwa [storedDomain, at_w])
    · have integral (v : Var) (_ : v ∈ s.finiteVars) : s.Integral (.ints fun _ => False) v := integral_ints v
      obtain ⟨poised, contained⟩ := visited.lasting produced.orderly produced.complete
        (Solver.lasting_contained _ s) (fun _ awake => awake.contained level) integral
      refine (contained.confined v).mp (poised.steady.confined_iff.mpr ⟨by simp [free], ?_⟩)
      rwa [Solver.peek_of_free free]
  · intro program goal allowance config e t fair stated labels started given v
    unfold Engine.start at started
    simp only [labels, if_true] at started
    obtain ⟨stream, applied, same⟩ := exists_of_bind_ok started
    cases same
    have yields := Goal.yields_of_reaches applied given.reaches
    have start : (Subst.empty.fresh).2.Orderly (.ints fun _ => False) :=
      (orderly_empty fun _ => id).congr rfl rfl (Nat.le_refl _)
    have complete := complete_empty.congr (t := Subst.empty.fresh.2) rfl rfl
    have level := level_empty.congr (t := Subst.empty.fresh.2) rfl rfl
    cases yields with
    | conj first labeled =>
      obtain ⟨good, unbounded, _⟩ := labeled.grounds (first.orderly fair (stated _) start)
        (first.complete fair (stated _) start complete) (first.level fair (stated _) start complete level)
      exact good.getAttr_domain_eq_none unbounded v

/-- Labeling a variable from 1 to 2, by the goal alone and by an engine. -/
theorem labelAll_grounds_pair :
    let program : Program := fun _ _ => .fail
    let goal (q : Var) : Goal := .narrow q (.range 1 2)
    (∃ s t answers, s.Produced ∧ Goal.labelAll.apply (program.context 0) s = .ok answers ∧
      answers.Reaches (program.context 0).interp t ∧ s.storedDomain ⟨0⟩ = .interval 1 2 ∧
        ∃ n, t.walk (.var ⟨0⟩) = .int n) ∧
    ∃ e t, Engine.start program 9 {} goal = .ok e ∧ e.Gives t ∧ t.getAttr ⟨0⟩ .domain = none := by
  intro program goal
  have fair : program.Fair := fun _ _ _ => trivial
  have stated (q : Var) : (goal q).Fair fun _ => False := Domain.canonical_range (by decide) (by decide)
  constructor
  · let s := ((empty.freshMany 1).2.solveReduced ⟨0⟩ (.range 1 2)).toOption.getD empty
    have narrowed : (empty.freshMany 1).2.solveReduced ⟨0⟩ (.range 1 2) = .ok s :=
      eq_ok_of_isSome (by decide +kernel)
    have applied : (goal ⟨0⟩).apply (program.context 0) (empty.freshMany 1).2 = .ok (.unit s) := by
      show Answers.ofAttempt ((empty.freshMany 1).2.solveReduced ⟨0⟩ (.range 1 2)) = _
      rw [narrowed]
      rfl
    have produced : s.Produced := ⟨program, goal ⟨0⟩, 1, 0, _, fair, stated _, applied, .here⟩
    let answers := ((Goal.labelAll.apply (program.context 0) s).toOption.getD .empty)
    have labeled : Goal.labelAll.apply (program.context 0) s = .ok answers := eq_ok_of_isSome (by decide +kernel)
    obtain ⟨t, reached⟩ := Engine.exists_reaches (I := (program.context 0).interp) (n := 9)
      (show ((Engine.mk _ _ answers _ _ _).nextSubst.1.toOption.join).isSome = true by decide +kernel)
    obtain ⟨_, grounded, _⟩ := labelAll_grounds.1 s t program 0 answers produced labeled reached
    have unbound : s.walk (.var ⟨0⟩) = .var ⟨0⟩ := by decide +kernel
    have domain : s.storedDomain ⟨0⟩ = .interval 1 2 := by decide +kernel
    refine ⟨s, t, answers, produced, labeled, reached, domain, grounded ⟨0⟩ ⟨0⟩ unbound fun none => ?_⟩
    have full : s.storedDomain ⟨0⟩ = .unbounded := by
      cases at_q : (s.attributes ⟨0⟩).domain with
      | none => rw [storedDomain, at_q]
      | some a => simp [getAttr, Attributes.get?, at_q] at none
    cases domain.symm.trans full
  · let e := (Engine.start program 9 {} goal).toOption.getD
      ⟨(program.context 9).interp, 9, .empty, ⟨0⟩, none, 0⟩
    have started : Engine.start program 9 {} goal = .ok e := eq_ok_of_isSome (by decide +kernel)
    obtain ⟨t, given⟩ := Engine.exists_gives (e := e) (by decide +kernel)
    exact ⟨e, t, started, given, labelAll_grounds.2 program goal 9 {} e t fair stated rfl started given ⟨0⟩⟩

end Subst

end ConstraintLogic
