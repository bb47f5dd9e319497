import ConstraintLogic.Proofs.Labeling.Tree

/-!
# What goals yield

What a goal may lead to is said here without any order of search, and for all goals:
an operator that looks at the answers of another goal passes some of them on. It is
more than what a search reaches, and all that has to be known to prove that what is
reached is in order.

Results:
* `Series.Leads`: the elements that may come up in a series.
* `Goal.Yields`: the substitutions that a goal may lead to.
* `Goal.yields_of_apply`: the answers of a goal are among them.
* `Goal.yields_of_reaches`: so is whatever a search for the goal reaches.
-/

namespace ConstraintLogic

/-! ## What series lead to -/

section Leads

variable {κ β α : Type}

mutual

/-- The element may come up in the series, if `T` says what may come up in what a
    computation delivers and `B` what a function may make of an element. -/
def Series.Leads (T : κ → α → Prop) (B : β → α → α → Prop) : Series κ β α → α → Prop
  | .empty, _ => False
  | .cons b rest, a => a = b ∨ rest.Leads T B a
  | .suspend w, a => w.Leads T B a
  | .pending w, a => w.Leads T B a

/-- The element may come up in the series that the work delivers. -/
def Work.Leads (T : κ → α → Prop) (B : β → α → α → Prop) : Work κ β α → α → Prop
  | .done s, a => s.Leads T B a
  | .start k, a => T k a
  | .thenAppend w s, a => w.Leads T B a ∨ s.Leads T B a
  | .ontoAppend s w, a => s.Leads T B a ∨ w.Leads T B a
  | .thenBind w f, a => ∃ b, w.Leads T B b ∧ B f b a

end

/-- The codes deliver nothing but what `T` and `B` allow. -/
structure Interp.Within (T : κ → α → Prop) (B : β → α → α → Prop) (I : Interp κ β α) : Prop where
  start : ∀ k s a, I.start k = .ok s → s.Leads T B a → T k a
  bind : ∀ f b s a, I.bind f b = .ok s → s.Leads T B a → B f b a

variable {T : κ → α → Prop} {B : β → α → α → Prop} {I : Interp κ β α} {s t : Series κ β α} {a : α}

namespace Series

theorem leads_append (h : (s.append t).Leads T B a) : s.Leads T B a ∨ t.Leads T B a := by
  cases s with
  | empty => exact .inr h
  | cons b rest => exact or_assoc.mpr h
  | suspend w => exact h.symm
  | pending w =>
    cases t with
    | empty => exact .inl h
    | _ => exact h

theorem leads_bindWith {f : β} {run : α → Except Stop (Series κ β α)}
    (each : ∀ b u, run b = .ok u → u.Leads T B a → B f b a) (bound : s.bindWith run f = .ok t)
    (h : t.Leads T B a) : ∃ b, s.Leads T B b ∧ B f b a := by
  cases s with
  | empty =>
    cases bound
    exact h.elim
  | cons b rest =>
    obtain ⟨u, first, same⟩ := exists_of_bind_ok bound
    cases same
    rcases leads_append h with here | ⟨c, later, made⟩
    · exact ⟨b, .inl rfl, each b u first here⟩
    · exact ⟨c, .inr later, made⟩
  | suspend w =>
    cases bound
    exact h
  | pending w =>
    cases bound
    exact h

end Series

/-- Work delivers nothing but what it may lead to. -/
theorem Work.leads_of_run (within : I.Within T B) : ∀ (w : Work κ β α) {s : Series κ β α} {a : α},
    w.run I = .ok s → s.Leads T B a → w.Leads T B a
  | .done s, _, _, run, h => by
    cases run
    exact h
  | .start k, s, a, run, h => within.start k s a run h
  | .thenAppend w t, _, _, run, h => by
    obtain ⟨u, inner, same⟩ := exists_of_bind_ok run
    cases same
    exact (Series.leads_append h).imp_left (Work.leads_of_run within w inner)
  | .ontoAppend t w, _, _, run, h => by
    obtain ⟨u, inner, same⟩ := exists_of_bind_ok run
    cases same
    exact (Series.leads_append h).imp_right (Work.leads_of_run within w inner)
  | .thenBind w f, _, a, run, h => by
    obtain ⟨u, inner, bound⟩ := exists_of_bind_ok run
    obtain ⟨b, leads, made⟩ := Series.leads_bindWith (fun b u => within.bind f b u a) bound h
    exact ⟨b, Work.leads_of_run within w inner leads, made⟩

namespace Series

theorem leads_forceReady (within : I.Within T B) (n : Nat) (run : s.forceReady I n = .ok t)
    (h : t.Leads T B a) : s.Leads T B a :=
  of_forceReady (P := fun s => s.Leads T B a) (fun w _ => w.leads_of_run within) n run h

theorem leads_forceDeep (within : I.Within T B) (n : Nat) (run : s.forceDeep I n = .ok t)
    (h : t.Leads T B a) : s.Leads T B a :=
  of_forceDeep (P := fun s => s.Leads T B a) (fun w _ => w.leads_of_run within) (fun w _ => w.leads_of_run within)
    n run h

/-- An element that is reached is one that may come up. -/
theorem Reaches.leads (within : I.Within T B) (h : s.Reaches I a) : s.Leads T B a := by
  induction h with
  | here => exact .inl rfl
  | later _ ih => exact .inr ih
  | forced run _ ih => exact Work.leads_of_run within _ run ih
  | awaited run _ ih => exact Work.leads_of_run within _ run ih

end Series

end Leads

/-! ## What goals yield -/

/-- The substitution is that of a leaf of the tree of splits below the solver. -/
inductive Solver.Leaf (vs : List Var) : Solver → Subst → Prop
  | here {s s' : Solver} {t : Subst} (chosen : s.choose vs = (none, s'))
      (written : s'.toSubst? = .ok t) : Leaf vs s t
  | deeper {s s' u : Solver} {t : Subst} {w : Var} {left right half : Domain}
      (chosen : s.choose vs = (some w, s')) (halved : (s'.domain w).1.bisect = .ok (left, right))
      (either : half = left ∨ half = right)
      (narrowed : (do Narrow.reduce w half; Narrow.fixpoint : Narrow Unit) (s'.domain w).2 = .ok () u)
      (leaf : Leaf vs u t) : Leaf vs s t

/-- The substitution `t` is one that the goal may lead to from the substitution `s`. -/
inductive Goal.Yields (program : Program) : Goal → Subst → Subst → Prop
  | succeed {s : Subst} : Yields program .succeed s s
  | eq {a b : Term} {s t : Subst} (unified : s.unify a b = .ok t) : Yields program (.eq a b) s t
  | conj {g h : Goal} {s m t : Subst} (first : Yields program g s m) (second : Yields program h m t) :
      Yields program (.conj g h) s t
  | disjLeft {g h : Goal} {s t : Subst} (left : Yields program g s t) : Yields program (.disj g h) s t
  | disjRight {g h : Goal} {s t : Subst} (right : Yields program h s t) : Yields program (.disj g h) s t
  | suspend {g : Goal} {s t : Subst} (body : Yields program g s t) : Yields program (.suspend g) s t
  | fresh {n : Nat} {body : List Var → Goal} {s t : Subst}
      (holds : Yields program (body (s.freshMany n).1) (s.freshMany n).2 t) :
      Yields program (.fresh n body) s t
  | call {r : RelName} {args : List Term} {s t : Subst} (body : Yields program (r.body program args) s t) :
      Yields program (.call r args) s t
  | not {g : Goal} {s : Subst} : Yields program (.not g) s s
  | ifteYes {cond yes no : Goal} {s m t : Subst} (found : Yields program cond s m)
      (holds : Yields program yes m t) : Yields program (.ifte cond yes no) s t
  | ifteNo {cond yes no : Goal} {s t : Subst} (holds : Yields program no s t) :
      Yields program (.ifte cond yes no) s t
  | once {g : Goal} {s t : Subst} (holds : Yields program g s t) : Yields program (.once g) s t
  | parLeft {workers : Nat} {g h : Goal} {s t : Subst} (left : Yields program g s t) :
      Yields program (.par workers g h) s t
  | parRight {workers : Nat} {g h : Goal} {s t : Subst} (right : Yields program h s t) :
      Yields program (.par workers g h) s t
  | always {s : Subst} : Yields program .always s s
  | post {r : Relation} {s t : Subst} (solved : (s.stamped r).2.solveWith [(s.stamped r).1] = .ok t) :
      Yields program (.post r) s t
  | posted {p : Propagator} {s t : Subst} (solved : s.solveWith [p] = .ok t) :
      Yields program (.posted p) s t
  | narrow {v : Var} {d : Domain} {s t : Subst} (solved : s.solveReduced v d = .ok t) :
      Yields program (.narrow v d) s t
  | label {vs : List Var} {s t : Subst} {solver : Solver}
      (started : (do Solver.requireNonempty vs; modify Solver.wakeAll; Narrow.fixpoint : Narrow Unit)
        (Solver.new s) = .ok () solver)
      (leaf : solver.Leaf vs t) : Yields program (.label vs) s t
  | unlabeled {s : Subst} (none_finite : s.finiteVars = []) : Yields program .labelAll s s
  | labelAll {s t : Subst} (labeled : Yields program (.label s.finiteVars) s t) :
      Yields program .labelAll s t
  | reserve {n : Nat} {body : Nat → Goal} {s t : Subst}
      (holds : Yields program (body s.supply) { s with supply := s.supply + n } t) :
      Yields program (.reserve n body) s t

/-- The substitution is one that the task may deliver. -/
def Task.Yields (program : Program) : Task → Subst → Prop
  | .apply g s, t => g.Yields program s t
  | .branch g s, t => g.Yields program s t
  | .explore solver w half vs, t =>
    ∃ u, (do Narrow.reduce w half; Narrow.fixpoint : Narrow Unit) solver = .ok () u ∧ u.Leaf vs t

/-- The answers that may come up in a search. -/
abbrev Answers.Leads (program : Program) (answers : Answers) (t : Subst) : Prop :=
  Series.Leads (Task.Yields program) (Goal.Yields program) answers t

/-- Where the answers of an attempt are led to. -/
theorem Answers.leads_ofAttempt {program : Program} {r : Attempt Subst} {answers : Answers} {t : Subst}
    (run : Answers.ofAttempt r = .ok answers) (h : answers.Leads program t) : r = .ok t := by
  cases r with
  | ok u =>
    cases run
    rcases h with rfl | h
    · rfl
    · exact h.elim
  | error why =>
    cases why with
    | conflict =>
      cases run
      exact h.elim
    | stop why => cases run

theorem Solver.leaf_of_search {program : Program} {s : Solver} {vs : List Var} {answers : Answers}
    {t : Subst} (run : s.search vs = .ok answers) (h : answers.Leads program t) : s.Leaf vs t := by
  unfold Solver.search at run
  split at run
  · rename_i s' chosen
    exact .here chosen (Answers.leads_ofAttempt run h)
  · rename_i w s' chosen
    dsimp only at run
    split at run
    · cases run
    · rename_i left right halved
      cases run
      rcases Series.leads_append h with ⟨u, narrowed, leaf⟩ | ⟨u, narrowed, leaf⟩
      · exact .deeper chosen halved (.inl rfl) narrowed leaf
      · exact .deeper chosen halved (.inr rfl) narrowed leaf

/-! ## What is reached -/

/-- Forcing in the context passes on what may come up. -/
structure Context.Within (c : Context) : Prop where
  ready : ∀ answers forced t, c.forceReady answers = .ok forced → Answers.Leads c.program forced t →
    Answers.Leads c.program answers t
  deep : ∀ answers forced t, c.forceDeep answers = .ok forced → Answers.Leads c.program forced t →
    Answers.Leads c.program answers t

theorem Goal.yields_of_label {program : Program} {vs : List Var} {s t : Subst} {answers : Answers}
    (run : s.label vs = .ok answers) (h : answers.Leads program t) :
    Goal.Yields program (.label vs) s t := by
  rw [Subst.label_eq] at run
  split at run
  · rename_i solver started
    exact .label started (Solver.leaf_of_search run h)
  · cases run
    exact h.elim
  · cases run

/-- The branch of a parallel disjunction is still to be run, or what it found is there. -/
theorem Task.settled_cases {workers : Nat} {h : Goal} {s : Subst} {r : Except Stop Answers} {branch : Work Task Goal Subst}
    (placed : (if 0 < workers then .ok (.start (.branch h s)) else Task.settled h s r) = .ok branch) :
    branch = .start (.branch h s) ∨ ∃ found, branch = .done found ∧ r = .ok found := by
  split at placed
  · cases placed
    exact .inl rfl
  · unfold Task.settled at placed
    split at placed
    · cases placed
      exact .inr ⟨_, rfl, rfl⟩
    · cases placed
      exact .inl rfl
    · cases placed

/-- The answers of a goal are among what it yields. -/
theorem Goal.yields_of_apply {c : Context} (within : c.Within) (g : Goal) :
    ∀ {s t : Subst} {answers : Answers}, g.apply c s = .ok answers → answers.Leads c.program t →
      g.Yields c.program s t := by
  have unit {s t : Subst} (leads : Answers.Leads c.program (.unit s) t) : t = s := leads.resolve_right id
  induction g with
  | succeed =>
    intro s t answers run leads
    cases run
    cases unit leads
    exact .succeed
  | fail =>
    intro s t answers run leads
    cases run
    exact leads.elim
  | eq a b => exact fun run leads => .eq (Answers.leads_ofAttempt run leads)
  | conj g h ihg ihh =>
    intro s t answers run leads
    obtain ⟨found, first, second⟩ := exists_of_bind_ok run
    obtain ⟨m, leads', yields⟩ := Series.leads_bindWith (fun m u => ihh) second leads
    exact .conj (ihg first leads') yields
  | disj g h ihg ihh =>
    intro s t answers run leads
    obtain ⟨left, first, rest⟩ := exists_of_bind_ok run
    obtain ⟨right, second, same⟩ := exists_of_bind_ok rest
    cases same
    rcases Series.leads_append leads with leads | leads
    · exact .disjLeft (ihg first leads)
    · exact .disjRight (ihh second leads)
  | suspend g ih =>
    intro s t answers run leads
    cases run
    exact .suspend leads
  | fresh n body ih => exact fun run leads => .fresh (ih _ run leads)
  | call r args =>
    intro s t answers run leads
    cases run
    exact .call leads
  | not g ih =>
    intro s t answers run leads
    obtain ⟨found, _, rest⟩ := exists_of_bind_ok run
    obtain ⟨forced, _, rest⟩ := exists_of_bind_ok rest
    split at rest
    · cases rest
      cases unit leads
      exact .not
    · cases rest
      exact leads.elim
  | ifte cond yes no ihc ihy ihn =>
    intro s t answers run leads
    obtain ⟨found, first, rest⟩ := exists_of_bind_ok run
    obtain ⟨forced, deep, rest⟩ := exists_of_bind_ok rest
    split at rest
    · exact .ifteNo (ihn rest leads)
    · obtain ⟨m, leads', yields⟩ := Series.leads_bindWith (fun m u => ihy) rest leads
      exact .ifteYes (ihc first (within.deep found forced m deep leads')) yields
  | once g ih =>
    intro s t answers run leads
    obtain ⟨found, first, rest⟩ := exists_of_bind_ok run
    obtain ⟨forced, deep, rest⟩ := exists_of_bind_ok rest
    split at rest
    · cases rest
      cases unit leads
      exact .once (ih first (within.deep found _ t deep (.inl rfl)))
    · cases rest
      exact leads.elim
  | par workers g h ihg ihh =>
    intro s t answers run leads
    obtain ⟨branch, placed, rest⟩ := exists_of_bind_ok run
    obtain ⟨left, first, same⟩ := exists_of_bind_ok rest
    cases same
    rcases Series.leads_append leads with leads | leads
    · exact .parLeft (ihg first leads)
    rcases Task.settled_cases placed with rfl | ⟨found, rfl, searched⟩
    · exact .parRight leads
    · obtain ⟨found', applied, forced⟩ := exists_of_bind_ok searched
      exact .parRight (ihh applied (within.ready found' found t forced leads))
  | never =>
    intro s t answers run leads
    cases run
    exact leads
  | always =>
    intro s t answers run leads
    cases run
    rcases leads with rfl | leads
    · exact .always
    · exact leads
  | post r => exact fun run leads => .post (Answers.leads_ofAttempt run leads)
  | posted p => exact fun run leads => .posted (Answers.leads_ofAttempt run leads)
  | narrow v d => exact fun run leads => .narrow (Answers.leads_ofAttempt run leads)
  | label vs => exact fun run leads => Goal.yields_of_label run leads
  | labelAll =>
    intro s t answers run leads
    rw [apply, Subst.labelAll] at run
    split at run
    · rename_i none_finite
      cases run
      cases unit leads
      exact .unlabeled (List.isEmpty_iff.mp none_finite)
    · exact .labelAll (Goal.yields_of_label run leads)
  | reserve n body ih => exact fun run leads => .reserve (ih _ run leads)

/-- Where forcing passes on what may come up, so do the tasks of a search. -/
theorem Context.Within.interp {c : Context} (within : c.Within) :
    c.interp.Within (Task.Yields c.program) (Goal.Yields c.program) where
  start k answers t run leads := by
    cases k with
    | apply g s => exact Goal.yields_of_apply within g run leads
    | branch g s =>
      change c.branch g s = _ at run
      unfold Context.branch at run
      split at run
      · cases run
      · obtain ⟨found, applied, ready⟩ := exists_of_bind_ok run
        exact Goal.yields_of_apply within g applied (within.ready found answers t ready leads)
    | explore solver w half vs =>
      change solver.explore w half vs = _ at run
      rw [Solver.explore_eq] at run
      split at run
      · rename_i u narrowed
        exact ⟨u, narrowed, Solver.leaf_of_search run leads⟩
      · cases run
        exact leads.elim
      · cases run
  bind g s answers t run leads := Goal.yields_of_apply within g run leads

theorem Program.program_context (program : Program) (n : Nat) :
    (program.context n).program = program := by
  cases n <;> rfl

theorem Program.within_context (program : Program) (n : Nat) : (program.context n).Within := by
  induction n with
  | zero => exact ⟨nofun, nofun⟩
  | succ n ih =>
    have inner := ih.interp
    rw [program.program_context] at inner
    refine ⟨fun answers forced t run leads => ?_, fun answers forced t run leads => ?_⟩
    · exact Series.leads_forceReady inner n run leads
    · exact Series.leads_forceDeep inner n run leads

/-- Whatever a search for a goal reaches is among what the goal yields. -/
theorem Goal.yields_of_reaches {program : Program} {g : Goal} {s t : Subst} {n : Nat} {answers : Answers}
    (applied : g.apply (program.context n) s = .ok answers)
    (reached : answers.Reaches (program.context n).interp t) : g.Yields program s t := by
  have within := program.within_context n
  have leads := reached.leads within.interp
  rw [← program.program_context n]
  exact Goal.yields_of_apply within g applied leads

end ConstraintLogic
