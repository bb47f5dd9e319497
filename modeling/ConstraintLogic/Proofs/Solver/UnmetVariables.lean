import ConstraintLogic.Proofs.Solver.Alignment

/-!
# Variables that a solver does not meet

A variable without attributes is mentioned by no stored propagator. A solver that is
opened to post a relation or to narrow a variable does the same whether that other variable
is bound or not, unless the relation looks at it: both solvers end early for one reason, or
both are written back, and then the other variables have the same bindings and domains.

Results:
* `Subst.Fills.aligned`: solvers are aligned if hidden variables are bound for one of them.
* `Subst.Orderly.posting_abreast`: they are abreast once a relation is posted on both.
* `Solver.written_inStep`: what narrowings in step are written back as.
* `Solver.WrittenBack.agree`: solvers that run abreast are written back alike.
-/

namespace ConstraintLogic

namespace Solver

variable {H : Var → Prop} {δ : Nat} {s t u u' : Solver} {K L : Scope} {p : Propagator} {a b : Subst}

/-- Posting goes the same way where nothing else is different. -/
theorem Aligned.post (h : Aligned H 0 0 s t) (met : t.interned[p.stamp]? = s.interned[p.stamp]?)
    (agenda : t.agenda = s.agenda) : (s.post p).2.Abreast H 0 (t.post p).2 := by
  obtain ⟨number, _, aligned⟩ := h.intern (p := p) (by rw [met]; cases s.interned[p.stamp]? <;> rfl)
  have idle := agenda_intern s p
  have idle' := agenda_intern t p
  unfold Solver.post
  generalize s.intern p = i at number aligned idle ⊢
  generalize t.intern p = i' at number aligned idle' ⊢
  obtain ⟨j, fresh, u⟩ := i
  obtain ⟨j', fresh', u'⟩ := i'
  dsimp only at number aligned idle idle' ⊢
  subst number
  have waits : (p.val.vars.foldl (fun s v => s.subscribe (j.raise 0) v) u').agenda =
      (p.val.vars.foldl (fun s v => s.subscribe j v) u).agenda := by
    rw [agenda_subscribeAll, agenda_subscribeAll, idle, idle', agenda]
  exact ((aligned.subscribeAll j p.val.vars).abreast (fun _ _ _ => Nat.zero_le _)
    (waits ▸ Agenda.raised_refl _)).enqueue j

/-- Narrowings in step from which solvers in order are left end early for one reason, or are
    both written back. -/
theorem written_inStep {m m' : Narrow Unit} (follows : Narrow.Follows H δ s t m m' fun _ => True)
    (steady : Narrow.Leaves s m fun _ u => u.Steady K) (steady' : Narrow.Leaves t m' fun _ u => u.Steady L) :
    (∃ why, s.runToSubst m = .error why ∧ t.runToSubst m' = .error why) ∨
      ∃ u u' a b, m s = .ok () u ∧ s.Keeps H u ∧ u.Abreast H δ u' ∧ u.Steady K ∧ u'.Steady L ∧
        s.runToSubst m = .ok a ∧ u.WrittenBack a ∧ t.runToSubst m' = .ok b ∧ u'.WrittenBack b := by
  cases run : m s with
  | error why u =>
    obtain ⟨u', run'⟩ := follows.of_error run
    exact .inl ⟨why, runToSubst_of_error run, runToSubst_of_error run'⟩
  | ok _ u =>
    obtain ⟨u', run', abreast, keeps, _⟩ := follows.of_ok run
    have good := steady _ u run
    have good' := steady' _ u' run'
    obtain ⟨a, written, back⟩ := toSubst?_spec good
    obtain ⟨b, written', back'⟩ := toSubst?_spec good'
    exact .inr ⟨u, u', a, b, rfl, keeps, abreast, good, good', (runToSubst_of_ok run).trans written, back,
      (runToSubst_of_ok run').trans written', back'⟩

namespace WrittenBack

/-- What is bound when one of the solvers is written back is bound alike for the other. -/
theorem get?_of_mirrors (h : u.WrittenBack a) (h' : u'.WrittenBack b) {v : Var} (shown : ¬H v)
    (mirrors : u.Mirrors H u') {c : Term} (bound : a.get? v = some c) : b.get? v = some c := by
  rcases h.bound v c bound with before | ⟨d, n, at_v, only, rfl⟩
  · exact h'.extends_ v c ((mirrors.bindings v shown).trans before)
  · exact h'.solved v d n ((mirrors.domains v shown).trans at_v) only

theorem bound_of_mirrors (h : u.WrittenBack a) (h' : u'.WrittenBack b) {v : Var} (shown : ¬H v)
    (mirrors : u.Mirrors H u') {c : Term} (bound : b.get? v = some c) : a.get? v = some c := by
  rcases h'.bound v c bound with before | ⟨d, n, at_v, only, rfl⟩
  · exact h.extends_ v c ((mirrors.bindings v shown).symm.trans before)
  · exact h.solved v d n ((mirrors.domains v shown).symm.trans at_v) only

end WrittenBack

end Solver

namespace Subst

variable {H : Var → Prop} {s t : Subst}

/-- Hidden variables apart, the substitutions have the same bindings and the same domains. -/
def AgreeOff (H : Var → Prop) (s t : Subst) : Prop :=
  ∀ v, ¬H v → t.get? v = s.get? v ∧ t.storedDomain v = s.storedDomain v

end Subst

/-- Solvers that mirror one another are written back alike. -/
theorem Solver.WrittenBack.agree {H : Var → Prop} {u u' : Solver} {K L : Scope} {a b : Subst} (h : u.WrittenBack a)
    (h' : u'.WrittenBack b) (steady : u.Steady K) (steady' : u'.Steady L) (mirrors : u.Mirrors H u') :
    a.AgreeOff H b := by
  intro v shown
  cases bound : a.get? v with
  | some c =>
    have bound' := h.get?_of_mirrors h' shown mirrors bound
    refine ⟨bound', ?_⟩
    rw [Subst.storedDomain, Subst.storedDomain, (h.orderly steady).unbound v (by simp [bound]),
      (h'.orderly steady').unbound v (by simp [bound'])]
  | none =>
    have free : b.get? v = none := by
      cases bound' : b.get? v with
      | none => rfl
      | some c => exact (h.bound_of_mirrors h' shown mirrors bound').symm.trans bound
    refine ⟨free, ?_⟩
    rw [h.storedDomain_eq bound, h'.storedDomain_eq free, Solver.current, Solver.current, mirrors.domains v shown,
      mirrors.stored v shown]

namespace Subst

variable {known : Propagator → Prop} {s t : Subst} {r : Relation} {v w x : Var} {b : Term} {d : Domain}

/-! ## Solvers that are opened -/

theorem resolve_stamped (s : Subst) (r : Relation) : (Solver.new (s.stamped r).2).resolve = (Solver.new s).resolve :=
  Solver.resolve_congr (walk_congr rfl)

/-- The solver on which a new propagator for the relation is posted. -/
def posting (s : Subst) (r : Relation) : Solver := ((Solver.new (s.stamped r).2).post (s.stamped r).1).2

theorem solveWith_posting (s : Subst) (r : Relation) :
    (s.stamped r).2.solveWith [(s.stamped r).1] = (s.posting r).solve? := rfl

/-- The solver on which the variable is loaded. -/
def loading (s : Subst) (v : Var) : Solver := ((Solver.new s).domain v).2

theorem Orderly.steady_posting (h : s.Orderly (.ints known)) (proper : r.Proper) :
    (s.posting r).Steady (.ints fun p => known p ∨ p = (s.stamped r).1) ∧
      (Solver.new (s.stamped r).2).Grows (s.posting r) ∧ ∃ j, (s.posting r).prop? j = some (s.stamped r).1 := by
  have stamped := h.stamp proper fun v _ => integral_ints v
  obtain ⟨steady, grows, _⟩ := stamped.steady_new.post (.inr rfl)
  obtain ⟨j, found, _⟩ := stamped.steady_new.post_waits (p := (s.stamped r).1) (.inr rfl)
  exact ⟨steady, grows, j, found⟩

/-- What is at work when a relation is posted is stored, or the new propagator. -/
theorem work_posting {p : Propagator} (work : (s.posting r).AtWork p) :
    p = (s.stamped r).1 ∨ ∃ v, p ∈ s.storedWatchers v := by
  rcases (Solver.draws_post (Q := fun p => p = (s.stamped r).1) (Solver.new (s.stamped r).2) rfl).work p work with
    ⟨j, found⟩ | known
  · simp [Solver.new, Solver.prop?] at found
  · exact known

/-- A variable is loaded before it is narrowed. -/
theorem Orderly.solveReduced_loading {K : Scope} (h : s.Orderly K) (v : Var) (d : Domain) :
    s.solveReduced v d = (s.loading v).runToSubst (do Narrow.reduce v d; Narrow.fixpoint) := by
  have same := h.steady_new.reduce_domain v d
  have run : (do Narrow.reduce v d; Narrow.fixpoint : Narrow Unit) (Solver.new s) =
      (do Narrow.reduce v d; Narrow.fixpoint : Narrow Unit) (s.loading v) := by
    show EStateM.bind (Narrow.reduce v d) _ (Solver.new s) = EStateM.bind (Narrow.reduce v d) _ (s.loading v)
    unfold EStateM.bind
    rw [← same]
    rfl
  unfold solveReduced Solver.runToSubst EStateM.run
  rw [run]

/-! ## One binding more -/

/-- The occurs check depends on the bindings only. -/
theorem occurs_of_bindings (same : t.bindings = s.bindings) (x : Var) (a : Term) : t.occurs x a = s.occurs x a := by
  have reaches (n : Nat) : t.reaches x n = s.reaches x n := by
    induction n with
    | zero => rfl
    | succ n ih =>
      funext v
      simp only [Subst.reaches, get?, same, ih]
  rw [occurs, occurs, size, size, same, reaches]

/-- A variable without attributes has none to be dropped. -/
theorem bindBare_eq (recorded : s.Recorded) (bare : s.attributes w = {}) : s.bindBare w b = s.bind w b := by
  have absent : s.attrs[w]? = none := by
    cases found : s.attrs[w]? with
    | none => rfl
    | some m =>
      rw [attributes, found] at bare
      exact absurd bare (recorded w m found)
  have same : s.attrs.erase w = s.attrs := by
    refine Std.ExtTreeMap.ext_getElem? fun v => ?_
    simp only [Std.ExtTreeMap.getElem?_erase, Std.compare_eq_iff_eq]
    split
    · rename_i here
      rw [← here, absent]
    · rfl
  rw [bindBare, dropAttrs, same]

/-- No stored propagator mentions a variable without attributes. -/
theorem Filed.unmet (complete : s.Complete) (bare : s.attributes w = {}) {p : Propagator} {u : Var}
    (stored : p ∈ s.storedWatchers u) (mem : v ∈ p.val.vars) : (Solver.new s).resolve v ≠ .free w := by
  intro free
  have mem := (complete.spread u p stored v mem w (Solver.resolve_eq_free_iff.mp free)).resolve_right id
  simp [storedWatchers, bare] at mem

/-- The hidden variables are unbound and without attributes, and the second substitution has
    terms for them that are no variables. Otherwise it is as the first one. -/
structure Fills (H : Var → Prop) (s t : Subst) : Prop where
  bindings : ∀ v, ¬H v → t.get? v = s.get? v
  bare : ∀ w, H w → s.get? w = none ∧ s.attributes w = {}
  bound : ∀ w, H w → ∃ a, (∀ u, a ≠ .var u) ∧ t.get? w = some a
  attrs : t.attrs = s.attrs

namespace Fills

theorem extends_ (h : s.Fills H t) : s.Extends t := by
  intro v a bound
  by_cases filled : H v
  · cases (h.bare v filled).1.symm.trans bound
  · rw [h.bindings v filled, bound]

/-- What leads to no hidden variable stands for what it did. -/
theorem walk (h : s.Fills H t) (acyclic : s.Acyclic) (acyclic' : t.Acyclic)
    (shown : ∀ u, s.walk (.var v) = .var u → ¬H u) : t.walk (.var v) = s.walk (.var v) := by
  rw [← acyclic'.walk_walk h.extends_ (.var v)]
  refine walk_of_unbound fun u leads => ?_
  rw [h.bindings u (shown u leads), acyclic.get?_of_walk leads]

/-- What leads to a hidden variable stands for no variable. -/
theorem walk_ne_var (h : s.Fills H t) (acyclic' : t.Acyclic) (leads : s.walk (.var v) = .var w) (filled : H w)
    (x : Var) : t.walk (.var v) ≠ .var x := by
  obtain ⟨a, not_var, bound⟩ := h.bound w filled
  rw [← acyclic'.walk_walk h.extends_ (.var v), leads, acyclic'.walk_of_bound bound, walk_of_not_var not_var]
  exact not_var x

/-- New solvers are aligned. -/
theorem aligned (h : s.Fills H t) (acyclic : s.Acyclic) (acyclic' : t.Acyclic) (complete : s.Complete) :
    Solver.Aligned H 0 0 (Solver.new s) (Solver.new t) := by
  refine { bindings := h.bindings, stored := ?_, roots := ?_, resolve := ?_, hidden := ?_, attrs := h.attrs,
           unwatched := ?_, unmet := ?_, domains := fun _ _ => rfl, subscribers := fun _ _ => rfl, props := fun _ _ => ?_,
           size := rfl, interned := fun _ _ _ => ?_ }
  · intro u _
    simp only [storedDomain, attributes, Solver.new, h.attrs]
  · intro v u free
    exact Solver.resolve_of_unbound (acyclic.get?_of_walk (Solver.resolve_eq_free_iff.mp free))
  · intro v shown
    have same := h.walk acyclic acyclic' fun u leads => shown u (Solver.resolve_eq_free_iff.mpr leads)
    simp only [Solver.resolve, Solver.new, same]
  · intro v u free filled x free'
    exact h.walk_ne_var acyclic' (Solver.resolve_eq_free_iff.mp free) filled x (Solver.resolve_eq_free_iff.mp free')
  · intro u filled
    simp [storedWatchers, Solver.new, (h.bare u filled).2]
  · intro u p stored v mem x free filled
    exact complete.unmet (h.bare x filled).2 stored mem free
  · simp [Solver.new, Solver.prop?]
  · simp [Solver.new]

end Fills

section Bound

variable (h : s.Orderly (.ints known)) (complete : s.Complete) (unbound : s.get? w = none) (bare : s.attributes w = {})
variable (fresh : s.occurs w b = false) (not_var : ∀ u, b ≠ .var u)

include complete unbound bare not_var

/-- An unbound variable without attributes is bound to a term that is no variable. -/
theorem fills_bindBare : s.Fills (· = w) (s.bindBare w b) where
  bindings v shown := by rw [get?_bindBare, if_neg (Ne.symm shown)]
  bare v same := by
    subst same
    exact ⟨unbound, bare⟩
  bound v same := ⟨b, not_var, by rw [same, get?_bindBare, if_pos rfl]⟩
  attrs := by rw [bindBare_eq complete.recorded bare]; rfl

include h fresh

/-- The solvers are abreast once a relation is posted on both. -/
theorem Orderly.posting_abreast (proper : r.Proper) :
    (s.posting r).Abreast (· = w) 0 ((s.bindBare w b).posting r) := by
  have stamped := h.stamp proper fun v _ => integral_ints v
  have complete' : (s.stamped r).2.Complete := complete.congr rfl rfl
  have fresh' := (occurs_of_bindings (s := s) (t := (s.stamped r).2) rfl w b).trans fresh
  have fills := fills_bindBare (w := w) (b := b) complete' unbound bare not_var
  exact (fills.aligned stamped.acyclic (stamped.acyclic.bindBare unbound fresh') complete').post rfl rfl

end Bound

end Subst

end ConstraintLogic
