import ConstraintLogic.Proofs.Query.Direct
import ConstraintLogic.Proofs.Unification.MostGeneral

/-!
# Equations in another order

The readings that agree with solved equations are the readings that make all of them
true, in whatever order they were solved. Two substitutions with the same readings read
every term alike but for the names of unbound variables; and since a variable is only
ever bound to a lower one, each class of variables that were made one is named by its
lowest member, in both of them.

Results:
* `Subst.Downward`: variables are bound to lower variables.
* `Subst.Plain.walkDeep_eq`: reading is determined by the readings that agree.
* `Subst.Plain.unifyAll`: what it takes to solve equations one after another.
* `Goal.equations_perm`: the order of equations does not matter.
-/

namespace ConstraintLogic

namespace Subst

variable {s t : Subst} {v w : Var} {a : Term}

/-! ## Variables that stand for others -/

/-- A variable that is bound to another one is bound to a lower one. -/
def Downward (s : Subst) : Prop := ∀ v w, s.get? v = some (.var w) → w.index < v.index

theorem downward_empty : empty.Downward := fun v w bound => by simp at bound

theorem Downward.bind (h : s.Downward) (lower : ∀ w, a = .var w → w.index < v.index) :
    ((s.dropAttrs v).bind v a).Downward := by
  intro x y bound
  rw [get?_bind] at bound
  split at bound
  · rename_i same
    cases bound
    exact same ▸ lower y rfl
  · exact h x y bound

/-- Bindings without a cycle, down to lower variables, and without attributes. -/
structure Plain (s : Subst) : Prop where
  bare : s.Bare
  acyclic : s.Acyclic
  downward : s.Downward

/-- The variable that another one stands for is not higher. -/
theorem Plain.image_le (h : s.Plain) (n : Nat) : ∀ {v w : Var}, s.image n v = .var w → w.index ≤ v.index := by
  induction n with
  | zero =>
    intro v w same
    cases same
    exact Nat.le_refl _
  | succ n ih =>
    intro v w same
    rw [image] at same
    split at same
    · rename_i a bound
      cases a with
      | var u => exact Nat.le_trans (ih same) (Nat.le_of_lt (h.downward v u bound))
      | _ => cases same
    · cases same
      exact Nat.le_refl _

/-- A variable is read as the lowest one of those that are read alike. -/
theorem Plain.lowest (h : s.Plain) (read : s.walkDeep (.var v) = .var w) :
    s.walkDeep (.var w) = .var w ∧ w.index ≤ v.index := by
  have free : s.get? w = none := h.acyclic.get?_of_mem_image (v := v) (by
    show w ∈ (s.walkDeep (.var v)).vars
    simp [read])
  exact ⟨image_of_unbound free _, h.image_le _ read⟩

/-- A variable that one substitution leaves as it is is left by another one of which the
    same readings are left. -/
theorem Plain.walkDeep_var (hs : s.Plain) (ht : t.Plain) (same : ∀ θ, s.Agrees θ ↔ t.Agrees θ)
    (read : s.walkDeep (.var v) = .var v) : t.walkDeep (.var v) = .var v := by
  have back : (t.walkDeep (.var v)).expand (s.image s.size) = .var v := by
    rw [((same _).mp hs.acyclic.agrees_image).expand_walkDeep]
    exact read
  cases other : t.walkDeep (.var v) with
  | var w =>
    -- Each of the two variables stands for the other one, so neither is above the other.
    rw [other] at back
    have up : v.index ≤ w.index := (hs.lowest back).2
    have down : w.index ≤ v.index := (ht.lowest other).2
    obtain ⟨i⟩ := v
    obtain ⟨j⟩ := w
    exact congrArg (fun k => Term.var ⟨k⟩) (Nat.le_antisymm down up)
  | _ =>
    rw [other] at back
    cases back

/-- Substitutions that the same readings agree with read every term alike. -/
theorem Plain.walkDeep_eq (hs : s.Plain) (ht : t.Plain) (same : ∀ θ, s.Agrees θ ↔ t.Agrees θ) (a : Term) :
    s.walkDeep a = t.walkDeep a := by
  have kept (v : Var) (mem : v ∈ (s.walkDeep a).vars) : t.image t.size v = .var v := by
    obtain ⟨u, _, in_u⟩ := Term.mem_vars_expand.mp mem
    have free : s.get? v = none := hs.acyclic.get?_of_mem_image in_u
    exact hs.walkDeep_var ht same (image_of_unbound free _)
  calc s.walkDeep a = (s.walkDeep a).expand .var := (Term.expand_var _).symm
    _ = (s.walkDeep a).expand (t.image t.size) := (Term.expand_congr kept).symm
    _ = t.walkDeep a := ((same _).mpr ht.acyclic.agrees_image).expand_walkDeep a

/-! ## Solving equations -/

/-- Making two variables one binds the higher to the lower. -/
theorem Downward.identify (h : s.Downward) (bare : s.Bare) (differ : v ≠ w) (made : s.identify v w = .ok t) :
    t.Downward := by
  have none (u : Var) : (s.attributes u).toList = [] := by rw [bare u]; rfl
  have apart : v.index ≠ w.index := fun same => differ (congrArg Var.mk same)
  rw [Subst.identify] at made
  by_cases less : v.index < w.index
  · simp only [less, if_true, none, List.foldlM_nil, pure_bind] at made
    cases made
    exact h.bind fun u same => by
      cases same
      exact less
  · simp only [less, if_false, none, List.foldlM_nil, pure_bind] at made
    cases made
    exact h.bind fun u same => by
      cases same
      omega

/-- A value is no variable. -/
theorem Downward.instantiate (h : s.Downward) (bare : s.Bare) (not_var : ∀ w, a ≠ .var w)
    (made : s.instantiate v a = .ok t) : t.Downward := by
  have none (u : Var) : (s.attributes u).toList = [] := by rw [bare u]; rfl
  rw [Subst.instantiate] at made
  split at made
  · cases made
  · simp only [none, List.find?_nil, List.foldlM_nil] at made
    cases made
    exact h.bind fun w same => absurd same (not_var w)

/-- Bindings without attributes that lead down follow the laws of binding. -/
theorem downwardLaws (W : Nat) : BindingLaws (fun s => BareBelow W s ∧ s.Downward) Agrees (fun _ => False)
    (fun t => t.width ≤ W) W where
  parts := (bareLaws W).parts
  below := (bareLaws W).below
  acyclic h := h.1.acyclic
  bound h := h.1.narrow
  agrees _ h := h
  identify h unbound_v unbound_w differ lt_v lt_w :=
    ((bareLaws W).identify h.1 unbound_v unbound_w differ lt_v lt_w).and
      fun _ => h.2.identify h.1.bare differ
  instantiate h unbound not_var lt_v wt :=
    ((bareLaws W).instantiate h.1 unbound not_var lt_v wt).and
      fun _ => h.2.instantiate h.1.bare not_var

theorem Plain.unify (h : s.Plain) (a b : Term) :
    Solves Plain Agrees (fun _ => False) s (fun θ => a.expand θ = b.expand θ) (s.unify a b) := by
  have narrow (v : Var) (t : Term) (bound : s.get? v = some t) :
      t.width ≤ max s.width (max a.width b.width) := by
    have := (s.mentioned v t bound).2
    omega
  have solved := (downwardLaws (max s.width (max a.width b.width))).unify
    ⟨⟨h.bare, h.acyclic, narrow⟩, h.downward⟩ (by omega : a.width ≤ _) (by omega : b.width ≤ _)
  exact solved.mono fun t good => ⟨good.1.bare, good.1.acyclic, good.2⟩

/-- Solves the equations of pairs of terms one after another. -/
def unifyAll (s : Subst) (ps : List (Term × Term)) : Attempt Subst :=
  ps.foldlM (fun s p => s.unify p.1 p.2) s

theorem Plain.unifyAll (h : s.Plain) (ps : List (Term × Term)) :
    Solves Plain Agrees (fun _ => False) s (fun θ => ∀ p ∈ ps, p.1.expand θ = p.2.expand θ) (s.unifyAll ps) := by
  induction ps generalizing s with
  | nil => exact .ok h fun θ _ p mem => absurd mem List.not_mem_nil
  | cons p ps ih =>
    rw [Subst.unifyAll, List.foldlM_cons]
    exact ((h.unify p.1 p.2).bind fun t good _ => ih good).congr fun θ _ => by simp only [List.forall_mem_cons]

theorem plain_freshMany (n : Nat) : (empty.freshMany n).2.Plain :=
  ⟨fun v => attributes_empty v, acyclic_empty, downward_empty⟩

end Subst

namespace Goal

/-- All equations hold. -/
def equations (ps : List (Term × Term)) : Goal := conjAll (ps.map fun p => eq p.1 p.2)

variable {c : Context}

theorem amounts_equations (ps : List (Term × Term)) : ∀ s : Subst,
    Answers.Amounts c.interp ((equations ps).apply c s) (s.unifyAll ps) := by
  induction ps with
  | nil => exact fun s => Answers.amounts_ofAttempt c.interp (.ok s)
  | cons p ps ih =>
    intro s
    have first := Answers.amounts_ofAttempt c.interp (s.unify p.1 p.2)
    rw [Subst.unifyAll, List.foldlM_cons]
    cases ps with
    | nil =>
      simp only [List.foldlM_nil, bind_pure]
      exact first
    | cons q ps => exact first.conj fun t _ => ih t

/-- Neither goal has an answer under the substitution, or both have one, and the two read
    every term alike; variables that were made one are read as the lowest of them. -/
def AnswerAlike (c : Context) (s : Subst) (g h : Goal) : Prop :=
  (Series.PlaysOut c.interp (g.apply c s) [] none ∧ Series.PlaysOut c.interp (h.apply c s) [] none) ∨
  ∃ t u, Series.PlaysOut c.interp (g.apply c s) [t] none ∧ Series.PlaysOut c.interp (h.apply c s) [u] none ∧
    (∀ a, t.walkDeep a = u.walkDeep a) ∧
    ∀ v w, t.walkDeep (.var v) = .var w → t.walkDeep (.var w) = .var w ∧ w.index ≤ v.index

/-- Equations may be solved in any order, from any number of variables on. -/
theorem equations_perm {ps qs : List (Term × Term)} (perm : ps.Perm qs) (c : Context) (n : Nat) :
    AnswerAlike c (Subst.empty.freshMany n).2 (equations ps) (equations qs) := by
  have start : (Subst.empty.freshMany n).2.Plain := Subst.plain_freshMany n
  have alike (θ : Var → Term) : (∀ p ∈ ps, p.1.expand θ = p.2.expand θ) ↔ ∀ p ∈ qs, p.1.expand θ = p.2.expand θ := by
    simp only [perm.mem_iff]
  have shown (ps : List (Term × Term)) := amounts_equations (c := c) ps (Subst.empty.freshMany n).2
  match (Subst.empty.freshMany n).2.unifyAll ps, (Subst.empty.freshMany n).2.unifyAll qs,
    start.unifyAll ps, start.unifyAll qs, shown ps, shown qs with
  | .ok t, .ok u, ⟨ht, _, left⟩, ⟨hu, _, right⟩, plays, plays' =>
    have same (θ : Var → Term) : t.Agrees θ ↔ u.Agrees θ :=
      (left θ).trans ((and_congr_right' (alike θ)).trans (right θ).symm)
    exact .inr ⟨t, u, plays, plays', ht.walkDeep_eq hu same, fun v w => ht.lowest⟩
  | .error .conflict, .error .conflict, _, _, plays, plays' => exact .inl ⟨plays, plays'⟩
  | .ok t, .error .conflict, ⟨ht, _, left⟩, refuted, _, _ =>
    have solved := (left _).mp ht.acyclic.agrees_image
    exact absurd ((alike _).mp solved.2) (refuted _ solved.1)
  | .error .conflict, .ok u, refuted, ⟨hu, _, right⟩, _, _ =>
    have solved := (right _).mp hu.acyclic.agrees_image
    exact absurd ((alike _).mpr solved.2) (refuted _ solved.1)

/-- `_2 = _1`, `_3 = [_2]` and `_1 = _0` from the first to the last, and from the last to the
    first. -/
theorem equations_perm_reverse :
    let ps : List (Term × Term) :=
      [(.var ⟨2⟩, .var ⟨1⟩), (.var ⟨3⟩, .ofList [.var ⟨2⟩]), (.var ⟨1⟩, .var ⟨0⟩)]
    let c := Program.context (fun _ _ => .fail) 0
    ps.Perm ps.reverse ∧ AnswerAlike c (Subst.empty.freshMany 4).2 (equations ps) (equations ps.reverse) := by
  intro ps c
  exact ⟨ps.reverse_perm.symm, equations_perm ps.reverse_perm.symm c 4⟩

end Goal

end ConstraintLogic
