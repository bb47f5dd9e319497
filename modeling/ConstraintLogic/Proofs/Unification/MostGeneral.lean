import ConstraintLogic.Proofs.Unification.Equations

/-!
# Most general unifiers

On a substitution without attributes, binding a variable does nothing but add the
binding. Unification then answers a most general unifier: the readings that agree
with its bindings are the readings that agreed before and make both terms equal. If
there is no such reading it ends in a conflict, and it always ends in one of the two
ways.

Results:
* `Subst.bareLaws`: bindings without attributes follow the laws of binding.
* `Subst.MostGeneral`: what a most general unifier is.
* `Subst.unify_mostGeneral`: unification finds one, or there is none.
-/

namespace ConstraintLogic.Subst

/-! ## Bindings without attributes -/

/-- No variable has an attribute. -/
def Bare (s : Subst) : Prop := ∀ v, s.attributes v = {}

theorem Bare.bind {s : Subst} (h : s.Bare) (v w : Var) (t : Term) :
    ((s.dropAttrs v).bind w t).Bare := by
  intro u
  rw [attributes_bind, attributes_dropAttrs]
  split
  · rfl
  · exact h u

/-- The bindings are acyclic, bind to terms no wider than `W`, and stand alone. -/
structure BareBelow (W : Nat) (s : Subst) : Prop where
  bare : s.Bare
  acyclic : s.Acyclic
  narrow : ∀ v t, s.get? v = some t → t.width ≤ W

theorem acyclic_dropAttrs_iff {s : Subst} {v : Var} : (s.dropAttrs v).Acyclic ↔ s.Acyclic := Iff.rfl

/-- A new binding that passes the occurs check solves its equation. -/
theorem BareBelow.bind {W : Nat} {s : Subst} (h : BareBelow W s) {v : Var} {t : Term}
    (unbound : s.get? v = none) (fresh : s.occurs v t = false) (wt : t.width ≤ W) :
    Solves (BareBelow W) Agrees (fun _ => False) s (fun θ => θ v = t.expand θ)
      (.ok ((s.dropAttrs v).bind v t)) := by
  have unbound' : (s.dropAttrs v).get? v = none := unbound
  refine ⟨⟨h.bare.bind v v t, ?_, fun w u bound => ?_⟩, Extends.bind unbound' t, fun θ => ?_⟩
  · exact (acyclic_dropAttrs_iff.mpr h.acyclic).bind unbound' (by rw [occurs_dropAttrs]; exact fresh)
  · rw [get?_bind] at bound
    split at bound
    · cases bound
      exact wt
    · exact h.narrow w u bound
  · exact agrees_bind_iff unbound'

/-- Bindings without attributes follow the laws of binding, and nothing faults. -/
theorem bareLaws (W : Nat) :
    BindingLaws (BareBelow W) Agrees (fun _ => False) (fun t => t.width ≤ W) W where
  parts {h t} wt := by
    rw [Term.width_pair] at wt
    omega
  below wv := wv
  acyclic h := h.acyclic
  bound h := h.narrow
  agrees _ h := h
  identify := by
    intro s v w h unbound_v unbound_w differ lt_v lt_w
    have none (u : Var) : (s.attributes u).toList = [] := by rw [h.bare u]; rfl
    rw [identify]
    by_cases less : v.index < w.index
    · simp only [less, if_true, none, List.foldlM_nil, pure_bind]
      refine (h.bind unbound_w (occurs_var_of_ne unbound_v differ.symm) ?_).congr fun θ _ => eq_comm
      exact lt_v
    · simp only [less, if_false, none, List.foldlM_nil, pure_bind]
      exact h.bind unbound_v (occurs_var_of_ne unbound_w differ) lt_w
  instantiate := by
    intro s v t h unbound not_var lt_v wt
    have none (u : Var) : (s.attributes u).toList = [] := by rw [h.bare u]; rfl
    rw [instantiate]
    split
    · rename_i occurs
      exact .conflict fun θ agrees => agrees.ne_expand_of_occurs occurs not_var
    · rename_i fresh
      simp only [none, List.find?_nil, List.foldlM_nil]
      exact h.bind unbound (by simpa using fresh) wt

/-! ## Most general unifiers -/

/-- What an attempt to make two terms equal has to answer: bindings that extend the
    given ones without a cycle, under which both terms read alike, and with which
    just those readings agree that agreed before and make the terms equal; or a
    conflict if no reading does both. -/
def MostGeneral (s : Subst) (a b : Term) : Attempt Subst → Prop
  | .ok t => s.Extends t ∧ t.Acyclic ∧ t.walkDeep a = t.walkDeep b ∧
      ∀ θ, t.Agrees θ ↔ s.Agrees θ ∧ a.expand θ = b.expand θ
  | .error .conflict => ∀ θ, s.Agrees θ → a.expand θ ≠ b.expand θ
  | .error (.stop _) => False

/-- Unification finds a most general unifier if there is a unifier, and else ends in
    a conflict. -/
theorem unify_mostGeneral {s : Subst} (bare : s.Bare) (acyclic : s.Acyclic) (a b : Term) :
    s.MostGeneral a b (s.unify a b) := by
  have narrow (v : Var) (t : Term) (bound : s.get? v = some t) :
      t.width ≤ max s.width (max a.width b.width) := by
    have := (s.mentioned v t bound).2
    omega
  have solved := (bareLaws (max s.width (max a.width b.width))).unify ⟨bare, acyclic, narrow⟩
    (by omega : a.width ≤ _) (by omega : b.width ≤ _)
  match s.unify a b, solved with
  | .ok t, ⟨good, ext, exact_⟩ =>
    -- Reading deeply agrees with the bindings that are found, so it solves the equation.
    exact ⟨ext, good.acyclic, ((exact_ _).mp good.acyclic.agrees_image).2, exact_⟩
  | .error .conflict, empty => exact empty

/-- The bindings `_2 = _1` and `_1 = _0`, with which `_2` is not unified with a list
    of `_0`. -/
theorem unify_mostGeneral_aliases :
    let s := (empty.bind ⟨2⟩ (.var ⟨1⟩)).bind ⟨1⟩ (.var ⟨0⟩)
    s.Bare ∧ s.Acyclic ∧
      s.MostGeneral (.var ⟨2⟩) (.ofList [.var ⟨0⟩]) (s.unify (.var ⟨2⟩) (.ofList [.var ⟨0⟩])) ∧
      s.unify (.var ⟨2⟩) (.ofList [.var ⟨0⟩]) = .error .conflict := by
  intro s
  have bare : s.Bare := fun v => by simp [s]
  have first : (empty.bind ⟨2⟩ (.var ⟨1⟩)).Acyclic :=
    acyclic_empty.bind (by simp) (occurs_var_of_ne (by simp) (by decide))
  have acyclic : s.Acyclic := first.bind (by simp) (occurs_var_of_ne (by simp) (by decide))
  exact ⟨bare, acyclic, unify_mostGeneral bare acyclic _ _, rfl⟩

end ConstraintLogic.Subst
