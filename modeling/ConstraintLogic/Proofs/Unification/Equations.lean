import ConstraintLogic.Proofs.Subst.Acyclic
import ConstraintLogic.Unification.Unify
import Mathlib.Data.List.Nodup

/-!
# Equations

Unification reduces an equation of terms to bindings of variables. What a binding
does to a substitution is left open here: it is a parameter, together with the
readings that a substitution admits, so that one recursion serves substitutions
with and without attributes.

Results:
* `Subst.Solves`: an attempt adds just the solutions of an equation.
* `Subst.BindingLaws`: the two ways to bind a variable solve their equations.
* `Subst.BindingLaws.unify`: then unification solves every equation, and it ends.
-/

namespace ConstraintLogic

/-- The first of two computations that succeed one after the other. -/
theorem exists_of_bind_ok {ε α β : Type} {r : Except ε α} {f : α → Except ε β} {b : β}
    (h : r >>= f = .ok b) : ∃ a, r = .ok a ∧ f a = .ok b := by
  cases r with
  | error why => cases h
  | ok a => exact ⟨a, rfl, h⟩

/-- What every step of a fold keeps, the fold keeps. -/
theorem foldlM_keeps {ε α β : Type} {J : α → Prop} {f : α → β → Except ε α} (l : List β) :
    (∀ a, ∀ b ∈ l, ∀ a', J a → f a b = .ok a' → J a') → ∀ {a a' : α}, J a → l.foldlM f a = .ok a' → J a' := by
  induction l with
  | nil =>
    intro _ a a' kept run
    cases run
    exact kept
  | cons b l ih =>
    intro keeps a a' kept run
    rw [List.foldlM_cons] at run
    obtain ⟨m, first, rest⟩ := exists_of_bind_ok run
    exact ih (fun a b mem => keeps a b (List.mem_cons_of_mem _ mem)) (keeps a b List.mem_cons_self m kept first) rest

namespace Subst

/-- The attempt that is made of `s` leaves, of the readings that are admitted, just
    those of which `E` holds: all of them are admitted by the result, a conflict
    means that there are none, and only a fault of the kind `F` stops it. -/
def Solves (P : Subst → Prop) (D : Subst → (Var → Term) → Prop) (F : Fault → Prop) (s : Subst)
    (E : (Var → Term) → Prop) : Attempt Subst → Prop
  | .ok t => P t ∧ s.Extends t ∧ ∀ θ, D t θ ↔ D s θ ∧ E θ
  | .error .conflict => ∀ θ, D s θ → ¬E θ
  | .error (.stop (.fault f)) => F f
  | .error (.stop .exhausted) => False

section Solves

variable {P : Subst → Prop} {D : Subst → (Var → Term) → Prop} {F : Fault → Prop}
variable {s : Subst} {E G : (Var → Term) → Prop} {r : Attempt Subst}

theorem Solves.congr (h : Solves P D F s E r) (same : ∀ θ, D s θ → (E θ ↔ G θ)) :
    Solves P D F s G r := by
  match r, h with
  | .ok t, ⟨good, ext, exact_⟩ =>
    refine ⟨good, ext, fun θ => (exact_ θ).trans ?_⟩
    exact ⟨fun h => ⟨h.1, (same θ h.1).mp h.2⟩, fun h => ⟨h.1, (same θ h.1).mpr h.2⟩⟩
  | .error .conflict, empty =>
    exact fun θ admitted holds => empty θ admitted ((same θ admitted).mpr holds)
  | .error (.stop (.fault f)), h => exact h

theorem Solves.ok (good : P s) (trivial : ∀ θ, D s θ → E θ) : Solves P D F s E (.ok s) :=
  ⟨good, .refl s, fun θ => ⟨fun h => ⟨h, trivial θ h⟩, And.left⟩⟩

theorem Solves.conflict (empty : ∀ θ, D s θ → ¬E θ) :
    Solves P D F s E (.error .conflict) := empty

theorem Solves.mono {Q : Subst → Prop} (h : Solves P D F s E r) (sub : ∀ t, P t → Q t) :
    Solves Q D F s E r := by
  match r, h with
  | .ok t, ⟨good, ext, exact_⟩ => exact ⟨sub t good, ext, exact_⟩
  | .error .conflict, empty => exact empty
  | .error (.stop (.fault f)), h => exact h

/-- An attempt whose result has one more property. -/
theorem Solves.and {Q : Subst → Prop} (h : Solves P D F s E r) (also : ∀ t, r = .ok t → Q t) :
    Solves (fun t => P t ∧ Q t) D F s E r := by
  match r, h with
  | .ok t, ⟨good, ext, exact_⟩ => exact ⟨⟨good, also t rfl⟩, ext, exact_⟩
  | .error .conflict, empty => exact empty
  | .error (.stop (.fault f)), h => exact h

/-- An attempt that is made of another substitution, of which as much is left. -/
theorem Solves.rebase {t : Subst} (h : Solves P D F t G r) (ext : s.Extends t)
    (same : ∀ θ, D t θ ∧ G θ ↔ D s θ ∧ E θ) : Solves P D F s E r := by
  match r, h with
  | .ok u, ⟨good, ext', exact_⟩ => exact ⟨good, ext.trans ext', fun θ => (exact_ θ).trans (same θ)⟩
  | .error .conflict, empty =>
    intro θ admitted holds
    obtain ⟨admitted', holds'⟩ := (same θ).mpr ⟨admitted, holds⟩
    exact empty θ admitted' holds'
  | .error (.stop (.fault f)), h => exact h

/-- An attempt that answers more than a substitution, and goes on from there, solves
    both equations. -/
theorem Solves.bind_of_map {β : Type} {π : β → Subst} {r : Attempt β} {f : β → Attempt Subst}
    (h : Solves P D F s E (π <$> r))
    (next : ∀ b, P (π b) → s.Extends (π b) → Solves P D F (π b) G (f b)) :
    Solves P D F s (fun θ => E θ ∧ G θ) (r >>= f) := by
  match r, h with
  | .ok b, ⟨good, ext, exact_⟩ =>
    refine (next b good ext).rebase ext fun θ => ?_
    rw [exact_, and_assoc]
  | .error .conflict, empty => exact fun θ admitted holds => empty θ admitted holds.1
  | .error (.stop (.fault f)), h => exact h

/-- An attempt that goes on where another one ends solves both equations. -/
theorem Solves.bind {f : Subst → Attempt Subst} (h : Solves P D F s E r)
    (next : ∀ t, P t → s.Extends t → Solves P D F t G (f t)) :
    Solves P D F s (fun θ => E θ ∧ G θ) (r >>= f) := by
  refine Solves.bind_of_map (π := id) ?_ next
  rw [id_map]
  exact h

end Solves

/-- The laws of binding: every substitution that is `P` has acyclic bindings of terms
    that are `T`, the readings that it admits agree with them, and the two ways to bind
    an unbound variable solve the equation that they are used for. The parts of a term
    that is `T` are `T`, and their variables have indices below `W`. -/
structure BindingLaws (P : Subst → Prop) (D : Subst → (Var → Term) → Prop) (F : Fault → Prop)
    (T : Term → Prop) (W : Nat) : Prop where
  parts : ∀ {h t}, T (.pair h t) → T h ∧ T t
  below : ∀ {v}, T (.var v) → v.index < W
  acyclic : ∀ {s}, P s → s.Acyclic
  bound : ∀ {s}, P s → ∀ v t, s.get? v = some t → T t
  agrees : ∀ {s θ}, P s → D s θ → s.Agrees θ
  identify : ∀ {s v w}, P s → s.get? v = none → s.get? w = none → v ≠ w → T (.var v) →
    T (.var w) → Solves P D F s (fun θ => θ v = θ w) (s.identify v w)
  instantiate : ∀ {s v t}, P s → s.get? v = none → (∀ w, t ≠ .var w) → T (.var v) → T t →
    Solves P D F s (fun θ => θ v = t.expand θ) (s.instantiate v t)

namespace BindingLaws

variable {P : Subst → Prop} {D : Subst → (Var → Term) → Prop} {F : Fault → Prop}
variable {T : Term → Prop} {W : Nat}

theorem walk (laws : BindingLaws P D F T W) {s : Subst} (good : P s) {t : Term} (h : T t) :
    T (s.walk t) := by
  rcases s.walk_eq_or_bound t with same | ⟨u, bound⟩
  · rw [same]
    exact h
  · exact laws.bound good u _ bound

/-- Terms of different shapes are not made equal by any reading. -/
theorem ends_differ {a b : Term} (differ : a ≠ b) (not_var : ∀ v, a ≠ .var v)
    (not_var' : ∀ v, b ≠ .var v) (not_pairs : ∀ h t h' t', a = .pair h t → b ≠ .pair h' t')
    (θ : Var → Term) : a.expand θ ≠ b.expand θ := by
  intro same
  cases a with
  | var v => exact not_var v rfl
  | nil => cases b <;> simp_all [Term.expand]
  | atom a => cases b <;> simp_all [Term.expand]
  | pair h t =>
    cases b with
    | var v => exact not_var' v rfl
    | pair h' t' => exact not_pairs h t h' t' rfl rfl
    | _ => simp [Term.expand] at same

theorem unifyWith_of_not_pair {cross : Term → Term → Subst → Attempt Subst} {a b : Term} {s : Subst}
    (not_pair : ∀ h t, a ≠ .pair h t) : unifyWith cross a b s =
      match s.walk a, s.walk b with
      | .pair h t, .pair h' t' => cross (.pair h t) (.pair h' t') s
      | a, b => s.unifyEnds a b := by
  cases a with
  | pair h t => exact absurd rfl (not_pair h t)
  | _ => rfl

/-- Two walked terms that are not both pairs are made equal by at most one binding. -/
theorem unifyEnds (laws : BindingLaws P D F T W) {s : Subst} (good : P s) {a b : Term}
    (end_a : ∀ v, a = .var v → s.get? v = none) (end_b : ∀ v, b = .var v → s.get? v = none)
    (ta : T a) (tb : T b)
    (not_pairs : ∀ h t h' t', a = .pair h t → b ≠ .pair h' t') :
    Solves P D F s (fun θ => a.expand θ = b.expand θ) (s.unifyEnds a b) := by
  unfold Subst.unifyEnds
  split
  · rename_i same
    exact .ok good fun θ _ => by rw [same]
  · rename_i differ
    split
    · rename_i v w
      exact laws.identify good (end_a v rfl) (end_b w rfl) (by rintro rfl; exact differ rfl) ta tb
    · rename_i v not_var
      exact laws.instantiate good (end_a v rfl) (fun w same => not_var w same) ta tb
    · rename_i w not_var
      have solved := laws.instantiate good (end_b w rfl) (fun v same => not_var v same) tb ta
      exact solved.congr fun θ _ => eq_comm
    · rename_i not_var not_var' _
      exact .conflict fun θ _ => ends_differ differ not_var not_var' not_pairs θ

theorem unifyWith_leaf (laws : BindingLaws P D F T W) {cross : Term → Term → Subst → Attempt Subst}
    {s : Subst} (good : P s) {a b : Term} (not_var : ∀ v, a ≠ .var v)
    (not_pair : ∀ h t, a ≠ .pair h t) (ta : T a) (tb : T b) :
    Solves P D F s (fun θ => a.expand θ = b.expand θ) (unifyWith cross a b s) := by
  rw [unifyWith_of_not_pair not_pair, walk_of_not_var not_var]
  split
  · exact absurd rfl (not_pair _ _)
  · refine Solves.congr (laws.unifyEnds good (fun v same => absurd same (not_var v))
      (fun w => (laws.acyclic good).get?_of_walk) ta (laws.walk good tb)
      fun h t _ _ same => absurd same (not_pair h t)) fun θ admitted => ?_
    rw [(laws.agrees good admitted).expand_walk b]

/-- Unification of two terms below the variables that have been crossed. These are
    distinct, below `W` and lead to all that is left of the first term; since no
    variable leads to itself, the allowance is never used up. -/
theorem unifyBelow (laws : BindingLaws P D F T W) (n : Nat) :
    ∀ (crossed : List Var) (a b : Term) (s : Subst), P s → T a → T b →
      crossed.Nodup → crossed.length + n = W + 1 →
      (∀ c ∈ crossed, c.index < W ∧ ∀ v ∈ a.vars, Relation.TransGen s.Leads c v) →
      Solves P D F s (fun θ => a.expand θ = b.expand θ) (Subst.unifyBelow n a b s) := by
  induction n with
  | zero =>
    intro crossed a b s good ta tb distinct len behind
    have few : (crossed.map Var.index).length ≤ (List.range W).length := by
      have inj : Function.Injective Var.index := fun ⟨_⟩ ⟨_⟩ same => congrArg Var.mk same
      refine (distinct.map inj).length_le_of_subset fun i mem => ?_
      · obtain ⟨c, in_crossed, rfl⟩ := List.mem_map.mp mem
        exact List.mem_range.mpr (behind c in_crossed).1
    rw [List.length_map, List.length_range] at few
    omega
  | succ n ih =>
    intro crossed a
    induction a with
    | pair h t ihh iht =>
      intro b s good ta tb distinct len behind
      obtain ⟨th, tt⟩ := laws.parts ta
      have walked := laws.walk good tb
      rw [Subst.unifyBelow, unifyWith]
      refine Solves.congr (E := fun θ => (Term.pair h t).expand θ = (s.walk b).expand θ) ?_
        fun θ admitted => by rw [(laws.agrees good admitted).expand_walk]
      split
      · rename_i same
        exact .ok good fun θ _ => by rw [same]
      · split
        · rename_i h' t' b_pair
          rw [b_pair] at walked
          obtain ⟨th', tt'⟩ := laws.parts walked
          have heads := ihh h' s good th th' distinct len fun c mem =>
            ⟨(behind c mem).1, fun v in_h =>
              (behind c mem).2 v (Term.mem_vars_pair.mpr (.inl in_h))⟩
          refine Solves.congr (heads.bind (G := fun θ => t.expand θ = t'.expand θ)
            fun m good' ext => ?_) fun θ _ => ?_
          · refine iht t' m good' tt tt' distinct len fun c mem =>
              ⟨(behind c mem).1, fun v in_t => ?_⟩
            have path := (behind c mem).2 v (Term.mem_vars_pair.mpr (.inr in_t))
            exact Relation.TransGen.mono (fun _ _ => ext.leads) _ _ path
          · rw [b_pair]
            simp [Term.expand]
        · rename_i not_pair
          exact laws.unifyEnds good (by simp) (fun v => (laws.acyclic good).get?_of_walk) ta walked
            fun _ _ h' t' _ => not_pair h' t'
    | var v =>
      intro b s good ta tb distinct len behind
      have walked := laws.walk good tb
      have walked_v := laws.walk good ta
      refine Solves.congr
        (E := fun θ => (s.walk (.var v)).expand θ = (s.walk b).expand θ) ?_
        fun θ admitted => by
          rw [(laws.agrees good admitted).expand_walk, (laws.agrees good admitted).expand_walk]
      rw [Subst.unifyBelow, unifyWith_of_not_pair (by simp)]
      split
      · rename_i h t h' t' v_pair b_pair
        -- The variable is crossed. It is none of those crossed before, which lead to it.
        have leaves : s.walk (.var v) ≠ .var v := by simp [v_pair]
        have new : v ∉ crossed := fun mem =>
          (laws.acyclic good).not_transGen v ((behind v mem).2 v (by simp))
        rw [v_pair, b_pair]
        refine ih (v :: crossed) _ _ s good (v_pair ▸ walked_v) (b_pair ▸ walked)
          (List.nodup_cons.mpr ⟨new, distinct⟩) (by rw [List.length_cons]; omega) ?_
        intro c mem
        rcases List.mem_cons.mp mem with rfl | mem
        · exact ⟨laws.below ta, fun w in_pair =>
            transGen_of_mem_walk leaves (v_pair ▸ in_pair)⟩
        · exact ⟨(behind c mem).1, fun w in_pair =>
            ((behind c mem).2 v (by simp)).trans (transGen_of_mem_walk leaves (v_pair ▸ in_pair))⟩
      · rename_i not_pairs
        exact laws.unifyEnds good (fun w => (laws.acyclic good).get?_of_walk)
          (fun w => (laws.acyclic good).get?_of_walk) walked_v walked not_pairs
    | nil =>
      intro b s good ta tb _ _ _
      exact laws.unifyWith_leaf good (by simp) (by simp) ta tb
    | atom a =>
      intro b s good ta tb _ _ _
      exact laws.unifyWith_leaf good (by simp) (by simp) ta tb

/-- Where the two ways to bind a variable solve their equations, unification solves
    every equation of terms. -/
theorem unify {s : Subst} {a b : Term}
    (laws : BindingLaws P D F T (max s.width (max a.width b.width))) (good : P s) (ta : T a)
    (tb : T b) : Solves P D F s (fun θ => a.expand θ = b.expand θ) (s.unify a b) :=
  laws.unifyBelow _ [] a b s good ta tb .nil (by simp) (by simp)

end BindingLaws

end Subst

end ConstraintLogic
