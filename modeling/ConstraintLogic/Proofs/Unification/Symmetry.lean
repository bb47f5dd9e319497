import ConstraintLogic.Proofs.Goal.Information
import ConstraintLogic.Proofs.Subst.Exactness

/-!
# Unification from either side

Unification recurses on its left term, and its allowance is spent on the variables that are
crossed there. What it comes to does not show this: it is determined by the two terms as they
are read, heads before tails, and of two ends it does not matter which one stands on the left.
Where both terms read alike, nothing is left to be bound.

Results:
* `Subst.Unifies`: what comes of making two terms equal, without allowances.
* `Subst.unifies_unify`: this is what unification comes to.
* `Subst.Unifies.unique`, `Subst.Unifies.symm`: it is determined, and has no sides.
* `Subst.Unifies.of_alike`: terms that read alike are unified already.
* `Subst.Unifies.alike`: terms that are unified read alike.
* `Subst.Produced.unify_comm_idempotent`: unification is symmetric and idempotent.
-/

namespace ConstraintLogic

namespace Term

theorem Sized.expand {t : Term} (h : t.Sized) {f : Var → Term} (all : ∀ v, (f v).Sized) :
    (t.expand f).Sized := by
  induction t with
  | var v => exact all v
  | pair head tail ih_head ih_tail => exact ⟨ih_head h.1, ih_tail h.2⟩
  | nil => exact h
  | atom a => exact h

end Term

namespace Subst

/-- Deep reading brings in no integers but those of the bindings. -/
theorem sized_walkDeep {s : Subst} {a : Term} (bound : ∀ v t, s.get? v = some t → t.Sized) (h : a.Sized) :
    (s.walkDeep a).Sized := by
  have image (n : Nat) : ∀ v, (s.image n v).Sized := by
    induction n with
    | zero => exact fun v => trivial
    | succ n ih =>
      intro v
      unfold Subst.image
      split
      · rename_i t found
        exact (bound v t found).expand ih
      · trivial
  exact h.expand (image s.size)

/-! ## Ends -/

/-- Which of two ends stands on the left makes no difference. -/
theorem unifyEnds_comm (s : Subst) (a b : Term) : s.unifyEnds a b = s.unifyEnds b a := by
  unfold unifyEnds
  by_cases same : a = b
  · rw [if_pos same, if_pos same.symm]
  · rw [if_neg same, if_neg (Ne.symm same)]
    cases a with
    | var v =>
      cases b with
      | var w =>
        have differ : v.index ≠ w.index := fun same_index => same (by cases v; cases w; simp_all)
        unfold identify
        by_cases less : v.index < w.index
        · simp only [if_pos less, if_neg (Nat.lt_asymm less)]
        · have less' : w.index < v.index := by omega
          simp only [if_neg less, if_pos less']
      | _ => rfl
    | _ => cases b <;> rfl

/-! ## Unification as a relation -/

/-- What comes of making equal two terms that are no bound variables: nothing for equal terms,
    a binding or a conflict for two ends, and otherwise what comes of the heads and then of
    the tails. -/
inductive Unifies : Subst → Term → Term → Attempt Subst → Prop
  | same {s a} : Unifies s a a (.ok s)
  | ends {s a b} (differ : a ≠ b) (not_pairs : ∀ h t h' t', a = .pair h t → b ≠ .pair h' t') :
    Unifies s a b (s.unifyEnds a b)
  | halt {s h t h' t' why} (differ : Term.pair h t ≠ .pair h' t')
    (heads : Unifies s (s.walk h) (s.walk h') (.error why)) : Unifies s (.pair h t) (.pair h' t') (.error why)
  | next {s u h t h' t' r} (differ : Term.pair h t ≠ .pair h' t') (heads : Unifies s (s.walk h) (s.walk h') (.ok u))
    (tails : Unifies u (u.walk t) (u.walk t') r) : Unifies s (.pair h t) (.pair h' t') r

variable {s t u : Subst} {a b : Term} {r r' : Attempt Subst}

theorem unifies_unifyEnds (not_pairs : ∀ h t h' t', a = .pair h t → b ≠ .pair h' t') :
    s.Unifies a b (s.unifyEnds a b) := by
  by_cases same : a = b
  · unfold unifyEnds
    rw [if_pos same, same]
    exact .same
  · exact .ends same not_pairs

/-- Unification comes to that, as long as its allowance is not used up. -/
theorem unifies_unifyBelow (n : Nat) : ∀ (a b : Term) (s : Subst), unifyBelow n a b s ≠ .error .exhausted →
    s.Unifies (s.walk a) (s.walk b) (unifyBelow n a b s) := by
  induction n with
  | zero => exact fun a b s spent => absurd rfl spent
  | succ n ih =>
    intro a
    -- A term that is no pair is read first; two pairs are then left to the next level.
    have read {a : Term} (not_pair : ∀ h t, a ≠ .pair h t) (b : Term) (s : Subst)
        (enough : unifyBelow (n + 1) a b s ≠ .error .exhausted) :
        s.Unifies (s.walk a) (s.walk b) (unifyBelow (n + 1) a b s) := by
      rw [unifyBelow, BindingLaws.unifyWith_of_not_pair not_pair] at enough ⊢
      split at enough <;> rename_i at_a at_b
      · rename_i h t h' t'
        rw [at_a, at_b]
        have := ih (.pair h t) (.pair h' t') s enough
        rwa [walk_of_not_var (by simp), walk_of_not_var (by simp)] at this
      · exact unifies_unifyEnds at_b
    induction a with
    | pair h t ih_h ih_t =>
      intro b s enough
      rw [walk_of_not_var (by simp)]
      rw [unifyBelow, unifyWith] at enough ⊢
      by_cases same : Term.pair h t = s.walk b
      · rw [if_pos same, ← same]
        exact .same
      rw [if_neg same] at enough ⊢
      split at enough
      · rename_i h' t' at_b
        rw [at_b] at same ⊢
        change unifyBelow (n + 1) h h' s >>= _ ≠ _ at enough
        change s.Unifies _ _ (unifyBelow (n + 1) h h' s >>= _)
        have heads := ih_h h' s
        cases at_heads : unifyBelow (n + 1) h h' s with
        | error why =>
          rw [at_heads] at enough heads
          exact .halt same (heads fun spent => enough (congrArg (· >>= _) spent))
        | ok u =>
          rw [at_heads] at enough heads
          exact .next same (heads (by simp)) (ih_t t' u enough)
      · rename_i not_pair
        exact unifies_unifyEnds fun _ _ h' t' _ => not_pair h' t'
    | _ => exact read (by simp)

theorem unifies_unify (enough : s.unify a b ≠ .error .exhausted) : s.Unifies (s.walk a) (s.walk b) (s.unify a b) :=
  unifies_unifyBelow _ a b s enough

theorem Acyclic.walkDeep_walk (h : s.Acyclic) (a : Term) : s.walkDeep (s.walk a) = s.walkDeep a :=
  h.agrees_image.expand_walk a

namespace Unifies

/-- The terms and the substitution determine what comes of them. -/
theorem unique (h : s.Unifies a b r) (h' : s.Unifies a b r') : r = r' := by
  induction h generalizing r' with
  | same =>
    cases h' with
    | same => rfl
    | ends differ => exact absurd rfl differ
    | halt differ => exact absurd rfl differ
    | next differ => exact absurd rfl differ
  | ends differ not_pairs =>
    cases h' with
    | same => exact absurd rfl differ
    | ends => rfl
    | halt => exact absurd rfl (not_pairs _ _ _ _ rfl)
    | next => exact absurd rfl (not_pairs _ _ _ _ rfl)
  | halt differ heads ih =>
    cases h' with
    | same => exact absurd rfl differ
    | ends _ not_pairs => exact absurd rfl (not_pairs _ _ _ _ rfl)
    | halt _ heads' => exact ih heads'
    | next _ heads' => cases ih heads'
  | next differ heads tails ih_heads ih_tails =>
    cases h' with
    | same => exact absurd rfl differ
    | ends _ not_pairs => exact absurd rfl (not_pairs _ _ _ _ rfl)
    | halt _ heads' => cases ih_heads heads'
    | next _ heads' tails' =>
      cases ih_heads heads'
      exact ih_tails tails'

/-- It does not matter which of the terms stands on the left. -/
theorem symm (h : s.Unifies a b r) : s.Unifies b a r := by
  induction h with
  | same => exact .same
  | @ends s a b differ not_pairs =>
    rw [unifyEnds_comm]
    exact .ends differ.symm fun h t h' t' at_b at_a => not_pairs h' t' h t at_a at_b
  | halt differ _ ih => exact .halt differ.symm ih
  | next differ _ _ ih_heads ih_tails => exact .next differ.symm ih_heads ih_tails

/-- An unbound variable reads like nothing but itself. -/
theorem eq_of_walkDeep_var {v : Var} (unbound : s.get? v = none) (unbound' : ∀ w, b = .var w → s.get? w = none)
    (alike : s.walkDeep (.var v) = s.walkDeep b) : b = .var v := by
  rw [walkDeep_eq_of_unbound (by simpa using unbound)] at alike
  cases b with
  | var w =>
    rw [walkDeep_eq_of_unbound (by simpa using unbound' w rfl)] at alike
    exact alike.symm
  | nil => cases alike
  | atom a => cases alike
  | pair h t => cases alike

/-- Terms that read alike are unified already. -/
theorem of_alike (h : s.Unifies a b r) (acyclic : s.Acyclic) (end_a : ∀ v, a = .var v → s.get? v = none)
    (end_b : ∀ v, b = .var v → s.get? v = none) (alike : s.walkDeep a = s.walkDeep b) : r = .ok s := by
  induction h with
  | same => rfl
  | @ends s a b differ not_pairs =>
    exfalso
    by_cases var_a : ∃ v, a = .var v
    · obtain ⟨v, rfl⟩ := var_a
      exact differ (eq_of_walkDeep_var (end_a v rfl) end_b alike).symm
    by_cases var_b : ∃ v, b = .var v
    · obtain ⟨v, rfl⟩ := var_b
      exact differ (eq_of_walkDeep_var (end_b v rfl) end_a alike.symm)
    exact BindingLaws.ends_differ differ (fun v at_a => var_a ⟨v, at_a⟩) (fun v at_b => var_b ⟨v, at_b⟩)
      not_pairs _ alike
  | @halt s h t h' t' why differ heads ih =>
    have same_heads : s.walkDeep h = s.walkDeep h' := (Term.pair.inj alike).1
    have walked := ih acyclic (fun v => acyclic.get?_of_walk) (fun v => acyclic.get?_of_walk)
      (by rw [acyclic.walkDeep_walk, acyclic.walkDeep_walk, same_heads])
    cases walked
  | @next s u h t h' t' r differ heads tails ih_heads ih_tails =>
    obtain ⟨same_heads, same_tails⟩ : s.walkDeep h = s.walkDeep h' ∧ s.walkDeep t = s.walkDeep t' :=
      Term.pair.inj alike
    have walked := ih_heads acyclic (fun v => acyclic.get?_of_walk) (fun v => acyclic.get?_of_walk)
      (by rw [acyclic.walkDeep_walk, acyclic.walkDeep_walk, same_heads])
    cases walked
    exact ih_tails acyclic (fun v => acyclic.get?_of_walk) (fun v => acyclic.get?_of_walk)
      (by rw [acyclic.walkDeep_walk, acyclic.walkDeep_walk, same_tails])

end Unifies

/-! ## What is unified reads alike -/

variable {K : Scope} {T : Term → Prop} {v w : Var}

/-- A variable that is left with one integer at most stands for it. -/
theorem Orderly.walk_of_within {n : Int} (h : s.Orderly K) (within : s.Within v (.singleton n)) :
    s.walk (.var v) = .int n := by
  rcases within with ⟨m, mem, value⟩ | ⟨w, a, _, found, sub⟩
  · rwa [← Domain.mem_singleton.mp mem]
  · obtain ⟨k, in_k, m, in_m, differ⟩ := (h.domain w a found).exists_two
    exact absurd ((Domain.mem_singleton.mp (sub k in_k)).trans (Domain.mem_singleton.mp (sub m in_m)).symm) differ

theorem Acyclic.walkDeep_of_bound (h : s.Acyclic) (bound : s.get? v = some b) :
    s.walkDeep (.var v) = s.walkDeep b := h.agrees_image v b bound

/-- Terms that read alike go on reading alike. -/
theorem Acyclic.alike_of_extends (h : t.Acyclic) (ext : s.Extends t) (alike : s.walkDeep a = s.walkDeep b) :
    t.walkDeep a = t.walkDeep b := by
  have agrees : s.Agrees (t.image t.size) := h.agrees_image.of_extends ext
  calc t.walkDeep a = t.walkDeep (s.walkDeep a) := (agrees.expand_walkDeep a).symm
    _ = t.walkDeep (s.walkDeep b) := by rw [alike]
    _ = t.walkDeep b := agrees.expand_walkDeep b

/-- Where a variable becomes another one, it is bound to it. -/
theorem OrderlyIn.alike_retire (h : s.OrderlyIn K T) (ints : ∀ n, isValue n = true → T (.int n))
    (retires : s.Retires w v) (good : T (.var w)) (run : s.retire w v = .ok t) (acyclic : t.Acyclic) :
    t.walkDeep (.var v) = t.walkDeep (.var w) := by
  obtain ⟨informs, _⟩ := informs_moveAll ints _ _ _ (h.bindRetired retires good)
    (fun a mem => h.orderly.suits_retired retires mem) run
  exact acyclic.walkDeep_of_bound (informs.extends_ v _ (by rw [get?_bindBare, if_pos rfl]))

theorem OrderlyIn.alike_identify (h : s.OrderlyIn K T) (ints : ∀ n, isValue n = true → T (.int n))
    (unbound_v : s.get? v = none) (unbound_w : s.get? w = none) (differ : v ≠ w) (good_v : T (.var v))
    (good_w : T (.var w)) (run : s.identify v w = .ok t) (acyclic : t.Acyclic) :
    t.walkDeep (.var v) = t.walkDeep (.var w) := by
  obtain ⟨retires, same⟩ | ⟨retires, same⟩ := identify_cases unbound_v unbound_w differ
  · exact (h.alike_retire ints retires good_v (same ▸ run) acyclic).symm
  · exact h.alike_retire ints retires good_w (same ▸ run) acyclic

/-- A variable that takes a value is bound to it, by itself or by a solver that leaves no
    other integer to it. -/
theorem OrderlyIn.alike_instantiate (h : s.OrderlyIn K T) (ints : ∀ n, isValue n = true → T (.int n))
    (unbound : s.get? v = none) (sized : b.Sized) (good_b : T b) (run : s.instantiate v b = .ok t)
    (good : t.Orderly K) : t.walkDeep (.var v) = t.walkDeep b := by
  have bound : (s.bindBare v b).get? v = some b := by rw [get?_bindBare, if_pos rfl]
  cases h.orderly.instantiates run with
  | narrowed _ _ value reduced =>
    subst value
    have within := h.orderly.within_solveReduced (Solver.canonical_singleton sized) Domain.noConfusion reduced
    rw [← good.acyclic.walkDeep_walk, good.walk_of_within within]
  | bound _ _ _ done =>
    subst done
    exact good.acyclic.walkDeep_of_bound bound
  | propagated fresh _ at_v ran =>
    have informs := (h.bindBare unbound fresh sized good_b).informs_solveWith ints (carries_of_watchers at_v) ran
    exact good.acyclic.walkDeep_of_bound (informs.extends_ v b bound)

/-- Two ends that are made equal read alike. -/
theorem OrderlyIn.alike_unifyEnds (h : s.OrderlyIn K T) (ints : ∀ n, isValue n = true → T (.int n))
    (end_a : ∀ v, a = .var v → s.get? v = none) (end_b : ∀ v, b = .var v → s.get? v = none) (good_a : T a)
    (good_b : T b) (sized_a : a.Sized) (sized_b : b.Sized) (run : s.unifyEnds a b = .ok t) (good : t.Orderly K) :
    t.walkDeep a = t.walkDeep b := by
  unfold Subst.unifyEnds at run
  split at run
  · rename_i same
    rw [same]
  rename_i differ
  split at run
  · rename_i v w
    exact h.alike_identify ints (end_a v rfl) (end_b w rfl) (fun same => differ (congrArg _ same)) good_a good_b run
      good.acyclic
  · rename_i v not_var
    exact h.alike_instantiate ints (end_a v rfl) sized_b good_b run good
  · rename_i w not_var
    exact (h.alike_instantiate ints (end_b w rfl) sized_a good_a run good).symm
  · cases run

/-- Terms that are unified read alike from then on. -/
theorem Unifies.alike {W : Nat} (h : s.Unifies a b r) : ∀ {t}, r = .ok t →
    s.OrderlyIn K (fun t => t.width ≤ W ∧ t.Sized) → a.width ≤ W ∧ a.Sized → b.width ≤ W ∧ b.Sized →
    (∀ v, a = .var v → s.get? v = none) → (∀ v, b = .var v → s.get? v = none) →
    t.OrderlyIn K (fun t => t.width ≤ W ∧ t.Sized) ∧ s.Extends t ∧ t.walkDeep a = t.walkDeep b := by
  have laws := orderlyLaws K W
  have ints (n : Int) (value : isValue n = true) : (Term.int n).width ≤ W ∧ (Term.int n).Sized :=
    ⟨Nat.zero_le W, value⟩
  induction h with
  | same =>
    rintro t ⟨⟩ good _ _ _ _
    exact ⟨good, .refl _, rfl⟩
  | @ends s a b differ not_pairs =>
    intro t run good good_a good_b end_a end_b
    have solved := laws.unifyEnds good end_a end_b good_a good_b not_pairs
    rw [run] at solved
    obtain ⟨good', ext, _⟩ := solved
    exact ⟨good', ext, good.alike_unifyEnds ints end_a end_b good_a good_b good_a.2 good_b.2 run good'.orderly⟩
  | halt => exact fun run => by cases run
  | @next s u h t h' t' r differ heads tails ih_heads ih_tails =>
    intro v run good good_a good_b _ _
    obtain ⟨good_h, good_t⟩ := laws.parts good_a
    obtain ⟨good_h', good_t'⟩ := laws.parts good_b
    have acyclic := good.orderly.acyclic
    obtain ⟨good_u, ext, alike⟩ := ih_heads rfl good (laws.walk good good_h) (laws.walk good good_h')
      (fun v => acyclic.get?_of_walk) fun v => acyclic.get?_of_walk
    have acyclic_u := good_u.orderly.acyclic
    obtain ⟨good_v, ext', alike'⟩ := ih_tails run good_u (laws.walk good_u good_t) (laws.walk good_u good_t')
      (fun v => acyclic_u.get?_of_walk) fun v => acyclic_u.get?_of_walk
    have acyclic_v := good_v.orderly.acyclic
    -- Reading a part before it is unified, and then the whole, is reading the whole.
    have read {s : Subst} (ext : s.Extends v) (a : Term) : v.walkDeep (s.walk a) = v.walkDeep a :=
      (acyclic_v.agrees_image.of_extends ext).expand_walk a
    have heads_alike : v.walkDeep h = v.walkDeep h' := by
      rw [← read (ext.trans ext') h, ← read (ext.trans ext') h']
      exact acyclic_v.alike_of_extends ext' alike
    have tails_alike : v.walkDeep t = v.walkDeep t' := by rw [← read ext' t, ← read ext' t', alike']
    exact ⟨good_v, ext.trans ext', congrArg₂ Term.pair heads_alike tails_alike⟩

/-! ## Symmetry and idempotence -/

theorem Orderly.unify_ne_exhausted (h : s.Orderly K) (sized_a : a.Sized) (sized_b : b.Sized) :
    s.unify a b ≠ .error .exhausted := by
  intro spent
  have := h.unify sized_a sized_b
  rwa [spent] at this

theorem Orderly.unifies (h : s.Orderly K) (sized_a : a.Sized) (sized_b : b.Sized) :
    s.Unifies (s.walk a) (s.walk b) (s.unify a b) := unifies_unify (h.unify_ne_exhausted sized_a sized_b)

/-- Terms read alike once they are unified. -/
theorem Orderly.alike_of_unify (h : s.Orderly K) (sized_a : a.Sized) (sized_b : b.Sized)
    (run : s.unify a b = .ok t) : t.Orderly K ∧ t.walkDeep a = t.walkDeep b := by
  have acyclic := h.acyclic
  have laws := orderlyLaws K (max s.width (max a.width b.width))
  have good := h.inWidth (W := max s.width (max a.width b.width)) (by omega)
  obtain ⟨good_t, ext, alike⟩ := (h.unifies sized_a sized_b).alike run good
    (laws.walk good ⟨by omega, sized_a⟩) (laws.walk good ⟨by omega, sized_b⟩)
    (fun v => acyclic.get?_of_walk) fun v => acyclic.get?_of_walk
  have agrees := good_t.orderly.acyclic.agrees_image.of_extends ext
  refine ⟨good_t.orderly, ?_⟩
  calc t.walkDeep a = t.walkDeep (s.walk a) := (agrees.expand_walk a).symm
    _ = t.walkDeep (s.walk b) := alike
    _ = t.walkDeep b := agrees.expand_walk b

/-- On terms that read alike unification leaves the substitution as it is. -/
theorem Orderly.unify_of_alike (h : s.Orderly K) (sized_a : a.Sized) (sized_b : b.Sized)
    (alike : s.walkDeep a = s.walkDeep b) : s.unify a b = .ok s :=
  (h.unifies sized_a sized_b).of_alike h.acyclic (fun _ => h.acyclic.get?_of_walk)
    (fun _ => h.acyclic.get?_of_walk) (by rw [h.acyclic.walkDeep_walk, h.acyclic.walkDeep_walk, alike])

/-- Unification comes to the same from either side, and what it answers is not changed by
    unifying the same terms again, or one of them with what it now reads as. -/
theorem Produced.unify_comm_idempotent (h : s.Produced) (sized_a : a.Sized) (sized_b : b.Sized) :
    s.unify a b = s.unify b a ∧
      ∀ t, s.unify a b = .ok t → t.unify a b = .ok t ∧ t.unify a (t.walkDeep a) = .ok t := by
  have orderly := h.orderly
  refine ⟨(orderly.unifies sized_a sized_b).unique (orderly.unifies sized_b sized_a).symm, fun t run => ?_⟩
  obtain ⟨good, alike⟩ := orderly.alike_of_unify sized_a sized_b run
  refine ⟨good.unify_of_alike sized_a sized_b alike, ?_⟩
  exact good.unify_of_alike sized_a (sized_walkDeep good.sized sized_a)
    (good.acyclic.agrees_image.expand_walkDeep a).symm

/-- Where `_0 + 1 = _1` is posted, `[_2 | _0]` is unified with `[_1 | 3]`: both read `[4 | 3]` then. -/
theorem unify_comm_idempotent_successor :
    let a : Term := .pair (.var ⟨2⟩) (.var ⟨0⟩)
    let b : Term := .pair (.var ⟨1⟩) (.int 3)
    ∃ s t : Subst, s.Produced ∧ a.Sized ∧ b.Sized ∧ s.unify a b = .ok t ∧
      t.walkDeep a = .pair (.int 4) (.int 3) ∧ s.unify a b = s.unify b a ∧
      t.unify a b = .ok t ∧ t.unify a (t.walkDeep a) = .ok t := by
  intro a b
  let stamped := (empty.freshMany 3).2.stamped (Relation.plusConst ⟨0⟩ 1 ⟨1⟩)
  let s := (stamped.2.solveWith [stamped.1]).toOption.getD empty
  let t := (s.unify a b).toOption.getD empty
  have solved : stamped.2.solveWith [stamped.1] = .ok s := eq_ok_of_isSome (by decide +kernel)
  have run : s.unify a b = .ok t := eq_ok_of_isSome (by decide +kernel)
  have read : t.walkDeep a = .pair (.int 4) (.int 3) := by decide +kernel
  have produced : s.Produced := by
    refine produced_of_post (r := .plusConst ⟨0⟩ 1 ⟨1⟩) (n := 3) ?_ ?_
    · simp [Relation.Proper, isValue, minValue, maxValue]
    show Answers.ofAttempt (stamped.2.solveWith [stamped.1]) = _
    rw [solved]
    rfl
  have sized_a : a.Sized := ⟨trivial, trivial⟩
  have sized_b : b.Sized := ⟨trivial, rfl⟩
  -- What was run to get here does not matter any more.
  clear_value s t
  obtain ⟨comm, idempotent⟩ := @Produced.unify_comm_idempotent s a b produced sized_a sized_b
  exact ⟨s, t, produced, sized_a, sized_b, run, read, comm, idempotent t run⟩

end Subst

end ConstraintLogic
