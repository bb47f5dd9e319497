import ConstraintLogic.Proofs.Unification.Viability

/-!
# Unification ends

Unification takes its pairs off a list; a variable there may be bound to a term that is much
larger than the pair. Read deeply, terms have no such variables, and it is on what they come to
that the argument rests: equal terms are taken apart no further than they can be read, and of
two that differ, each step down has the heads behind it when it goes on with the tails. Between
the steps solvers are run, and these call unification again, which then ends at once.

Results:
* `Subst.Viable.finishes_instantiate`, `Subst.Viable.finishes_identify`: bindings are made in rounds.
* `Subst.serves_unifyWithin`: the unification that a solver calls is over in a few rounds.
* `Subst.Unifies.finishes`: pairs are taken off the list until it is empty or there is a conflict.
* `Subst.Acyclic.unify_ends`: unification ends, with all that it calls.
-/

namespace ConstraintLogic

namespace Subst

open Attempt (Finishes Ends)

variable {ι : Type} {call : ι → Nat → Unifier} {W : Nat} {s t u : Subst} {v w : Var} {a b : Term}

/-! ## Bindings -/

theorem Acyclic.finishes_occursWithin (h : s.Acyclic) (v : Var) (b : Term) :
    Finishes (· = s.occurs v b) (fun (_ : ι) n => s.occursWithin v n [b]) (.ok (s.occurs v b)) := by
  refine ⟨?_, rfl⟩
  obtain ⟨comes, -⟩ : Finishes _ (fun (_ : ι) n => s.occursWithin v n [b]) _ := h.occursWithin v [b]
  rwa [List.any_cons, List.any_nil, Bool.or_false] at comes

/-- A computation that checks first whether a variable occurs in a term. -/
theorem Acyclic.finishes_occurs {α : Type} {R : α → Prop} {r : Attempt α} (h : s.Acyclic)
    {g : ι → Nat → Bool → Attempt α} (rest : Finishes R (fun i n => g i n (s.occurs v b)) r) :
    Finishes R (fun i n => s.occursWithin v n [b] >>= g i n) r :=
  (h.finishes_occursWithin v b).bind (k := fun _ => r) fun _ same => same ▸ rest

namespace Viable

/-- Attributes are consulted one after another. -/
theorem finishes_validateAll (serves : Serves call) (v : Var) (sized : b.Sized) (as : List Attribute)
    (fit : ∀ a ∈ as, a.Fit) (h : s.Viable W) :
    Finishes (s.Grown W) (fun i n => as.foldlM (fun t a => t.validateBy n (call i n) v b a) s)
      (as.foldlM (fun t a => t.validate v b a) s) :=
  Finishes.foldlM as (fun a mem _ grown =>
    (grown.toViable.finishes_validate serves v sized (fit a mem)).mono fun _ => grown.trans) s h.grown

theorem fit_of_mem (h : s.Viable W) {c : Attribute} (mem : c ∈ (s.attributes v).toList) : c.Fit :=
  h.fit v c.name c (Attributes.mem_toList.mp mem)

/-- Binding a variable to a term ends. -/
theorem finishes_instantiate (h : s.Viable W) (serves : Serves call) (unbound : s.get? v = none)
    (good : b.width ≤ W ∧ b.Sized) :
    Finishes (s.Grown W) (fun i n => s.instantiateBy n (call i n) v b) (s.instantiate v b) := by
  unfold instantiateBy instantiate
  refine h.acyclic.finishes_occurs ?_
  cases fresh : s.occurs v b with
  | true => exact .conflict
  | false =>
    simp only [Bool.false_eq_true, if_false]
    cases found : (s.attributes v).toList.find? Attribute.delegating with
    | some c => exact h.finishes_validate serves v good.2 (h.fit_of_mem (List.mem_of_find?_eq_some found))
    | none =>
      have bare := h.bindBare unbound fresh good
      exact (bare.toViable.finishes_validateAll serves v good.2 _ fun c => h.fit_of_mem).mono fun _ => bare.trans

/-- Moving an attribute ends. -/
theorem finishes_moveAttr (h : s.Viable W) (serves : Serves call) (keep : Var) (joined : List Attribute)
    {c : Attribute} (fit : c.Fit) :
    Finishes (fun r : Subst × List Attribute => s.Grown W r.1)
      (fun i n => Subst.moveAttrBy n (call i n) keep (s, joined) c) (Subst.moveAttr keep (s, joined) c) := by
  -- Where the survivor has a value by now, the attribute is consulted on it.
  have consult (b : Term) (not_var : ∀ w, b ≠ .var w) (walked : s.walk (.var keep) = b) :
      Finishes (fun r : Subst × List Attribute => s.Grown W r.1)
        (fun i n => do return (← s.validateBy n (call i n) keep b c, joined))
        (do return (← s.validate keep b c, joined)) := by
    have sized : b.Sized := by
      rcases s.walk_eq_or_bound (.var keep) with stays | ⟨w, found⟩
      · exact absurd (walked.symm.trans stays) (not_var keep)
      · exact walked ▸ (h.bound w _ found).2
    exact (h.finishes_validate serves keep sized fit).bind fun t grown => .ok grown
  unfold moveAttrBy moveAttr
  refine h.acyclic.finishes_walk ?_
  cases walked : s.walk (.var keep) with
  | var rep =>
    simp only [walked]
    cases found : s.getAttr rep c.name with
    | none => exact .ok (h.setAttr rep fit)
    | some e =>
      dsimp only
      refine (h.finishes_combine serves rep (h.fit rep _ e found) fit).bind ?_
      rintro ⟨merged, t⟩ ⟨grown, fits⟩
      refine grown.acyclic.finishes_walk ?_
      simp only [walkVar_eq_some]
      split
      · cases merged with
        | none => exact .ok (grown.trans (grown.removeAttr rep c.name))
        | some m => exact .ok (grown.trans (grown.setAttr rep (fits m rfl)))
      · exact .ok grown
  | _ =>
    simp only [walked]
    exact consult _ (by simp) walked

/-- Checking an attribute that has moved ends. -/
theorem finishes_settleAt (h : s.Viable W) (serves : Serves call) (keep : Var) (c : Attribute) :
    Finishes (s.Grown W) (fun i n => Subst.settleAtBy n (call i n) keep s c) (Subst.settleAt keep s c) := by
  unfold settleAtBy settleAt
  refine h.acyclic.finishes_walk ?_
  cases walked : s.walk (.var keep) with
  | var rep => exact h.finishes_settle serves rep c
  | _ => exact .ok h.grown

/-- Moving all attributes of a variable to another one, to which it is bound, ends. -/
theorem finishes_retire (h : s.Viable W) (serves : Serves call) {keep retire : Var}
    (unbound_keep : s.get? keep = none) (unbound : s.get? retire = none) (differ : retire ≠ keep)
    (good : (Term.var keep).width ≤ W) :
    Finishes (s.Grown W)
      (fun i n => (s.attributes retire).toList.foldlM (Subst.moveAttrBy n (call i n) keep)
          (s.bindBare retire (.var keep), []) >>=
        fun (t, joined) => joined.foldlM (Subst.settleAtBy n (call i n) keep) t)
      ((s.attributes retire).toList.foldlM (Subst.moveAttr keep) (s.bindBare retire (.var keep), []) >>=
        fun (t, joined) => joined.foldlM (Subst.settleAt keep) t) := by
  have bare := h.bindBare unbound (occurs_var_of_ne unbound_keep differ) ⟨good, trivial⟩
  have moved := Finishes.foldlM (Q := fun r : Subst × List Attribute => s.Grown W r.1)
    (g := fun i n => Subst.moveAttrBy n (call i n) keep) (k := Subst.moveAttr keep) (s.attributes retire).toList
    (fun c mem r grown => (grown.toViable.finishes_moveAttr serves keep r.2 (h.fit_of_mem mem)).mono
      fun _ => grown.trans) (s.bindBare retire (.var keep), []) bare
  refine moved.bind ?_
  rintro ⟨t, joined⟩ grown
  exact Finishes.foldlM joined (fun c _ u grown => (grown.toViable.finishes_settleAt serves keep c).mono
    fun _ => grown.trans) t grown

/-- Making two variables one ends. -/
theorem finishes_identify (h : s.Viable W) (serves : Serves call) (unbound_v : s.get? v = none)
    (unbound_w : s.get? w = none) (differ : v ≠ w) (good_v : (Term.var v).width ≤ W)
    (good_w : (Term.var w).width ≤ W) :
    Finishes (s.Grown W) (fun i n => s.identifyBy n (call i n) v w) (s.identify v w) := by
  unfold identifyBy identify
  by_cases less : v.index < w.index
  · simp only [if_pos less]
    exact h.finishes_retire serves unbound_v unbound_w differ.symm good_v
  · simp only [if_neg less]
    exact h.finishes_retire serves unbound_w unbound_v differ good_w

/-- Unifying two terms that are not both pairs ends. -/
theorem finishes_unifyEnds (h : s.Viable W) (serves : Serves call) (differ : a ≠ b)
    (end_a : ∀ v, a = .var v → s.get? v = none) (end_b : ∀ v, b = .var v → s.get? v = none)
    (good_a : a.width ≤ W ∧ a.Sized) (good_b : b.width ≤ W ∧ b.Sized) :
    Finishes (s.Grown W) (fun i n => s.unifyEndsBy n (call i n) a b) (s.unifyEnds a b) := by
  unfold unifyEnds
  rw [if_neg differ]
  cases a with
  | var v =>
    cases b with
    | var w =>
      exact h.finishes_identify serves (end_a v rfl) (end_b w rfl) (fun same => differ (congrArg _ same)) good_a.1
        good_b.1
    | _ => exact h.finishes_instantiate serves (end_a v rfl) good_b
  | _ =>
    cases b with
    | var w => exact h.finishes_instantiate serves (end_b w rfl) good_a
    | _ => exact .conflict

end Viable

/-! ## Calls from a solver -/

/-- A variable without a domain is bound to an integer as it is bound when a solver is written
    back: no solver is run for it. -/
theorem instantiateBy_int {n : Nat} {call : Unifier} {k : Int} (enough : 2 ≤ n) (unbound : s.get? v = none)
    (domain : (s.attributes v).domain = none) (watchers : (s.attributes v).watchers = none) :
    s.instantiateBy n call v (.int k) = s.assign v k := by
  obtain ⟨n, rfl⟩ : ∃ m, n = m + 2 := ⟨n - 2, by omega⟩
  have absent : s.occursWithin v (n + 2) [.int k] = .ok false := rfl
  unfold instantiateBy assign
  rw [absent]
  generalize s.attributes v = m at domain watchers
  obtain ⟨allowed, _, _, tag, zero⟩ := m
  cases domain
  cases watchers
  cases zero with
  | some z =>
    have consulted : s.validate v (.int k) (.zero z) =
        if k = 0 then .ok ((s.dropAttrs v).bind v (.str "zero")) else .error .conflict := by
      simp [validate, Term.int, Term.asInt?, isBound, unbound]
    refine Eq.trans ?_ consulted
    cases allowed <;> cases tag <;> rfl
  | none =>
    cases allowed with
    | none => cases tag <;> rfl
    | some ns =>
      have consulted : validateBy (n + 2) call ((s.dropAttrs v).bind v (.int k)) v (.int k) (.allowed ns) =
          if ns.val.contains k then .ok ((s.dropAttrs v).bind v (.int k)) else .error .conflict := rfl
      -- A tag that is consulted after the list says nothing.
      refine Eq.trans ?_ consulted
      cases tag <;>
        exact bind_pure (validateBy (n + 2) call ((s.dropAttrs v).bind v (.int k)) v (.int k) (.allowed ns))

/-- The unification that a solver calls is over in a few rounds. -/
theorem serves_unifyWithin : Serves fun (cell : Nat → Bool) n a b => unifyWithin cell n [(a, b)] := by
  refine ⟨3, fun cell n le s v k unbound domain watchers => ?_⟩
  obtain ⟨n, rfl⟩ : ∃ m, n = m + 3 := ⟨n - 3, by omega⟩
  have walk_v : s.walkWithin (n + 2) (.var v) = .ok (.var v) := by simp [walkWithin, unbound]
  have walk_k : s.walkWithin (n + 2) (.int k) = .ok (.int k) := rfl
  have bound : unifyWithin cell (n + 3) [(.var v, .int k)] s =
      s.instantiateBy (n + 2) (fun a b => unifyWithin cell (n + 2) [(a, b)]) v (.int k) >>=
        unifyWithin cell (n + 2) [] := by
    rw [unifyWithin, walk_v, walk_k]
    rfl
  show unifyWithin cell (n + 3) [(.var v, .int k)] s = _
  rw [bound, instantiateBy_int (by omega) unbound domain watchers]
  cases s.assign v k <;> rfl

/-! ## The list of pairs -/

variable {R : Subst → Prop} {work : List (Term × Term)} {r : Attempt Subst}

/-- Two terms that are no one cell are taken for one only if they are equal and no pairs. -/
theorem same_of_ne (differ : a ≠ b) (c : Bool) : a.same (c && a = b) b = false := by
  rw [decide_eq_false differ, Bool.and_false]
  cases a <;> cases b <;> simp_all [Term.same]

/-- The parts of a pair have its variables and integers. -/
theorem pair_fits {h t : Term} (good : (Term.pair h t).width ≤ W ∧ (Term.pair h t).Sized) :
    (h.width ≤ W ∧ h.Sized) ∧ t.width ≤ W ∧ t.Sized := by
  obtain ⟨below, sized_h, sized_t⟩ := good
  rw [Term.width_pair] at below
  exact ⟨⟨by omega, sized_h⟩, by omega, sized_t⟩

/-- Two terms that are walked to one that is no pair are passed over. -/
theorem Acyclic.finishes_leaf (h : s.Acyclic) (alike : s.walk a = s.walk b) (not_pair : ∀ d e, s.walk b ≠ .pair d e)
    (rest : Finishes R (fun cell n => unifyWithin cell n work s) r) :
    Finishes R (fun cell n => unifyWithin cell n ((a, b) :: work) s) r := by
  refine Finishes.succ (h.finishes_walk (h.finishes_walk ?_)) fun _ _ => rfl
  rw [alike]
  cases walked : s.walk b with
  | pair d e => exact absurd walked (not_pair d e)
  | _ => simpa [Term.same] using rest

/-- Two terms that are walked to one are passed over, or taken apart as far as they can be read. -/
theorem Acyclic.finishes_alike (h : s.Acyclic) (read : Term) : ∀ (a b : Term) (work : List (Term × Term)),
    s.walk a = s.walk b → s.walkDeep a = read → Finishes R (fun cell n => unifyWithin cell n work s) r →
    Finishes R (fun cell n => unifyWithin cell n ((a, b) :: work) s) r := by
  induction read with
  | pair d e ih_d ih_e =>
    intro a b work alike reads rest
    by_cases pair : ∃ h t, s.walk b = .pair h t
    · obtain ⟨h', t, walked⟩ := pair
      rw [← h.walkDeep_walk, alike, walked] at reads
      obtain ⟨reads_h, reads_t⟩ : s.walkDeep h' = d ∧ s.walkDeep t = e := Term.pair.inj reads
      refine Finishes.succ (h.finishes_walk (h.finishes_walk ?_)) fun _ _ => rfl
      simp only [alike, walked, Term.same, decide_true, Bool.and_true]
      exact Finishes.ite (c := fun cell n => cell n) rest
        (ih_d h' h' _ rfl reads_h (ih_e t t work rfl reads_t rest))
    · exact h.finishes_leaf alike (fun h t walked => pair ⟨h, t, walked⟩) rest
  | _ =>
    intro a b work alike reads rest
    refine h.finishes_leaf alike (fun d e walked => ?_) rest
    rw [← h.walkDeep_walk, alike, walked] at reads
    cases reads

/-- A pair of differing pairs is taken apart. -/
theorem Acyclic.finishes_parts (acyclic : s.Acyclic) {c d h t h' t' : Term} (at_c : s.walk c = .pair h t)
    (at_d : s.walk d = .pair h' t') (differ : Term.pair h t ≠ .pair h' t')
    (rest : Finishes R (fun cell n => unifyWithin cell n ((h, h') :: (t, t') :: work) s) r) :
    Finishes R (fun cell n => unifyWithin cell n ((c, d) :: work) s) r := by
  refine Finishes.succ (acyclic.finishes_walk (acyclic.finishes_walk ?_)) fun _ _ => rfl
  simpa only [at_c, at_d, same_of_ne differ, Bool.false_eq_true, if_false] using rest

/-- A pair of differing ends is unified, and the others are gone on with from there. -/
theorem Acyclic.finishes_ends (acyclic : s.Acyclic) {c d : Term} (at_c : s.walk c = a) (at_d : s.walk d = b)
    (differ : a ≠ b) (not_pairs : ∀ h t h' t', a = .pair h t → b ≠ .pair h' t')
    (rest : Finishes R (fun cell n => s.unifyEndsBy n (fun a b => unifyWithin cell n [(a, b)]) a b >>=
      unifyWithin cell n work) r) :
    Finishes R (fun cell n => unifyWithin cell n ((c, d) :: work) s) r := by
  refine Finishes.succ (acyclic.finishes_walk (acyclic.finishes_walk ?_)) fun _ _ => rfl
  simp only [at_c, at_d, same_of_ne differ, Bool.false_eq_true, if_false]
  cases a with
  | pair h t =>
    cases b with
    | pair h' t' => exact absurd rfl (not_pairs h t h' t' rfl)
    | _ => exact rest
  | _ => exact rest

/-- What unification comes to, it comes to in rounds: the pair is taken off the list, and the
    others are gone on with where it is unified. -/
theorem Unifies.finishes (h : s.Unifies a b r) : s.Viable W → a.width ≤ W ∧ a.Sized → b.width ≤ W ∧ b.Sized →
    (∀ v, a = .var v → s.get? v = none) → (∀ v, b = .var v → s.get? v = none) →
    Ends (s.Grown W) r ∧ ∀ {R : Subst → Prop} {k : Subst → Attempt Subst} (c d : Term) (work : List (Term × Term)),
      s.walk c = a → s.walk d = b →
      (∀ t, r = .ok t → Finishes R (fun cell n => unifyWithin cell n work t) (k t)) →
      Finishes R (fun cell n => unifyWithin cell n ((c, d) :: work) s) (r >>= k) := by
  induction h with
  | @same s a =>
    intro viable _ _ _ _
    refine ⟨viable.grown, fun c d work at_c at_d rest => ?_⟩
    exact viable.acyclic.finishes_alike _ c d work (at_c.trans at_d.symm) rfl (rest s rfl)
  | ends differ not_pairs =>
    intro viable good_a good_b end_a end_b
    have made := viable.finishes_unifyEnds serves_unifyWithin differ end_a end_b good_a good_b
    refine ⟨made.ends, fun c d work at_c at_d rest => ?_⟩
    exact viable.acyclic.finishes_ends at_c at_d differ not_pairs
      (made.exactly.bind (g := fun cell n => unifyWithin cell n work) rest)
  | @halt s h t h' t' why differ heads ih =>
    intro viable good_a good_b _ _
    have acyclic := viable.acyclic
    obtain ⟨good_h, -⟩ := pair_fits good_a
    obtain ⟨good_h', -⟩ := pair_fits good_b
    obtain ⟨ends, finishes⟩ := ih viable (viable.walk good_h) (viable.walk good_h') (fun _ => acyclic.get?_of_walk)
      fun _ => acyclic.get?_of_walk
    refine ⟨ends, fun c d work at_c at_d _ => acyclic.finishes_parts at_c at_d differ ?_⟩
    exact finishes (k := .ok) h h' ((t, t') :: work) rfl rfl nofun
  | @next s u h t h' t' r differ heads tails ih_heads ih_tails =>
    intro viable good_a good_b _ _
    have acyclic := viable.acyclic
    obtain ⟨good_h, good_t⟩ := pair_fits good_a
    obtain ⟨good_h', good_t'⟩ := pair_fits good_b
    obtain ⟨grown, finishes⟩ := ih_heads viable (viable.walk good_h) (viable.walk good_h')
      (fun _ => acyclic.get?_of_walk) fun _ => acyclic.get?_of_walk
    have viable_u : u.Viable W := Grown.toViable grown
    obtain ⟨ends, finishes'⟩ := ih_tails viable_u (viable_u.walk good_t) (viable_u.walk good_t')
      (fun _ => viable_u.acyclic.get?_of_walk) fun _ => viable_u.acyclic.get?_of_walk
    refine ⟨ends.mono fun _ => Grown.trans grown, fun {R k} c d work at_c at_d rest => ?_⟩
    refine acyclic.finishes_parts at_c at_d differ (finishes (k := fun _ => r >>= k) h h' ((t, t') :: work) rfl rfl ?_)
    rintro _ ⟨⟩
    exact finishes' t t' work rfl rfl rest

/-! ## Unification -/

/-- What ends solves every equation that is asked of no reading. -/
theorem solves_of_ends {E : (Var → Term) → Prop} (h : Ends (s.Grown W) r) :
    Solves (Viable W) (fun _ _ => False) Fault.IsOverflow s E r := by
  match r, h with
  | .ok t, grown => exact ⟨grown.toViable, grown.extends_, fun _ => (false_and _).symm ▸ Iff.rfl⟩
  | .error .conflict, _ => exact fun _ => False.elim
  | .error (.stop (.fault f)), overflow => exact overflow

/-- Bindings in viable substitutions follow the laws of binding, if no reading is looked at. -/
theorem viableLaws (W : Nat) : BindingLaws (Viable W) (fun _ _ => False) Fault.IsOverflow
    (fun t => t.width ≤ W ∧ t.Sized) W where
  parts := pair_fits
  below good := good.1
  acyclic h := h.acyclic
  bound h := h.bound
  agrees _ := False.elim
  identify h unbound_v unbound_w differ good_v good_w :=
    solves_of_ends (h.finishes_identify serves_unifyWithin unbound_v unbound_w differ good_v.1 good_w.1).ends
  instantiate h unbound _ _ good := solves_of_ends (h.finishes_instantiate serves_unifyWithin unbound good).ends

/-- The attributes of a formed substitution are fit. -/
theorem Formed.fit (h : s.Formed) (v : Var) (name : AttrName) (c : Attribute) (found : s.getAttr v name = some c) :
    c.Fit := by
  have kind := Attributes.name_of_get? found
  subst kind
  cases c with
  | domain d =>
    have canonical := h.canonical v
    rwa [storedDomain, getAttr_domain_iff.mp found] at canonical
  | watchers ps =>
    exact fun p mem => (h.proper v p (mem_storedWatchers_iff.mpr ⟨ps, getAttr_watchers_iff.mp found, mem⟩)).sized
  | _ => trivial

/-- Unification ends from some number of rounds on, with all that it calls: the list of pairs,
    each walk and each occurs check, each run of a solver and each unification that a solver
    calls in turn. It ends in a substitution on which it can be called again, in a conflict or
    in an overflow. Loading, which a solver does by itself, is never cut short. -/
theorem Acyclic.unify_ends (acyclic : s.Acyclic) (sized : ∀ v c, s.get? v = some c → c.Sized)
    (fit : ∀ v name c, s.getAttr v name = some c → c.Fit) (sized_a : a.Sized) (sized_b : b.Sized) :
    (∃ n₀, ∀ cell n, n₀ ≤ n → unifyWithin cell n [(a, b)] s = s.unify a b) ∧
      Ends (s.Grown (max s.width (max a.width b.width))) (s.unify a b) ∧
      (∀ c, ∃ n₀, ∀ n, n₀ ≤ n → s.walkWithin n c = .ok (s.walk c)) ∧
      (∀ v c, ∃ n₀, ∀ n, n₀ ≤ n → s.occursWithin v n [c] = .ok (s.occurs v c)) ∧
      ∀ (x : Solver) v n, x.subst.watchCount < n →
        x.load v = if x.domains.contains v then x else Solver.loadAll n [v] x := by
  have laws := viableLaws (max s.width (max a.width b.width))
  have viable : s.Viable (max s.width (max a.width b.width)) := by
    refine ⟨acyclic, fun v c found => ?_, fit⟩
    have := (s.mentioned v c found).2
    exact ⟨by omega, sized v c found⟩
  have good_a : a.width ≤ max s.width (max a.width b.width) ∧ a.Sized := ⟨by omega, sized_a⟩
  have good_b : b.width ≤ max s.width (max a.width b.width) ∧ b.Sized := ⟨by omega, sized_b⟩
  have enough : s.unify a b ≠ .error .exhausted := by
    intro spent
    have solved := laws.unify viable good_a good_b
    rwa [spent] at solved
  obtain ⟨ends, finishes⟩ := (unifies_unify enough).finishes viable (viable.walk good_a) (viable.walk good_b)
    (fun _ => acyclic.get?_of_walk) fun _ => acyclic.get?_of_walk
  have listed := finishes (k := .ok) a b [] rfl rfl fun t _ => Finishes.succ (.ok (trivial : True)) fun _ _ => rfl
  obtain ⟨n₀, comes⟩ := listed.comes
  refine ⟨⟨n₀, fun cell n le => (comes cell n le).trans (bind_pure (s.unify a b))⟩, ends, fun c => ?_, fun v c => ?_,
    fun x v n less => x.load_of_le v less⟩
  · obtain ⟨⟨n₀, comes⟩, -⟩ : Finishes _ (fun (_ : Unit) n => s.walkWithin n c) _ := acyclic.walkWithin c
    exact ⟨n₀, comes ()⟩
  · obtain ⟨⟨n₀, comes⟩, -⟩ : Finishes _ (fun (_ : Unit) n => s.occursWithin v n [c]) _ :=
      acyclic.finishes_occursWithin v c
    exact ⟨n₀, comes ()⟩

/-- Where `_0 + _1 = _2` is posted, `[_0 | _1]` is unified with `[2 | 3]`: a solver is run for each of
    the variables, and the second one has `_2` unified with 5. -/
theorem unify_ends_sum :
    let a : Term := .pair (.var ⟨0⟩) (.var ⟨1⟩)
    let b : Term := .pair (.int 2) (.int 3)
    ∃ s t : Subst, s.Acyclic ∧ (∀ v c, s.get? v = some c → c.Sized) ∧
      (∀ v name c, s.getAttr v name = some c → c.Fit) ∧ a.Sized ∧ b.Sized ∧
      (s.storedWatchers ⟨2⟩).map Stamped.val = [.sum ⟨0⟩ ⟨1⟩ ⟨2⟩] ∧ s.unify a b = .ok t ∧
      t.walk (.var ⟨2⟩) = .int 5 ∧ (∃ n₀, ∀ cell n, n₀ ≤ n → unifyWithin cell n [(a, b)] s = .ok t) ∧ t.Acyclic := by
  intro a b
  let stamped := (empty.freshMany 3).2.stamped (Relation.sum ⟨0⟩ ⟨1⟩ ⟨2⟩)
  let s := (stamped.2.solveWith [stamped.1]).toOption.getD empty
  let t := (s.unify a b).toOption.getD empty
  have solved : stamped.2.solveWith [stamped.1] = .ok s := eq_ok_of_isSome (by decide +kernel)
  have run : s.unify a b = .ok t := eq_ok_of_isSome (by decide +kernel)
  have stored : (s.storedWatchers ⟨2⟩).map Stamped.val = [.sum ⟨0⟩ ⟨1⟩ ⟨2⟩] := by decide +kernel
  have read : t.walk (.var ⟨2⟩) = .int 5 := by decide +kernel
  have formed : s.Formed := by
    refine (produced_of_post (r := .sum ⟨0⟩ ⟨1⟩ ⟨2⟩) (n := 3) trivial ?_).formed
    show Answers.ofAttempt (stamped.2.solveWith [stamped.1]) = _
    rw [solved]
    rfl
  have sized_a : a.Sized := ⟨trivial, trivial⟩
  have sized_b : b.Sized := ⟨rfl, rfl⟩
  -- What was run to get here does not matter any more.
  clear_value s t
  obtain ⟨⟨n₀, comes⟩, ends, -⟩ :=
    Acyclic.unify_ends (a := a) (b := b) formed.acyclic formed.sized formed.fit sized_a sized_b
  rw [run] at comes ends
  exact ⟨s, t, formed.acyclic, formed.sized, formed.fit, sized_a, sized_b, stored, run, read, ⟨n₀, comes⟩,
    Viable.acyclic (Grown.toViable ends)⟩

end Subst

end ConstraintLogic
