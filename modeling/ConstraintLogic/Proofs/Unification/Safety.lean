import ConstraintLogic.Proofs.Goal.Information
import ConstraintLogic.Proofs.Solver.Safety

/-!
# Unification without overflows

Where the stored constraints are safe with the domains, unification does not come to an
overflow, and they are safe again when it is done. Where a variable becomes another one its
domain is in transit for a while; meanwhile the constraints are safe with the values that also
lie in that domain, and no constraint is run before it has arrived.

Results:
* `Subst.OrderlyIn.spared_instantiate`, `Subst.OrderlyIn.spared_retire`: binding a variable.
* `Subst.spareLaws`, `Subst.Orderly.spared_unify`: unification.
-/

namespace ConstraintLogic.Subst

variable {K : Scope} {T : Term → Prop} {s t : Subst} {v keep : Var} {d : Domain} {may : Var → Int → Prop}

/-! ## Attributes -/

/-- Nothing but bindings and attributes counts. -/
theorem Safe.congr (h : s.Safe) (bindings : t.bindings = s.bindings) (attributes : t.attributes = s.attributes) : t.Safe := by
  intro w p mem
  have same : t.leaves = s.leaves := funext fun _ => leaves_congr bindings attributes
  have stored : p ∈ s.storedWatchers w := by
    unfold storedWatchers at mem ⊢
    rwa [← attributes]
  rw [same]
  exact h w p stored

theorem SafeWith.bindBare {b : Term} (h : s.SafeWith may) : (s.bindBare v b).SafeWith may :=
  fun w p mem => h w p (mem_storedWatchers_bindBare.mp mem).2

theorem SafeWith.setWatchers {a : Stamped (List Propagator)} (h : s.SafeWith may) (safe : ∀ p ∈ a.val, p.val.Safe may) :
    (s.setAttr v (.watchers a)).SafeWith may := by
  intro w p mem
  obtain ⟨b, found, mem⟩ := mem_storedWatchers_iff.mp mem
  rw [attributes_setAttr] at found
  split at found
  · cases found
    exact safe p mem
  · exact h w p (mem_storedWatchers_iff.mpr ⟨b, found, mem⟩)

theorem SafeWith.setDomain {a : Stamped DomainFact} (h : s.SafeWith may) : (s.setAttr v (.domain a)).SafeWith may := by
  intro w p mem
  obtain ⟨b, found, mem⟩ := mem_storedWatchers_iff.mp mem
  refine h w p (mem_storedWatchers_iff.mpr ⟨b, ?_, mem⟩)
  rw [attributes_setAttr] at found
  split at found
  · exact found
  · exact found

theorem Safe.watchers (h : s.Safe) {a : Stamped (List Propagator)} (at_v : (s.attributes v).watchers = some a) :
    ∀ p ∈ a.val, p.val.Safe fun v n => n ∈ s.leaves v :=
  fun p mem => h v p (mem_storedWatchers_iff.mpr ⟨a, at_v, mem⟩)

/-- A variable without a domain can be bound and rid of its attributes. -/
theorem Safe.bindBare {b : Term} (h : s.Safe) (acyclic : s.Acyclic) (unbound : s.get? v = none)
    (fresh : s.occurs v b = false) (no_domain : (s.attributes v).domain = none) :
    (s.bindBare v b).Safe ∧ ∀ w n, n ∈ (s.bindBare v b).leaves w → n ∈ s.leaves w := by
  have fewer (w : Var) (n : Int) (mem : n ∈ (s.bindBare v b).leaves w) : n ∈ s.leaves w :=
    mem_leaves_of_bindBare acyclic unbound fresh mem fun _ => by
      rw [storedDomain, no_domain]
      exact Domain.mem_unbounded n
  exact ⟨(SafeWith.bindBare h).mono fewer, fewer⟩

theorem Spared.putBack {r : Attempt Subst} (h : Spared r) (v : Var) (name : AttrName) :
    Spared (do
      let (merged, s) ← (do let t ← r; return (t.getAttr v name, t) : Attempt (Option Attribute × Subst))
      if s.walkVar v = some v then
        match merged with
        | some m => return s.setAttr v m
        | none => return s.removeAttr v name
      else return s) := by
  cases r with
  | error why => exact h
  | ok t =>
    show Spared (if t.walkVar v = some v then _ else _)
    split
    · have back : (t.putBack v name).Safe := Safe.congr h (t.putBack_frame v name).1 (t.attributes_putBack v name)
      cases found : t.getAttr v name with
      | none =>
        rw [Subst.putBack, found] at back
        exact back
      | some a =>
        rw [Subst.putBack, found] at back
        exact back
    · exact h

/-! ## Values -/

theorem Orderly.spared_validate_domain (h : s.Orderly K) (safe : s.Safe) {value : Term} (sized : value.Sized)
    (a : Stamped DomainFact) : Spared (s.validate v value (.domain a)) := by
  dsimp only [Subst.validate]
  split
  · rename_i n found
    split
    · obtain rfl : value = .int n := Term.eq_int_of_asInt? found
      exact h.spared_solveReduced (Solver.canonical_singleton sized) Domain.noConfusion safe fun _ _ mem _ => mem
    · exact not_false
  · exact not_false

theorem Orderly.spared_validate_watchers (h : s.Orderly K) (safe : s.Safe) {a : Stamped (List Propagator)}
    (known : ∀ p ∈ a.val, K.known p) (new : ∀ p ∈ a.val, p.val.Safe fun v n => n ∈ s.leaves v) (value : Term) :
    Spared (s.validate v value (.watchers a)) := by
  dsimp only [Subst.validate]
  split
  · exact h.spared_solveWith safe known new
  · exact not_false

/-- Binding a variable to a term that is no variable. -/
theorem OrderlyIn.spared_instantiate (h : s.OrderlyIn K T) (safe : s.Safe) {b : Term} (unbound : s.get? v = none)
    (sized : b.Sized) (good_b : T b) : Spared (s.instantiate v b) := by
  unfold Subst.instantiate
  split
  · exact not_false
  rename_i occurs
  have fresh : s.occurs v b = false := by simpa using occurs
  dsimp only
  rw [h.orderly.toList_attributes v]
  cases domain : (s.attributes v).domain with
  | some a => exact h.orderly.spared_validate_domain safe sized a
  | none =>
    obtain ⟨bare, fewer⟩ := safe.bindBare (b := b) h.orderly.acyclic unbound fresh domain
    cases watched : (s.attributes v).watchers with
    | none => exact bare
    | some a =>
      show Spared ([Attribute.watchers a].foldlM (fun s a => s.validate v b a) (s.bindBare v b))
      rw [List.foldlM_cons]
      refine Spared.bind (π := id) (r := (s.bindBare v b).validate v b (.watchers a)) ?_ fun t _ safe => safe
      rw [id_map]
      exact (h.bindBare unbound fresh sized good_b).orderly.spared_validate_watchers bare (carries_of_watchers watched)
        (fun p mem => (safe.watchers watched p mem).mono fewer) b

/-! ## Aliases -/

/-- A domain that moves to an unbound variable. Until then it is enough that the constraints are
    safe with the values that also lie in it. -/
theorem OrderlyIn.spared_moveDomain (h : s.OrderlyIn K T) (ints : ∀ n, isValue n = true → T (.int n)) {c : Stamped DomainFact}
    (suits : s.Suits K.known keep (.domain c)) (unbound : s.get? keep = none) (safe : s.SafeWith may)
    (enough : ∀ w n, n ∈ s.leaves w → (s.walk (.var w) = s.walk (.var keep) → n ∈ c.val.domain) → may w n)
    (joined : List Attribute) : Spared (Prod.fst <$> Subst.moveAttr keep (s, joined) (.domain c)) := by
  have here : s.walk (.var keep) = .var keep := walk_var_of_unbound unbound
  cases found : s.getAttr keep (Attribute.domain c).name with
  | none =>
    have run : Subst.moveAttr keep (s, joined) (.domain c) =
        .ok (s.setAttr keep (.domain c), if s.hasAttrs keep then joined ++ [.domain c] else joined) := by
      unfold Subst.moveAttr
      simp only [here, found]
      rfl
    have moved := h.moveAttr ints joined suits
    rw [run] at moved ⊢
    obtain ⟨informs, within⟩ := h.informs_moveAttr ints suits run
    refine safe.setDomain.mono fun w n mem => enough w n (informs.mem_leaves moved.1.orderly mem) fun same => ?_
    have at_w : (s.setAttr keep (.domain c)).Within w c.val.domain := (within c rfl).congr (by
      rw [walk_setAttr, same])
    exact (moved.1.orderly.within_iff.mp at_w).2.2 n mem
  | some existing =>
    rw [moveAttr_eq, here]
    dsimp only
    rw [found]
    have name := Attributes.name_of_get? found
    cases existing with
    | domain e =>
      exact (h.orderly.spared_solveReduced suits.canonical (fun full => absurd full suits.finite) safe enough).putBack keep .domain
    | _ => cases name

/-- Constraints that move to a variable. -/
theorem OrderlyIn.spared_moveWatchers (h : s.OrderlyIn K T) (ints : ∀ n, isValue n = true → T (.int n)) {ps : Stamped (List Propagator)}
    (suits : s.Suits K.known keep (.watchers ps)) (safe : s.Safe) (new : ∀ p ∈ ps.val, p.val.Safe fun v n => n ∈ s.leaves v)
    (joined : List Attribute) : Spared (Prod.fst <$> Subst.moveAttr keep (s, joined) (.watchers ps)) := by
  by_cases free : ∃ rep, s.walk (.var keep) = .var rep
  · obtain ⟨rep, leads⟩ := free
    have unbound := h.orderly.acyclic.get?_of_walk leads
    cases found : s.getAttr rep (Attribute.watchers ps).name with
    | none =>
      have run : Subst.moveAttr keep (s, joined) (.watchers ps) =
          .ok (s.setAttr rep (.watchers ps), if s.hasAttrs rep then joined ++ [.watchers ps] else joined) := by
        unfold Subst.moveAttr
        simp only [leads, found]
        rfl
      have moved := h.moveAttr ints joined suits
      rw [run] at moved ⊢
      obtain ⟨informs, _⟩ := h.informs_moveAttr ints suits run
      exact (SafeWith.setWatchers safe new).mono fun w n => informs.mem_leaves moved.1.orderly
    | some existing =>
      rw [moveAttr_eq, leads]
      dsimp only
      rw [found]
      have name := Attributes.name_of_get? found
      cases existing with
      | watchers b =>
        have at_rep := getAttr_watchers_iff.mp found
        have here : s.walk (.var rep) = s.walk (.var keep) := by rw [leads, walk_var_of_unbound unbound]
        have attached := h.orderly.attachUnion at_rep unbound (suits.congr here)
        have all (p : Propagator) (mem : p ∈ unionWatchers b.val ps.val) : p.val.Safe fun v n => n ∈ s.leaves v :=
          (mem_of_mem_unionWatchers mem).elim (safe.watchers at_rep p) (new p)
        have fewer (w : Var) (n : Int) : n ∈ (s.attachUnion rep b ps).leaves w → n ∈ s.leaves w :=
          (s.informs_attachUnion rep b ps).mem_leaves attached
        have stamped : (s.stamped (unionWatchers b.val ps.val)).2.SafeWith fun v n => n ∈ s.leaves v := safe
        exact (attached.spared_solveWith ((stamped.setWatchers all).mono fewer) carries_attachUnion
          fun p mem => (all p mem).mono fewer).putBack rep .watchers
      | _ => cases name
  · rw [moveAttr_eq]
    split
    · rename_i rep leads
      exact absurd ⟨rep, leads⟩ free
    · exact h.orderly.spared_validate_watchers safe (fun p mem => (suits.2 p mem).1) new _

/-- Constraints that are run again. -/
theorem OrderlyIn.spared_settleAt (h : s.OrderlyIn K T) (safe : s.Safe) (a : Attribute) : Spared (Subst.settleAt keep s a) := by
  have recheck (v : Var) : Spared (s.recheck v) := by
    unfold Subst.recheck
    split
    · rename_i c b _ found
      have known : s.OrderlyIn { K with known := s.Carries K } T := h.mono rfl fun p carries => carries
      exact known.orderly.spared_solveWith safe (carries_of_watchers found) (safe.watchers found)
    · exact safe
  unfold Subst.settleAt
  split
  · unfold Subst.settle
    split
    · exact recheck _
    · exact recheck _
    · exact safe
  · exact safe

theorem OrderlyIn.spared_settleAll (ints : ∀ n, isValue n = true → T (.int n)) (joined : List Attribute) :
    ∀ {s : Subst}, s.OrderlyIn K T → s.Safe → Spared (joined.foldlM (Subst.settleAt keep) s) := by
  induction joined with
  | nil => exact fun _ safe => safe
  | cons a joined ih =>
    intro s h safe
    rw [List.foldlM_cons]
    refine Spared.bind (π := id) (by rw [id_map]; exact h.spared_settleAt safe a) fun t run safe' => ?_
    have settled := h.settleAt ints keep a
    rw [run] at settled
    exact ih settled.1 safe'

/-- Where a variable becomes another one, first its domain moves and then its constraints, which
    meanwhile are safe with the values that also lie in that domain. -/
theorem OrderlyIn.spared_retire (h : s.OrderlyIn K T) (ints : ∀ n, isValue n = true → T (.int n)) (safe : s.Safe)
    (retires : s.Retires keep v) (good : T (.var keep)) : Spared (s.retire keep v) := by
  have acyclic := h.orderly.acyclic
  have bare := h.bindRetired retires good
  have suits (a : Attribute) (mem : a ∈ (s.attributes v).toList) := h.orderly.suits_retired retires mem
  -- What is left to do once the domain has arrived.
  have finish (u : Subst) (good : u.OrderlyIn { K with known := s.Carries K } T) (safe' : u.Safe)
      (ext : (s.bindBare v (.var keep)).Extends u) (fewer : ∀ w n, n ∈ u.leaves w → n ∈ s.leaves w) (joined : List Attribute) :
      Spared (u.moveAll keep ((s.attributes v).watchers.map Attribute.watchers).toList joined) := by
    cases watched : (s.attributes v).watchers with
    | none => exact good.spared_settleAll ints joined safe'
    | some ps =>
      have at_ps := suits (.watchers ps) (Attributes.mem_toList.mpr (by simp [Attribute.name, Attributes.get?, watched]))
      have suits' := at_ps.of_extends good.orderly.acyclic ext
      rw [Option.map_some, Option.toList_some, moveAll_cons]
      refine (good.spared_moveWatchers ints suits' safe' (fun p mem => (safe.watchers watched p mem).mono fewer) joined).bind ?_
      rintro ⟨t, joined'⟩ run safe'
      have moved := good.moveAttr ints joined suits'
      rw [run] at moved
      exact moved.1.spared_settleAll ints joined' safe'
  rw [Subst.retire, h.orderly.toList_attributes v]
  cases at_v : (s.attributes v).domain with
  | none =>
    obtain ⟨bound, fewer⟩ := safe.bindBare (b := .var keep) acyclic retires.unbound retires.fresh at_v
    exact finish _ bare bound (.refl _) fewer []
  | some c =>
    have at_c := suits (.domain c) (Attributes.mem_toList.mpr (by simp [Attribute.name, Attributes.get?, at_v]))
    have enough (w : Var) (n : Int) (mem : n ∈ (s.bindBare v (.var keep)).leaves w)
        (kept : (s.bindBare v (.var keep)).walk (.var w) = (s.bindBare v (.var keep)).walk (.var keep) → n ∈ c.val.domain) :
        n ∈ s.leaves w := by
      refine mem_leaves_of_bindBare acyclic retires.unbound retires.fresh mem fun here => ?_
      rw [storedDomain, at_v]
      refine kept ?_
      rw [walk_bindBare acyclic retires.unbound retires.fresh, if_pos here]
    rw [Option.map_some, Option.toList_some, List.singleton_append, moveAll_cons]
    refine (bare.spared_moveDomain ints at_c retires.get?_keep (SafeWith.bindBare safe) enough []).bind ?_
    rintro ⟨u, joined⟩ run safe'
    have moved := bare.moveAttr ints [] at_c
    rw [run] at moved
    obtain ⟨good', ext, _⟩ := moved
    obtain ⟨informs, within⟩ := bare.informs_moveAttr ints at_c run
    refine finish u good' safe' ext (fun w n mem => enough w n (informs.mem_leaves good'.orderly mem) fun same => ?_) joined
    have at_w : u.Within w c.val.domain := (within c rfl).congr (by
      rw [← good'.orderly.acyclic.walk_walk ext, same, good'.orderly.acyclic.walk_walk ext])
    exact (good'.orderly.within_iff.mp at_w).2.2 n mem

theorem OrderlyIn.spared_identify (h : s.OrderlyIn K T) (ints : ∀ n, isValue n = true → T (.int n)) (safe : s.Safe)
    {w : Var} (unbound_v : s.get? v = none) (unbound_w : s.get? w = none) (differ : v ≠ w) (good_v : T (.var v))
    (good_w : T (.var w)) : Spared (s.identify v w) := by
  obtain ⟨retires, same⟩ | ⟨retires, same⟩ := identify_cases unbound_v unbound_w differ
  · exact same ▸ h.spared_retire ints safe retires good_v
  · exact same ▸ h.spared_retire ints safe retires good_w

/-! ## Unification -/

section Solves

variable {P : Subst → Prop} {D : Subst → (Var → Term) → Prop} {E : (Var → Term) → Prop} {r : Attempt Subst}

/-- Where only an overflow could stop an attempt that is spared, nothing does. -/
theorem Solves.and_safe (h : Solves P D Fault.IsOverflow s E r) (spared : Spared r) :
    Solves (fun t => P t ∧ t.Safe) D (fun _ => False) s E r := by
  match r, h, spared with
  | .ok t, ⟨good, extends_, describes⟩, safe => exact ⟨⟨good, safe⟩, extends_, describes⟩
  | .error .conflict, refuted, _ => exact refuted
  | .error (.stop (.fault f)), overflow, spared => exact spared overflow

theorem Solves.spared (h : Solves (fun t => P t ∧ t.Safe) D (fun _ => False) s E r) : Spared r := by
  match r, h with
  | .ok t, ⟨good, _, _⟩ => exact good.2
  | .error .conflict, _ => exact not_false

end Solves

/-- Where the stored constraints are safe, bindings follow the laws of binding without any fault. -/
theorem spareLaws (K : Scope) (W : Nat) :
    BindingLaws (fun s => s.OrderlyIn K (fun t => t.width ≤ W ∧ t.Sized) ∧ s.Safe)
      (fun t θ => K.readings θ ∧ t.Admits θ) (fun _ => False) (fun t => t.width ≤ W ∧ t.Sized) W :=
  have laws := orderlyLaws K W
  have ints (n : Int) (value : isValue n = true) : (Term.int n).width ≤ W ∧ (Term.int n).Sized :=
    ⟨Nat.zero_le W, value⟩
  { laws with
    acyclic := fun h => laws.acyclic h.1
    bound := fun h => laws.bound h.1
    agrees := fun h => laws.agrees h.1
    identify := fun h unbound_v unbound_w differ good_v good_w =>
      (laws.identify h.1 unbound_v unbound_w differ good_v good_w).and_safe
        (h.1.spared_identify ints h.2 unbound_v unbound_w differ good_v good_w)
    instantiate := fun h unbound not_var good_v good =>
      (laws.instantiate h.1 unbound not_var good_v good).and_safe (h.1.spared_instantiate h.2 unbound good.2 good) }

/-- Unification does not come to an overflow where the stored constraints are safe. -/
theorem Orderly.spared_unify (h : s.Orderly K) (safe : s.Safe) {a b : Term} (sized_a : a.Sized) (sized_b : b.Sized) :
    Spared (s.unify a b) := by
  have solved := (spareLaws K (max s.width (max a.width b.width))).unify ⟨h.inWidth (by omega), safe⟩
    ⟨by omega, sized_a⟩ ⟨by omega, sized_b⟩
  exact solved.spared

end ConstraintLogic.Subst
