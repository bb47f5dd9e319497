import ConstraintLogic.Proofs.Subst.WellFormed
import ConstraintLogic.Proofs.Unification.Filed

/-!
# Goals only add information

No goal takes back what a substitution says of terms and domains. Bindings stay, and a
finite domain turns into a part of it or into one of its integers. In between a domain
may be taken off a variable, by a solver that writes its variables back and by
unification, which moves the attributes of a retired variable one by one: what a
variable stands for has its domain again when that is done.

Results:
* `Subst.Within`: a variable is left with a part of a domain.
* `Subst.Informs`: a substitution has the information of another one.
* `Subst.OrderlyIn.informs_solveAll`, `Subst.Orderly.informs_unify`,
  `Subst.Orderly.informs_label`: what solvers, unification and labeling keep.
* `Goal.Yields.informs`, `Subst.Produced.extended`: goals only add information.
-/

namespace ConstraintLogic

namespace Subst

variable {K : Scope} {T : Term → Prop} {s t u : Subst} {v keep : Var} {d : Domain}

/-! ## Information -/

/-- The variable stands for an integer of the domain, or for a variable without value
    whose domain is a part of it. -/
def Within (s : Subst) (v : Var) (d : Domain) : Prop :=
  (∃ n ∈ d, s.walk (.var v) = .int n) ∨
    ∃ w a, s.walk (.var v) = .var w ∧ (s.attributes w).domain = some a ∧ ∀ n ∈ a.val.domain, n ∈ d

/-- The second substitution has the bindings of the first one and no fewer variables, and
    a variable that is left with a part of a domain stays so. -/
structure Informs (s t : Subst) : Prop where
  extends_ : s.Extends t
  next : s.next ≤ t.next
  within : ∀ v d, s.Within v d → t.Within v d

theorem Informs.refl (s : Subst) : s.Informs s := ⟨.refl s, Nat.le_refl _, fun _ _ => id⟩

theorem Informs.trans (h : s.Informs t) (h' : t.Informs u) : s.Informs u :=
  ⟨h.extends_.trans h'.extends_, Nat.le_trans h.next h'.next, fun v d => h'.within v d ∘ h.within v d⟩

theorem Within.congr {w : Var} (h : s.Within v d) (same : s.walk (.var w) = s.walk (.var v)) :
    s.Within w d := by
  unfold Within
  rwa [same]

theorem Within.mono {e : Domain} (h : s.Within v d) (sub : ∀ n ∈ d, n ∈ e) : s.Within v e := by
  rcases h with ⟨n, mem, value⟩ | ⟨w, a, leads, found, sub'⟩
  · exact .inl ⟨n, sub n mem, value⟩
  · exact .inr ⟨w, a, leads, found, fun n mem => sub n (sub' n mem)⟩

/-- Information depends on bindings, attributes and the number of variables. -/
theorem informs_of_same (bindings : t.bindings = s.bindings) (attributes : t.attributes = s.attributes)
    (next : s.next ≤ t.next) : s.Informs t := by
  refine ⟨fun v a bound => ?_, next, fun v d within => ?_⟩
  · rwa [get?, bindings]
  · unfold Within
    rwa [walk_congr bindings, attributes]

/-- An attribute that comes to a variable adds information. -/
theorem informs_setAttr {a : Attribute} (missing : ∀ b, a = .domain b → (s.attributes v).domain = none) :
    s.Informs (s.setAttr v a) := by
  refine ⟨fun w b bound => bound, Nat.le_refl _, fun x d within => ?_⟩
  refine within.imp (fun value => by rwa [walk_setAttr]) ?_
  rintro ⟨w, b, leads, found, sub⟩
  refine ⟨w, b, by rwa [walk_setAttr], ?_, sub⟩
  rw [attributes_setAttr]
  split
  · rename_i same
    subst same
    cases a with
    | domain c => cases found.symm.trans (missing c rfl)
    | _ => exact found
  · exact found

theorem next_removeAttr (s : Subst) (v : Var) (name : AttrName) : (s.removeAttr v name).next = s.next := by
  unfold removeAttr
  split
  · rfl
  · dsimp only
    split <;> rfl

theorem informs_putBack (s : Subst) (v : Var) (name : AttrName) : s.Informs (s.putBack v name) := by
  refine informs_of_same (s.putBack_frame v name).1 (s.attributes_putBack v name) ?_
  unfold putBack
  split
  · exact Nat.le_refl _
  · exact Nat.le_of_eq (next_removeAttr s v name).symm

theorem leaves_of_value {n : Int} (value : s.walk (.var v) = .int n) : s.leaves v = .singleton n := by
  have found : (Solver.new s).resolve v = .value n := Solver.resolve_eq_value_iff.mpr value
  rw [leaves, Solver.peek, found]

/-- A variable is left with a part of a domain if some integers are left to it, not all of
    them, and only integers of the domain. -/
theorem Orderly.within_iff (h : s.Orderly K) : s.Within v d ↔
    (Solver.new s).resolve v ≠ .other ∧ (∃ n, n ∉ s.leaves v) ∧ ∀ n ∈ s.leaves v, n ∈ d := by
  constructor
  · rintro (⟨n, mem, value⟩ | ⟨w, a, leads, found, sub⟩)
    · rw [leaves_of_value value]
      have proper : (Solver.new s).resolve v = .value n := Solver.resolve_eq_value_iff.mpr value
      refine ⟨by simp [proper], ⟨n + 1, fun mem' => ?_⟩, fun m mem' => ?_⟩
      · have := Domain.mem_singleton.mp mem'
        omega
      · rwa [Domain.mem_singleton.mp mem']
    · have undecided := h.domain w a found
      have proper : (Solver.new s).resolve v = .free w := Solver.resolve_eq_free_iff.mpr leads
      rw [leaves_of_walk leads, storedDomain, found]
      exact ⟨by simp [proper], undecided.canonical.not_all undecided.finite, sub⟩
  · rintro ⟨proper, ⟨m, out⟩, sub⟩
    cases found : (Solver.new s).resolve v with
    | other => exact absurd found proper
    | value n =>
      have value : s.walk (.var v) = .int n := Solver.resolve_eq_value_iff.mp found
      refine .inl ⟨n, sub n ?_, value⟩
      rw [leaves_of_value value]
      exact Domain.mem_singleton.mpr rfl
    | free w =>
      have leads : s.walk (.var v) = .var w := Solver.resolve_eq_free_iff.mp found
      rw [leaves_of_walk leads, storedDomain] at out sub
      cases at_w : (s.attributes w).domain with
      | some a =>
        rw [at_w] at sub
        exact .inr ⟨w, a, leads, at_w, sub⟩
      | none =>
        rw [at_w] at out
        exact absurd (Domain.mem_unbounded m) out

/-- Binding further variables to integers makes no variable stand for anything else. -/
theorem Refines.proper (h : s.Refines K T t) (acyclic : s.Acyclic)
    (proper : (Solver.new s).resolve v ≠ .other) : (Solver.new t).resolve v ≠ .other := by
  have good := h.good.orderly.acyclic
  rw [Solver.resolve_of_extends (s := Solver.new s) (t := Solver.new t) good h.extends_ v]
  cases found : (Solver.new s).resolve v with
  | other => exact absurd found proper
  | value n => simp
  | free w =>
    have unbound : s.get? w = none := acyclic.get?_of_walk (Solver.resolve_eq_free_iff.mp found)
    cases bound : t.get? w with
    | none =>
      dsimp only
      simp [Solver.resolve_of_unbound (s := Solver.new t) bound]
    | some b =>
      rcases h.gains w b bound with old | ⟨n, rfl⟩
      · cases unbound.symm.trans old
      · have value : t.walk (.var w) = .int n := by
          rw [good.walk_of_bound bound]
          exact walk_of_not_var fun x same => by cases same
        have found' : (Solver.new t).resolve w = .value n := Solver.resolve_eq_value_iff.mpr value
        simp [found']

/-- What a solver makes of a substitution has its information. -/
theorem Refines.informs (h : s.Refines K T t) (orderly : s.Orderly K) (next : s.next ≤ t.next) :
    s.Informs t := by
  refine ⟨h.extends_, next, fun v d within => ?_⟩
  obtain ⟨proper, ⟨n, out⟩, sub⟩ := orderly.within_iff.mp within
  refine h.good.orderly.within_iff.mpr ⟨h.proper orderly.acyclic proper, ⟨n, ?_⟩, fun m mem => ?_⟩
  · exact fun mem => out (h.tightens v n mem)
  · exact sub m (h.tightens v m mem)

end Subst

/-! ## Solvers -/

namespace Solver

variable {K : Scope} {s u : Solver} {t : Subst}

theorem next_writeBack (s : Solver) (subst : Subst) (v : Var) (d : Domain) :
    (s.writeBack subst v d).next = subst.next := by
  have domain : (if d.isUnbounded then subst else
      (subst.stamped (DomainFact.mk v d)).2.setAttr v (.domain (subst.stamped (DomainFact.mk v d)).1)).next =
        subst.next := by
    split <;> rfl
  unfold writeBack
  dsimp only at domain ⊢
  split
  · exact domain
  · exact domain

theorem next_assign {subst : Subst} {v : Var} {n : Int} (run : subst.assign v n = .ok t) :
    t.next = subst.next := by
  unfold Subst.assign at run
  dsimp only at run
  split at run
  · split at run <;> cases run
    rfl
  · split at run <;> cases run
    rfl

/-- Writing back allocates no variable. -/
theorem next_toSubst? (run : s.toSubst? = .ok t) : t.next = s.subst.next := by
  have steps {β : Type} (f : Subst → β → Subst) (same : ∀ u e, (f u e).next = u.next) (l : List β) :
      ∀ u : Subst, (l.foldl f u).next = u.next := by
    induction l with
    | nil => exact fun u => rfl
    | cons e l ih => exact fun u => (ih (f u e)).trans (same u e)
  have cleared := steps (fun subst (e : Var × Domain) => (subst.removeAttr e.1 .domain).removeAttr e.1 .watchers)
    (fun u e => (Subst.next_removeAttr _ _ _).trans (Subst.next_removeAttr _ _ _)) s.domains.toList s.subst
  have attached := fun subst => steps (fun subst (e : Var × Domain) =>
    if e.2.hasSolution then subst else s.writeBack subst e.1 e.2) (fun u e => by
      split
      · rfl
      · exact s.next_writeBack u e.1 e.2) s.domains.toList subst
  unfold toSubst? at run
  refine foldlM_keeps (J := fun u => u.next = s.subst.next) _ (fun u e _ u' kept step => ?_)
    ((attached _).trans cleared) run
  dsimp only at step
  split at step
  · exact (next_assign step).trans kept
  · cases step
    exact kept

theorem Sound.next_fixpoint (h : s.Steady K) :
    Narrow.Leaves s Narrow.fixpoint fun _ u => u.subst.next = s.subst.next :=
  h.fixpoint_keeps (J := fun u => u.subst.next = s.subst.next) rfl
    fun _ _ _ _ turn same => turn.framed.next.trans same

end Solver

namespace Subst

variable {K : Scope} {T : Term → Prop} {s t u : Subst} {v keep : Var} {d : Domain}

/-- The answer to requests has the information of the substitution. -/
theorem OrderlyIn.informs_solveAll (h : s.OrderlyIn K T) (ints : ∀ n, isValue n = true → T (.int n))
    {requests : List Request} (fair : ∀ r ∈ requests, r.Fair K s) (run : s.solveAll requests = .ok t) :
    s.Informs t := by
  have refined := h.solveAll_refines ints requests fair
  rw [run] at refined
  obtain ⟨u, next, written⟩ := Solver.of_runToSubst
    ((h.orderly.steady_new.requests requests _ fair).leaves.bind (f := fun _ => Narrow.fixpoint)
      (R := fun _ u => u.subst.next = s.next) fun _ u ⟨steady, subst, _⟩ =>
        steady.next_fixpoint.mono fun _ w same => by rw [same, subst]; rfl) run
  exact refined.1.informs h.orderly (Nat.le_of_eq ((Solver.next_toSubst? written).trans next).symm)

theorem OrderlyIn.informs_solveWith (h : s.OrderlyIn K T) (ints : ∀ n, isValue n = true → T (.int n))
    {ps : List Propagator} (known : ∀ p ∈ ps, K.known p) (run : s.solveWith ps = .ok t) : s.Informs t := by
  rw [solveWith_eq] at run
  refine h.informs_solveAll ints (fun r mem => ?_) run
  obtain ⟨p, in_ps, rfl⟩ := List.mem_map.mp mem
  exact known p in_ps

theorem OrderlyIn.informs_solveReduced (h : s.OrderlyIn K T) (ints : ∀ n, isValue n = true → T (.int n))
    (canonical : d.Canonical) (full : d = .unbounded → s.Integral K v) (run : s.solveReduced v d = .ok t) :
    s.Informs t := by
  rw [solveReduced_eq] at run
  refine h.informs_solveAll ints (fun r mem => ?_) run
  rw [List.mem_singleton.mp mem]
  exact ⟨canonical, full⟩

/-- Reducing a variable to a finite domain leaves it with a part of it. -/
theorem Orderly.within_solveReduced (h : s.Orderly K) (canonical : d.Canonical) (finite : d ≠ .unbounded)
    (run : s.solveReduced v d = .ok t) : t.Within v d := by
  have proper : Narrow.Leaves (Solver.new s) (Narrow.reduce v d) fun _ _ => (Solver.new s).resolve v ≠ .other := by
    intro _ u ran other
    rw [Solver.reduce_eq, other] at ran
    cases ran
  have reduced := (h.steady_new.reduce (v := v) canonical fun full => absurd full finite).leaves
  obtain ⟨u, ⟨steady, shrinks, free, left⟩, written⟩ := Solver.of_runToSubst
    ((proper.and reduced).bind (f := fun _ => Narrow.fixpoint) (R := fun _ u => u.Steady K ∧
      (Solver.new s).Shrinks u ∧ u.resolve v ≠ .other ∧ ∀ n ∈ u.peek v, n ∈ d)
      fun _ u ⟨free, sound, shrinks, _, left, _⟩ => sound.fixpoint.leaves.mono fun _ w ⟨steady, _, shrinks', _⟩ =>
        ⟨steady, shrinks.trans shrinks', by rwa [(shrinks.trans shrinks').resolve],
          fun n mem => left n (shrinks'.mem_peek v n mem)⟩) run
  obtain ⟨t', written', back⟩ := Solver.toSubst?_spec steady
  cases written.symm.trans written'
  have good := back.orderly steady
  have refines := back.refines (T := fun _ => True) h.inAll (fun _ _ => trivial) steady shrinks good
  obtain ⟨n, out⟩ := canonical.not_all finite
  have sub (m : Int) (mem : m ∈ t.leaves v) : m ∈ d := left m (back.mem_peek steady mem)
  refine good.within_iff.mpr ⟨refines.proper h.acyclic ?_, ⟨n, fun mem => out (sub n mem)⟩, sub⟩
  rwa [← shrinks.resolve]

/-! ## Unification -/

/-- A value that suits the domain of its variable lies in it. -/
theorem within_validate {value : Term} {a : Stamped DomainFact} (leads : s.walk (.var v) = value)
    (acyclic : t.Acyclic) (ext : s.Extends t) (run : s.validate v value (.domain a) = .ok t) :
    t.Within v a.val.domain := by
  obtain ⟨n, inside, same, _⟩ := solveReduced_of_validate run
  refine .inl ⟨n, inside, ?_⟩
  rw [← acyclic.walk_walk ext, leads, same]
  exact walk_of_not_var fun x same => by cases same

/-- Consulting an attribute on a value adds information. -/
theorem OrderlyIn.informs_validate (h : s.OrderlyIn K T) (ints : ∀ n, isValue n = true → T (.int n))
    {value : Term} (sized : value.Sized) {a : Attribute} (suits : s.Suits K.known v a)
    (run : s.validate v value a = .ok t) : s.Informs t := by
  cases a with
  | domain a =>
    obtain ⟨n, _, same, reduced⟩ := solveReduced_of_validate run
    subst same
    exact h.informs_solveReduced ints (Solver.canonical_singleton sized) Domain.noConfusion reduced
  | watchers a => exact h.informs_solveWith ints (fun p mem => (suits.2 p mem).1) (solveWith_of_validate run)
  | _ => exact suits.elim

/-- A variable that is bound takes along only what leads to it. -/
theorem Within.bindBare {x : Var} {b : Term} (h : s.Within x d) (acyclic : s.Acyclic) (unbound : s.get? v = none)
    (fresh : s.occurs v b = false) (other : s.walk (.var x) ≠ .var v) : (s.bindBare v b).Within x d := by
  unfold Within
  rw [walk_bindBare acyclic unbound fresh, if_neg other]
  refine h.imp_right ?_
  rintro ⟨w, a, leads, found, sub⟩
  refine ⟨w, a, leads, ?_, sub⟩
  rwa [attributes_bindBare, if_neg fun same => other (by rw [leads, same])]

/-- A variable without domain takes no information along when it is bound. -/
theorem informs_bindBare {b : Term} (acyclic : s.Acyclic) (unbound : s.get? v = none)
    (fresh : s.occurs v b = false) (bare : (s.attributes v).domain = none) : s.Informs (s.bindBare v b) := by
  refine ⟨Extends.bindBare unbound b, Nat.le_refl _, fun x d within => ?_⟩
  refine within.bindBare acyclic unbound fresh fun leads => ?_
  rcases within with ⟨n, _, value⟩ | ⟨w, a, leads', found, _⟩
  · cases leads.symm.trans value
  · cases leads.symm.trans leads'
    cases bare.symm.trans found

/-- Binding a variable to a term that is no variable adds information. -/
theorem OrderlyIn.informs_instantiate (good : s.OrderlyIn K T) (ints : ∀ n, isValue n = true → T (.int n))
    {b : Term} (unbound : s.get? v = none) (sized : b.Sized) (good_b : T b) (run : s.instantiate v b = .ok t) :
    s.Informs t := by
  have acyclic := good.orderly.acyclic
  cases good.orderly.instantiates run with
  | narrowed _ _ value reduced =>
    subst value
    exact good.informs_solveReduced ints (Solver.canonical_singleton sized) Domain.noConfusion reduced
  | bound fresh no_domain _ done =>
    subst done
    exact informs_bindBare acyclic unbound fresh no_domain
  | propagated fresh no_domain at_v ran =>
    exact (informs_bindBare acyclic unbound fresh no_domain).trans
      ((good.bindBare unbound fresh sized good_b).informs_solveWith ints (carries_of_watchers at_v) ran)

theorem informs_attachUnion (s : Subst) (v : Var) (b a : Stamped (List Propagator)) : s.Informs (s.attachUnion v b a) :=
  (informs_of_same rfl rfl (Nat.le_refl _) : s.Informs (s.stamped (unionWatchers b.val a.val)).2).trans
    (informs_setAttr (by simp))

/-- An attribute that moves to a variable adds information, and a domain that moves leaves
    the variable with a part of it. -/
theorem OrderlyIn.informs_moveAttr (h : s.OrderlyIn K T) (ints : ∀ n, isValue n = true → T (.int n))
    {joined joined' : List Attribute} {a : Attribute} (suits : s.Suits K.known keep a)
    (run : Subst.moveAttr keep (s, joined) a = .ok (t, joined')) :
    s.Informs t ∧ ∀ c, a = .domain c → t.Within keep c.val.domain := by
  have moved := h.moveAttr ints joined suits
  rw [run] at moved
  obtain ⟨good, ext, _⟩ := moved
  have acyclic := good.orderly.acyclic
  cases suits.moves run with
  | @taken rep leads missing done =>
    subst done
    refine ⟨informs_setAttr fun b same => ?_, fun c same => ?_⟩
    · subst same
      exact getAttr_domain_none_iff.mp missing
    · subst same
      refine .inr ⟨rep, c, by rw [walk_setAttr, leads], ?_, fun _ mem => mem⟩
      simp [Attributes.set]
  | @narrowed rep c _ u is_domain leads _ reduced back =>
    subst is_domain
    have full (full : c.val.domain = .unbounded) : s.Integral K rep := absurd full suits.finite
    have back : u.Informs t := by
      rcases back with rfl | rfl
      · exact .refl _
      · exact informs_putBack u rep _
    refine ⟨(h.informs_solveReduced ints suits.canonical full reduced).trans back, fun c' same => ?_⟩
    cases same
    refine (back.within rep _ (h.orderly.within_solveReduced suits.canonical suits.finite reduced)).congr ?_
    rw [← acyclic.walk_walk ext (.var keep), leads]
  | @united rep _ _ u is_watchers leads at_rep solved back =>
    subst is_watchers
    have unbound := h.orderly.acyclic.get?_of_walk leads
    have here : s.walk (.var rep) = s.walk (.var keep) := by rw [leads, walk_var_of_unbound unbound]
    have attached : OrderlyIn _ T _ := ⟨h.orderly.attachUnion at_rep unbound (suits.congr here), h.bound⟩
    have back : u.Informs t := by
      rcases back with rfl | rfl
      · exact .refl _
      · exact informs_putBack u rep _
    refine ⟨?_, fun c same => by cases same⟩
    exact ((s.informs_attachUnion rep _ _).trans (attached.informs_solveWith ints carries_attachUnion solved)).trans back
  | consulted value consulted =>
    have sized : (s.walk (.var keep)).Sized := by
      rcases s.walk_eq_or_bound (.var keep) with stays | ⟨u, bound⟩
      · exact absurd stays (value keep)
      · exact h.orderly.sized u _ bound
    refine ⟨h.informs_validate ints sized suits consulted, fun c same => ?_⟩
    subst same
    exact within_validate rfl acyclic ext consulted

/-- Settling adds information. -/
theorem OrderlyIn.informs_settleAll (h : s.OrderlyIn K T) (ints : ∀ n, isValue n = true → T (.int n))
    (joined : List Attribute) (run : joined.foldlM (Subst.settleAt keep) s = .ok t) : s.Informs t :=
  h.settleAll_keeps (Q := s.Informs) ints (fun good informs at_v run =>
    informs.trans (good.informs_solveWith ints (carries_of_watchers at_v) run)) joined (.refl s) run

/-- Attributes that move one after another add information, and the variable is left with
    a part of each domain that moves. -/
theorem OrderlyIn.informs_moveAll (ints : ∀ n, isValue n = true → T (.int n)) (moved : List Attribute) :
    ∀ (s : Subst) (joined : List Attribute), s.OrderlyIn K T → (∀ a ∈ moved, s.Suits K.known keep a) →
      s.moveAll keep moved joined = .ok t → s.Informs t ∧ ∀ c, .domain c ∈ moved → t.Within keep c.val.domain := by
  induction moved with
  | nil => exact fun s joined h _ run => ⟨h.informs_settleAll ints joined run, by simp⟩
  | cons a moved ih =>
    intro s joined h suits run
    rw [moveAll_cons] at run
    obtain ⟨⟨u, joined'⟩, first, rest⟩ := exists_of_bind_ok run
    have added := h.moveAttr ints joined (suits a (by simp))
    rw [first] at added
    obtain ⟨good, ext, _⟩ := added
    obtain ⟨informs, here⟩ := h.informs_moveAttr ints (suits a (by simp)) first
    obtain ⟨informs', others⟩ := ih u joined' good
      (fun b mem => (suits b (by simp [mem])).of_extends good.orderly.acyclic ext) rest
    refine ⟨informs.trans informs', fun c mem => ?_⟩
    rcases List.mem_cons.mp mem with same | mem
    · exact informs'.within keep _ (here c same.symm)
    · exact others c mem

/-- Where a variable becomes another one, information is added: what stood for the retired
    variable stands for the other one, which is left with a part of both domains. -/
theorem OrderlyIn.informs_retire (h : s.OrderlyIn K T) (ints : ∀ n, isValue n = true → T (.int n))
    (retires : s.Retires keep v) (good : T (.var keep)) (run : s.retire keep v = .ok t) : s.Informs t := by
  have acyclic := h.orderly.acyclic
  have retired := h.retire ints retires good
  rw [run] at retired
  obtain ⟨informs, moved⟩ := informs_moveAll ints _ _ _ (h.bindRetired retires good)
    (fun a mem => h.orderly.suits_retired retires mem) run
  refine ⟨(Extends.bindBare retires.unbound _).trans informs.extends_, informs.next, fun x d within => ?_⟩
  by_cases here : s.walk (.var x) = .var v
  · rcases within with ⟨n, _, value⟩ | ⟨w, a, leads', found, sub⟩
    · cases here.symm.trans value
    · cases here.symm.trans leads'
      have mem : .domain a ∈ (s.attributes v).toList :=
        Attributes.mem_toList.mpr (by simp [Attribute.name, Attributes.get?, found])
      have left := (moved a mem).congr (w := x) ?_
      · exact left.mono sub
      · have good_t := retired.1.orderly.acyclic
        rw [← good_t.walk_walk informs.extends_, walk_bindBare acyclic retires.unbound retires.fresh, if_pos here,
          good_t.walk_walk informs.extends_]
  · exact informs.within x d (within.bindBare acyclic retires.unbound retires.fresh here)

/-- Binding a variable adds information. -/
theorem lasting_informs (K : Scope) (s : Subst) : Lasting K s.Informs where
  retire good ints informs retires good_keep run :=
    informs.trans (good.informs_retire ints retires good_keep run)
  instantiate good ints informs unbound _ sized good_b run :=
    informs.trans (good.informs_instantiate ints unbound sized good_b run)

/-- Unification adds information. -/
theorem Orderly.informs_unify (h : s.Orderly K) {a b : Term} (sized_a : a.Sized) (sized_b : b.Sized)
    (run : s.unify a b = .ok t) : s.Informs t :=
  (lasting_informs K s).unify h (.refl s) sized_a sized_b run

/-! ## Values that are left -/

section Leaves

variable {w : Var} {n : Int}

/-- Information takes values away only. -/
theorem Informs.mem_leaves (h : s.Informs t) (good : t.Orderly K) (mem : n ∈ t.leaves v) : n ∈ s.leaves v := by
  have resolves := Solver.resolve_of_extends (s := Solver.new s) (t := Solver.new t) good.acyclic h.extends_ v
  cases found : (Solver.new s).resolve v with
  | free w =>
    have leads : s.walk (.var v) = .var w := Solver.resolve_eq_free_iff.mp found
    rw [leaves_of_walk leads, storedDomain]
    split
    · rename_i a stored
      exact (good.within_iff.mp (h.within v a.val.domain (.inr ⟨w, a, leads, stored, fun _ mem => mem⟩))).2.2 _ mem
    · exact Domain.mem_unbounded _
  | _ =>
    rw [found] at resolves
    unfold leaves Solver.peek at mem ⊢
    rw [resolves] at mem
    rw [found]
    exact mem

/-- A variable that is bound and rid of its attributes hands its values on, as far as they are
    known to lie in its domain. -/
theorem mem_leaves_of_bindBare {b : Term} (acyclic : s.Acyclic) (unbound : s.get? v = none) (fresh : s.occurs v b = false)
    (mem : n ∈ (s.bindBare v b).leaves w) (kept : s.walk (.var w) = .var v → n ∈ s.storedDomain v) : n ∈ s.leaves w := by
  by_cases here : s.walk (.var w) = .var v
  · rw [leaves_of_walk here]
    exact kept here
  · have walk : (s.bindBare v b).walk (.var w) = s.walk (.var w) := by
      rw [walk_bindBare acyclic unbound fresh, if_neg here]
    have resolve : (Solver.new (s.bindBare v b)).resolve w = (Solver.new s).resolve w := by
      unfold Solver.resolve
      rw [show (Solver.new (s.bindBare v b)).subst = s.bindBare v b from rfl, walk]
      rfl
    cases found : (Solver.new s).resolve w with
    | free x =>
      have leads : s.walk (.var w) = .var x := Solver.resolve_eq_free_iff.mp found
      rw [leaves_of_walk (walk.trans leads), storedDomain, attributes_bindBare,
        if_neg fun same => here (by rw [leads, same])] at mem
      rwa [leaves_of_walk leads]
    | _ =>
      unfold leaves Solver.peek at mem ⊢
      rw [resolve, found] at mem
      rw [found]
      exact mem

end Leaves

end Subst

/-! ## Labeling -/

theorem Solver.Framed.shrinks {s t : Solver} (h : s.Framed t) : s.Shrinks t :=
  ⟨h.bindings, fun _ _ => h.mem_peek, fun w => (h.loaded w).mpr⟩

/-- Domains stay as small as they are, and the number of variables as it is. -/
theorem Solver.lasting_shrinks (K : Scope) (subst : Subst) :
    Lasting K fun s => (Solver.new subst).Shrinks s ∧ s.subst.next = subst.next where
  aside _ _ _ _ aside _ h := ⟨h.1.trans aside.toFramed.shrinks, aside.next.trans h.2⟩
  turn _ _ _ _ turn h := ⟨h.1.trans turn.framed.shrinks, turn.framed.next.trans h.2⟩

/-- The answers of labeling have the information of the substitution. -/
theorem Subst.Orderly.informs_label {K : Scope} {s t : Subst} {vs : List Var} {solver : Solver}
    (h : s.Orderly K) (complete : s.Complete) (integral : ∀ v ∈ vs, s.Integral K v)
    (started : (do Solver.requireNonempty vs; modify Solver.wakeAll; Narrow.fixpoint : Narrow Unit)
      (Solver.new s) = .ok () solver)
    (leaf : solver.Leaf vs t) : s.Informs t := by
  obtain ⟨u, poised, ⟨shrinks, next⟩, _, written⟩ := h.lasting_of_label complete (Solver.lasting_shrinks K s)
    (fun m awake => ⟨awake.grows.shrinks, by rw [awake.grows.subst]; rfl⟩) integral started leaf
  obtain ⟨t', written', back⟩ := Solver.toSubst?_spec poised.steady
  cases written.symm.trans written'
  have refines := back.refines (T := fun _ => True) h.inAll (fun _ _ => trivial) poised.steady shrinks
    (back.orderly poised.steady)
  exact refines.informs h (Nat.le_of_eq ((Solver.next_toSubst? written).trans next).symm)

/-! ## Goals -/

/-- A goal that can be stated adds information to a substitution in order that misses no
    propagator. -/
theorem Goal.Yields.informs {program : Program} (fair : program.Fair) {g : Goal} {s t : Subst}
    (h : g.Yields program s t) : ∀ {known : Propagator → Prop}, g.Fair known →
      s.Orderly (.ints known) → s.Complete → s.Informs t := by
  induction h with
  | succeed => exact fun _ _ _ => .refl _
  | eq unified => exact fun stated good _ => good.informs_unify stated.1 stated.2 unified
  | conj first _ ih ih' =>
    exact fun stated good complete => (ih stated.1 good complete).trans
      (ih' stated.2 (first.orderly fair stated.1 good) (first.complete fair stated.1 good complete))
  | disjLeft _ ih => exact fun stated => ih stated.1
  | disjRight _ ih => exact fun stated => ih stated.2
  | suspend _ ih => exact fun stated => ih stated
  | @fresh n body s t _ ih =>
    intro known stated good complete
    have allocated : s.Informs (s.freshMany n).2 := Subst.informs_of_same rfl rfl (Nat.le_add_right _ _)
    exact allocated.trans (ih (stated _) (good.congr rfl rfl (Nat.le_refl _)) (complete.congr rfl rfl))
  | call _ ih => exact fun stated => ih ((RelName.fair_body fair _ stated).mono fun _ => False.elim)
  | not => exact fun _ _ _ => .refl _
  | ifteYes found _ ih ih' =>
    exact fun stated good complete => (ih stated.1 good complete).trans
      (ih' stated.2.1 (found.orderly fair stated.1 good) (found.complete fair stated.1 good complete))
  | ifteNo _ ih => exact fun stated => ih stated.2.2
  | once _ ih => exact fun stated => ih stated
  | parLeft _ ih => exact fun stated => ih stated.1
  | parRight _ ih => exact fun stated => ih stated.2
  | always => exact fun _ _ _ => .refl _
  | @post r s t solved =>
    intro known stated good _
    have stamped := good.stamp stated fun v _ => Subst.integral_ints v
    have posted : s.Informs (s.stamped r).2 := Subst.informs_of_same rfl rfl (Nat.le_refl _)
    exact posted.trans (stamped.inAll.informs_solveWith (fun _ _ => trivial)
      (List.forall_mem_singleton.mpr (.inr rfl)) solved)
  | posted solved =>
    exact fun stated good _ => good.inAll.informs_solveWith (fun _ _ => trivial)
      (List.forall_mem_singleton.mpr stated) solved
  | narrow solved =>
    exact fun stated good _ => good.inAll.informs_solveReduced (fun _ _ => trivial) stated
      (fun _ => Subst.integral_ints _) solved
  | label started leaf =>
    exact fun _ good complete => good.informs_label complete (fun v _ => Subst.integral_ints v) started leaf
  | unlabeled _ => exact fun _ _ _ => .refl _
  | labelAll _ ih => exact fun _ => ih trivial
  | @reserve n body s t _ ih =>
    intro known stated good complete
    obtain ⟨own, ranges, coherent, holds⟩ := stated s.supply
    have reserved : s.Informs { s with supply := s.supply + n } := Subst.informs_of_same rfl rfl (Nat.le_refl _)
    exact reserved.trans (ih holds (good.reserve ranges coherent) (complete.congr rfl rfl))

namespace Subst

variable {s t : Subst}

/-- The second substitution has the bindings of the first one and no fewer variables. Read
    under it, a term that was read under the first one is the term read at once; and a
    variable with a domain stands for one of its integers, or for a variable whose domain
    is a part of it. -/
structure Extended (s t : Subst) : Prop where
  bound : ∀ v a, s.get? v = some a → t.get? v = some a
  allocated : s.next ≤ t.next
  reread : ∀ a, t.walkDeep (s.walkDeep a) = t.walkDeep a
  domain : ∀ v a, s.getAttr v .domain = some (.domain a) →
    (∃ n ∈ a.val.domain, t.walk (.var v) = .int n) ∨
      ∃ w b, t.walk (.var v) = .var w ∧ t.getAttr w .domain = some (.domain b) ∧
        ∀ n ∈ b.val.domain, n ∈ a.val.domain

/-- The propagators are proper and have identities that have been given out, and two of
    them with one identity, be they stored or not, are one propagator. -/
structure Knows (s : Subst) (known : Propagator → Prop) : Prop where
  proper : ∀ p, known p → p.val.Proper
  stamped : ∀ p, known p → p.stamp < s.supply
  coherent : ∀ p q, known p → (known q ∨ ∃ v, q ∈ s.storedWatchers v) → p.stamp = q.stamp → p = q

theorem knows_none (s : Subst) : s.Knows fun _ => False :=
  ⟨fun _ => False.elim, fun _ => False.elim, fun _ _ => False.elim⟩

/-- A substitution that goals produce is in order, whatever propagators are known. -/
theorem Produced.orderly_of_knows (h : s.Produced) {known : Propagator → Prop} (knows : s.Knows known) :
    s.Orderly (.ints known) :=
  h.orderly.rescope knows.proper (fun _ _ v _ => integral_ints v) knows.stamped knows.coherent

/-- Goals only add information: so do all answers of a goal from a substitution that goals
    produce. The goal may state propagators with identities that have been given out. -/
theorem Produced.extended (h : s.Produced) {known : Propagator → Prop} (knows : s.Knows known)
    {program : Program} (fair : program.Fair) {g : Goal} (stated : g.Fair known) {allowance : Nat}
    {answers : Answers} (applied : g.apply (program.context allowance) s = .ok answers)
    (reached : answers.Reaches (program.context allowance).interp t) : s.Extended t := by
  have yields := Goal.yields_of_reaches applied reached
  have orderly := h.orderly_of_knows knows
  have informs := yields.informs fair stated orderly h.complete
  have acyclic := (yields.orderly fair stated orderly).acyclic
  refine ⟨informs.extends_, informs.next, fun a => ?_, fun v a found => ?_⟩
  · have agrees : s.Agrees (t.image t.size) := acyclic.agrees_image.of_extends informs.extends_
    exact agrees.expand_walkDeep a
  · have at_v := getAttr_domain_iff.mp found
    have unbound := orderly.unbound_of_get? (a := .domain a) found
    have stays : s.walk (.var v) = .var v := walk_var_of_unbound unbound
    refine (informs.within v a.val.domain (.inr ⟨v, a, stays, at_v, fun _ mem => mem⟩)).imp_right ?_
    rintro ⟨w, b, leads, found', sub⟩
    exact ⟨w, b, leads, getAttr_domain_iff.mpr found', sub⟩

/-- `_1`, which is from 1 to 3, becomes `_0`, and hands its domain over. -/
theorem extended_alias : ∃ s t answers,
    s.Produced ∧ s.storedDomain ⟨1⟩ = .interval 1 3 ∧ s.Knows (fun _ => False) ∧ Program.Fair (fun _ _ => .fail) ∧
    (Goal.eq (.var ⟨0⟩) (.var ⟨1⟩)).Fair (fun _ => False) ∧
    (Goal.eq (.var ⟨0⟩) (.var ⟨1⟩)).apply (Program.context (fun _ _ => .fail) 0) s = .ok answers ∧
    answers.Reaches (Program.context (fun _ _ => .fail) 0).interp t ∧
    t.get? ⟨1⟩ = some (.var ⟨0⟩) ∧ t.storedDomain ⟨0⟩ = .interval 1 3 ∧ s.Extended t := by
  let program : Program := fun _ _ => .fail
  let s := ((empty.freshMany 2).2.solveReduced ⟨1⟩ (.range 1 3)).toOption.getD empty
  let t := (s.unify (.var ⟨0⟩) (.var ⟨1⟩)).toOption.getD empty
  have narrowed : (empty.freshMany 2).2.solveReduced ⟨1⟩ (.range 1 3) = .ok s := eq_ok_of_isSome (by decide +kernel)
  have unified : s.unify (.var ⟨0⟩) (.var ⟨1⟩) = .ok t := eq_ok_of_isSome (by decide +kernel)
  have fair : program.Fair := fun _ _ _ => trivial
  have posted : (Goal.narrow ⟨1⟩ (.range 1 3)).apply (program.context 0) (empty.freshMany 2).2 = .ok (.unit s) := by
    show Answers.ofAttempt ((empty.freshMany 2).2.solveReduced ⟨1⟩ (.range 1 3)) = _
    rw [narrowed]
    rfl
  have applied : (Goal.eq (.var ⟨0⟩) (.var ⟨1⟩)).apply (program.context 0) s = .ok (.unit t) := by
    show Answers.ofAttempt (s.unify (.var ⟨0⟩) (.var ⟨1⟩)) = _
    rw [unified]
    rfl
  have canonical : (Domain.range 1 3).Canonical := Domain.canonical_range (by decide) (by decide)
  have produced : s.Produced := ⟨program, .narrow ⟨1⟩ (.range 1 3), 2, 0, _, fair, canonical, posted, .here⟩
  have stated : (Goal.eq (.var ⟨0⟩) (.var ⟨1⟩)).Fair fun _ => False := ⟨trivial, trivial⟩
  exact ⟨s, t, .unit t, produced, by decide +kernel, knows_none s, fair, stated, applied, .here, by decide +kernel,
    by decide +kernel, produced.extended (knows_none s) fair stated applied .here⟩

end Subst

end ConstraintLogic
