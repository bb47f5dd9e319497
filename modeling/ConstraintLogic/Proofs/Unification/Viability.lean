import ConstraintLogic.Proofs.Goal.AllowedIntegers
import ConstraintLogic.Proofs.Solver.Termination
import ConstraintLogic.Proofs.Unification.Rounds

/-!
# Substitutions that solvers can run on

A solver can be run on any substitution whose bindings have no cycle and whose integers have
64 bits, and it leaves such a substitution. Writing it back unifies each of its solved
variables with an integer. By then the variable has lost its domain and its propagators, so
that no solver is run for it again, and the unification is over in a few rounds.

Results:
* `Subst.Viable`, `Subst.Grown`: such substitutions, and how they follow one another.
* `Subst.Serves`: a unifier that binds the solved variables.
* `Solver.Rests.finishes_solveBy`: running a solver and writing it back ends.
* `Subst.Viable.finishes_validate`, `Subst.Viable.finishes_combine`, `Subst.Viable.finishes_recheck`:
  attributes are consulted, combined and checked in rounds.
-/

namespace ConstraintLogic

open Attempt (Finishes)

/-- A domain is in its one form, and the constants of propagators have 64 bits. -/
def Attribute.Fit : Attribute → Prop
  | .domain a => a.val.domain.Canonical
  | .watchers a => ∀ p ∈ a.val, p.val.Sized
  | _ => True

namespace Subst

variable {W : Nat} {s t u : Subst} {v w : Var} {b : Term} {a : Attribute} {name : AttrName} {k : Int}

/-- The bindings have no cycle and bind to terms with variables below `W` and integers of 64
    bits, and the attributes are fit. -/
structure Viable (W : Nat) (s : Subst) : Prop where
  acyclic : s.Acyclic
  bound : ∀ v b, s.get? v = some b → b.width ≤ W ∧ b.Sized
  fit : ∀ v name a, s.getAttr v name = some a → a.Fit

/-- The second substitution is viable and has the bindings of the first one. -/
structure Grown (W : Nat) (s t : Subst) : Prop extends Viable W t where
  extends_ : s.Extends t

theorem Grown.trans (h : s.Grown W t) (h' : t.Grown W u) : s.Grown W u := ⟨h'.toViable, h.extends_.trans h'.extends_⟩

namespace Viable

theorem grown (h : s.Viable W) : s.Grown W s := ⟨h, .refl s⟩

/-- Nothing but bindings and attributes matters. -/
theorem congr (h : s.Viable W) (bindings : ∀ v, t.get? v = s.get? v)
    (fit : ∀ v name a, t.getAttr v name = some a → a.Fit) : s.Grown W t where
  acyclic := by
    obtain ⟨rank, falls⟩ := h.acyclic
    exact ⟨rank, fun v w ⟨b, found, mem⟩ => falls v w ⟨b, bindings v ▸ found, mem⟩⟩
  bound v b found := h.bound v b (bindings v ▸ found)
  fit := fit
  extends_ v b found := (bindings v).trans found

theorem stamped {α : Type} (h : s.Viable W) (x : α) : s.Grown W (s.stamped x).2 := h.congr (fun _ => rfl) h.fit

theorem setAttr (h : s.Viable W) (v : Var) (fit : a.Fit) : s.Grown W (s.setAttr v a) := by
  refine h.congr (fun _ => rfl) fun w name c found => ?_
  unfold getAttr at found
  rw [attributes_setAttr] at found
  split at found
  · rw [Attributes.get?_set] at found
    split at found
    · cases found
      exact fit
    · exact h.fit w name c found
  · exact h.fit w name c found

theorem removeAttr (h : s.Viable W) (v : Var) (name : AttrName) : s.Grown W (s.removeAttr v name) := by
  refine h.congr (fun w => get?_removeAttr s v w name) fun w other c found => ?_
  unfold getAttr at found
  rw [attributes_removeAttr] at found
  split at found
  · rw [Attributes.get?_erase] at found
    split at found
    · cases found
    · exact h.fit w other c found
  · exact h.fit w other c found

theorem bindBare (h : s.Viable W) (unbound : s.get? v = none) (fresh : s.occurs v b = false)
    (good : b.width ≤ W ∧ b.Sized) : s.Grown W (s.bindBare v b) where
  acyclic := h.acyclic.bindBare unbound fresh
  bound w c found := by
    rw [get?_bindBare] at found
    split at found
    · cases found
      exact good
    · exact h.bound w c found
  fit w name c found := by
    unfold getAttr at found
    rw [attributes_bindBare] at found
    split at found
    · rw [Attributes.get?_empty] at found
      cases found
    · exact h.fit w name c found
  extends_ := .bindBare unbound b

theorem domain_fit (h : s.Viable W) {d : Stamped DomainFact} (found : (s.attributes v).domain = some d) :
    d.val.domain.Canonical := h.fit v .domain (.domain d) (getAttr_domain_iff.mpr found)

theorem watchers_fit (h : s.Viable W) {ps : Stamped (List Propagator)} (found : (s.attributes v).watchers = some ps) :
    ∀ p ∈ ps.val, p.val.Sized := h.fit v .watchers (.watchers ps) (getAttr_watchers_iff.mpr found)

theorem canonical_storedDomain (h : s.Viable W) (v : Var) : (s.storedDomain v).Canonical := by
  unfold storedDomain
  split
  · rename_i d found
    exact h.domain_fit found
  · trivial

/-- A solver that is opened on the substitution can be run. -/
theorem ready (h : s.Viable W) : (Solver.new s).Ready where
  tidy := .new h.acyclic (fun v b found => (h.bound v b found).2) h.canonical_storedDomain
  primed := ⟨Agenda.coherent_empty, fun id waits => absurd waits (Agenda.not_waits_empty id)⟩
  work := by
    rintro p ⟨id, found⟩
    simp [Solver.new, Solver.prop?] at found
  stored v p mem := by
    obtain ⟨ps, found, mem⟩ := mem_storedWatchers_iff.mp mem
    exact h.watchers_fit found p mem

/-- What a term is walked to has integers of 64 bits. -/
theorem walk (h : s.Viable W) (good : b.width ≤ W ∧ b.Sized) : (s.walk b).width ≤ W ∧ (s.walk b).Sized := by
  rcases s.walk_eq_or_bound b with same | ⟨w, found⟩
  · rwa [same]
  · exact h.bound w _ found

end Viable

/-! ## Solved variables -/

/-- From some number of rounds on, the unifier binds a variable that has neither a domain nor
    propagators to an integer as it is bound when a solver is written back. -/
def Serves {ι : Type} (call : ι → Nat → Unifier) : Prop :=
  ∃ n₀, ∀ i n, n₀ ≤ n → ∀ (s : Subst) (v : Var) (k : Int), s.get? v = none → (s.attributes v).domain = none →
    (s.attributes v).watchers = none → call i n (.var v) (.int k) s = s.assign v k

/-- The variable is bound to the integer or to the text for zero, unless it has an attribute
    that does not permit it. -/
theorem assign_cases (s : Subst) (v : Var) (k : Int) :
    s.assign v k = .error .conflict ∨
      ∃ b, (b = .int k ∨ b = .str "zero") ∧ s.assign v k = .ok (s.bindBare v b) := by
  unfold assign
  dsimp only
  split
  · split
    · exact .inr ⟨_, .inr rfl, rfl⟩
    · exact .inl rfl
  · split
    · exact .inr ⟨_, .inl rfl, rfl⟩
    · exact .inl rfl

/-- The variable of a solver that is written back is unbound, and if it has one value left, an
    integer of 64 bits, then it has neither a domain nor propagators. -/
structure Assignable (s : Subst) (e : Var × Domain) : Prop where
  unbound : s.get? e.1 = none
  clear : ∀ k, e.2.solution = some k →
    isValue k = true ∧ (s.attributes e.1).domain = none ∧ (s.attributes e.1).watchers = none

theorem Assignable.bindBare {e : Var × Domain} (h : s.Assignable e) (differ : v ≠ e.1) (b : Term) :
    (s.bindBare v b).Assignable e := by
  refine ⟨?_, ?_⟩
  · rw [get?_bindBare, if_neg differ, h.unbound]
  · rw [attributes_bindBare, if_neg differ]
    exact h.clear

section Nested

variable {ι : Type} {call : ι → Nat → Unifier}

/-- A solved variable is bound in a few rounds. -/
theorem Viable.finishes_assign (h : s.Viable W) (serves : Serves call) (unbound : s.get? v = none)
    (value : isValue k = true) (domain : (s.attributes v).domain = none)
    (watchers : (s.attributes v).watchers = none) :
    Finishes (fun t => s.Grown W t ∧ ∃ b, t = s.bindBare v b) (fun i n => call i n (.var v) (.int k) s)
      (s.assign v k) := by
  refine ⟨?_, ?_⟩
  · obtain ⟨n₀, binds⟩ := serves
    exact ⟨n₀, fun i n le => binds i n le s v k unbound domain watchers⟩
  · rcases s.assign_cases v k with clash | ⟨b, plain, bound⟩
    · rw [clash]
      trivial
    · rw [bound]
      refine ⟨h.bindBare unbound ?_ ?_, b, rfl⟩
      · rcases plain with rfl | rfl <;> rfl
      · rcases plain with rfl | rfl
        · exact ⟨Nat.zero_le W, value⟩
        · exact ⟨Nat.zero_le W, trivial⟩

/-- The solved variables are bound one after another. None of them is bound twice. -/
theorem Viable.finishes_assignAll (serves : Serves call) (l : List (Var × Domain)) : ∀ s : Subst, s.Viable W →
    (l.map Prod.fst).Nodup → (∀ e ∈ l, s.Assignable e) →
    Finishes (s.Grown W)
      (fun i n => l.foldlM (fun t (v, d) =>
        match d.solution with
        | some k => call i n (.var v) (.int k) t
        | none => .ok t) s)
      (l.foldlM (fun t (v, d) =>
        match d.solution with
        | some k => t.assign v k
        | none => .ok t) s) := by
  induction l with
  | nil => exact fun s h _ _ => .ok h.grown
  | cons e l ih =>
    obtain ⟨v, d⟩ := e
    intro s h distinct assignable
    rw [List.map_cons, List.nodup_cons] at distinct
    rw [List.forall_mem_cons] at assignable
    obtain ⟨new, distinct⟩ := distinct
    obtain ⟨first, others⟩ := assignable
    simp only [List.foldlM_cons]
    cases only : d.solution with
    | none => exact ih s h distinct others
    | some k =>
      obtain ⟨value, domain, watchers⟩ := first.clear k only
      refine (h.finishes_assign serves first.unbound value domain watchers).bind ?_
      rintro _ ⟨grown, b, rfl⟩
      refine (ih _ grown.toViable distinct fun e mem => ?_).mono fun t grown' => grown.trans grown'
      exact (others e mem).bindBare (fun same => new (List.mem_map.mpr ⟨e, mem, same.symm⟩)) b

end Nested

end Subst

/-! ## Runs -/

namespace Solver

open Subst (Viable Grown Serves Assignable)

variable {ι : Type} {call : ι → Nat → Unifier} {W : Nat} {s t : Subst} {x y : Solver} {v w : Var} {d : Domain}

theorem attributes_writeBack (x : Solver) (t : Subst) (d : Domain) (differ : v ≠ w) :
    (x.writeBack t v d).attributes w = t.attributes w := by
  unfold writeBack
  dsimp only
  split <;> split <;> simp [differ]

/-- Only variables with another value left are given attributes. -/
theorem attributes_attach (x : Solver) (l : List (Var × Domain)) (w : Var) : ∀ t : Subst,
    (∀ d, (w, d) ∈ l → d.hasSolution = true) →
    (l.foldl (fun t (v, d) => if d.hasSolution then t else x.writeBack t v d) t).attributes w = t.attributes w := by
  induction l with
  | nil => exact fun t _ => rfl
  | cons e l ih =>
    obtain ⟨v, d⟩ := e
    intro t solved
    rw [List.foldl_cons, ih _ fun d mem => solved d (List.mem_cons_of_mem _ mem)]
    dsimp only
    split
    · rfl
    · rename_i open_
      refine x.attributes_writeBack t d fun same => open_ (solved d ?_)
      rw [same]
      exact List.mem_cons_self

/-- What is written back of a variable is fit. -/
theorem Ready.viable_writeBack (ready : x.Ready) (h : t.Viable W) (v : Var) (canonical : d.Canonical) :
    (x.writeBack t v d).Viable W := by
  have domain : (if d.isUnbounded then t else
      (t.stamped (DomainFact.mk v d)).2.setAttr v (.domain (t.stamped (DomainFact.mk v d)).1)).Viable W := by
    split
    · exact h
    · refine ((h.stamped _).toViable.setAttr v ?_).toViable
      exact canonical
  unfold writeBack
  dsimp only at domain ⊢
  split
  · exact domain
  · refine ((domain.stamped _).toViable.setAttr v ?_).toViable
    intro p mem
    obtain ⟨id, _, found⟩ := List.mem_filterMap.mp mem
    exact ready.work p ⟨id, found⟩

theorem Rests.get?_eq (rests : Rests s x) (v : Var) : x.subst.get? v = s.get? v := by
  unfold Subst.get?
  rw [rests.bindings]

/-- A domain that has been loaded is what is left to its variable. -/
theorem Rests.peek_of_mem (rests : Rests s x) {e : Var × Domain} (mem : e ∈ x.domains.toList) :
    s.get? e.1 = none ∧ x.peek e.1 = e.2 := by
  have found : x.domains[e.1]? = some e.2 := Std.ExtTreeMap.mem_toList_iff_getElem?_eq_some.mp mem
  have unbound := rests.loaded e.1 (mem_domains_iff.mpr ⟨e.2, found⟩)
  refine ⟨unbound, ?_⟩
  rw [peek_of_free (resolve_of_unbound ((rests.get?_eq e.1).trans unbound)), current_of_loaded found]

/-- The substitution of a solver that rests is as viable as the one it was opened on. -/
theorem Rests.grown (rests : Rests s x) (h : s.Viable W) : s.Grown W x.subst := by
  refine h.congr rests.get?_eq fun v name a found => h.fit v name a ?_
  unfold Subst.getAttr Subst.attributes at found ⊢
  rwa [← rests.attrs]

theorem get?_refiled (x : Solver) (v : Var) : x.refiled.get? v = x.subst.get? v :=
  ((Subst.sameLists_clear x.domains.toList x.subst).trans (Subst.sameLists_attach x x.domains.toList _) v).1

/-- What is refiled is viable: the loaded domains are in their one form. -/
theorem Rests.viable_refiled (rests : Rests s x) (ready : x.Ready) (h : s.Viable W) : x.refiled.Viable W := by
  refine List.foldlRecOn (motive := fun t : Subst => t.Viable W) _ _ ?_ fun t h e mem => ?_
  · exact List.foldlRecOn (motive := fun t : Subst => t.Viable W) _ _ (rests.grown h).toViable fun t h e _ =>
      ((h.removeAttr e.1 .domain).toViable.removeAttr e.1 .watchers).toViable
  · dsimp only
    split
    · exact h
    · exact ready.viable_writeBack h e.1 ((rests.peek_of_mem mem).2 ▸ ready.tidy.canonical e.1)

/-- A variable that has one value left keeps neither a domain nor propagators. -/
theorem Rests.attributes_refiled (rests : Rests s x) {e : Var × Domain} (mem : e ∈ x.domains.toList)
    (solved : e.2.hasSolution = true) :
    x.refiled.attributes e.1 = ((x.subst.attributes e.1).erase .domain).erase .watchers := by
  have all_solved (d : Domain) (mem' : (e.1, d) ∈ x.domains.toList) : d.hasSolution = true := by
    have same : d = e.2 := (rests.peek_of_mem mem').2.symm.trans (rests.peek_of_mem mem).2
    rw [same, solved]
  have cleared := (clear_spec x.domains.toList x.subst).2.2 e.1
  rw [if_pos (List.mem_map.mpr ⟨e, mem, rfl⟩)] at cleared
  exact (x.attributes_attach x.domains.toList e.1 _ all_solved).trans cleared

theorem Rests.assignable_refiled (rests : Rests s x) (ready : x.Ready) {e : Var × Domain}
    (mem : e ∈ x.domains.toList) : x.refiled.Assignable e := by
  obtain ⟨unbound, left⟩ := rests.peek_of_mem mem
  refine ⟨?_, fun k only => ?_⟩
  · rw [get?_refiled, rests.get?_eq, unbound]
  · rw [rests.attributes_refiled mem (by rw [Domain.hasSolution, only]; rfl)]
    exact ⟨(ready.tidy.eq_of_solution (left ▸ only)).1, rfl, rfl⟩

/-- Writing a solver back ends. -/
theorem Rests.finishes_toSubstBy (rests : Rests s x) (ready : x.Ready) (h : s.Viable W) (serves : Serves call) :
    Finishes (s.Grown W) (fun i n => x.toSubstBy (call i n)) x.toSubst? := by
  have grown : s.Grown W x.refiled := ⟨rests.viable_refiled ready h, fun v b found => by
    rw [get?_refiled]
    exact (rests.grown h).extends_ v b found⟩
  refine (Viable.finishes_assignAll serves x.domains.toList x.refiled grown.toViable ?_ fun e mem =>
    rests.assignable_refiled ready mem).mono fun _ => grown.trans
  rw [Std.ExtTreeMap.map_fst_toList_eq_keys]
  exact Std.ExtTreeMap.nodup_keys

theorem seq_of_ok {m rest : Narrow Unit} (ran : m x = .ok () y) : (do m; rest) x = rest y :=
  Narrow.bind_of_ok ran

theorem solveBy_of_ok {n : Nat} {call : Unifier} {narrowing : Narrow Unit}
    (ended : (do narrowing; Narrow.runWaiting n) x = .ok () y) : x.solveBy n call narrowing = y.toSubstBy call := by
  unfold solveBy EStateM.run
  rw [ended]

theorem solveBy_of_error {n : Nat} {call : Unifier} {narrowing : Narrow Unit} {why : Halt}
    (ended : (do narrowing; Narrow.runWaiting n) x = .error why y) : x.solveBy n call narrowing = .error why := by
  unfold solveBy EStateM.run
  rw [ended]

/-- From the budget of a fixpoint on, the number of rounds does not matter. -/
theorem Ready.runWaiting_eq (ready : x.Ready) {n : Nat} (le : x.runBudget ≤ n) :
    Narrow.runWaiting n x = Narrow.fixpoint x := by
  have ended := ne_exhausted_of_ensures ready.fixpoint
  rw [fixpoint_eq] at ended ⊢
  exact runWaiting_of_le _ n x le ended

/-- What stops a run stops what it is run for. -/
theorem ends_of_stopped {M : (Var → Term) → Prop} {m : Narrow Unit} {Q : Unit → Solver → Prop} {R : Subst → Prop}
    {why : Halt} (h : Narrow.Ensures M x m Q) (ran : m x = .error why y) : Attempt.Ends R (.error why) := by
  unfold Narrow.Ensures at h
  rw [ran] at h
  match why, h with
  | .conflict, _ => trivial
  | .stop (.fault f), overflow => exact overflow

/-- Running a solver and writing it back ends, if what is done first leaves one that can be run. -/
theorem Rests.finishes_solveBy (rests : Rests s x) (h : s.Viable W) (serves : Serves call) {narrowing : Narrow Unit}
    (keeps : Narrow.Keeps (Rests s) narrowing)
    (narrows : Narrow.Ensures (fun _ => False) x narrowing fun _ y => y.Ready) :
    Finishes (s.Grown W) (fun i n => x.solveBy n (call i n) narrowing)
      (x.runToSubst do narrowing; Narrow.fixpoint) := by
  cases ran : narrowing x with
  | error why y =>
    rw [runToSubst_of_error (Narrow.bind_of_error ran)]
    exact ⟨⟨0, fun i n _ => solveBy_of_error (Narrow.bind_of_error ran)⟩, ends_of_stopped narrows ran⟩
  | ok _ y =>
    have ready : y.Ready := narrows.leaves () y ran
    have rested := keeps x rests () y ran
    have run (n : Nat) (le : y.runBudget ≤ n) : (do narrowing; Narrow.runWaiting n) x = Narrow.fixpoint y := by
      rw [Narrow.bind_of_ok ran, ready.runWaiting_eq le]
    cases ran' : Narrow.fixpoint y with
    | error why z =>
      rw [runToSubst_of_error ((Narrow.bind_of_ok ran).trans ran')]
      exact ⟨⟨y.runBudget, fun i n le => solveBy_of_error ((run n le).trans ran')⟩,
        ends_of_stopped ready.fixpoint ran'⟩
    | ok _ z =>
      rw [runToSubst_of_ok ((Narrow.bind_of_ok ran).trans ran')]
      have ready' := (ready.fixpoint.leaves () z ran').1
      have rested' := (invariant_rests h.acyclic).fixpoint y rested () z ran'
      obtain ⟨⟨n₀, comes⟩, ends⟩ := rested'.finishes_toSubstBy ready' h serves
      refine ⟨⟨max n₀ y.runBudget, fun i n le => ?_⟩, ends⟩
      rw [solveBy_of_ok ((run n (Nat.le_trans (Nat.le_max_right _ _) le)).trans ran')]
      exact comes i n (Nat.le_trans (Nat.le_max_left _ _) le)

end Solver

/-! ## Attributes -/

namespace Subst

variable {ι : Type} {call : ι → Nat → Unifier} {W : Nat} {s t : Subst} {v w : Var} {b : Term} {a e : Attribute}
variable {d : Domain} {ps : List Propagator}

namespace Viable

/-- Running propagators ends. -/
theorem finishes_solveWith (h : s.Viable W) (serves : Serves call) (sized : ∀ p ∈ ps, p.val.Sized) :
    Finishes (s.Grown W) (fun i n => s.solveWithBy n (call i n) ps) (s.solveWith ps) := by
  have rests := (Solver.invariant_rests h.acyclic).posts ps (fun _ _ _ _ => trivial) _ (Solver.rests_new s)
  have ready : (ps.foldl (fun solver p => (solver.post p).2) (Solver.new s)).Ready :=
    List.foldlRecOn (motive := Solver.Ready) _ _ h.ready fun _ ready p mem => ready.post (sized p mem)
  unfold solveWith Solver.solve?
  -- Nothing is done before the propagators are run.
  rw [← Solver.runToSubst_congr (Solver.seq_of_ok (m := pure ()) rfl)]
  exact rests.finishes_solveBy h serves (Narrow.Keeps.pure ()) (Narrow.Ensures.pure ready)

/-- Narrowing a variable ends. -/
theorem finishes_solveReduced (h : s.Viable W) (serves : Serves call) (v : Var) (canonical : d.Canonical) :
    Finishes (s.Grown W) (fun i n => s.solveReducedBy n (call i n) v d) (s.solveReduced v d) := by
  refine (Solver.rests_new s).finishes_solveBy h serves ((Solver.invariant_rests h.acyclic).reduce trivial d) ?_
  have reduced := h.ready.tidy.reduce canonical (M := fun _ => False) (v := v) fun _ => False.elim
  refine (reduced.and fun _ t ran => ?_).mono fun _ _ after => after.2
  exact h.ready.reduce canonical (.inl ran)

/-- Consulting an attribute on a value ends. -/
theorem finishes_validate (h : s.Viable W) (serves : Serves call) (v : Var) (sized : b.Sized) (fit : a.Fit) :
    Finishes (s.Grown W) (fun i n => s.validateBy n (call i n) v b a) (s.validate v b a) := by
  cases a with
  | domain a =>
    unfold validateBy validate
    cases value : b.asInt? with
    | none => exact .conflict
    | some k =>
      dsimp only
      split
      · refine h.finishes_solveReduced serves v (Solver.canonical_singleton ?_)
        rw [Term.eq_int_of_asInt? value] at sized
        exact sized
      · exact .conflict
  | watchers a =>
    unfold validateBy validate
    cases b.asInt? with
    | none => exact .conflict
    | some k => exact h.finishes_solveWith serves fit
  | allowed a =>
    show Finishes _ (fun _ _ => s.validate v b (.allowed a)) _
    refine .of_ends ?_
    unfold validate
    dsimp only
    split
    · split
      · exact h.grown
      · trivial
    · trivial
  | tag a => exact .ok h.grown
  | zero a =>
    show Finishes _ (fun _ _ => s.validate v b (.zero a)) _
    refine .of_ends ?_
    unfold validate
    dsimp only
    split
    · rename_i zero
      have unbound : s.get? v = none := by
        simp only [isBound, Bool.and_eq_true, Bool.not_eq_true', Option.isSome_eq_false_iff,
          Option.isNone_iff_eq_none] at zero
        exact zero.2
      exact h.bindBare unbound rfl ⟨Nat.zero_le W, trivial⟩
    · trivial

/-- Combining two attributes of a kind ends, and what they become is fit. -/
theorem finishes_combine (h : s.Viable W) (serves : Serves call) (v : Var) (fit_e : e.Fit) (fit : a.Fit) :
    Finishes (fun r => s.Grown W r.2 ∧ ∀ m, r.1 = some m → m.Fit) (fun i n => s.combineBy n (call i n) v e a)
      (s.combine v e a) := by
  -- What a run has left on the variable is fit.
  have after {t : Subst} (grown : s.Grown W t) (name : AttrName) :
      s.Grown W t ∧ ∀ m, t.getAttr v name = some m → m.Fit := ⟨grown, fun m found => grown.fit v name m found⟩
  cases e with
  | domain e =>
    cases a with
    | domain a =>
      unfold combineBy combine
      exact (h.finishes_solveReduced serves v fit).bind fun t grown => .ok (after grown .domain)
    | _ => exact .conflict
  | watchers e =>
    cases a with
    | watchers a =>
      have sized (p : Propagator) (mem : p ∈ unionWatchers e.val a.val) : p.val.Sized :=
        (mem_of_mem_unionWatchers mem).elim (fit_e p) (fit p)
      have stamped := h.stamped (unionWatchers e.val a.val)
      have attached := stamped.toViable.setAttr (a := .watchers (s.stamped (unionWatchers e.val a.val)).1) v sized
      unfold combineBy combine
      exact (attached.toViable.finishes_solveWith serves sized).bind fun t grown =>
        .ok (after ((stamped.trans attached).trans grown) .watchers)
    | _ => exact .conflict
  | allowed e =>
    cases a with
    | allowed a =>
      show Finishes _ (fun _ _ => s.combine v (.allowed e) (.allowed a)) _
      refine .of_ends ?_
      unfold combine
      dsimp only
      split
      · trivial
      · exact ⟨h.stamped (e.val.filter a.val.contains), by rintro m ⟨⟩; trivial⟩
    | _ => exact .conflict
  | tag e =>
    cases a with
    | tag a => exact .ok ⟨h.grown, nofun⟩
    | _ => exact .conflict
  | zero e =>
    cases a with
    | zero a => exact .ok ⟨h.stamped (), by rintro m ⟨⟩; trivial⟩
    | _ => exact .conflict

/-- Running the propagators of a variable with a domain ends. -/
theorem finishes_recheck (h : s.Viable W) (serves : Serves call) (v : Var) :
    Finishes (s.Grown W) (fun i n => s.recheckBy n (call i n) v) (s.recheck v) := by
  unfold recheckBy recheck
  cases (s.attributes v).domain with
  | none => exact .ok h.grown
  | some d =>
    cases found : (s.attributes v).watchers with
    | none => exact .ok h.grown
    | some ps => exact h.finishes_solveWith serves (h.watchers_fit found)

/-- Checking an attribute against the others of its variable ends. -/
theorem finishes_settle (h : s.Viable W) (serves : Serves call) (v : Var) (a : Attribute) :
    Finishes (s.Grown W) (fun i n => s.settleBy n (call i n) v a) (s.settle v a) := by
  unfold settleBy settle
  cases a with
  | domain a => exact h.finishes_recheck serves v
  | watchers a => exact h.finishes_recheck serves v
  | _ => exact .ok h.grown

end Viable

end Subst

end ConstraintLogic
