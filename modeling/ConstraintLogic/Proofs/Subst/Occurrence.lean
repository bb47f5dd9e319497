import ConstraintLogic.Proofs.Goal.AllowedIntegers

/-!
# The variables that occur

Unification and solvers bring no variable into a substitution that neither occurred there
nor was given to them: a solver loads what the propagators that it knows of name, its runs
replace a propagator by one that names no other variables, and what is written back belongs
to the variables that have been loaded.

Results:
* `Subst.Occurs`: the variable occurs in the substitution.
* `Subst.Enclosed`, `Solver.Enclosed`: only certain variables occur.
* `Solver.invariant_enclosed`: no step of a run brings in another variable.
* `Subst.Enclosed.unify`, `Subst.Enclosed.solveWith`, `Subst.Enclosed.solveReduced`: nor does unification.
-/

namespace ConstraintLogic

/-- The variables that the attribute names. -/
def Attribute.names : Attribute → List Var
  | .domain a => [a.val.anchor]
  | .watchers a => a.val.flatMap fun p => p.val.names
  | _ => []

variable {P : Var → Prop} {n : Nat}

namespace Subst

variable {s t : Subst} {v w : Var} {b : Term} {a : Attribute} {p : Propagator}

/-- The variable is bound or has attributes, or it occurs in a bound term or is named by an
    attribute. -/
inductive Occurs (s : Subst) (v : Var) : Prop
  | bound {b : Term} (found : s.get? v = some b)
  | inTerm {w : Var} {b : Term} (found : s.get? w = some b) (mem : v ∈ b.vars)
  | attributed (has : s.hasAttrs v = true)
  | named {w : Var} {a : Attribute} (found : s.getAttr w a.name = some a) (mem : v ∈ a.names)

/-- `n` variables have been allocated, and all that occur are in `P`. -/
structure Enclosed (P : Var → Prop) (n : Nat) (s : Subst) : Prop where
  next : s.next = n
  occurs : ∀ v, s.Occurs v → P v

theorem Occurs.congr (occurs : t.Occurs v) (bindings : t.bindings = s.bindings) (attrs : t.attrs = s.attrs) : s.Occurs v := by
  cases occurs with
  | bound found => exact .bound (by rw [get?, ← bindings]; exact found)
  | inTerm found mem => exact .inTerm (by rw [get?, ← bindings]; exact found) mem
  | attributed has => exact .attributed (by rw [hasAttrs, ← attrs]; exact has)
  | named found mem => exact .named (by rw [getAttr, attributes, ← attrs]; exact found) mem

/-- What only renumbers stamps brings in no variable. -/
theorem Enclosed.congr (h : s.Enclosed P n) (bindings : t.bindings = s.bindings) (attrs : t.attrs = s.attrs)
    (next : t.next = s.next) : t.Enclosed P n :=
  ⟨next.trans h.next, fun v occurs => h.occurs v (occurs.congr bindings attrs)⟩

theorem Enclosed.of_bound (h : s.Enclosed P n) (found : s.get? v = some b) : ∀ u ∈ b.vars, P u :=
  fun u mem => h.occurs u (.inTerm found mem)

theorem Enclosed.of_attribute (h : s.Enclosed P n) (found : (s.attributes v).get? a.name = some a) : ∀ u ∈ a.names, P u :=
  fun u mem => h.occurs u (.named found mem)

theorem Enclosed.of_watcher (h : s.Enclosed P n) (stored : p ∈ s.storedWatchers v) : ∀ u ∈ p.val.names, P u := by
  obtain ⟨ws, found, mem⟩ := mem_storedWatchers_iff.mp stored
  intro u named
  refine h.of_attribute (v := v) (a := .watchers ws) ?_ u (List.mem_flatMap.mpr ⟨p, mem, named⟩)
  exact congrArg (Option.map Attribute.watchers) found

/-- What a term stands for. -/
theorem Enclosed.walk (h : s.Enclosed P n) (named : ∀ u ∈ b.vars, P u) : ∀ u ∈ (s.walk b).vars, P u := by
  rcases s.walk_eq_or_bound b with same | ⟨u, found⟩
  · rwa [same]
  · exact h.of_bound found

theorem Enclosed.walk_var (h : s.Enclosed P n) (pv : P v) (ends : s.walk (.var v) = .var w) : P w := by
  have all := h.walk (b := .var v) (by simpa using pv)
  rw [ends] at all
  exact all w (by simp)

/-! ## Changes of the store -/

theorem Enclosed.bind (h : s.Enclosed P n) (pv : P v) (named : ∀ u ∈ b.vars, P u) : (s.bind v b).Enclosed P n := by
  refine ⟨h.next, fun u occurs => ?_⟩
  cases occurs with
  | bound found =>
    rw [get?_bind] at found
    split at found
    · rename_i same
      exact same ▸ pv
    · exact h.occurs u (.bound found)
  | inTerm found mem =>
    rw [get?_bind] at found
    split at found
    · cases found
      exact named u mem
    · exact h.occurs u (.inTerm found mem)
  | attributed has => exact h.occurs u (.attributed has)
  | named found mem => exact h.occurs u (.named found mem)

/-- The attributes of one variable are changed, to some that name known variables. -/
theorem Enclosed.of_attrs (h : s.Enclosed P n) (bindings : t.bindings = s.bindings) (next : t.next = s.next)
    (has : ∀ u, t.hasAttrs u = true → P u)
    (named : ∀ u (a : Attribute), t.getAttr u a.name = some a → (∀ w ∈ a.names, P w) ∨ s.getAttr u a.name = some a) :
    t.Enclosed P n := by
  refine ⟨next.trans h.next, fun u occurs => ?_⟩
  cases occurs with
  | bound found => exact h.occurs u (.bound (by rw [get?, ← bindings]; exact found))
  | inTerm found mem => exact h.occurs u (.inTerm (by rw [get?, ← bindings]; exact found) mem)
  | attributed attached => exact has u attached
  | named found mem => exact (named _ _ found).elim (fun all => all u mem) fun before => h.occurs u (.named before mem)

theorem Enclosed.setAttr (h : s.Enclosed P n) (pv : P v) (named : ∀ u ∈ a.names, P u) : (s.setAttr v a).Enclosed P n := by
  refine h.of_attrs rfl rfl (fun u has => ?_) fun u a' found => ?_
  · rw [hasAttrs, Subst.setAttr, Std.ExtTreeMap.getElem?_insert] at has
    split at has
    · rename_i same
      exact Std.compare_eq_iff_eq.mp same ▸ pv
    · exact h.occurs u (.attributed has)
  · rw [getAttr, attributes_setAttr] at found
    split at found
    · rw [Attributes.get?_set] at found
      split at found
      · cases found
        exact .inl named
      · exact .inr found
    · exact .inr found

theorem Enclosed.removeAttr (h : s.Enclosed P n) (v : Var) (name : AttrName) : (s.removeAttr v name).Enclosed P n := by
  have bindings : (s.removeAttr v name).bindings = s.bindings := by
    unfold Subst.removeAttr
    split
    · rfl
    · dsimp only
      split <;> rfl
  have next : (s.removeAttr v name).next = s.next := by
    unfold Subst.removeAttr
    split
    · rfl
    · dsimp only
      split <;> rfl
  refine h.of_attrs bindings next (fun u has => h.occurs u (.attributed ?_)) fun u a found => ?_
  · unfold hasAttrs Subst.removeAttr at has
    split at has
    · exact has
    · rename_i m at_v
      dsimp only at has
      split at has
      · rw [Std.ExtTreeMap.getElem?_erase] at has
        split at has
        · cases has
        · exact has
      · rw [Std.ExtTreeMap.getElem?_insert] at has
        split at has
        · rename_i same
          rw [hasAttrs, ← Std.compare_eq_iff_eq.mp same, at_v]
          rfl
        · exact has
  · rw [getAttr, attributes_removeAttr] at found
    split at found
    · rw [Attributes.get?_erase] at found
      split at found
      · cases found
      · exact .inr found
    · exact .inr found

theorem Enclosed.dropAttrs (h : s.Enclosed P n) (v : Var) : (s.dropAttrs v).Enclosed P n := by
  refine h.of_attrs rfl rfl (fun u has => h.occurs u (.attributed ?_)) fun u a found => ?_
  · rw [hasAttrs, Subst.dropAttrs, Std.ExtTreeMap.getElem?_erase] at has
    split at has
    · cases has
    · exact has
  · rw [getAttr, attributes_dropAttrs] at found
    split at found
    · simp at found
    · exact .inr found

theorem Enclosed.assign (h : s.Enclosed P n) (pv : P v) {k : Int} (run : s.assign v k = .ok t) : t.Enclosed P n := by
  unfold Subst.assign at run
  dsimp only at run
  split at run
  · split at run <;> cases run
    exact (h.dropAttrs v).bind pv (by simp [Term.str])
  · split at run <;> cases run
    exact (h.dropAttrs v).bind pv (by simp [Term.int])

end Subst

namespace Solver

variable {s t : Solver} {id : PropId} {r : Relation} {p : Propagator} {v w : Var} {d : Domain}

/-! ## Solvers -/

/-- The variables that occur, those that have been loaded, and those that the propagators at
    work name, are in `P`. -/
structure Enclosed (P : Var → Prop) (n : Nat) (s : Solver) : Prop where
  subst : s.subst.Enclosed P n
  loaded : ∀ v ∈ s.domains, P v
  props : ∀ id p, s.prop? id = some p → ∀ v ∈ p.val.names, P v

theorem Enclosed.new {s : Subst} (h : s.Enclosed P n) : (Solver.new s).Enclosed P n :=
  ⟨h, fun v mem => by simp [Solver.new] at mem, fun id p found => by simp [Solver.new, prop?] at found⟩

theorem Enclosed.congr (h : s.Enclosed P n) (subst : t.subst = s.subst) (domains : t.domains = s.domains)
    (props : t.props = s.props) : t.Enclosed P n where
  subst := subst ▸ h.subst
  loaded := domains ▸ h.loaded
  props id p found := h.props id p (by rwa [prop?, ← props])

theorem Enclosed.root (h : s.Enclosed P n) (pv : P v) (found : s.resolve v = .free w) : P w :=
  h.subst.walk_var pv (resolve_eq_free_iff.mp found)

theorem Enclosed.insert (h : s.Enclosed P n) (pv : P v) (d : Domain) :
    Solver.Enclosed P n { s with domains := s.domains.insert v d } := by
  refine ⟨h.subst, fun w mem => ?_, h.props⟩
  rcases Std.ExtTreeMap.mem_insert.mp mem with same | mem
  · exact Std.compare_eq_iff_eq.mp same ▸ pv
  · exact h.loaded w mem

theorem Enclosed.enlist (h : s.Enclosed P n) (named : ∀ v ∈ p.val.names, P v) : (s.enlist p).Enclosed P n := by
  refine ⟨h.subst, h.loaded, fun id q found => ?_⟩
  rw [prop?_enlist] at found
  split at found
  · cases found
    exact named
  · exact h.props id q found

theorem Enclosed.intern (h : s.Enclosed P n) (named : ∀ v ∈ p.val.names, P v) : (s.intern p).2.2.Enclosed P n := by
  unfold Solver.intern
  split
  · exact h
  · exact h.enlist named

theorem Enclosed.addSubscriber (h : s.Enclosed P n) (id : PropId) (v : Var) : (s.addSubscriber id v).Enclosed P n := by
  obtain ⟨m, eq⟩ := s.addSubscriber_eq id v
  rw [eq]
  exact h.congr rfl rfl rfl

/-- A stored propagator that is taken up puts variables that it names on the stack. -/
theorem Enclosed.adopt {pending : List Var} (h : s.Enclosed P n) (stack : ∀ v ∈ pending, P v) (named : ∀ v ∈ p.val.names, P v) :
    (Solver.adopt (pending, s) p).2.Enclosed P n ∧ ∀ v ∈ (Solver.adopt (pending, s) p).1, P v := by
  have numbered := h.intern named
  rw [adopt_eq]
  split
  · rename_i found
    rw [found] at numbered
    exact ⟨numbered, stack⟩
  · rename_i found
    rw [found] at numbered
    refine List.foldlRecOn (motive := fun r : List Var × Solver => r.2.Enclosed P n ∧ ∀ v ∈ r.1, P v) _ _ ⟨numbered, stack⟩ ?_
    rintro ⟨pending, s⟩ ⟨enclosed, stack⟩ v mem
    unfold adoptVar
    dsimp only
    split
    · rename_i w free
      have pw := enclosed.root (named v (p.val.vars_subset_names mem)) free
      exact ⟨enclosed.addSubscriber _ _, List.forall_mem_cons.mpr ⟨pw, stack⟩⟩
    · exact ⟨enclosed, stack⟩

theorem Enclosed.loadAll (k : Nat) : ∀ (pending : List Var) (s : Solver), s.Enclosed P n → (∀ v ∈ pending, P v) →
    (Solver.loadAll k pending s).Enclosed P n := by
  induction k with
  | zero =>
    intro pending s h _
    unfold Solver.loadAll
    exact h
  | succ k ih =>
    intro pending s h stack
    cases pending with
    | nil =>
      unfold Solver.loadAll
      exact h
    | cons v pending =>
      rw [List.forall_mem_cons] at stack
      by_cases present : v ∈ s.domains
      · rw [loadAll_of_mem present]
        exact ih pending s h stack.2
      · rw [loadAll_of_not_mem present]
        have stored (p : Propagator) (mem : p ∈ s.subst.storedWatchers v) : ∀ u ∈ p.val.names, P u := h.subst.of_watcher mem
        have all := List.foldlRecOn (motive := fun r : List Var × Solver => r.2.Enclosed P n ∧ ∀ v ∈ r.1, P v)
          (s.subst.storedWatchers v) Solver.adopt (b := (pending, s.reveal v)) ⟨h.insert stack.1 _, stack.2⟩
          fun r kept p mem => kept.1.adopt kept.2 (stored p mem)
        exact ih _ _ all.1 all.2

theorem Enclosed.load (h : s.Enclosed P n) (pv : P v) : (s.load v).Enclosed P n := by
  unfold Solver.load
  split
  · exact h
  · exact loadAll _ [v] s h (by simpa using pv)

theorem Enclosed.domain (h : s.Enclosed P n) (pv : P v) : (s.domain v).2.Enclosed P n := by
  unfold Solver.domain
  split
  · rename_i w found
    exact h.load (h.root pv found)
  · exact h
  · exact h

theorem Enclosed.unsubscribe (h : s.Enclosed P n) (id : PropId) : (s.unsubscribe id).Enclosed P n := by
  unfold Solver.unsubscribe
  split
  · exact h
  · refine List.foldlRecOn (motive := fun s : Solver => s.Enclosed P n) _ _ h fun s enclosed v _ => ?_
    split
    · split
      · exact enclosed.congr rfl rfl rfl
      · exact enclosed
    · exact enclosed

theorem Enclosed.replaceWith (h : s.Enclosed P n) (named : ∀ v ∈ r.names, P v) (run : Narrow.replaceWith id r s = .ok () t) :
    t.Enclosed P n := by
  cases run
  have stamped : (s.subst.stamped r).2.Enclosed P n := h.subst.congr rfl rfl rfl
  have same : Solver.Enclosed P n { s with subst := (s.subst.stamped r).2 } := ⟨stamped, h.loaded, h.props⟩
  change (Solver.replace { s with subst := (s.subst.stamped r).2 } id (s.subst.stamped r).1).Enclosed P n
  unfold Solver.replace
  split
  · exact same
  · refine ⟨stamped, h.loaded, fun j q found => ?_⟩
    rw [prop?, Array.getElem?_setIfInBounds] at found
    split at found
    · split at found
      · cases found
        exact named
      · cases found
    · exact h.props j q found

/-- No step of a run brings in another variable. -/
theorem invariant_enclosed (P : Var → Prop) (n : Nat) : Invariant P (fun s : Solver => s.Enclosed P n) where
  root s v w enclosed pv found := enclosed.root pv found
  known s id p enclosed found := enclosed.props id p found
  domain s v pv enclosed := enclosed.domain pv
  narrow s v w d pv enclosed found _ := by
    have pw := enclosed.root pv found
    exact (enclosed.domain pw).insert pw _
  subscribe s id v pv enclosed := by
    unfold Solver.subscribe
    split
    · rename_i w found
      exact (enclosed.load (enclosed.root pv found)).addSubscriber id w
    · exact enclosed
  unsubscribe s id enclosed := enclosed.unsubscribe id
  intern s p named enclosed := enclosed.intern named
  replaceWith id r named s enclosed := fun _ t run => enclosed.replaceWith named run
  agenda s a enclosed := enclosed.congr rfl rfl rfl

/-! ## Writing back -/

theorem Enclosed.writeBack (h : s.Enclosed P n) {u : Subst} (enclosed : u.Enclosed P n) (pv : P v) (d : Domain) :
    (s.writeBack u v d).Enclosed P n := by
  have domain : (if d.isUnbounded then u else
      (u.stamped (DomainFact.mk v d)).2.setAttr v (.domain (u.stamped (DomainFact.mk v d)).1)).Enclosed P n := by
    split
    · exact enclosed
    · have stamped : (u.stamped (DomainFact.mk v d)).2.Enclosed P n := enclosed.congr rfl rfl rfl
      exact stamped.setAttr pv (by simpa [Attribute.names] using pv)
  unfold Solver.writeBack
  dsimp only at domain ⊢
  split
  · exact domain
  · have stamped := domain.congr (t := (Subst.stamped _ ((s.subscribersOf v).filterMap s.prop?)).2) rfl rfl rfl
    refine stamped.setAttr pv fun w mem => ?_
    obtain ⟨p, attached, named⟩ := List.mem_flatMap.mp mem
    obtain ⟨id, _, found⟩ := List.mem_filterMap.mp attached
    exact h.props id p found w named

/-- The values of solved variables are bound. -/
theorem Enclosed.assignAll {l : List (Var × Domain)} (named : ∀ e ∈ l, P e.1) {u t : Subst} (enclosed : u.Enclosed P n)
    (run : l.foldlM (fun subst (v, d) =>
      match d.solution with
      | some k => subst.assign v k
      | none => .ok subst) u = .ok t) : t.Enclosed P n := by
  refine foldlM_keeps (J := fun u => u.Enclosed P n) l (fun u e mem u' enclosed first => ?_) enclosed run
  obtain ⟨v, d⟩ := e
  dsimp only at first
  cases only : d.solution with
  | some k =>
    rw [only] at first
    exact enclosed.assign (named _ mem) first
  | none =>
    rw [only] at first
    cases first
    exact enclosed

/-- Only loaded variables are written back. -/
theorem Enclosed.toSubst? (h : s.Enclosed P n) {t : Subst} (run : s.toSubst? = .ok t) : t.Enclosed P n := by
  have loaded (e : Var × Domain) (mem : e ∈ s.domains.toList) : P e.1 :=
    h.loaded e.1 (mem_domains_iff.mpr ⟨e.2, Std.ExtTreeMap.mem_toList_iff_getElem?_eq_some.mp mem⟩)
  unfold Solver.toSubst? at run
  refine assignAll loaded (List.foldlRecOn _ _ (List.foldlRecOn _ _ h.subst ?_) ?_) run
  · exact fun u enclosed e _ => (enclosed.removeAttr e.1 .domain).removeAttr e.1 .watchers
  · rintro u enclosed ⟨v, d⟩ mem
    dsimp only
    split
    · exact enclosed
    · exact h.writeBack enclosed (loaded (v, d) mem) d

theorem Enclosed.runToSubst (h : s.Enclosed P n) {t : Subst} {m : Narrow Unit} (keeps : Narrow.Keeps (fun s : Solver => s.Enclosed P n) m)
    (run : s.runToSubst m = .ok t) : t.Enclosed P n := by
  unfold Solver.runToSubst EStateM.run at run
  split at run
  · rename_i u ended
    exact (keeps s h _ u ended).toSubst? run
  · cases run

/-- A leaf of the tree of splits is written back. -/
theorem Enclosed.leaf (h : s.Enclosed P n) {vs : List Var} (named : ∀ v ∈ vs, P v) {t : Subst} (leaf : s.Leaf vs t) :
    t.Enclosed P n := by
  obtain ⟨u, enclosed, written⟩ := (invariant_enclosed P n).leaf named leaf h
  exact enclosed.toSubst? written

end Solver

namespace Subst

variable {s t : Subst} {v w : Var} {b : Term} {a : Attribute} {p : Propagator}

/-! ## Runs of a solver -/

theorem Enclosed.solveWith (h : s.Enclosed P n) {ps : List Propagator} (named : ∀ p ∈ ps, ∀ v ∈ p.val.names, P v)
    (run : s.solveWith ps = .ok t) : t.Enclosed P n := by
  have inv := Solver.invariant_enclosed P n
  exact Solver.Enclosed.runToSubst (inv.posts ps named _ (Solver.Enclosed.new h)) inv.fixpoint run

theorem Enclosed.solveReduced (h : s.Enclosed P n) (pv : P v) {d : Domain} (run : s.solveReduced v d = .ok t) : t.Enclosed P n :=
  (Solver.Enclosed.new h).runToSubst ((Solver.invariant_enclosed P n).reduce_fixpoint pv d) run

theorem Enclosed.label (h : s.Enclosed P n) {vs : List Var} (named : ∀ v ∈ vs, P v) {x : Solver}
    (started : (do Solver.requireNonempty vs; modify Solver.wakeAll; Narrow.fixpoint : Narrow Unit) (Solver.new s) = .ok () x)
    (leaf : x.Leaf vs t) : t.Enclosed P n :=
  ((Solver.invariant_enclosed P n).label named _ (Solver.Enclosed.new h) _ _ started).leaf named leaf

/-! ## Attributes in unification -/

theorem Enclosed.validate (h : s.Enclosed P n) (pv : P v) (named : ∀ u ∈ a.names, P u) (run : s.validate v b a = .ok t) :
    t.Enclosed P n := by
  cases a with
  | allowed a =>
    unfold Subst.validate at run
    dsimp only at run
    split at run
    · split at run <;> cases run
      exact h
    · cases run
  | domain a =>
    unfold Subst.validate at run
    dsimp only at run
    split at run
    · split at run
      · exact h.solveReduced pv run
      · cases run
    · cases run
  | watchers a =>
    unfold Subst.validate at run
    dsimp only at run
    split at run
    · exact h.solveWith (fun p mem u in_p => named u (List.mem_flatMap.mpr ⟨p, mem, in_p⟩)) run
    · cases run
  | tag a =>
    cases run
    exact h
  | zero a =>
    unfold Subst.validate at run
    dsimp only at run
    split at run <;> cases run
    exact (h.dropAttrs v).bind pv (by simp [Term.str])

theorem mem_unionWatchers {ps qs : List Propagator} : p ∈ unionWatchers ps qs → p ∈ ps ∨ p ∈ qs := by
  unfold unionWatchers
  refine List.foldlRecOn (motive := fun union => p ∈ union → p ∈ ps ∨ p ∈ qs) _ _ .inl fun union ih q mem => ?_
  split
  · exact ih
  · intro in_union
    rcases List.mem_append.mp in_union with before | new
    · exact ih before
    · exact .inr (List.mem_singleton.mp new ▸ mem)

theorem Enclosed.getAttr (h : s.Enclosed P n) {name : AttrName} (found : s.getAttr v name = some a) : ∀ u ∈ a.names, P u := by
  refine h.of_attribute (v := v) ?_
  rw [Attributes.name_of_get? found]
  exact found

theorem Enclosed.combine (h : s.Enclosed P n) (pv : P v) {existing : Attribute} (named : ∀ u ∈ existing.names, P u)
    (named' : ∀ u ∈ a.names, P u) {merged : Option Attribute} (run : s.combine v existing a = .ok (merged, t)) :
    t.Enclosed P n ∧ ∀ m, merged = some m → ∀ u ∈ m.names, P u := by
  cases existing with
  | allowed e =>
    cases a <;> try cases run
    unfold Subst.combine at run
    dsimp only at run
    split at run <;> cases run
    refine ⟨h.congr rfl rfl rfl, fun m same => ?_⟩
    cases same
    simp [Attribute.names]
  | domain e =>
    cases a <;> try cases run
    obtain ⟨u, solved, same⟩ := exists_of_bind_ok run
    cases same
    have enclosed := h.solveReduced pv solved
    exact ⟨enclosed, fun m found => enclosed.getAttr found⟩
  | watchers e =>
    cases a <;> try cases run
    rename_i a
    obtain ⟨u, solved, same⟩ := exists_of_bind_ok run
    cases same
    have all (p : Propagator) (mem : p ∈ unionWatchers e.val a.val) (u : Var) (in_p : u ∈ p.val.names) : P u :=
      (mem_unionWatchers mem).elim (fun mem => named u (List.mem_flatMap.mpr ⟨p, mem, in_p⟩))
        fun mem => named' u (List.mem_flatMap.mpr ⟨p, mem, in_p⟩)
    have stamped : (s.stamped (unionWatchers e.val a.val)).2.Enclosed P n := h.congr rfl rfl rfl
    have attached := stamped.setAttr (a := .watchers (s.stamped (unionWatchers e.val a.val)).1) pv fun u mem => by
      obtain ⟨p, mem, in_p⟩ := List.mem_flatMap.mp mem
      exact all p mem u in_p
    have enclosed := attached.solveWith all solved
    exact ⟨enclosed, fun m found => enclosed.getAttr found⟩
  | tag e =>
    cases a <;> try cases run
    exact ⟨h, nofun⟩
  | zero e =>
    cases a <;> try cases run
    refine ⟨h.congr rfl rfl rfl, fun m same => ?_⟩
    cases same
    simp [Attribute.names]

theorem Enclosed.moveAttr (h : s.Enclosed P n) {keep : Var} (pk : P keep) (named : ∀ u ∈ a.names, P u) {joined : List Attribute}
    {state : Subst × List Attribute} (run : Subst.moveAttr keep (s, joined) a = .ok state) : state.1.Enclosed P n := by
  have moved : Prod.fst <$> Subst.moveAttr keep (s, joined) a = .ok state.1 := by
    rw [run]
    rfl
  generalize state.1 = t at moved ⊢
  rw [moveAttr_eq] at moved
  split at moved
  · rename_i rep ends
    have pr := h.walk_var pk ends
    split at moved
    · cases moved
      exact h.setAttr pr named
    · rename_i existing found
      obtain ⟨⟨merged, u⟩, combined, rest⟩ := exists_of_bind_ok moved
      obtain ⟨enclosed, kind⟩ := h.combine pr (h.getAttr found) named combined
      dsimp only at rest
      split at rest
      · split at rest
        · cases rest
          exact enclosed.setAttr pr (kind _ rfl)
        · cases rest
          exact enclosed.removeAttr rep a.name
      · cases rest
        exact enclosed
  · exact h.validate pk named moved

theorem Enclosed.settleAll (h : s.Enclosed P n) {keep : Var} {joined : List Attribute}
    (run : joined.foldlM (Subst.settleAt keep) s = .ok t) : t.Enclosed P n := by
  refine settleAll_keeps (Q := fun s => s.Enclosed P n) (fun enclosed at_v run => ?_) joined h run
  refine enclosed.solveWith (fun p mem u in_p => ?_) run
  exact enclosed.of_attribute (a := .watchers _) (getAttr_watchers_iff.mpr at_v) u (List.mem_flatMap.mpr ⟨p, mem, in_p⟩)

/-! ## Unification -/

/-- The attributes of a variable that is made another one move there. -/
theorem Enclosed.retire (h : s.Enclosed P n) {keep : Var} (pk : P keep) (pv : P v) (run : s.retire keep v = .ok t) :
    t.Enclosed P n := by
  have bound := (h.dropAttrs v).bind (b := .var keep) pv (by simpa using pk)
  obtain ⟨state, moved, settled⟩ := exists_of_bind_ok run
  have moves : state.1.Enclosed P n :=
    foldlM_keeps (J := fun state : Subst × List Attribute => state.1.Enclosed P n) _ (fun _ a mem _ enclosed run =>
      enclosed.moveAttr pk (h.of_attribute (Attributes.mem_toList.mp mem)) run) bound moved
  exact moves.settleAll settled

theorem Enclosed.identify (h : s.Enclosed P n) (pv : P v) (pw : P w) (run : s.identify v w = .ok t) : t.Enclosed P n := by
  rw [identify_eq] at run
  split at run
  · exact h.retire pv pw run
  · exact h.retire pw pv run

theorem Enclosed.instantiate (h : s.Enclosed P n) (pv : P v) (named : ∀ u ∈ b.vars, P u) (run : s.instantiate v b = .ok t) :
    t.Enclosed P n := by
  unfold Subst.instantiate at run
  split at run
  · cases run
  dsimp only at run
  have attached (a : Attribute) (mem : a ∈ (s.attributes v).toList) : ∀ u ∈ a.names, P u :=
    h.of_attribute (Attributes.mem_toList.mp mem)
  split at run
  · rename_i a found
    exact h.validate pv (attached a (List.mem_of_find?_eq_some found)) run
  · exact foldlM_keeps (J := fun s => s.Enclosed P n) _ (fun _ a mem _ enclosed run =>
      enclosed.validate pv (attached a mem) run) ((h.dropAttrs v).bind pv named) run

/-- Unification brings in the variables of its terms only. -/
theorem Enclosed.unify (h : s.Enclosed P n) {a b : Term} (named : ∀ u ∈ a.vars, P u) (named' : ∀ u ∈ b.vars, P u)
    (run : s.unify a b = .ok t) : t.Enclosed P n := by
  refine unify_keeps (P := fun s => s.Enclosed P n) (T := fun t => ∀ u ∈ t.vars, P u) (E := fun _ v => P v)
    (fun parts => ?_) (fun enclosed named => ?_) (fun enclosed pv pw _ run => enclosed.identify pv pw run)
    (fun enclosed pv named _ run => enclosed.instantiate pv named run) h named named' run
  · exact ⟨fun u mem => parts u (Term.mem_vars_pair.mpr (.inl mem)), fun u mem => parts u (Term.mem_vars_pair.mpr (.inr mem))⟩
  · have walked := enclosed.walk named
    refine ⟨walked, fun v ends => ?_⟩
    rw [ends] at walked
    exact walked v (by simp)

end Subst

end ConstraintLogic
