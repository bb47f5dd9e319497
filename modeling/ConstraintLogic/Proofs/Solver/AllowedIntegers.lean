import ConstraintLogic.Proofs.Solver.Invariants
import ConstraintLogic.Proofs.Unification.Aliases

/-!
# Allowed integers in runs

A list of allowed integers on a variable is consulted wherever the variable takes a
value, be it in unification or when a solver is written back. Here it is shown for what
is done with other attributes: each of these steps binds variables only to what their
lists permit, and leaves the lists of the others alone. Nothing is assumed of domains
and propagators. A placeholder for zero, which binds a string, is left out.

Results:
* `Subst.Obeys`: bindings are added that the lists permit.
* `Solver.invariant_rests`: a run of a solver leaves the substitution alone.
* `Solver.Rests.obeys_toSubst?`: what is written back obeys the lists.
* `Subst.Tame.validate`, `Subst.Tame.moveAttr`: so do attributes of other kinds.
-/

namespace ConstraintLogic

/-- The attribute is neither a list of allowed integers nor a placeholder for zero. -/
def Attribute.IsOther (a : Attribute) : Prop := a.name ≠ .allowed ∧ a.name ≠ .zero

namespace Subst

variable {s t u : Subst} {v w : Var} {b : Term} {a : Attribute}

/-! ## Substitutions that obey lists -/

/-- The bindings have no cycle, and there is no placeholder for zero. -/
structure Tame (s : Subst) : Prop where
  acyclic : s.Acyclic
  zero : ∀ v, (s.attributes v).zero = none

/-- The term is an integer of the list of the variable, if that has one. -/
def Permits (s : Subst) (v : Var) (b : Term) : Prop :=
  ∀ ns, (s.attributes v).allowed = some ns → ∃ n ∈ ns.val, b = .int n

/-- The second substitution binds more variables, each to a term that is no variable and
    that its list permits. The variables that are still unbound have the same lists. -/
structure Obeys (s t : Subst) : Prop extends Tame t where
  extends_ : s.Extends t
  bound : ∀ v b, s.get? v = none → t.get? v = some b → (∀ w, b ≠ .var w) ∧ s.Permits v b
  kept : ∀ v, t.get? v = none → (t.attributes v).allowed = (s.attributes v).allowed

theorem Obeys.refl (h : s.Tame) : s.Obeys s :=
  { h with
    extends_ := .refl s
    bound := fun v b unbound bound => by
      rw [unbound] at bound
      cases bound
    kept := fun _ _ => rfl }

theorem Obeys.trans (h : s.Obeys t) (h' : t.Obeys u) : s.Obeys u where
  acyclic := h'.acyclic
  zero := h'.zero
  extends_ := h.extends_.trans h'.extends_
  bound v b unbound bound := by
    cases found : t.get? v with
    | some c =>
      have same := h'.extends_ v c found
      rw [bound] at same
      cases same
      exact h.bound v b unbound found
    | none =>
      obtain ⟨not_var, permits⟩ := h'.bound v b found bound
      refine ⟨not_var, fun ns listed => permits ns ?_⟩
      rw [h.kept v found, listed]
  kept v unbound := by
    have before : t.get? v = none := by
      cases found : t.get? v with
      | none => rfl
      | some c =>
        rw [h'.extends_ v c found] at unbound
        cases unbound
    rw [h'.kept v unbound, h.kept v before]

/-- Both substitutions have the same bindings, lists and placeholders. -/
def SameLists (s t : Subst) : Prop := ∀ v, t.get? v = s.get? v ∧
  (t.attributes v).allowed = (s.attributes v).allowed ∧ (t.attributes v).zero = (s.attributes v).zero

theorem SameLists.refl (s : Subst) : s.SameLists s := fun _ => ⟨rfl, rfl, rfl⟩

theorem SameLists.trans (h : s.SameLists t) (h' : t.SameLists u) : s.SameLists u := fun v =>
  ⟨(h' v).1.trans (h v).1, (h' v).2.1.trans (h v).2.1, (h' v).2.2.trans (h v).2.2⟩

theorem SameLists.obeys (h : s.SameLists t) (tame : s.Tame) : s.Obeys t where
  acyclic := by
    obtain ⟨rank, falls⟩ := tame.acyclic
    refine ⟨rank, fun v w ⟨b, bound, mem⟩ => falls v w ⟨b, ?_, mem⟩⟩
    rw [← (h v).1, bound]
  zero v := (h v).2.2.trans (tame.zero v)
  extends_ v b bound := (h v).1.trans bound
  bound v b unbound bound := by
    rw [(h v).1, unbound] at bound
    cases bound
  kept v _ := (h v).2.1

theorem Tame.congr (h : s.Tame) (same : s.SameLists t) : t.Tame := (same.obeys h).toTame

/-- Attributes of other kinds leave lists and placeholders alone. -/
theorem sameLists_setAttr (other : a.IsOther) : s.SameLists (s.setAttr v a) := by
  refine fun w => ⟨rfl, ?_⟩
  rw [attributes_setAttr]
  obtain ⟨no_list, no_zero⟩ := other
  split
  · cases a <;> first | exact absurd rfl no_list | exact absurd rfl no_zero | exact ⟨rfl, rfl⟩
  · exact ⟨rfl, rfl⟩

theorem sameLists_removeAttr {name : AttrName} (no_list : name ≠ .allowed) (no_zero : name ≠ .zero) :
    s.SameLists (s.removeAttr v name) := by
  refine fun w => ⟨get?_removeAttr s v w name, ?_⟩
  rw [attributes_removeAttr]
  split
  · cases name <;> first | exact absurd rfl no_list | exact absurd rfl no_zero | exact ⟨rfl, rfl⟩
  · exact ⟨rfl, rfl⟩

/-- A binding that the list of the variable permits obeys the lists. -/
theorem Tame.bindBare (h : s.Tame) (unbound : s.get? v = none) (fresh : s.occurs v b = false)
    (not_var : ∀ w, b ≠ .var w) (permits : s.Permits v b) : s.Obeys (s.bindBare v b) where
  acyclic := Acyclic.bind (s := s.dropAttrs v) h.acyclic unbound (by rw [occurs_dropAttrs, fresh])
  zero w := by
    rw [attributes_bindBare]
    split
    · rfl
    · exact h.zero w
  extends_ := Extends.bindBare unbound b
  bound w c before after := by
    rw [get?_bindBare] at after
    split at after
    · rename_i same
      cases after
      rw [← same]
      exact ⟨not_var, permits⟩
    · rw [before] at after
      cases after
  kept w unbound' := by
    rw [get?_bindBare] at unbound'
    rw [attributes_bindBare]
    split at unbound'
    · cases unbound'
    · rename_i other
      rw [if_neg other]

/-! ## Writing back -/

theorem sameLists_writeBack (x : Solver) (s : Subst) (v : Var) (d : Domain) : s.SameLists (x.writeBack s v d) := by
  have domain (fact : Stamped DomainFact) (t : Subst) : t.SameLists (t.setAttr v (.domain fact)) :=
    sameLists_setAttr ⟨nofun, nofun⟩
  have watchers (ps : Stamped (List Propagator)) (t : Subst) : t.SameLists (t.setAttr v (.watchers ps)) :=
    sameLists_setAttr ⟨nofun, nofun⟩
  unfold Solver.writeBack
  dsimp only
  split <;> split
  · exact .refl s
  · exact domain _ _
  · exact watchers _ _
  · exact (domain _ _).trans (watchers _ _)

theorem sameLists_clear (l : List (Var × Domain)) : ∀ s : Subst,
    s.SameLists (l.foldl (fun t (v, _) => (t.removeAttr v .domain).removeAttr v .watchers) s) := by
  induction l with
  | nil => exact SameLists.refl
  | cons e l ih =>
    intro s
    have first : s.SameLists (s.removeAttr e.1 .domain) := sameLists_removeAttr nofun nofun
    have second : (s.removeAttr e.1 .domain).SameLists ((s.removeAttr e.1 .domain).removeAttr e.1 .watchers) :=
      sameLists_removeAttr nofun nofun
    exact (first.trans second).trans (ih _)

theorem sameLists_attach (x : Solver) (l : List (Var × Domain)) : ∀ s : Subst,
    s.SameLists (l.foldl (fun t (v, d) => if d.hasSolution then t else x.writeBack t v d) s) := by
  induction l with
  | nil => exact SameLists.refl
  | cons e l ih =>
    intro s
    have first : s.SameLists (if e.2.hasSolution then s else x.writeBack s e.1 e.2) := by
      split
      · exact .refl s
      · exact sameLists_writeBack x s e.1 e.2
    exact first.trans (ih _)

/-- A variable is bound to an integer of its list, or not at all. -/
theorem Tame.assign (h : s.Tame) (unbound : s.get? v = none) {n : Int} (run : s.assign v n = .ok t) :
    s.Obeys t ∧ ∀ w, v ≠ w → t.get? w = s.get? w := by
  simp only [Subst.assign, h.zero v, Option.isSome_none, Bool.false_eq_true, if_false] at run
  split at run
  · rename_i all
    cases run
    refine ⟨h.bindBare unbound rfl (by simp [Term.int]) fun ns listed => ?_, fun w other => ?_⟩
    · rw [listed] at all
      exact ⟨n, by simpa using all, rfl⟩
    · exact (get?_bindBare s v w _).trans (if_neg other)
  · cases run

theorem Tame.assignAll (l : List (Var × Domain)) : ∀ s : Subst, s.Tame → (l.map Prod.fst).Nodup →
    (∀ e ∈ l, s.get? e.1 = none) → l.foldlM (fun t (v, d) =>
      match d.solution with
      | some n => t.assign v n
      | none => .ok t) s = .ok t → s.Obeys t := by
  induction l with
  | nil =>
    intro s tame _ _ run
    cases run
    exact .refl tame
  | cons e l ih =>
    intro s tame distinct unbound run
    rw [List.map_cons, List.nodup_cons] at distinct
    obtain ⟨new, distinct⟩ := distinct
    rw [List.foldlM_cons] at run
    obtain ⟨m, first, rest⟩ := exists_of_bind_ok run
    have unbound' (e' : Var × Domain) (mem : e' ∈ l) : s.get? e'.1 = none := unbound e' (List.mem_cons_of_mem _ mem)
    dsimp only at first
    split at first
    · obtain ⟨obeys, others⟩ := tame.assign (unbound e List.mem_cons_self) first
      refine obeys.trans (ih m obeys.toTame distinct (fun e' mem => ?_) rest)
      rw [others e'.1 fun same => new (List.mem_map.mpr ⟨e', mem, same.symm⟩)]
      exact unbound' e' mem
    · cases first
      exact ih s tame distinct unbound' rest

end Subst

namespace Solver

variable {s t : Subst} {x y : Solver}

/-- The solver has the bindings and attributes of the substitution, and has loaded
    unbound variables only. -/
structure Rests (s : Subst) (x : Solver) : Prop where
  bindings : x.subst.bindings = s.bindings
  attrs : x.subst.attrs = s.attrs
  loaded : ∀ w ∈ x.domains, s.get? w = none

theorem rests_new (s : Subst) : Rests s (Solver.new s) := ⟨rfl, rfl, fun w mem => by simp [Solver.new] at mem⟩

theorem Rests.congr (h : Rests s x) (subst : y.subst = x.subst) (domains : y.domains = x.domains) : Rests s y where
  bindings := by rw [subst, h.bindings]
  attrs := by rw [subst, h.attrs]
  loaded w mem := h.loaded w (domains ▸ mem)

/-- What a variable stands for is unbound, if it is a variable. -/
theorem Rests.unbound (h : Rests s x) (acyclic : s.Acyclic) {v w : Var} (found : x.resolve v = .free w) :
    s.get? w = none := by
  rw [resolve_eq_free_iff, Subst.walk_congr h.bindings] at found
  exact acyclic.get?_of_walk found

theorem Rests.insert (h : Rests s x) {w : Var} (unbound : s.get? w = none) (d : Domain) :
    Rests s { x with domains := x.domains.insert w d } := by
  refine ⟨h.bindings, h.attrs, fun v mem => ?_⟩
  rcases Std.ExtTreeMap.mem_insert.mp mem with same | mem
  · rw [← Std.compare_eq_iff_eq.mp same]
    exact unbound
  · exact h.loaded v mem

theorem Rests.intern (h : Rests s x) (p : Propagator) : Rests s (x.intern p).2.2 := by
  unfold Solver.intern
  split
  · exact h
  · exact h.congr rfl rfl

theorem Rests.addSubscriber (h : Rests s x) (id : PropId) (v : Var) : Rests s (x.addSubscriber id v) := by
  obtain ⟨m, eq⟩ := x.addSubscriber_eq id v
  rw [eq]
  exact h.congr rfl rfl

/-- A stored propagator that is taken up puts unbound variables on the stack. -/
theorem Rests.adopt (h : Rests s x) (acyclic : s.Acyclic) {pending : List Var}
    (unbound : ∀ w ∈ pending, s.get? w = none) (p : Propagator) :
    Rests s (Solver.adopt (pending, x) p).2 ∧ ∀ w ∈ (Solver.adopt (pending, x) p).1, s.get? w = none := by
  have numbered := h.intern p
  unfold Solver.adopt
  dsimp only
  split
  · rename_i found
    rw [found] at numbered
    exact ⟨numbered, unbound⟩
  · rename_i found
    rw [found] at numbered
    refine List.foldlRecOn (motive := fun r : List Var × Solver => Rests s r.2 ∧ ∀ w ∈ r.1, s.get? w = none) _ _ ⟨numbered, unbound⟩ ?_
    rintro ⟨pending, x⟩ ⟨rests, unbound⟩ v _
    dsimp only
    split
    · rename_i w free
      exact ⟨rests.addSubscriber _ _, List.forall_mem_cons.mpr ⟨rests.unbound acyclic free, unbound⟩⟩
    · exact ⟨rests, unbound⟩

theorem Rests.loadAll (acyclic : s.Acyclic) (n : Nat) : ∀ (pending : List Var) (x : Solver), Rests s x →
    (∀ w ∈ pending, s.get? w = none) → Rests s (Solver.loadAll n pending x) := by
  have all (ps : List Propagator) (state : List Var × Solver) (rests : Rests s state.2)
      (unbound : ∀ w ∈ state.1, s.get? w = none) :
      Rests s (ps.foldl Solver.adopt state).2 ∧ ∀ w ∈ (ps.foldl Solver.adopt state).1, s.get? w = none :=
    List.foldlRecOn (motive := fun r : List Var × Solver => Rests s r.2 ∧ ∀ w ∈ r.1, s.get? w = none) ps _ ⟨rests, unbound⟩
      fun _ ⟨rests, unbound⟩ p _ => rests.adopt acyclic unbound p
  induction n with
  | zero =>
    intro pending x rests _
    unfold Solver.loadAll
    exact rests
  | succ n ih =>
    intro pending x rests unbound
    cases pending with
    | nil =>
      unfold Solver.loadAll
      exact rests
    | cons v pending =>
      rw [List.forall_mem_cons] at unbound
      unfold Solver.loadAll
      split
      · exact ih pending x rests unbound.2
      · obtain ⟨rests', unbound'⟩ := all (x.subst.storedWatchers v) (pending, _)
          (rests.insert unbound.1 (x.subst.storedDomain v)) unbound.2
        exact ih _ _ rests' unbound'

theorem Rests.load (h : Rests s x) (acyclic : s.Acyclic) {w : Var} (unbound : s.get? w = none) :
    Rests s (x.load w) := by
  unfold Solver.load
  split
  · exact h
  · exact Rests.loadAll acyclic _ [w] x h (List.forall_mem_singleton.mpr unbound)

theorem Rests.domain (h : Rests s x) (acyclic : s.Acyclic) (v : Var) : Rests s (x.domain v).2 := by
  unfold Solver.domain
  split
  · rename_i w found
    exact h.load acyclic (h.unbound acyclic found)
  · exact h
  · exact h

theorem Rests.unsubscribe (h : Rests s x) (id : PropId) : Rests s (x.unsubscribe id) := by
  unfold Solver.unsubscribe
  split
  · exact h
  · refine List.foldlRecOn (motive := Rests s) _ _ h fun x rests v _ => ?_
    split
    · split
      · exact rests.congr rfl rfl
      · exact rests
    · exact rests

/-- No step of a run binds a variable or changes an attribute. -/
theorem invariant_rests (acyclic : s.Acyclic) : Invariant (fun _ => True) (Rests s) where
  root _ _ _ _ _ _ := trivial
  known _ _ _ _ _ _ _ := trivial
  domain x v _ rests := rests.domain acyclic v
  narrow x v w d _ rests found _ := (rests.domain acyclic w).insert (rests.unbound acyclic found) _
  subscribe x id v _ rests := by
    unfold Solver.subscribe
    split
    · rename_i w found
      exact (rests.load acyclic (rests.unbound acyclic found)).addSubscriber id w
    · exact rests
  unsubscribe x id rests := rests.unsubscribe id
  intern x p _ rests := rests.intern p
  replaceWith id r _ x rests := by
    intro _ y run
    cases run
    have stamped : Rests s { x with subst := (x.subst.stamped r).2 } := ⟨rests.bindings, rests.attrs, rests.loaded⟩
    dsimp only
    unfold Solver.replace
    split
    · exact stamped
    · exact stamped.congr rfl rfl
  agenda x a rests := rests.congr rfl rfl

/-- What is written back obeys the lists. -/
theorem Rests.obeys_toSubst? (h : Rests s x) (tame : s.Tame) (run : x.toSubst? = .ok t) : s.Obeys t := by
  have same : s.SameLists x.subst := fun v => by
    unfold Subst.get? Subst.attributes
    rw [h.bindings, h.attrs]
    exact ⟨rfl, rfl, rfl⟩
  have attached := (same.trans (Subst.sameLists_clear x.domains.toList x.subst)).trans
    (Subst.sameLists_attach x x.domains.toList _)
  refine (attached.obeys tame).trans (Subst.Tame.assignAll x.domains.toList _ (tame.congr attached) ?_ ?_ run)
  · rw [Std.ExtTreeMap.map_fst_toList_eq_keys]
    exact Std.ExtTreeMap.nodup_keys
  · intro e mem
    rw [(attached e.1).1]
    refine h.loaded e.1 (mem_domains_iff.mpr ⟨e.2, ?_⟩)
    exact Std.ExtTreeMap.mem_toList_iff_getElem?_eq_some.mp mem

/-- A run of a solver and what it writes back. -/
theorem Rests.obeys_runToSubst (h : Rests s x) (tame : s.Tame) {m : Narrow Unit} (keeps : Narrow.Keeps (Rests s) m)
    (run : x.runToSubst m = .ok t) : s.Obeys t := by
  unfold Solver.runToSubst EStateM.run at run
  split at run
  · rename_i y ended
    exact (keeps x h _ y ended).obeys_toSubst? tame run
  · cases run

end Solver

namespace Subst

variable {s t : Subst} {v w : Var} {b : Term} {a : Attribute}

/-! ## Runs -/

theorem Tame.solveWith (h : s.Tame) {ps : List Propagator} (run : s.solveWith ps = .ok t) : s.Obeys t := by
  have inv := Solver.invariant_rests h.acyclic
  exact (inv.posts ps (fun _ _ _ _ => trivial) _ (Solver.rests_new s)).obeys_runToSubst h inv.fixpoint run

theorem Tame.solveReduced (h : s.Tame) {d : Domain} (run : s.solveReduced v d = .ok t) : s.Obeys t :=
  (Solver.rests_new s).obeys_runToSubst h ((Solver.invariant_rests h.acyclic).reduce_fixpoint trivial d) run

/-! ## Attributes of other kinds -/

theorem Tame.validate (h : s.Tame) (other : a.IsOther) (run : s.validate v b a = .ok t) : s.Obeys t := by
  cases a with
  | allowed a => exact absurd rfl other.1
  | zero a => exact absurd rfl other.2
  | tag a =>
    cases run
    exact .refl h
  | domain a =>
    unfold Subst.validate at run
    dsimp only at run
    split at run
    · split at run
      · exact h.solveReduced run
      · cases run
    · cases run
  | watchers a =>
    unfold Subst.validate at run
    dsimp only at run
    split at run
    · exact h.solveWith run
    · cases run

theorem Tame.combine (h : s.Tame) {existing : Attribute} (other : a.IsOther) {merged : Option Attribute}
    (run : s.combine v existing a = .ok (merged, t)) : s.Obeys t ∧ ∀ m, merged = some m → m.IsOther := by
  have got {s : Subst} {name : AttrName} (no_list : name ≠ .allowed) (no_zero : name ≠ .zero) (m : Attribute)
      (found : s.getAttr v name = some m) : m.IsOther := by
    rw [Attribute.IsOther, Attributes.name_of_get? found]
    exact ⟨no_list, no_zero⟩
  cases a with
  | allowed a => exact absurd rfl other.1
  | zero a => exact absurd rfl other.2
  | tag a =>
    cases existing <;> cases run
    exact ⟨.refl h, nofun⟩
  | domain a =>
    cases existing with
    | domain e =>
      obtain ⟨u, solved, same⟩ := exists_of_bind_ok run
      cases same
      exact ⟨h.solveReduced solved, got nofun nofun⟩
    | _ => cases run
  | watchers a =>
    cases existing with
    | watchers e =>
      have attached (ws : Stamped (List Propagator)) : s.SameLists ((s.stamped (unionWatchers e.val a.val)).2.setAttr v (.watchers ws)) :=
        sameLists_setAttr (s := (s.stamped (unionWatchers e.val a.val)).2) ⟨nofun, nofun⟩
      obtain ⟨u, solved, same⟩ := exists_of_bind_ok run
      cases same
      exact ⟨((attached _).obeys h).trans ((h.congr (attached _)).solveWith solved), got nofun nofun⟩
    | _ => cases run

/-- An attribute of another kind moves. -/
theorem Tame.moveAttr (h : s.Tame) (other : a.IsOther) {keep : Var} {joined : List Attribute}
    {state : Subst × List Attribute} (run : Subst.moveAttr keep (s, joined) a = .ok state) : s.Obeys state.1 := by
  have moved : Prod.fst <$> Subst.moveAttr keep (s, joined) a = .ok state.1 := by
    rw [run]
    rfl
  generalize state.1 = t at moved ⊢
  rw [moveAttr_eq] at moved
  split at moved
  · rename_i rep _
    split at moved
    · cases moved
      exact (sameLists_setAttr other).obeys h
    · obtain ⟨⟨merged, u⟩, combined, rest⟩ := exists_of_bind_ok moved
      obtain ⟨obeys, kind⟩ := h.combine other combined
      dsimp only at rest
      split at rest
      · split at rest
        · cases rest
          exact obeys.trans ((sameLists_setAttr (kind _ rfl)).obeys obeys.toTame)
        · cases rest
          exact obeys.trans ((sameLists_removeAttr other.1 other.2).obeys obeys.toTame)
      · cases rest
        exact obeys
  · exact h.validate other moved

theorem Tame.moveAll (h : s.Tame) {keep : Var} {moved joined : List Attribute} {state : Subst × List Attribute}
    (others : ∀ a ∈ moved, a.IsOther) (run : moved.foldlM (Subst.moveAttr keep) (s, joined) = .ok state) :
    s.Obeys state.1 :=
  foldlM_keeps (J := fun state : Subst × List Attribute => s.Obeys state.1) moved
    (fun _ a mem _ obeys run => obeys.trans (obeys.toTame.moveAttr (others a mem) run)) (.refl h) run

theorem Tame.settleAll (h : s.Tame) {keep : Var} {joined : List Attribute}
    (run : joined.foldlM (Subst.settleAt keep) s = .ok t) : s.Obeys t :=
  settleAll_keeps (Q := s.Obeys) (fun obeys _ run => obeys.trans (obeys.toTame.solveWith run)) joined (.refl h) run

end Subst

end ConstraintLogic
