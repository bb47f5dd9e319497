import ConstraintLogic.Proofs.Solver.Fixpoint

/-!
# Writing a solver back

The substitution of a solver binds the loaded variables that have one value left
and attaches what is known of the others. A propagator whose variables are all bound
by then is dropped: it is entailed.

Results:
* `Solver.Written`: the attributes of a loaded variable.
* `Solver.toSubst?_spec`: the bindings and attributes of the substitution.
* `Solver.Sound.toSubst?`: the substitution is in order and describes the same
  readings.
-/

namespace ConstraintLogic.Solver

variable {K : Scope} {s : Solver}

/-! ## Attributes of loaded variables -/

/-- The attributes are those that a solver leaves on a variable with the domain `d`. -/
structure Written (s : Solver) (v : Var) (d : Domain) (m : Attributes) : Prop where
  simple : m.allowed = none ∧ m.tag = none ∧ m.zero = none
  solved : d.hasSolution = true → m = {}
  domain : d.hasSolution = false →
    m.domain.map Stamped.val = if d.isUnbounded then none else some ⟨v, d⟩
  watchers : d.hasSolution = false →
    (m.watchers.map Stamped.val).getD [] = (s.subscribersOf v).filterMap s.prop?
  nonempty : ∀ a, m.watchers = some a → a.val ≠ []

theorem written_solved {v : Var} {d : Domain} (h : d.hasSolution = true) : s.Written v d {} := by
  refine ⟨⟨rfl, rfl, rfl⟩, fun _ => rfl, fun open_ => ?_, fun open_ => ?_, nofun⟩
  · rw [h] at open_
    cases open_
  · rw [h] at open_
    cases open_

/-- Writing a variable back attaches to it what is known of it. -/
theorem written_writeBack (s : Solver) {subst : Subst} {v : Var} {d : Domain}
    (clear : subst.attributes v = {}) (open_ : d.hasSolution = false) :
    s.Written v d ((s.writeBack subst v d).attributes v) ∧
      (∀ w, v ≠ w → (s.writeBack subst v d).attributes w = subst.attributes w) ∧
      (s.writeBack subst v d).bindings = subst.bindings ∧
      subst.supply ≤ (s.writeBack subst v d).supply := by
  unfold writeBack
  dsimp only
  refine ⟨⟨?_, fun solved => ?_, fun _ => ?_, fun _ => ?_, ?_⟩, fun w differ => ?_, ?_, ?_⟩
  · split <;> split <;> simp [clear, Attributes.set]
  · rw [open_] at solved
    cases solved
  · split <;> split <;> simp_all [Attributes.set]
  · split <;> split <;> simp_all [Attributes.set]
  · split <;> split <;> simp_all [Attributes.set]
  · split <;> split <;> simp [differ]
  · split <;> split <;> rfl
  · split <;> split <;> simp [Subst.stamped, Subst.setAttr]; omega

/-! ## The three passes -/

theorem bindings_removeAttr (t : Subst) (v : Var) (name : AttrName) :
    (t.removeAttr v name).bindings = t.bindings ∧ (t.removeAttr v name).supply = t.supply := by
  unfold Subst.removeAttr
  split
  · exact ⟨rfl, rfl⟩
  · dsimp only
    split
    · exact ⟨rfl, rfl⟩
    · exact ⟨rfl, rfl⟩

/-- The loaded variables lose their domains and propagators. -/
theorem clear_spec (l : List (Var × Domain)) : ∀ t : Subst,
    let u := l.foldl (fun t (v, _) => (t.removeAttr v .domain).removeAttr v .watchers) t
    u.bindings = t.bindings ∧ u.supply = t.supply ∧ ∀ w, u.attributes w =
      if w ∈ l.map Prod.fst then ((t.attributes w).erase .domain).erase .watchers
      else t.attributes w := by
  induction l with
  | nil =>
    intro t
    exact ⟨rfl, rfl, by simp⟩
  | cons e l ih =>
    intro t
    obtain ⟨v, d⟩ := e
    obtain ⟨bindings, supply, attributes⟩ := ih ((t.removeAttr v .domain).removeAttr v .watchers)
    obtain ⟨first, first'⟩ := bindings_removeAttr t v .domain
    obtain ⟨second, second'⟩ := bindings_removeAttr (t.removeAttr v .domain) v .watchers
    refine ⟨bindings.trans (second.trans first), supply.trans (second'.trans first'), fun w => ?_⟩
    rw [List.foldl_cons]
    refine (attributes w).trans ?_
    simp only [List.map_cons, List.mem_cons]
    by_cases same : v = w
    · subst same
      simp [Attributes.erase]
    · have other : w ≠ v := fun eq => same eq.symm
      have attributes_w : ((t.removeAttr v .domain).removeAttr v .watchers).attributes w =
          t.attributes w := by simp [same]
      rw [attributes_w]
      exact if_congr (by simp only [other, false_or]) rfl rfl

/-- The loaded variables without value get what is known of them. -/
theorem attach_spec (s : Solver) (l : List (Var × Domain)) : ∀ t : Subst, (l.map Prod.fst).Nodup →
    (∀ e ∈ l, t.attributes e.1 = {}) →
    let u := l.foldl (fun t (v, d) => if d.hasSolution then t else s.writeBack t v d) t
    u.bindings = t.bindings ∧ t.supply ≤ u.supply ∧
      (∀ w, w ∉ l.map Prod.fst → u.attributes w = t.attributes w) ∧
      ∀ e ∈ l, s.Written e.1 e.2 (u.attributes e.1) := by
  induction l with
  | nil => exact fun t _ _ => ⟨rfl, Nat.le_refl _, fun _ _ => rfl, by simp⟩
  | cons e l ih =>
    intro t distinct clear
    obtain ⟨v, d⟩ := e
    rw [List.map_cons, List.nodup_cons] at distinct
    obtain ⟨new, distinct⟩ := distinct
    have clear_v : t.attributes v = {} := clear (v, d) (by simp)
    -- One step writes this variable and leaves the others.
    obtain ⟨here, others, bindings, supply⟩ :
        s.Written v d ((if d.hasSolution then t else s.writeBack t v d).attributes v) ∧
          (∀ w, v ≠ w → (if d.hasSolution then t else s.writeBack t v d).attributes w =
            t.attributes w) ∧
          (if d.hasSolution then t else s.writeBack t v d).bindings = t.bindings ∧
          t.supply ≤ (if d.hasSolution then t else s.writeBack t v d).supply := by
      split
      · rename_i solved
        rw [clear_v]
        exact ⟨written_solved solved, fun _ _ => rfl, rfl, Nat.le_refl _⟩
      · rename_i open_
        exact written_writeBack s clear_v (by simpa using open_)
    have clear' (e : Var × Domain) (mem : e ∈ l) :
        (if d.hasSolution then t else s.writeBack t v d).attributes e.1 = {} := by
      rw [others e.1 fun same => new (List.mem_map.mpr ⟨e, mem, same.symm⟩)]
      exact clear e (List.mem_cons_of_mem _ mem)
    obtain ⟨bindings', supply', others', written⟩ := ih _ distinct clear'
    rw [List.foldl_cons]
    refine ⟨bindings'.trans bindings, Nat.le_trans supply supply', fun w out => ?_, fun e mem => ?_⟩
    · rw [List.map_cons, List.mem_cons, not_or] at out
      exact (others' w out.2).trans (others w (Ne.symm out.1))
    · rcases List.mem_cons.mp mem with rfl | mem
      · exact (others' v new).symm ▸ here
      · exact written e mem

theorem occurs_int (s : Subst) (v : Var) (n : Int) : s.occurs v (.int n) = false := rfl

/-- A variable without attributes can be bound to an integer. -/
theorem assign_of_clear {t : Subst} {v : Var} (clear : t.attributes v = {}) (n : Int) :
    t.assign v n = .ok ((t.dropAttrs v).bind v (.int n)) := by
  simp [Subst.assign, clear]

theorem attributes_assign {t : Subst} {v : Var} (clear : t.attributes v = {}) (n : Int) (w : Var) :
    ((t.dropAttrs v).bind v (.int n)).attributes w = t.attributes w := by
  rw [Subst.attributes_bind, Subst.attributes_dropAttrs]
  split
  · rename_i same
    rw [← same, clear]
  · rfl

/-- The variables of the list that have one value are bound to it, and nothing else is new. -/
structure Assigns (l : List (Var × Domain)) (t u : Subst) : Prop where
  ext : t.Extends u
  supply : u.supply = t.supply
  attributes : ∀ w, u.attributes w = t.attributes w
  bound : ∀ w a, u.get? w = some a → t.get? w = some a ∨ ∃ d n, (w, d) ∈ l ∧ d.solution = some n ∧ a = .int n
  solved : ∀ w d n, (w, d) ∈ l → d.solution = some n → u.get? w = some (.int n)

namespace Assigns

variable {l : List (Var × Domain)} {t u : Subst} {v : Var} {d : Domain} {n : Int}

theorem skip (h : Assigns l t u) (open_ : d.solution = none) : Assigns ((v, d) :: l) t u where
  ext := h.ext
  supply := h.supply
  attributes := h.attributes
  bound w a found := (h.bound w a found).imp_right fun ⟨d', n, mem, only⟩ => ⟨d', n, List.mem_cons_of_mem _ mem, only⟩
  solved w d' n mem only := by
    rcases List.mem_cons.mp mem with same | mem
    · cases same
      cases open_.symm.trans only
    · exact h.solved w d' n mem only

theorem assign (h : Assigns l ((t.dropAttrs v).bind v (.int n)) u) (only : d.solution = some n)
    (unbound : t.get? v = none) (clear : t.attributes v = {}) : Assigns ((v, d) :: l) t u where
  ext := Subst.Extends.trans (Subst.Extends.bind (s := t.dropAttrs v) unbound _) h.ext
  supply := h.supply
  attributes w := (h.attributes w).trans (attributes_assign clear n w)
  bound w a found := by
    rcases h.bound w a found with before | ⟨d', m, mem, value⟩
    · rw [Subst.get?_bind] at before
      split at before
      · rename_i same
        cases before
        exact .inr ⟨d, n, by simp [same], only, rfl⟩
      · exact .inl before
    · exact .inr ⟨d', m, List.mem_cons_of_mem _ mem, value⟩
  solved w d' m mem value := by
    rcases List.mem_cons.mp mem with same | mem
    · cases same
      cases only.symm.trans value
      exact h.ext v _ (by rw [Subst.get?_bind, if_pos rfl])
    · exact h.solved w d' m mem value

end Assigns

/-- The loaded variables with one value are bound to it. -/
theorem assign_spec (l : List (Var × Domain)) : ∀ t : Subst, t.Acyclic → (l.map Prod.fst).Nodup →
    (∀ e ∈ l, t.get? e.1 = none) → (∀ e ∈ l, e.2.hasSolution = true → t.attributes e.1 = {}) →
    ∃ u, l.foldlM (fun t (v, d) =>
        match d.solution with
        | some n => t.assign v n
        | none => .ok t) t = .ok u ∧ u.Acyclic ∧ Assigns l t u := by
  induction l with
  | nil =>
    intro t acyclic _ _ _
    exact ⟨t, rfl, acyclic, .refl t, rfl, fun _ => rfl, fun _ _ => .inl, by simp⟩
  | cons e l ih =>
    intro t acyclic distinct unbound clear
    obtain ⟨v, d⟩ := e
    rw [List.map_cons, List.nodup_cons] at distinct
    obtain ⟨new, distinct⟩ := distinct
    rw [List.foldlM_cons]
    cases only : d.solution with
    | none =>
      obtain ⟨u, run, acyclic', assigns⟩ := ih t acyclic distinct
        (fun e mem => unbound e (List.mem_cons_of_mem _ mem))
        (fun e mem => clear e (List.mem_cons_of_mem _ mem))
      refine ⟨u, ?_, acyclic', assigns.skip only⟩
      simp only [only]
      exact run
    | some n =>
      have unbound_v : t.get? v = none := unbound (v, d) (by simp)
      have clear_v : t.attributes v = {} := clear (v, d) (by simp) (by simp [Domain.hasSolution, only])
      have bound : ((t.dropAttrs v).bind v (.int n)).Acyclic :=
        Subst.Acyclic.bind (s := t.dropAttrs v) acyclic unbound_v (occurs_int _ v n)
      obtain ⟨u, run, acyclic', assigns⟩ := ih _ bound distinct
        (fun e mem => by
          rw [Subst.get?_bind, if_neg fun same => new (List.mem_map.mpr ⟨e, mem, same.symm⟩)]
          exact unbound e (List.mem_cons_of_mem _ mem))
        (fun e mem solved => by
          rw [attributes_assign clear_v]
          exact clear e (List.mem_cons_of_mem _ mem) solved)
      refine ⟨u, ?_, acyclic', assigns.assign only unbound_v clear_v⟩
      simp only [only, assign_of_clear clear_v]
      exact run

/-! ## The substitution of a solver -/

/-- The substitution extends the bindings of the solver by the values of the loaded
    variables, and the attributes of these are written by the solver. -/
structure WrittenBack (s : Solver) (t : Subst) : Prop where
  acyclic : t.Acyclic
  extends_ : s.subst.Extends t
  bound : ∀ w a, t.get? w = some a → s.subst.get? w = some a ∨
    ∃ d n, s.domains[w]? = some d ∧ d.solution = some n ∧ a = .int n
  solved : ∀ (w : Var) (d : Domain) (n : Int), s.domains[w]? = some d → d.solution = some n →
    t.get? w = some (.int n)
  loaded : ∀ (w : Var) (d : Domain), s.domains[w]? = some d → s.Written w d (t.attributes w)
  kept : ∀ w, w ∉ s.domains → t.attributes w = s.subst.attributes w
  supply : s.subst.supply ≤ t.supply

/-- A solver in order has a substitution. -/
theorem toSubst?_spec {E : PropId → Prop} {P : Var → Prop} (h : s.Sound K E P) :
    ∃ t, s.toSubst? = .ok t ∧ s.WrittenBack t := by
  have mem_loaded {w : Var} {d : Domain} : (w, d) ∈ s.domains.toList ↔ s.domains[w]? = some d :=
    Std.ExtTreeMap.mem_toList_iff_getElem?_eq_some
  have mem_keys {w : Var} : w ∈ s.domains.toList.map Prod.fst ↔ w ∈ s.domains := by
    rw [Std.ExtTreeMap.map_fst_toList_eq_keys, Std.ExtTreeMap.mem_keys]
  have distinct : (s.domains.toList.map Prod.fst).Nodup := by
    rw [Std.ExtTreeMap.map_fst_toList_eq_keys]
    exact Std.ExtTreeMap.nodup_keys
  obtain ⟨bindings, supply, attributes⟩ := clear_spec s.domains.toList s.subst
  generalize cleared : s.domains.toList.foldl
    (fun t (v, _) => (t.removeAttr v .domain).removeAttr v .watchers) s.subst = u
    at bindings supply attributes
  have clear (e : Var × Domain) (mem : e ∈ s.domains.toList) : u.attributes e.1 = {} := by
    rw [attributes, if_pos (List.mem_map_of_mem mem)]
    obtain ⟨allowed, tag, zero⟩ := h.base.simple e.1
    simp [Attributes.erase, allowed, tag, zero]
  obtain ⟨bindings', supply', others, written⟩ := attach_spec s s.domains.toList u distinct clear
  generalize attached : s.domains.toList.foldl
    (fun t (v, d) => if d.hasSolution then t else s.writeBack t v d) u = u'
    at bindings' supply' others written
  have get (w : Var) : u'.get? w = s.subst.get? w := by
    rw [Subst.get?, Subst.get?, bindings', bindings]
  have acyclic : u'.Acyclic := by
    obtain ⟨rank, falls⟩ := h.base.acyclic
    refine ⟨rank, fun v w leads => ?_⟩
    obtain ⟨a, bound, mem⟩ := leads
    rw [get] at bound
    exact falls v w ⟨a, bound, mem⟩
  obtain ⟨t, run, acyclic', ⟨ext, supply'', same, bound, solved⟩⟩ := assign_spec s.domains.toList u'
    acyclic distinct
    (fun e mem => by rw [get]; exact (h.loaded e.1 e.2 (mem_loaded.mp mem)).1)
    (fun e mem solved => (written e mem).solved solved)
  refine ⟨t, ?_, acyclic', ?_, fun w a found => ?_, ?_, fun w d found => ?_, fun w out => ?_, ?_⟩
  · unfold toSubst?
    dsimp only
    rw [cleared, attached]
    exact run
  · intro w a found
    exact ext w a (by rw [get]; exact found)
  · rw [← get]
    refine (bound w a found).imp_right fun assigned => ?_
    obtain ⟨d, n, mem, value⟩ := assigned
    exact ⟨d, n, mem_loaded.mp mem, value⟩
  · exact fun w d n found => solved w d n (mem_loaded.mpr found)
  · rw [same]
    exact written (w, d) (mem_loaded.mpr found)
  · have out' : w ∉ s.domains.toList.map Prod.fst := fun mem => out (mem_keys.mp mem)
    rw [same, others w out', attributes, if_neg out']
  · omega

namespace WrittenBack

variable {t : Subst}

theorem unbound (h : s.WrittenBack t) {w : Var} (free : s.subst.get? w = none)
    (open_ : ∀ d, s.domains[w]? = some d → d.solution = none) : t.get? w = none := by
  cases found : t.get? w with
  | none => rfl
  | some a =>
    rcases h.bound w a found with before | ⟨d, n, at_w, only, _⟩
    · rw [free] at before
      cases before
    · rw [open_ d at_w] at only
      cases only

/-- The stored propagators are those of the solver that subscribe to the variable, or
    those that it has not loaded. -/
theorem mem_storedWatchers (h : s.WrittenBack t) {w : Var} {p : Propagator} :
    p ∈ t.storedWatchers w ↔
      (w ∉ s.domains ∧ p ∈ s.subst.storedWatchers w) ∨
        s.Unsolved w ∧ ∃ id ∈ s.subscribersOf w, s.prop? id = some p := by
  by_cases loaded : w ∈ s.domains
  · obtain ⟨d, at_w⟩ := mem_domains_iff.mp loaded
    have written := h.loaded w d at_w
    have stored : t.storedWatchers w = ((t.attributes w).watchers.map Stamped.val).getD [] := by
      unfold Subst.storedWatchers
      cases (t.attributes w).watchers <;> rfl
    have unsolved : s.Unsolved w ↔ d.hasSolution = false := by
      simp [Unsolved, at_w, Domain.hasSolution]
    rw [stored, unsolved]
    cases only : d.hasSolution with
    | true => simp [written.solved only, loaded]
    | false => simp [written.watchers only, loaded, List.mem_filterMap]
  · have : ¬s.Unsolved w := by
      rintro ⟨d, at_w, _⟩
      exact loaded (mem_domains_iff.mpr ⟨d, at_w⟩)
    simp [Subst.storedWatchers, h.kept w loaded, loaded, this]

/-- The attached domains are those of the solver that are finite and have no single
    value, anchored at their variables, or those that it has not loaded. -/
theorem fact_eq (h : s.WrittenBack t) {w : Var} {a : Stamped DomainFact}
    (found : (t.attributes w).domain = some a) :
    (w ∉ s.domains ∧ (s.subst.attributes w).domain = some a) ∨
      s.Unsolved w ∧ a.val = ⟨w, s.current w⟩ ∧ s.current w ≠ .unbounded := by
  by_cases loaded : w ∈ s.domains
  · obtain ⟨d, at_w⟩ := mem_domains_iff.mp loaded
    have written := h.loaded w d at_w
    cases only : d.hasSolution with
    | true =>
      rw [written.solved only] at found
      cases found
    | false =>
      have stored := written.domain only
      rw [found, Option.map_some] at stored
      split at stored
      · cases stored
      · rename_i finite
        rw [current_of_loaded at_w]
        exact .inr ⟨⟨d, at_w, by simpa [Domain.hasSolution] using only⟩, Option.some.inj stored,
          fun full => finite (Domain.isUnbounded_iff.mpr full)⟩
  · rw [h.kept w loaded] at found
    exact .inl ⟨loaded, found⟩

theorem domain_eq (h : s.WrittenBack t) {w : Var} {a : Stamped DomainFact}
    (found : (t.attributes w).domain = some a) :
    (w ∉ s.domains ∧ (s.subst.attributes w).domain = some a) ∨
      s.Unsolved w ∧ a.val.domain = s.current w ∧ a.val.domain ≠ .unbounded := by
  refine (h.fact_eq found).imp_right fun ⟨unsolved, value, finite⟩ => ?_
  rw [value]
  exact ⟨unsolved, rfl, finite⟩

theorem agrees (h : s.WrittenBack t) {θ : Var → Term} (agrees : t.Agrees θ) : s.subst.Agrees θ :=
  agrees.of_extends h.extends_

/-- The domain of a variable that is left unbound is the one that the solver knows. -/
theorem storedDomain_eq (h : s.WrittenBack t) {w : Var} (unbound : t.get? w = none) :
    t.storedDomain w = s.current w := by
  unfold Subst.storedDomain
  by_cases loaded : w ∈ s.domains
  · obtain ⟨d, at_w⟩ := mem_domains_iff.mp loaded
    have open_ : d.hasSolution = false := by
      rw [Domain.hasSolution, Option.isSome_eq_false_iff, Option.isNone_iff_eq_none,
        Option.eq_none_iff_forall_ne_some]
      intro n only
      rw [h.solved w d n at_w only] at unbound
      cases unbound
    have stored := (h.loaded w d at_w).domain open_
    rw [current_of_loaded at_w]
    split
    · rename_i a found
      rw [found, Option.map_some] at stored
      split at stored
      · cases stored
      · rw [Option.some.inj stored]
    · rename_i found
      rw [found, Option.map_none] at stored
      split at stored
      · rename_i full
        exact (Domain.isUnbounded_iff.mp full).symm
      · cases stored
  · rw [h.kept w loaded, current, Std.ExtTreeMap.getElem?_eq_none loaded]
    rfl

/-- What stood for an unbound variable stands for its value, or for the variable still. -/
theorem resolve_of_free (h : s.WrittenBack t) (steady : s.Steady K) {v w : Var} (found : s.resolve v = .free w) :
    (∃ d n, s.domains[w]? = some d ∧ d.solution = some n ∧ (Solver.new t).resolve v = .value n) ∨
      t.get? w = none ∧ (Solver.new t).resolve v = .free w := by
  have same : (Solver.new t).resolve v = (Solver.new t).resolve w := by
    rw [resolve_of_extends (s := s) (t := Solver.new t) h.acyclic h.extends_ v, found]
  cases bound : t.get? w with
  | none => exact .inr ⟨rfl, same.trans (resolve_of_unbound bound)⟩
  | some a =>
    rcases h.bound w a bound with before | ⟨d, n, at_w, only, rfl⟩
    · cases (steady.unbound_of_free found).symm.trans before
    · refine .inl ⟨d, n, at_w, only, ?_⟩
      rw [same, resolve_eq_value_iff]
      exact (h.acyclic.walk_of_bound bound).trans (Subst.walk_of_not_var (by simp [Term.int]))

/-- The substitution leaves to a variable no more values than the solver. -/
theorem mem_peek (h : s.WrittenBack t) (steady : s.Steady K) {v : Var} {n : Int}
    (mem : n ∈ (Solver.new t).peek v) : n ∈ s.peek v := by
  have resolves := resolve_of_extends (s := s) (t := Solver.new t) h.acyclic h.extends_ v
  cases found : s.resolve v with
  | free w =>
    rw [peek_of_free found]
    rcases h.resolve_of_free steady found with ⟨d, m, at_w, only, value⟩ | ⟨bound, free⟩
    · simp only [peek, value, Domain.mem_singleton] at mem
      subst mem
      rw [current_of_loaded at_w]
      exact (steady.loaded w d at_w).2.1.mem_of_solution only
    · rw [peek_of_free free] at mem
      rw [← h.storedDomain_eq bound]
      simpa [current, Solver.new] using mem
  | value m =>
    unfold peek at mem ⊢
    rw [resolves] at mem
    simpa only [found] using mem
  | other =>
    unfold peek at mem
    rw [resolves] at mem
    simp [found] at mem

/-- Everything that is stored in the substitution was stored or at work before. -/
theorem carries (h : s.WrittenBack t) {p : Propagator} (carries : t.Carries K p) :
    s.subst.Carries (s.scope K) p := by
  rcases carries with known | ⟨w, mem⟩
  · exact .inl (.inl known)
  · rcases h.mem_storedWatchers.mp mem with ⟨_, before⟩ | ⟨_, id, _, found⟩
    · exact .inr ⟨w, before⟩
    · exact .inl (.inr ⟨id, found⟩)

/-- The substitution of a solver in order is in order. -/
theorem orderly (h : s.WrittenBack t) (sound : s.Steady K) : t.Orderly K where
  acyclic := h.acyclic
  sized v a found := by
    rcases h.bound v a found with before | ⟨d, n, at_v, only, rfl⟩
    · exact sound.base.sized v a before
    · have canonical := (sound.loaded v d at_v).2.1
      have finite : d ≠ .unbounded := by
        rintro rfl
        cases only
      exact canonical.isValue_of_mem finite (canonical.mem_of_solution only)
  simple v := by
    by_cases loaded : v ∈ s.domains
    · obtain ⟨d, at_v⟩ := mem_domains_iff.mp loaded
      exact (h.loaded v d at_v).simple
    · rw [h.kept v loaded]
      exact sound.base.simple v
  unbound v bound := by
    cases found : t.get? v with
    | none => exact absurd found bound
    | some a =>
      rcases h.bound v a found with before | ⟨d, n, at_v, only, _⟩
      · have out : v ∉ s.domains := fun loaded => by
          obtain ⟨d, at_v⟩ := mem_domains_iff.mp loaded
          rw [(sound.loaded v d at_v).1] at before
          cases before
        rw [h.kept v out]
        exact sound.base.unbound v (by rw [before]; nofun)
      · exact (h.loaded v d at_v).solved (by simp [Domain.hasSolution, only])
  domain v a found := by
    rcases h.domain_eq found with ⟨_, before⟩ | ⟨⟨d, at_v, open_⟩, value, finite⟩
    · exact sound.base.domain v a before
    · obtain ⟨_, canonical, nonempty⟩ := sound.loaded v d at_v
      rw [current_of_loaded at_v] at value
      rw [value] at finite ⊢
      exact ⟨canonical, finite, nonempty, open_⟩
  watched v a found := by
    by_cases loaded : v ∈ s.domains
    · obtain ⟨d, at_v⟩ := mem_domains_iff.mp loaded
      exact (h.loaded v d at_v).nonempty a found
    · rw [h.kept v loaded] at found
      exact sound.base.watched v a found
  mentions v p mem := by
    have lift {w : Var} (open_ : ∀ d, s.domains[v]? = some d → d.solution = none)
        (free : s.subst.walk (.var w) = .var v) : t.walk (.var w) = .var v := by
      have unbound := sound.base.acyclic.get?_of_walk free
      rw [← h.acyclic.walk_walk h.extends_, free]
      exact Subst.walk_var_of_unbound (h.unbound unbound open_)
    rcases h.mem_storedWatchers.mp mem with ⟨out, before⟩ | ⟨⟨d, at_v, open_⟩, id, subscribed, found⟩
    · obtain ⟨w, mem_w, free⟩ := sound.base.mentions v p before
      exact ⟨w, mem_w, lift (fun d at_v => absurd (mem_domains_iff.mpr ⟨d, at_v⟩) out) free⟩
    · obtain ⟨q, found', w, mem_w, free⟩ := sound.subscribed v id subscribed
      rw [found] at found'
      cases found'
      refine ⟨w, mem_w, lift (fun d' at_v' => ?_) (resolve_eq_free_iff.mp free)⟩
      rw [at_v] at at_v'
      cases at_v'
      exact open_
  proper p carries := sound.base.proper p (h.carries carries)
  integral p carries v mem θ reading agrees :=
    sound.base.integral p (h.carries carries) v mem θ reading (h.agrees agrees)
  stamped p carries := Nat.lt_of_lt_of_le (sound.base.stamped p (h.carries carries)) h.supply
  coherent p q carries carries' := sound.base.coherent p q (h.carries carries) (h.carries carries')

/-- What the substitution describes was described by the solver: nothing waits, so that
    a propagator that is not stored any more is entailed. -/
theorem of_admits (h : s.WrittenBack t) (sound : s.Steady K) (quiet : ∀ id, ¬s.agenda.Waits id)
    {θ : Var → Term} (reading : K.readings θ) (admits : t.Admits θ) : s.Admits K θ := by
  have agrees := h.agrees admits.binding
  have domain (w : Var) (unbound : s.subst.get? w = none) : (s.current w).Allows (θ w) := by
    by_cases loaded : w ∈ s.domains
    · obtain ⟨d, at_w⟩ := mem_domains_iff.mp loaded
      obtain ⟨_, canonical, _⟩ := sound.loaded w d at_w
      rw [current_of_loaded at_w]
      cases only : d.solution with
      | some n =>
        have bound := admits.binding w _ (h.solved w d n at_w only)
        have finite : d ≠ .unbounded := by
          rintro rfl
          cases only
        have mem := canonical.mem_of_solution only
        exact .inr ⟨n, bound, canonical.isValue_of_mem finite mem, mem⟩
      | none =>
        by_cases full : d = .unbounded
        · exact .inl full
        · have written := (h.loaded w d at_w).domain (by simp [Domain.hasSolution, only])
          have finite : d.isUnbounded = false := by
            rw [← Bool.not_eq_true, Domain.isUnbounded_iff]
            exact full
          rw [finite, if_neg Bool.false_ne_true, Option.map_eq_some_iff] at written
          obtain ⟨a, found, value⟩ := written
          have holds := admits.domain w a found
          rw [value] at holds
          exact .inr holds
    · rw [current_of_not_mem loaded]
      unfold Subst.storedDomain
      split
      · rename_i a found
        exact .inr (admits.domain w a (by rw [h.kept w loaded]; exact found))
      · exact .inl rfl
  have stored (w : Var) (p : Propagator) (mem : p ∈ t.storedWatchers w) : p.val.HoldsOf θ := by
    unfold Subst.storedWatchers at mem
    split at mem
    · rename_i a found
      exact admits.watchers w a found p mem
    · cases mem
  refine ⟨reading, agrees, domain, fun p work => ?_, fun w out p mem => ?_⟩
  · obtain ⟨id, found⟩ := work
    rcases sound.live id p found fun exempt => exempt with waits | ⟨w, unsolved, mem⟩ | entails
    · exact absurd waits (quiet id)
    · exact stored w p (h.mem_storedWatchers.mpr (.inr ⟨unsolved, id, mem, found⟩))
    · have values (v : Var) (mem : v ∈ p.val.vars) : (θ v).IsValue :=
        sound.base.integral p (.inl (.inr ⟨id, found⟩)) v mem θ reading agrees
      refine Relation.holdsOf_iff.mpr ⟨values, entails _ ?_⟩
      exact fits_of_reading agrees domain sound.base.acyclic values
  · exact stored w p (h.mem_storedWatchers.mpr (.inl ⟨out, mem⟩))

theorem admits (h : s.WrittenBack t) (sound : s.Steady K) {θ : Var → Term}
    (admits : s.Admits K θ) : t.Admits θ where
  binding w a found := by
    rcases h.bound w a found with before | ⟨d, n, at_w, only, rfl⟩
    · exact admits.binding w a before
    · obtain ⟨unbound, canonical, _⟩ := sound.loaded w d at_w
      rcases admits.domain w unbound with full | ⟨m, value, _, mem⟩
      · rw [current_of_loaded at_w] at full
        rw [full] at only
        cases only
      · rw [current_of_loaded at_w] at mem
        rw [value, (canonical.solution_eq_some_iff.mp only m).mp mem]
        rfl
  domain w a found := by
    rcases h.domain_eq found with ⟨out, before⟩ | ⟨⟨d, at_w, _⟩, value, finite⟩
    · have unbound : s.subst.get? w = none := by
        cases bound : s.subst.get? w with
        | none => rfl
        | some b =>
          rw [sound.base.unbound w (by rw [bound]; nofun)] at before
          cases before
      have allows := admits.domain w unbound
      rw [current_of_not_mem out, Subst.storedDomain, before] at allows
      exact allows.resolve_left (sound.base.domain w a before).finite
    · have allows := admits.domain w (sound.loaded w d at_w).1
      rw [← value] at allows
      exact allows.resolve_left finite
  watchers w a found p mem := by
    have stored : p ∈ t.storedWatchers w := by
      rw [Subst.storedWatchers, found]
      exact mem
    rcases h.mem_storedWatchers.mp stored with ⟨out, before⟩ | ⟨_, id, _, at_id⟩
    · exact admits.stored w out p before
    · exact admits.props p ⟨id, at_id⟩

end WrittenBack

/-- A solver in order in which nothing waits has a substitution that is in order and
    describes the same readings. -/
theorem Sound.toSubst? (sound : s.Steady K) (quiet : ∀ id, ¬s.agenda.Waits id) :
    ∃ t, s.toSubst? = .ok t ∧ s.WrittenBack t ∧ t.Orderly K ∧
      ∀ θ, s.Admits K θ ↔ K.readings θ ∧ t.Admits θ := by
  obtain ⟨t, run, written⟩ := toSubst?_spec sound
  refine ⟨t, run, written, written.orderly sound, fun θ => ?_⟩
  exact ⟨fun admits => ⟨admits.reading, written.admits sound admits⟩,
    fun ⟨reading, admits⟩ => written.of_admits sound quiet reading admits⟩

end ConstraintLogic.Solver
