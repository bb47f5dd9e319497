import ConstraintLogic.Proofs.Solver.Filed
import ConstraintLogic.Proofs.Unification.Aliases

/-!
# Unification files propagators

A variable that takes a value, or becomes another one, leaves no propagator missing. In
between, while the attributes of a retired variable move one by one, the variable that
is kept lacks the propagators of the retired one. They are posted when two lists are
united, when the variable has a value, or when they are run again beside a domain; and
a variable that has no attributes takes the list as it is.

Results:
* `Subst.Filed.validate_watchers`, `Subst.Filed.instantiate`: taking a value.
* `Subst.Filed.moveDomain`, `Subst.Filed.moveWatchers`: one attribute moves.
* `Subst.Filed.retire`: a variable becomes another one.
* `Subst.Orderly.unify_complete`: unification leaves no propagator missing.
-/

namespace ConstraintLogic

namespace Subst

variable {K : Scope} {T : Term → Prop} {O : Propagator → Var → Prop} {R : Propagator → Prop}
variable {s t : Subst} {keep v : Var} {L : List Propagator}

/-! ## Runs of a solver -/

/-- Nothing is missing for propagators that are posted. -/
theorem Filed.solveWith (h : s.Filed O R) (orderly : s.Orderly K) {ps : List Propagator}
    (known : ∀ p ∈ ps, K.known p) (run : s.solveWith ps = .ok t) :
    t.Filed (fun p u => O p u ∧ p ∉ ps) fun p => R p ∧ p ∉ ps := by
  rw [solveWith_eq] at run
  have fair (r : Request) (mem : r ∈ ps.map .post) : r.Fair K s := by
    obtain ⟨p, in_ps, rfl⟩ := List.mem_map.mp mem
    exact known p in_ps
  exact (h.solveAll orderly _ fair run).mono
    (fun p u missed => ⟨missed.1, fun mem => missed.2 (List.mem_map_of_mem mem)⟩)
    fun p exempt => ⟨exempt.1, fun mem => exempt.2 (List.mem_map_of_mem mem)⟩

/-- Where all propagators that are missing are posted, none is missing afterwards. -/
theorem Filed.solveWith_complete (h : s.Filed O R) (orderly : s.Orderly K) {ps : List Propagator}
    (known : ∀ p ∈ ps, K.known p) (missing : ∀ p u, O p u → p ∈ ps) (irregular : ∀ p, R p → p ∈ ps)
    (run : s.solveWith ps = .ok t) : t.Complete :=
  (h.solveWith orderly known run).mono (fun p u missed => missed.2 (missing p u missed.1))
    fun p exempt => exempt.2 (irregular p exempt.1)

theorem Filed.solveReduced (h : s.Filed O R) (orderly : s.Orderly K) {d : Domain} (canonical : d.Canonical)
    (full : d = .unbounded → s.Integral K v) (run : s.solveReduced v d = .ok t) : t.Filed O R := by
  rw [solveReduced_eq] at run
  have fair (r : Request) (mem : r ∈ [Request.reduce v d]) : r.Fair K s := by
    rw [List.mem_singleton.mp mem]
    exact ⟨canonical, full⟩
  exact (h.solveAll orderly _ fair run).mono (fun p u missed => missed.1) fun p exempt => exempt.1

/-! ## Values -/

/-- Propagators that are consulted on an integer are posted. -/
theorem Filed.validate_watchers (h : s.Filed O R) (orderly : s.Orderly K) {value : Term}
    {a : Stamped (List Propagator)} (suits : s.Suits K.known v (.watchers a))
    (run : s.validate v value (.watchers a) = .ok t) :
    t.Filed (fun p u => O p u ∧ p ∉ a.val) fun p => R p ∧ p ∉ a.val :=
  h.solveWith orderly (fun p mem => (suits.2 p mem).1) (solveWith_of_validate run)

/-- Binding a variable to a term that is no variable leaves no propagator missing. -/
theorem Filed.instantiate (h : s.Complete) (good : s.OrderlyIn K T) {b : Term} (unbound : s.get? v = none)
    (not_var : ∀ w, b ≠ .var w) (sized : b.Sized) (good_b : T b) (run : s.instantiate v b = .ok t) :
    t.Complete := by
  cases good.orderly.instantiates run with
  | narrowed _ _ value reduced =>
    subst value
    exact h.solveReduced good.orderly (Solver.canonical_singleton sized) Domain.noConfusion reduced
  | bound fresh _ _ done =>
    subst done
    exact h.bindBare good.orderly.acyclic unbound fresh not_var
  | propagated fresh _ at_v ran =>
    have bare := good.bindBare unbound fresh sized good_b
    exact ((h.bindBare good.orderly.acyclic unbound fresh not_var).solveWith bare.orderly
      (carries_of_watchers at_v) ran).mono (fun p u missed => missed.1) fun p exempt => exempt.1

/-! ## Attributes that move -/

/-- A variable may be given again what it has. -/
theorem Filed.putBack (h : s.Filed O R) (v : Var) (name : AttrName) : (s.putBack v name).Filed O R := by
  have attributes := s.attributes_putBack v name
  have stored : (s.putBack v name).storedWatchers = s.storedWatchers := by
    funext w
    rw [storedWatchers, storedWatchers, attributes]
  have bindings := (s.putBack_frame v name).1
  have get (w : Var) : (s.putBack v name).get? w = s.get? w := by rw [get?, get?, bindings]
  refine ⟨fun x w bound => h.lower x w (get x ▸ bound), ?_, stored ▸ h.distinct, ?_, ?_⟩
  · unfold Subst.putBack
    split
    · exact h.recorded.setAttr v _
    · exact h.recorded.removeAttr v name
  · rw [stored, walk_congr bindings]
    exact h.spread
  · rw [stored]
    exact fun w p mem => (h.regular w p mem).imp_left fun regular => regular.congr bindings

theorem nodup_unionWatchers (qs : List Propagator) : ∀ ps : List Propagator,
    (ps.map Stamped.stamp).Nodup → ((unionWatchers ps qs).map Stamped.stamp).Nodup := by
  unfold unionWatchers
  induction qs with
  | nil => exact fun ps distinct => distinct
  | cons q qs ih =>
    intro ps distinct
    rw [List.foldl_cons]
    refine ih _ ?_
    split
    · exact distinct
    · rename_i new
      rw [List.map_append, List.map_singleton]
      refine Solver.nodup_append_singleton distinct fun mem => new (List.any_eq_true.mpr ?_)
      obtain ⟨p, in_ps, same⟩ := List.mem_map.mp mem
      exact ⟨p, in_ps, by simp [Stamped.isSame, same]⟩

section Watchers

variable {a b : Stamped (List Propagator)}

/-- A list that is attached may miss at other variables what it brings. -/
theorem Filed.attachLoose (h : s.Filed (fun p _ => p ∈ L) fun p => p ∈ L)
    (distinct : (a.val.map Stamped.stamp).Nodup) (covers : ∀ p ∈ s.storedWatchers v, p ∈ a.val)
    (from_ : ∀ p ∈ a.val, p ∈ s.storedWatchers v ∨ p ∈ L) :
    (s.setAttr v (.watchers a)).Filed (fun p _ => p ∈ L) fun p => p ∈ L := by
  refine h.attachWatchers distinct covers (fun p u missed => .inr missed)
    (fun p mem x in_vars u _ leads => ?_) (fun p exempt => exempt) fun p mem => ?_
  · exact (from_ p mem).elim (fun stored => h.spread v p stored x in_vars u leads) .inr
  · exact (from_ p mem).elim (fun stored => h.regular v p stored) .inr

/-- Two lists of propagators are attached together. -/
theorem Filed.attachUnion (h : s.Filed (fun p _ => p ∈ a.val) fun p => p ∈ a.val) (orderly : s.Orderly K)
    (at_v : (s.attributes v).watchers = some b) (suits : s.Suits K.known v (.watchers a)) :
    (s.attachUnion v b a).Filed (fun p _ => p ∈ a.val) fun p => p ∈ a.val := by
  have stored_v : s.storedWatchers v = b.val := by simp [storedWatchers, at_v]
  have filed : (s.stamped (unionWatchers b.val a.val)).2.Filed (fun p _ => p ∈ a.val) fun p => p ∈ a.val :=
    h.congr rfl rfl
  exact filed.attachLoose (v := v) (a := (s.stamped (unionWatchers b.val a.val)).1)
    (nodup_unionWatchers _ _ (stored_v ▸ h.distinct v))
    (fun p (mem : p ∈ s.storedWatchers v) => mem_unionWatchers_left _ _ (stored_v ▸ mem)) fun p mem =>
      ((orderly.mem_union at_v suits).mp mem).imp_left fun old => (stored_v.symm ▸ old : p ∈ s.storedWatchers v)

/-- Two lists of propagators are attached together and run, so that none of the second
    list is missing anywhere. -/
theorem Filed.combine_watchers (h : s.Filed (fun p _ => p ∈ a.val) fun p => p ∈ a.val)
    (orderly : s.Orderly K) (unbound : s.get? v = none) (at_v : (s.attributes v).watchers = some b)
    (suits : s.Suits K.known v (.watchers a))
    (run : (s.attachUnion v b a).solveWith (unionWatchers b.val a.val) = .ok t) : t.Complete := by
  have union (p : Propagator) (mem : p ∈ a.val) := (orderly.mem_union at_v suits).mpr (.inr mem)
  exact (h.attachUnion orderly at_v suits).solveWith_complete (orderly.attachUnion at_v unbound suits)
    carries_attachUnion (fun p _ missed => union p missed) union run

end Watchers

/-! ## Settling -/

/-- The propagators of a variable are run again. They are the only ones that may be
    missing somewhere, if the variable has a domain. -/
theorem Filed.recheck (h : s.Filed O R) (orderly : s.Orderly K)
    (here : ∀ p, (∃ u, O p u) ∨ R p → (s.attributes v).domain ≠ none ∧ p ∈ s.storedWatchers v)
    (run : s.recheck v = .ok t) : t.Complete := by
  unfold Subst.recheck at run
  have known : s.Orderly { K with known := s.Carries K } := orderly.mono rfl fun _ carries => carries
  split at run
  · rename_i d a at_d at_a
    have stored {p : Propagator} (mem : p ∈ s.storedWatchers v) : p ∈ a.val := by
      simpa [storedWatchers, at_a] using mem
    refine h.solveWith_complete known (fun p mem => .inr ⟨v, mem_storedWatchers_iff.mpr ⟨a, at_a, mem⟩⟩)
      (fun p u missed => stored (here p (.inl ⟨u, missed⟩)).2) (fun p exempt => stored (here p (.inr exempt)).2) run
  · rename_i not_both
    cases run
    have none_missing (p : Propagator) : ¬((∃ u, O p u) ∨ R p) := fun missed => by
      obtain ⟨domain, stored⟩ := here p missed
      obtain ⟨d, at_d⟩ := Option.ne_none_iff_exists'.mp domain
      obtain ⟨a, at_a, _⟩ := mem_storedWatchers_iff.mp stored
      exact not_both d a at_d at_a
    exact h.mono (fun p u missed => none_missing p (.inl ⟨u, missed⟩))
      fun p exempt => none_missing p (.inr exempt)

/-- The propagators of `L`, which may be missing somewhere, are at the variable that
    `keep` stands for, beside a domain. -/
structure Joined (keep : Var) (L : List Propagator) (s : Subst) : Prop where
  filed : s.Filed (fun p _ => p ∈ L) fun p => p ∈ L
  here : ∃ rep, s.walk (.var keep) = .var rep ∧ (s.attributes rep).domain ≠ none ∧
    ∀ p ∈ L, p ∈ s.storedWatchers rep

theorem Joined.settleAt (h : s.Joined keep L) (orderly : s.Orderly K) {a : Attribute}
    (kind : a.name = .domain ∨ a.name = .watchers) (run : Subst.settleAt keep s a = .ok t) :
    t.Complete := by
  obtain ⟨rep, leads, domain, stored⟩ := h.here
  unfold Subst.settleAt at run
  rw [leads] at run
  have rechecked (run : s.recheck rep = .ok t) : t.Complete :=
    h.filed.recheck orderly (fun p missed => ⟨domain, stored p (missed.elim (fun ⟨_, missed⟩ => missed)
      fun exempt => exempt)⟩) run
  cases a with
  | domain a => exact rechecked run
  | watchers a => exact rechecked run
  | _ => simp [Attribute.name] at kind

theorem Filed.settleAll (ints : ∀ n, isValue n = true → T (.int n)) (keep : Var) (joined : List Attribute)
    (h : s.Complete) (good : s.OrderlyIn K T) (run : joined.foldlM (Subst.settleAt keep) s = .ok t) : t.Complete :=
  good.settleAll_keeps ints (fun good h at_v run => (h.solveWith good.orderly (carries_of_watchers at_v) run).mono
    (fun _ _ missed => missed.1) fun _ exempt => exempt.1) joined h run

/-- The first attribute that is settled puts right what is missing. -/
theorem Joined.settleAll (h : s.Joined keep L) (good : s.OrderlyIn K T)
    (ints : ∀ n, isValue n = true → T (.int n)) {joined : List Attribute} (some_joined : joined ≠ [])
    (kinds : ∀ a ∈ joined, a.name = .domain ∨ a.name = .watchers)
    (run : joined.foldlM (Subst.settleAt keep) s = .ok t) : t.Complete := by
  cases joined with
  | nil => exact absurd rfl some_joined
  | cons a joined =>
    rw [List.foldlM_cons] at run
    obtain ⟨u, first, rest⟩ := exists_of_bind_ok run
    have settled := good.settleAt ints keep a
    rw [first] at settled
    exact Filed.settleAll ints keep joined (h.settleAt good.orderly (kinds a (by simp)) first) settled.1 rest

/-! ## Moving -/

theorem leaves_of_walk {rep : Var} (leads : s.walk (.var keep) = .var rep) :
    s.leaves keep = s.storedDomain rep := by
  have free : (Solver.new s).resolve keep = .free rep := Solver.resolve_eq_free_iff.mpr leads
  rw [leaves, Solver.peek_of_free free]
  simp [Solver.current, Solver.new]

/-- What a substitution leaves to a variable depends on the bindings and the attributes. -/
theorem leaves_congr (bindings : t.bindings = s.bindings) (attributes : t.attributes = s.attributes) :
    t.leaves keep = s.leaves keep := by
  have same : (Solver.new t).resolve keep = (Solver.new s).resolve keep := by
    simp only [Solver.resolve, Solver.new, walk_congr bindings]
  rw [leaves, leaves, Solver.peek, Solver.peek, same]
  cases (Solver.new s).resolve keep with
  | free rep => simp [Solver.current, Solver.new, storedDomain, attributes]
  | _ => rfl

theorem hasAttrs_of_domain (domain : (s.attributes v).domain ≠ none) : s.hasAttrs v = true := by
  unfold hasAttrs
  cases none : s.attrs[v]? with
  | none => exact absurd (by simp [attributes, none]) domain
  | some m => rfl

/-- A domain that moves to a variable leaves the variable with a finite one. -/
theorem Filed.moveDomain (h : s.Filed O R) (good : s.OrderlyIn K T)
    (ints : ∀ n, isValue n = true → T (.int n)) (unbound : s.get? keep = none) {a : Stamped DomainFact}
    (undecided : a.val.domain.Undecided) {joined : List Attribute}
    (run : Subst.moveAttr keep (s, []) (.domain a) = .ok (t, joined)) :
    t.Filed O R ∧ t.leaves keep ≠ .unbounded ∧ ∀ b ∈ joined, b.name = .domain := by
  have suits : s.Suits K.known keep (.domain a) := undecided
  have here : s.walk (.var keep) = .var keep := walk_var_of_unbound unbound
  cases suits.moves run with
  | taken leads missing done joins =>
    cases here.symm.trans leads
    subst done joins
    refine ⟨h.attachDomain keep a, ?_, fun b mem => ?_⟩
    · rw [leaves_of_walk (by rw [walk_setAttr, here])]
      simpa [storedDomain, Attributes.set] using undecided.finite
    · split at mem
      · rw [List.nil_append, List.mem_singleton] at mem
        rw [mem]
        rfl
      · cases mem
  | @narrowed _ _ c u is_domain leads at_keep reduced back joins =>
    cases is_domain
    cases here.symm.trans leads
    subst joins
    have full (full : a.val.domain = .unbounded) : s.Integral K keep := absurd full undecided.finite
    have filed := h.solveReduced good.orderly undecided.canonical full reduced
    have finite : u.leaves keep ≠ .unbounded := fun full => by
      rw [solveReduced_eq] at reduced
      have fair (r : Request) (mem : r ∈ [Request.reduce keep a.val.domain]) : r.Fair K s := by
        rw [List.mem_singleton.mp mem]
        exact ⟨undecided.canonical, fun full => absurd full undecided.finite⟩
      have refined := good.solveAll_refines ints _ fair
      rw [reduced] at refined
      have before := good.orderly.domain keep c at_keep
      obtain ⟨n, out⟩ := before.canonical.not_all before.finite
      have mem : n ∈ s.leaves keep := refined.1.tightens keep n (full ▸ Domain.mem_unbounded n)
      rw [leaves_of_walk here, storedDomain, at_keep] at mem
      exact out mem
    rcases back with rfl | rfl
    · exact ⟨filed, finite, by simp⟩
    · refine ⟨filed.putBack keep _, ?_, by simp⟩
      rwa [leaves_congr (u.putBack_frame keep _).1 (u.attributes_putBack keep _)]
  | united is_watchers => cases is_watchers
  | consulted value => exact absurd here (value keep)

/-- Where propagators move to, they are put right: by the union with those that are there,
    by the value of the variable, or beside its domain. A variable without attributes takes
    them as they are. -/
theorem Filed.moveWatchers {w : Stamped (List Propagator)}
    (h : s.Filed (fun p _ => p ∈ w.val) fun p => p ∈ w.val) (good : s.OrderlyIn K T)
    (ints : ∀ n, isValue n = true → T (.int n)) (suits : s.Suits K.known keep (.watchers w))
    (distinct : (w.val.map Stamped.stamp).Nodup) {joined joined' : List Attribute}
    (kinds : ∀ a ∈ joined, a.name = .domain)
    (direct : s.leaves keep ≠ .unbounded ∨ s.walk (.var keep) = .var keep ∧
      ((s.attributes keep).watchers = none → (s.setAttr keep (.watchers w)).Complete))
    {u : Subst} (moved : Subst.moveAttr keep (s, joined) (.watchers w) = .ok (u, joined'))
    (settled : joined'.foldlM (Subst.settleAt keep) u = .ok t) : t.Complete := by
  have good_u : u.OrderlyIn K T := by
    have added := good.moveAttr ints joined suits
    rw [moved] at added
    exact added.1
  cases suits.moves moved with
  | @taken rep leads missing done joins =>
    subst done joins
    have at_rep := getAttr_watchers_none_iff.mp missing
    rcases direct with finite | ⟨here, complete⟩
    · rw [leaves_of_walk leads] at finite
      have domain : (s.attributes rep).domain ≠ none := fun none => finite (by simp [storedDomain, none])
      have unstored : s.storedWatchers rep = [] := by simp [storedWatchers, at_rep]
      rw [if_pos (hasAttrs_of_domain domain)] at settled
      refine Joined.settleAll (L := w.val) ⟨?_, rep, ?_, ?_, fun p mem => ?_⟩ good_u ints (by simp) ?_ settled
      · exact h.attachLoose distinct (by simp [unstored]) fun p mem => .inr mem
      · rw [walk_setAttr, leads]
      · simpa [Attributes.set] using domain
      · rwa [storedWatchers_setAttr_watchers, if_pos rfl]
      · exact List.forall_mem_append.mpr ⟨fun a mem => .inl (kinds a mem), List.forall_mem_singleton.mpr (.inr rfl)⟩
    · cases leads.symm.trans here
      exact Filed.settleAll ints keep _ (complete at_rep) good_u settled
  | narrowed is_domain => cases is_domain
  | @united rep _ b _ is_watchers leads at_rep combined back joins =>
    cases is_watchers
    subst joins
    have unbound := good.orderly.acyclic.get?_of_walk leads
    have here : s.walk (.var rep) = s.walk (.var keep) := by rw [leads, walk_var_of_unbound unbound]
    have complete := h.combine_watchers good.orderly unbound at_rep (suits.congr here) combined
    refine Filed.settleAll ints keep _ ?_ good_u settled
    rcases back with rfl | rfl
    · exact complete
    · exact complete.putBack rep _
  | consulted _ consulted =>
    have complete : u.Complete := (h.validate_watchers good.orderly suits consulted).mono
      (fun p x missed => missed.2 missed.1) fun p exempt => exempt.2 exempt.1
    exact Filed.settleAll ints keep _ complete good_u settled

/-! ## Retiring -/

section Retire

variable {w : Stamped (List Propagator)} (h : s.Complete) (acyclic : s.Acyclic) (retires : s.Retires keep v)

include h acyclic retires

/-- A lower variable without propagators takes those of the bound one as they are. -/
theorem Filed.attach_alias (at_v : (s.attributes v).watchers = some w)
    (at_keep : ((s.bindBare v (.var keep)).attributes keep).watchers = none) :
    ((s.bindBare v (.var keep)).setAttr keep (.watchers w)).Complete := by
  have stored_v : s.storedWatchers v = w.val := by simp [storedWatchers, at_v]
  have unstored : (s.bindBare v (.var keep)).storedWatchers keep = [] := by simp [storedWatchers, at_keep]
  have not_both (p : Propagator) : ¬(p ∈ s.storedWatchers v ∧ p ∈ s.storedWatchers keep) :=
    fun both => List.not_mem_nil (unstored ▸ mem_storedWatchers_bindBare.mpr ⟨retires.differ, both.2⟩ : p ∈ [])
  refine (h.alias acyclic retires).attachWatchers (stored_v ▸ h.distinct v) (by simp [unstored])
    (fun p u missed => .inl ⟨missed.2.symm, stored_v ▸ missed.1⟩) (fun p mem x in_vars u other leads => ?_)
    (fun p both => not_both p both) fun p mem => .inl ?_
  · rcases h.spread_alias acyclic retires (stored_v.symm ▸ mem) in_vars leads with found | missed
    · exact .inl found
    · exact absurd missed.2.symm other
  · exact h.regular_alias acyclic retires (stored_v.symm ▸ mem) (not_both p)

end Retire

/-- Where a variable becomes a lower one, that one ends with what the two of them had. -/
theorem Filed.retire (h : s.Complete) (good : s.OrderlyIn K T) (ints : ∀ n, isValue n = true → T (.int n))
    (retires : s.Retires keep v) (good_keep : T (.var keep)) (run : s.retire keep v = .ok t) : t.Complete := by
  have acyclic := good.orderly.acyclic
  have bare := good.bindRetired retires good_keep
  have aliased := h.alias acyclic retires
  have suits {a : Attribute} (mem : a ∈ (s.attributes v).toList) := good.orderly.suits_retired retires mem
  obtain ⟨⟨u, joined⟩, moved, settled⟩ := exists_of_bind_ok run
  rw [good.orderly.toList_attributes v] at moved suits
  cases at_v : (s.attributes v).watchers with
  | none =>
    have unstored : s.storedWatchers v = [] := by simp [storedWatchers, at_v]
    have complete : (s.bindBare v (.var keep)).Complete := aliased.mono
      (fun p x missed => List.not_mem_nil (unstored ▸ missed.1))
      fun p both => List.not_mem_nil (unstored ▸ both.1)
    cases at_v' : (s.attributes v).domain with
    | none =>
      rw [at_v, at_v'] at moved
      obtain ⟨rfl, rfl⟩ := Prod.mk.inj (Except.ok.inj moved)
      exact Filed.settleAll ints keep _ complete bare settled
    | some d =>
      rw [at_v, at_v'] at moved suits
      obtain ⟨⟨u', joined'⟩, first, rest⟩ := exists_of_bind_ok moved
      obtain ⟨rfl, rfl⟩ := Prod.mk.inj (Except.ok.inj rest)
      have added := bare.moveAttr ints [] (suits (a := .domain d) (by simp))
      rw [first] at added
      have undecided := good.orderly.domain v d at_v'
      exact Filed.settleAll ints keep _ (Filed.moveDomain complete bare ints retires.get?_keep undecided first).1
        added.1 settled
  | some w =>
    have stored_v : s.storedWatchers v = w.val := by simp [storedWatchers, at_v]
    have loose : (s.bindBare v (.var keep)).Filed (fun p _ => p ∈ w.val) fun p => p ∈ w.val :=
      aliased.mono (fun p x missed => stored_v ▸ missed.1) fun p both => stored_v ▸ both.1
    have distinct : (w.val.map Stamped.stamp).Nodup := stored_v ▸ h.distinct v
    cases at_v' : (s.attributes v).domain with
    | none =>
      rw [at_v, at_v'] at moved suits
      obtain ⟨⟨u', joined'⟩, first, rest⟩ := exists_of_bind_ok moved
      obtain ⟨rfl, rfl⟩ := Prod.mk.inj (Except.ok.inj rest)
      exact loose.moveWatchers bare ints (suits (by simp)) distinct (by simp)
        (.inr ⟨retires.walk_keep, h.attach_alias acyclic retires at_v⟩) first settled
    | some d =>
      rw [at_v, at_v'] at moved suits
      obtain ⟨⟨u₁, joined₁⟩, first, rest⟩ := exists_of_bind_ok moved
      obtain ⟨⟨u₂, joined₂⟩, second, rest⟩ := exists_of_bind_ok rest
      obtain ⟨rfl, rfl⟩ := Prod.mk.inj (Except.ok.inj rest)
      have undecided := good.orderly.domain v d at_v'
      obtain ⟨loose', finite, kinds⟩ := loose.moveDomain bare ints retires.get?_keep undecided first
      have added := bare.moveAttr ints [] (suits (a := .domain d) (by simp))
      rw [first] at added
      obtain ⟨good₁, ext, _⟩ := added
      exact loose'.moveWatchers good₁ ints ((suits (by simp)).of_extends good₁.orderly.acyclic ext) distinct
        kinds (.inl finite) second settled

/-! ## Unification -/

/-- Binding a variable leaves no propagator missing. -/
theorem lasting_complete (K : Scope) : Lasting K Complete where
  retire good ints complete retires good_keep run := Filed.retire complete good ints retires good_keep run
  instantiate good _ complete unbound not_var sized good_b run :=
    Filed.instantiate complete good unbound not_var sized good_b run

/-- Unification leaves no propagator missing. -/
theorem Orderly.unify_complete (h : s.Orderly K) (complete : s.Complete) {a b : Term} (sized_a : a.Sized)
    (sized_b : b.Sized) (run : s.unify a b = .ok t) : t.Complete :=
  (lasting_complete K).unify h complete sized_a sized_b run

end Subst

end ConstraintLogic
