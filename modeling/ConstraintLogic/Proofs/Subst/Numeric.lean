import ConstraintLogic.Proofs.Propagator.Refusal

/-!
# Variables that are known to be integers

A variable is known to be an integer if it has an integer value, or a domain or
propagators: another term than an integer is then refused for it. A posted propagator makes
this of its variables, and it is never undone. The exception is by design. Where the
aliases of its variables leave nothing to say of one of them, the propagator narrows the
others and is dropped, as `x + 0 = x` is.

Results:
* `Subst.Numeric`, `Subst.Orderly.unify_numeric`: what is known to be an integer takes no
  other term.
* `Subst.Spares`: the propagators that are dropped without a trace on a variable.
* `Subst.Orderly.numeric_solveReduced`, `Subst.Orderly.numeric_solveWith`: a domain and any
  other propagator leave a trace, and what is known to be an integer remains so.
-/

namespace ConstraintLogic

namespace Subst

variable {K : Scope} {s t : Subst} {v w x : Var}

/-- The variable has an integer value, or it is unbound and has a domain or propagators. -/
def Numeric (s : Subst) (x : Var) : Prop :=
  (∃ n, s.walk (.var x) = .int n) ∨ ∃ w, s.walk (.var x) = .var w ∧ s.attributes w ≠ {}

/-- As the variables are aliased, the relation says nothing of the unbound variable: the
    constants of a difference or a multiple make both of its sides the same, the variable
    occurs on both sides of a sum, it is multiplied by zero, or is all that has to differ. -/
def Spares (s : Subst) (x : Var) : Relation → Prop
  | .plusConst a c z => c = 0 ∧ s.Alias a z
  | .sum a b z => s.Alias x z ∧ (s.Alias x a ∧ ¬s.Alias x b ∨ s.Alias x b ∧ ¬s.Alias x a)
  | .scale c a z => c = 0 ∧ ¬s.Alias x z ∨ c = 1 ∧ s.Alias a z
  | .allDifferent vs cs => vs.length + cs.length = 1
  | _ => False

theorem Alias.symm (h : s.Alias v w) : s.Alias w v := by
  obtain ⟨u, at_v, at_w⟩ := h
  exact ⟨u, at_w, at_v⟩

theorem Alias.trans (h : s.Alias v w) (h' : s.Alias w x) : s.Alias v x := by
  obtain ⟨u, at_v, at_w⟩ := h
  obtain ⟨u', at_w', at_x⟩ := h'
  cases at_w.symm.trans at_w'
  exact ⟨u, at_v, at_x⟩

theorem Numeric.proper (h : s.Numeric x) : (Solver.new s).resolve x ≠ .other := by
  rcases h with ⟨n, value⟩ | ⟨w, leads, _⟩
  · have found : (Solver.new s).resolve x = .value n := Solver.resolve_eq_value_iff.mpr value
    simp [found]
  · have found : (Solver.new s).resolve x = .free w := Solver.resolve_eq_free_iff.mpr leads
    simp [found]

theorem Numeric.congr (h : s.Numeric x) (bindings : t.bindings = s.bindings) (attributes : t.attributes = s.attributes) :
    t.Numeric x := by
  unfold Numeric at *
  rwa [walk_congr bindings, attributes]

theorem Spares.congr {r : Relation} (h : s.Spares x r) (bindings : t.bindings = s.bindings) : t.Spares x r := by
  unfold Spares Alias at *
  rwa [walk_congr bindings]

end Subst

namespace Solver

variable {K : Scope} {s t u : Solver} {id : PropId} {r q : Relation} {p : Propagator} {v w x : Var} {c : Int}

theorem resolve_of_alias (h : s.subst.Alias v w) : s.resolve v = s.resolve w := resolve_of_sameVar (alias_iff.mp h)

namespace Serving

/-- A variable that is reduced to zero is confined, and so is what stands for the same. -/
theorem reduce_zero (h : s.Serving K id r) (mem : v ∈ r.vars) (same : s.resolve x = s.resolve v) :
    Narrow.Leaves s (Narrow.reduce v (.singleton 0)) fun _ t => t.Confined x := by
  refine (h.reduce_confined (names_of_mem mem) (canonical_singleton (by decide)) Domain.noConfusion).mono ?_
  rintro _ t ⟨_, aside, confined⟩
  exact confined.congr (by rw [aside.resolve, same])

/-- A sum whose result is one of its operands confines each variable that it does not spare:
    the other operand is zero. -/
theorem confines_runSum {a b z : Var} (h : s.Serving K id (.sum a b z)) (mem : x ∈ [a, b, z]) (self : s.subst.Alias x x)
    (irregular : ¬s.subst.Regular (.sum a b z)) (touched : ¬s.subst.Spares x (.sum a b z)) :
    Narrow.Leaves s (Narrow.runSum id a b z) fun _ t => t.Confined x := by
  have either : s.subst.Alias a z ∨ s.subst.Alias b z := by
    by_contra neither
    exact irregular (not_or.mp neither)
  unfold Narrow.runSum
  refine Narrow.leaves_sameVar (Narrow.leaves_sameVar (Narrow.leaves_sameVar ?_))
  have cases_x : x = a ∨ x = b ∨ x = z := by simpa using mem
  split
  · rename_i all
    rw [Bool.and_eq_true, ← alias_iff, ← alias_iff] at all
    refine h.reduce_zero (by simp [Relation.vars]) ?_
    rcases cases_x with rfl | rfl | rfl
    · rfl
    · exact (resolve_of_alias all.1).symm
    · exact (resolve_of_alias all.2).symm
  rename_i not_all
  rw [Bool.and_eq_true, ← alias_iff, ← alias_iff] at not_all
  have apart_ab : ¬s.subst.Alias a b := fun ab => not_all ⟨ab, either.elim (fun az => az) ab.trans⟩
  rw [if_neg fun ab => apart_ab (alias_iff.mpr ab)]
  split
  · rename_i az
    rw [← alias_iff] at az
    refine h.reduce_zero (by simp [Relation.vars]) ?_
    rcases cases_x with rfl | rfl | rfl
    · exact absurd ⟨az, .inl ⟨self, apart_ab⟩⟩ touched
    · rfl
    · exact absurd ⟨self, .inl ⟨az.symm, fun zb => apart_ab (az.trans zb)⟩⟩ touched
  · rename_i apart_az
    rw [← alias_iff] at apart_az
    have bz := either.resolve_left apart_az
    rw [if_pos (alias_iff.mp bz)]
    refine h.reduce_zero (by simp [Relation.vars]) ?_
    rcases cases_x with rfl | rfl | rfl
    · rfl
    · exact absurd ⟨bz, .inr ⟨self, fun ba => apart_ab ba.symm⟩⟩ touched
    · exact absurd ⟨self, .inr ⟨bz.symm, fun za => apart_az za.symm⟩⟩ touched

/-- A run for a relation that is not regular confines each variable that it does not spare. -/
theorem confines (h : s.Serving K id r) (mem : x ∈ r.vars) (free : s.resolve x = .free w)
    (irregular : ¬s.subst.Regular r) (touched : ¬s.subst.Spares x r) :
    Narrow.Leaves s (Narrow.propagate id r) fun _ t => t.Confined x := by
  cases r with
  | plusConst a c z =>
    have alike : s.subst.Alias a z := not_not.mp irregular
    show Narrow.Leaves s (Narrow.runPlusConst id a c z) _
    unfold Narrow.runPlusConst
    refine Narrow.leaves_sameVar ?_
    rw [if_pos (alias_iff.mp alike)]
    exact Narrow.leaves_require fun zero => absurd ⟨of_decide_eq_true zero, alike⟩ touched
  | sum a b z =>
    have self : s.subst.Alias x x := ⟨w, resolve_eq_free_iff.mp free, resolve_eq_free_iff.mp free⟩
    exact h.confines_runSum mem self irregular touched
  | scale c a z =>
    show Narrow.Leaves s (Narrow.runScale id c a z) _
    unfold Narrow.runScale
    split
    · rename_i zero
      refine h.reduce_zero (by simp [Relation.vars]) (resolve_of_alias ?_)
      exact not_not.mp fun apart => touched (.inl ⟨zero, apart⟩)
    · rename_i nonzero
      have alike : s.subst.Alias a z := not_not.mp fun apart => irregular ⟨nonzero, apart⟩
      refine Narrow.leaves_sameVar ?_
      rw [if_pos (alias_iff.mp alike), if_neg fun one => touched (.inr ⟨one, alike⟩)]
      refine h.reduce_zero (by simp [Relation.vars]) ?_
      rcases List.mem_pair.mp mem with rfl | rfl
      · rfl
      · exact (resolve_of_alias alike).symm
  | allDifferent vs cs =>
    have one : vs.length ≠ 0 := List.length_pos_iff.mpr (List.ne_nil_of_mem mem) |>.ne'
    refine absurd (show vs.length + cs.length = 1 from ?_) touched
    have few : ¬2 ≤ vs.length + cs.length := irregular
    omega
  | sumConst a b c => exact absurd trivial irregular
  | table vs rows origin => exact absurd trivial irregular

end Serving

/-! ## Firm variables -/

/-- The unbound variable is held, or it has attributes and is not loaded. -/
def Firm (s : Solver) (w : Var) : Prop := s.Held w ∨ w ∉ s.domains ∧ s.subst.attributes w ≠ {}

theorem Firm.turn (hs : s.Steady K) (ht : t.Steady K) (turn : s.Turn K t) (free : s.subst.get? w = none)
    (h : s.Firm w) : t.Firm w := by
  rcases h with held | ⟨out, some⟩
  · exact .inl (held.turn ht hs turn free)
  · exact .inr ⟨fun mem => out ((turn.framed.loaded w).mp mem), by rwa [turn.framed.attributes]⟩

/-- A confined variable is firm. -/
theorem Confined.firm (h : s.Confined x) (free : s.resolve x = .free w) : s.Firm w := by
  obtain ⟨_, n, out⟩ := h
  rw [peek_of_free free] at out
  exact .inl (.inl ⟨n, out⟩)

/-- The variable is firm, or a propagator waits that is not regular and does not spare it: its
    first run is going to confine the variable. -/
def Due (s : Solver) (p : Propagator) (x w : Var) : Prop :=
  s.Firm w ∨ (x ∈ p.val.vars ∧ ¬s.subst.Regular p.val ∧ ¬s.subst.Spares x p.val) ∧ s.Pending p

theorem Due.turn (hs : s.Steady K) (ht : t.Steady K) (turn : s.Turn K t) (free : s.resolve x = .free w)
    (h : s.Due p x w) : t.Due p x w := by
  have framed := turn.framed
  rcases h with firm | ⟨⟨mem, irregular, touched⟩, pending⟩
  · exact .inl (firm.turn hs ht turn (hs.unbound_of_free free))
  rcases pending.turn turn with pending | ⟨id, u, serving, framed', ran⟩
  · exact .inr ⟨⟨mem, fun regular => irregular (regular.congr framed.bindings.symm),
      fun spares => touched (spares.congr framed.bindings.symm)⟩, pending⟩
  · have confined := serving.confines mem (by rw [framed'.resolve, free])
      (fun regular => irregular (regular.congr framed'.bindings.symm))
      (fun spares => touched (spares.congr framed'.bindings.symm)) _ _ ran
    exact .inl (confined.firm (by rw [framed.resolve, free]))

/-- What a firm variable is written back as is known to be an integer. -/
theorem Firm.numeric {answer : Subst} (sound : s.Steady K) (back : s.WrittenBack answer) (h : s.Firm w)
    (free : s.resolve x = .free w) : answer.Numeric x := by
  rcases back.resolve_of_free sound free with ⟨_, n, _, _, value⟩ | ⟨unbound, free'⟩
  · exact .inl ⟨n, resolve_eq_value_iff.mp value⟩
  refine .inr ⟨w, resolve_eq_free_iff.mp free', fun none => ?_⟩
  rcases h with held | ⟨out, some⟩
  · rcases held.written sound back unbound with finite | ⟨p, stored, _⟩
    · simp [Subst.storedDomain, none] at finite
    · simp [Subst.storedWatchers, none] at stored
  · exact some (by rw [← back.kept w out, none])

end Solver

namespace Subst

variable {K : Scope} {s t : Subst} {p : Propagator} {v w x : Var}

/-- A variable that is known to be an integer takes no other term. -/
theorem Orderly.unify_numeric (h : s.Orderly K) (numeric : s.Numeric x) {a : Term} (not_var : ∀ u, a ≠ .var u)
    (no_int : a.asInt? = none) : s.unify (.var x) a = .error .conflict := by
  rcases numeric with ⟨n, value⟩ | ⟨w, leads, some⟩
  · rw [unify_var_eq (by simp [value, Term.int]), value, walk_of_not_var not_var,
      unifyEnds_of_settled (by simp [Term.int]) not_var, if_neg (by rintro rfl; cases no_int)]
  · rw [unify_var_eq (by simp [leads]), leads, walk_of_not_var not_var, unifyEnds_var not_var]
    exact (h.instantiate_eq no_int).resolve_right fun clear => some clear.1

/-- A variable that is left with a part of a domain is known to be an integer. -/
theorem Within.numeric {d : Domain} (h : s.Within x d) : s.Numeric x := by
  rcases h with ⟨n, _, value⟩ | ⟨w, a, leads, found, _⟩
  · exact .inl ⟨n, value⟩
  · refine .inr ⟨w, leads, fun none => ?_⟩
    rw [none] at found
    cases found

/-- A variable that is reduced to a finite domain is known to be an integer. -/
theorem Orderly.numeric_solveReduced (h : s.Orderly K) {d : Domain} (canonical : d.Canonical) (finite : d ≠ .unbounded)
    (run : s.solveReduced x d = .ok t) : t.Numeric x := (h.within_solveReduced canonical finite run).numeric

/-- A variable with attributes has a domain or a propagator. -/
theorem Orderly.domain_or_watchers (h : s.Orderly K) (some : s.attributes w ≠ {}) :
    s.storedDomain w ≠ .unbounded ∨ ∃ p, p ∈ s.storedWatchers w := by
  by_contra neither
  obtain ⟨full, unwatched⟩ := not_or.mp neither
  obtain ⟨allowed, tag, zero⟩ := h.simple w
  have no_domain : (s.attributes w).domain = none := by
    by_contra found
    obtain ⟨a, found⟩ := Option.ne_none_iff_exists'.mp found
    refine full fun same => (h.domain w a found).finite ?_
    rw [← same, storedDomain, found]
  have no_watchers : (s.attributes w).watchers = none := by
    by_contra found
    obtain ⟨a, found⟩ := Option.ne_none_iff_exists'.mp found
    obtain ⟨p, mem⟩ := List.exists_mem_of_ne_nil _ (h.watched w a found)
    exact unwatched ⟨p, mem_storedWatchers_iff.mpr ⟨a, found, mem⟩⟩
  refine some (Attributes.ext_get? fun name => ?_)
  cases name with
  | domain => simp [Attributes.get?, no_domain]
  | watchers => simp [Attributes.get?, no_watchers]
  | allowed => simp [Attributes.get?, allowed]
  | tag => simp [Attributes.get?, tag]
  | zero => simp [Attributes.get?, zero]

/-- Once a propagator is posted, a variable is firm that has attributes, and so is every
    variable of a regular propagator. -/
theorem Orderly.firm_post (h : s.Orderly K) (complete : s.Complete) (known : K.known p) (free : s.walk (.var x) = .var w)
    (engaged : s.attributes w ≠ {} ∨ s.Regular p.val ∧ x ∈ p.val.vars) : ((Solver.new s).post p).2.Firm w := by
  have fresh := h.steady_new
  obtain ⟨steady, grows, _⟩ := fresh.post known
  obtain ⟨vigilant, id, found⟩ :=
    (Solver.attentive_new fun v q stored => complete.regular v q stored).post fresh known
  have subst : ((Solver.new s).post p).2.subst = s := grows.subst
  have resolve := grows.resolve
  have current := grows.current w
  generalize ((Solver.new s).post p).2 = u at *
  -- A regular propagator at work holds every unbound variable that it mentions.
  have holds {id : PropId} {q : Propagator} {v : Var} (found : u.prop? id = some q) (regular : s.Regular q.val)
      (mem : v ∈ q.val.vars) (leads : s.walk (.var v) = .var w) : u.Held w := by
    have free : u.resolve v = .free w := by
      rw [resolve]
      exact Solver.resolve_eq_free_iff.mpr leads
    exact .inr ⟨id, q, found, by rwa [subst], vigilant.subscribed id q found (fun none => none) v mem w free⟩
  rcases engaged with some | ⟨regular, mem⟩
  · by_cases loaded : w ∈ u.domains
    · rcases h.domain_or_watchers some with finite | ⟨q, stored⟩
      · obtain ⟨n, out⟩ := (h.canonical_storedDomain w).1.not_all finite
        refine .inl (.inl ⟨n, fun mem => out ?_⟩)
        rw [current] at mem
        simpa [Solver.current, Solver.new] using mem
      · have stored' : q ∈ u.subst.storedWatchers w := by rwa [subst]
        obtain ⟨j, at_j⟩ := (vigilant.taken w loaded q stored').resolve_right fun none => none
        obtain ⟨v, mem, leads⟩ := h.mentions w q stored
        exact .inl (holds at_j ((complete.regular w q stored).resolve_right fun none => none) mem leads)
    · exact .inr ⟨loaded, by rwa [subst]⟩
  · exact .inl (holds found regular mem free)

/-- Where a propagator is posted, what is known to be an integer remains so, and every
    variable of the propagator that it does not spare comes to be. -/
theorem Orderly.numeric_solveWith (h : s.Orderly K) (complete : s.Complete) (known : K.known p)
    (proper : (Solver.new s).resolve x ≠ .other) (engaged : s.Numeric x ∨ x ∈ p.val.vars ∧ ¬s.Spares x p.val)
    (run : s.solveWith [p] = .ok t) : t.Numeric x := by
  cases found : (Solver.new s).resolve x with
  | other => exact absurd found proper
  | value n =>
    have value : s.walk (.var x) = .int n := Solver.resolve_eq_value_iff.mp found
    have added := h.inAll.solveWith (fun _ _ => trivial) (List.forall_mem_singleton.mpr known)
    rw [run] at added
    obtain ⟨good, ext, _⟩ := added
    refine .inl ⟨n, ?_⟩
    rw [← good.orderly.acyclic.walk_walk ext, value]
    exact walk_of_not_var (by simp [Term.int])
  | free w =>
    have leads : s.walk (.var x) = .var w := Solver.resolve_eq_free_iff.mp found
    have fresh := h.steady_new
    obtain ⟨steady, grows, _⟩ := fresh.post known
    have start : ((Solver.new s).post p).2.Due p x w := by
      rcases engaged with (⟨n, value⟩ | ⟨w', leads', some⟩) | ⟨mem, touched⟩
      · cases leads.symm.trans value
      · cases leads.symm.trans leads'
        exact .inl (h.firm_post complete known leads (.inl some))
      · by_cases regular : s.Regular p.val
        · exact .inl (h.firm_post complete known leads (.inr ⟨regular, mem⟩))
        · refine .inr ⟨⟨mem, ?_⟩, fresh.post_waits known⟩
          rw [grows.subst]
          exact ⟨regular, touched⟩
    have free {u : Solver} (shrinks : (Solver.new s).Shrinks u) : u.resolve x = .free w := by rw [shrinks.resolve, found]
    obtain ⟨u, steady', ⟨shrinks, due⟩, quiet, back⟩ := steady.of_solve?
      (J := fun u => (Solver.new s).Shrinks u ∧ u.Due p x w) ⟨grows.shrinks, start⟩
      (fun u m hu hm turn before => ⟨before.1.trans turn.framed.shrinks, before.2.turn hu hm turn (free before.1)⟩) run
    have firm := due.resolve_right fun later => later.2.not_quiet quiet
    exact firm.numeric steady' back (free shrinks)

end Subst

end ConstraintLogic
