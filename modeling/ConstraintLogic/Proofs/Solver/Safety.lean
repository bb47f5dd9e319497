import ConstraintLogic.Proofs.Propagator.Moves
import ConstraintLogic.Proofs.Solver.Filed
import ConstraintLogic.Proofs.Solver.Subscriptions

/-!
# Solvers without overflows

Where the constraints of a solver are safe with the values that are left to their variables,
no run of a propagator comes to an overflow. A run only takes values away, and the relations
that it goes on as are safe as well: a variable that has become known is one of the values that
it had. So a solver on a substitution whose stored constraints are safe solves what it is asked
for, or ends in a conflict, and what it writes back is safe again.

Results:
* `Subst.Safe`: the stored constraints are safe with the domains.
* `Solver.Guarded`: a solver has lost values only, and its constraints are safe.
* `Narrow.Spares`, `Narrow.spares_propagate`: a run of a safe relation.
* `Narrow.spares_fixpoint`: the propagation loop.
* `Subst.Orderly.spared_solveWith`, `Subst.Orderly.spared_solveReduced`: whole solvers.
-/

namespace ConstraintLogic

/-- The stored constraints are safe from an overflow with the values that `may` allows. -/
def Subst.SafeWith (may : Var → Int → Prop) (s : Subst) : Prop := ∀ v, ∀ p ∈ s.storedWatchers v, p.val.Safe may

/-- The stored constraints are safe from an overflow with the values that the domains leave. -/
def Subst.Safe (s : Subst) : Prop := s.SafeWith fun v n => n ∈ s.leaves v

namespace Solver

variable {s₀ s t : Solver} {id : PropId} {v w : Var} {d : Domain} {r : Relation} {Q : Propagator → Prop}

/-! ## Guarded solvers -/

/-- The solver has come from `s₀` by losing values, and the constraints at work and those that are
    stored are safe from an overflow with the values that `s₀` has. -/
structure Guarded (s₀ s : Solver) : Prop where
  tidy : s.Tidy
  contracts : s₀.Contracts s
  safe : ∀ p, (s.AtWork p ∨ ∃ w, p ∈ s.subst.storedWatchers w) → p.val.Sized ∧ p.val.Safe fun v n => n ∈ s₀.peek v

namespace Guarded

/-- What is drawn in is stored or safe. -/
theorem draw (h : s₀.Guarded s) (drawn : s.Draws Q t) (tidy : t.Tidy) (contracts : s.Contracts t)
    (new : ∀ p, Q p → p.val.Sized ∧ p.val.Safe fun v n => n ∈ s₀.peek v) : s₀.Guarded t where
  tidy := tidy
  contracts := h.contracts.trans contracts
  safe p known := by
    rcases known with work | stored
    · rcases drawn.work p work with work | posted | stored
      · exact h.safe p (.inl work)
      · exact new p posted
      · exact h.safe p (.inr stored)
    · rw [drawn.subst] at stored
      exact h.safe p (.inr stored)

/-- Nothing changes for the domains, and only stored constraints are drawn in. -/
theorem grow (h : s₀.Guarded s) (drawn : s.Draws (fun _ => False) t) (same : s.Matches t) : s₀.Guarded t :=
  h.draw drawn (same.tidy h.tidy) same.contracts fun _ => False.elim

/-- What a variable stands for has no other values than the variable. -/
theorem mem_root (h : s₀.Guarded s) (free : s.resolve v = .free w) {n : Int} (mem : n ∈ s₀.peek w) : n ∈ s₀.peek v := by
  have root := h.tidy.root v w free
  rw [h.contracts.resolve] at free root
  rwa [peek_of_free root, ← peek_of_free free] at mem

/-- Where another relation takes the place of one, it has to be safe. -/
theorem become (h : s₀.Guarded s) (sized : r.Sized) (safe : r.Safe fun v n => n ∈ s₀.peek v) : s₀.Guarded (s.become id r) := by
  have same := s.matched_become id r
  obtain ⟨t, run, bindings, attrs, domains, _, _, others, mine⟩ := s.replaceWith_spec id r
  cases run
  refine ⟨same.tidy h.tidy, h.contracts.trans same.contracts, fun p known => ?_⟩
  rcases known with ⟨j, found⟩ | ⟨w, stored⟩
  · by_cases here : j = id
    · subst here
      have relation : some p.val = (s.prop? j).map fun _ => r := by
        rw [← mine]
        exact congrArg (Option.map Stamped.val) found.symm
      obtain ⟨_, _, rfl⟩ := Option.map_eq_some_iff.mp relation.symm
      exact ⟨sized, safe⟩
    · exact h.safe p (.inl ⟨j, (others j here).symm.trans found⟩)
  · refine h.safe p (.inr ⟨w, ?_⟩)
    unfold Subst.storedWatchers Subst.attributes at stored ⊢
    rwa [← attrs]

/-- A solver on a substitution whose constraints are safe. -/
theorem of_steady {K : Scope} (steady : s.Steady K) (safe : s.subst.SafeWith fun v n => n ∈ s.peek v)
    (work : ∀ p, s.AtWork p → p.val.Safe fun v n => n ∈ s.peek v) : s.Guarded s where
  tidy := ⟨fun _ _ free => resolve_of_unbound (steady.unbound_of_free free), steady.canonical_peek⟩
  contracts := .refl s
  safe p known := by
    refine ⟨(steady.base.proper p ?_).sized, ?_⟩
    · exact known.imp_left .inr
    · rcases known with at_work | ⟨w, stored⟩
      · exact work p at_work
      · exact safe w p stored

end Guarded

theorem draws_resubscribe (id : PropId) (vs : List Var) (s : Solver) : s.Draws Q (s.resubscribe id vs) := by
  refine .foldl vs fun t v _ => ?_
  dsimp only
  split
  · exact draws_domain t v
  · exact (draws_domain t v).trans (draws_subscribe _ id v)

/-- Reducing a domain fails in a conflict only. -/
theorem not_overflow_of_reduce {why : Halt} (failed : Narrow.reduce v d s = .error why t) : ¬why.IsOverflow := by
  have reduces := s.reduces v d
  rw [failed] at reduces
  cases reduces with
  | bound _ same =>
    rcases same with eq | eq
    · cases eq
    · cases eq
      exact not_false
  | empty => exact not_false

end Solver

namespace Narrow

open Solver

variable {α β : Type} {s₀ s : Solver} {id : PropId} {m : Narrow α} {f : α → Narrow β} {Q : α → Prop} {R : β → Prop}
variable {v w : Var} {d : Domain} {r : Relation}

/-! ## Runs -/

/-- From a guarded solver the narrowing does not end in an overflow, and where it has a result
    the solver is guarded still and the result satisfies `Q`. -/
def Spares (s₀ : Solver) (m : Narrow α) (Q : α → Prop) : Prop :=
  ∀ s, s₀.Guarded s → match m s with
    | .ok a t => s₀.Guarded t ∧ Q a
    | .error why _ => ¬why.IsOverflow

theorem Spares.bind (h : Spares s₀ m Q) (next : ∀ a, Q a → Spares s₀ (f a) R) : Spares s₀ (m >>= f) R := by
  intro s guarded
  have first := h s guarded
  obtain ⟨a, t, run, whole⟩ | ⟨why, t, run, whole⟩ := bind_cases m f s
  all_goals
    rw [run] at first
    rw [whole]
  · exact next a first.2 t first.1
  · exact first

theorem spares_modify {g : Solver → Solver} (step : ∀ s, s₀.Guarded s → s₀.Guarded (g s)) :
    Spares s₀ (modify g) fun _ => True := fun s guarded => ⟨step s guarded, trivial⟩

theorem spares_get : Spares s₀ get fun _ => True := fun _ guarded => ⟨guarded, trivial⟩

theorem spares_domain (v : Var) : Spares s₀ (domain v) fun d => d.Canonical ∧ ∀ n ∈ d, n ∈ s₀.peek v := fun s guarded => by
  obtain ⟨eq, grows⟩ := s.domain_spec v
  refine ⟨guarded.grow (draws_domain s v) grows.matched, ?_⟩
  show (s.domain v).1.Canonical ∧ ∀ n ∈ (s.domain v).1, n ∈ s₀.peek v
  rw [eq]
  exact ⟨guarded.tidy.canonical v, guarded.contracts.mem_peek v⟩

theorem spares_resolve (v : Var) : Spares s₀ (resolve v) fun found =>
    (∀ w, found = .free w → ∀ n ∈ s₀.peek w, n ∈ s₀.peek v) ∧
      ∀ n, found = .value n → isValue n = true ∧ n ∈ s₀.peek v := fun s guarded => by
  refine ⟨guarded, fun w free n => guarded.mem_root free, fun n found => ?_⟩
  have peek : s.peek v = .singleton n := by simp only [peek, found]
  have mem : n ∈ s.peek v := peek ▸ Domain.mem_singleton.mpr rfl
  exact ⟨guarded.tidy.isValue_of_mem (by rw [peek]; exact Domain.noConfusion) mem, guarded.contracts.mem_peek v n mem⟩

/-- Reducing a domain takes values away. -/
theorem spares_reduce (v : Var) (canonical : d.Canonical) : Spares s₀ (reduce v d) fun _ => True := by
  intro s guarded
  have reduced : Narrow.Ensures (fun _ => False) s (reduce v d) _ := guarded.tidy.reduce canonical fun _ => False.elim
  have drawn := s.draws_reduce (Q := fun _ => False) v d
  unfold Ensures at reduced
  cases run : reduce v d s with
  | ok a t =>
    rw [run] at reduced
    exact ⟨guarded.draw (drawn a t run) reduced.1 reduced.2.1.contracts fun _ => False.elim, trivial⟩
  | error why t => exact not_overflow_of_reduce run

theorem spares_resubscribe (vs : List Var) : Spares s₀ (resubscribe id vs) fun _ => True :=
  spares_modify fun s guarded => guarded.grow (s.draws_resubscribe id vs) (s.grows_resubscribe id vs).1.matched

/-- That a narrowing spares a solver has a rule for every step. -/
theorem spares_rules (s₀ : Solver) (id : PropId) :
    Rules id (fun _ => True) True True (fun v n => n ∈ s₀.peek v) (Spares s₀) where
  sized := fun _ => trivial
  pure good _ guarded := ⟨guarded, good⟩
  throw sound _ _ := sound trivial
  bind := Spares.bind
  domain _ := fun s guarded => ⟨(spares_domain _ s guarded).1, fun _ => (spares_domain _ s guarded).2.1,
    fun _ => (spares_domain _ s guarded).2.2⟩
  sameVar _ _ := spares_get.bind fun _ _ _ guarded => ⟨guarded, trivial⟩
  aliases _ := spares_get.bind fun _ _ _ guarded => ⟨guarded, trivial⟩
  resolve _ := fun s guarded => by
    obtain ⟨kept, root, value⟩ := spares_resolve _ s guarded
    exact ⟨kept, fun w free => ⟨trivial, fun _ => root w free⟩,
      fun n found => ⟨fun _ => (value n found).1, fun _ => (value n found).2⟩⟩
  reduce _ canonical := spares_reduce _ (canonical trivial)
  resubscribe _ := spares_resubscribe _
  replaceWith _ sized safe := spares_modify fun _ guarded => guarded.become (sized trivial) (safe trivial)

/-- A run of a safe relation does not come to an overflow. -/
theorem spares_propagate (id : PropId) (sized : r.Sized) (safe : r.Safe fun v n => n ∈ s₀.peek v) :
    Spares s₀ (propagate id r) fun _ => True :=
  (spares_rules s₀ id).propagate (fun _ _ => trivial) (fun _ => sized) fun _ => safe

/-! ## The loop -/

theorem spares_runNumbered (id : PropId) : Spares s₀ (runNumbered id) fun _ => True := by
  intro s guarded
  rw [runNumbered_eq]
  cases found : s.prop? id with
  | none => exact ⟨guarded, trivial⟩
  | some p =>
    obtain ⟨sized, safe⟩ := guarded.safe p (.inl ⟨id, found⟩)
    refine spares_propagate id sized safe _ ?_
    obtain ⟨m, eq⟩ := s.unsubscribe_frame id
    rw [eq]
    exact guarded.grow (.of_props rfl rfl) (matched_of_eq rfl rfl rfl)

theorem spares_runWaiting : ∀ n, Spares s₀ (runWaiting n) fun _ => True
  | 0 => fun _ _ => not_false
  | n + 1 => by
    intro s guarded
    cases popped : s.agenda.pop? with
    | none =>
      rw [runWaiting_of_none n popped]
      exact ⟨guarded, trivial⟩
    | some entry =>
      obtain ⟨id, a⟩ := entry
      rw [runWaiting_of_some n popped]
      have next : s₀.Guarded { s with agenda := a } := guarded.grow (.of_props rfl rfl) (matched_of_eq rfl rfl rfl)
      exact (spares_runNumbered id).bind (fun _ _ => spares_runWaiting n) _ next

/-- What is spared ends in no overflow, and leaves a guarded solver. -/
theorem Spares.of_guarded (h : Spares s₀ m Q) (guarded : s₀.Guarded s) :
    (Leaves s m fun _ t => s₀.Guarded t) ∧ ∀ why t, m s = .error why t → ¬why.IsOverflow := by
  have spared := h s guarded
  refine ⟨fun a t run => ?_, fun why t failed => ?_⟩
  · rw [run] at spared
    exact spared.1
  · rw [failed] at spared
    exact spared

/-- The propagation loop does not come to an overflow. -/
theorem spares_fixpoint : Spares s₀ fixpoint fun _ => True := spares_get.bind fun _ _ => spares_runWaiting _

end Narrow

/-! ## Whole solvers -/

namespace Subst

variable {K : Scope} {s t : Subst} {s₀ solver : Solver} {v : Var} {d : Domain} {may more : Var → Int → Prop}

theorem SafeWith.mono (h : s.SafeWith more) (fewer : ∀ v n, may v n → more v n) : s.SafeWith may :=
  fun v p mem => (h v p mem).mono fewer

/-- The attempt does not come to an overflow, and what it answers is safe. -/
def Spared : Attempt Subst → Prop
  | .ok t => t.Safe
  | .error why => ¬why.IsOverflow

theorem Spared.safe {r : Attempt Subst} (h : Spared r) (run : r = .ok t) : t.Safe := by
  rw [run] at h
  exact h

theorem Spared.not_overflow {r : Attempt Subst} {why : Stop} (h : Spared r) (stopped : r = .error (.stop why)) :
    ¬why.IsOverflow := by
  rw [stopped] at h
  exact h

theorem Spared.bind {α : Type} {π : α → Subst} {r : Attempt α} {f : α → Attempt Subst} (h : Spared (π <$> r))
    (next : ∀ a, r = .ok a → (π a).Safe → Spared (f a)) : Spared (r >>= f) := by
  cases r with
  | ok a => exact next a rfl h
  | error why => exact h

/-- What a guarded solver writes back is safe. -/
theorem safe_of_toSubst? (guarded : s₀.Guarded solver) (steady : solver.Steady K) (written : solver.toSubst? = .ok t) :
    t.Safe := by
  obtain ⟨t', written', back⟩ := Solver.toSubst?_spec steady
  cases written.symm.trans written'
  have fewer (v : Var) (n : Int) (mem : n ∈ t.leaves v) : n ∈ s₀.peek v :=
    guarded.contracts.mem_peek v n (back.mem_peek steady mem)
  intro w p mem
  refine (guarded.safe p ?_).2.mono fewer
  rcases back.mem_storedWatchers.mp mem with ⟨_, stored⟩ | ⟨_, id, _, found⟩
  · exact .inr ⟨w, stored⟩
  · exact .inl ⟨id, found⟩

/-- A narrowing that ends in no overflow, and otherwise in a guarded solver, is written back as what
    is safe. -/
theorem spared_runToSubst {m : Narrow Unit} (ended : Narrow.Leaves solver m fun _ u => u.Steady K ∧ ∃ s₀ : Solver, s₀.Guarded u)
    (sound : ∀ why u, m solver = .error why u → ¬why.IsOverflow) : Spared (solver.runToSubst m) := by
  unfold Solver.runToSubst EStateM.run
  cases run : m solver with
  | error why u => exact sound why u run
  | ok a u =>
    obtain ⟨steady, s₀, guarded⟩ := ended a u run
    obtain ⟨t, written, _⟩ := Solver.toSubst?_spec steady
    show Spared u.toSubst?
    rw [written]
    exact safe_of_toSubst? guarded steady written

/-- A new solver on a safe substitution is guarded. -/
theorem Orderly.guarded_new (h : s.Orderly K) (safe : s.Safe) : (Solver.new s).Guarded (Solver.new s) := by
  refine .of_steady h.steady_new safe ?_
  rintro p ⟨id, found⟩
  simp [Solver.new, Solver.prop?] at found

/-- Safe constraints are posted and solved without an overflow. -/
theorem Orderly.spared_solveWith (h : s.Orderly K) (safe : s.Safe) {ps : List Propagator} (known : ∀ p ∈ ps, K.known p)
    (posted : ∀ p ∈ ps, p.val.Safe fun v n => n ∈ s.leaves v) : Spared (s.solveWith ps) := by
  obtain ⟨steady, grows, _⟩ := Solver.Sound.posts ps (Solver.new s) h.steady_new known
  have start := h.guarded_new safe
  have guarded : (Solver.new s).Guarded (ps.foldl (fun s p => (s.post p).2) (Solver.new s)) :=
    start.draw (Solver.draws_posts ps _) (grows.matched.tidy start.tidy) grows.matched.contracts fun p mem =>
      ⟨(h.proper p (.inl (known p mem))).sized, posted p mem⟩
  have spares := Narrow.spares_fixpoint.of_guarded guarded
  refine spared_runToSubst (K := K) ((steady.fixpoint.leaves.and spares.1).mono ?_) spares.2
  rintro _ u ⟨ended, kept⟩
  exact ⟨ended.1, _, kept⟩

/-- Where a variable is reduced to a domain, it is enough that the constraints are safe with the
    values that are then left. -/
theorem Orderly.spared_solveReduced (h : s.Orderly K) (canonical : d.Canonical) (full : d = .unbounded → s.Integral K v)
    (safe : s.SafeWith may) (enough : ∀ w n, n ∈ s.leaves w → (s.walk (.var w) = s.walk (.var v) → n ∈ d) → may w n) :
    Spared (s.solveReduced v d) := by
  have reduces := (h.steady_new.reduce (v := v) canonical fun unbounded θ admits =>
    full unbounded θ admits.reading admits.binding).leaves
  have guarded : Narrow.Leaves (Solver.new s) (Narrow.reduce v d) fun _ u => u.Steady K ∧ u.Guarded u := by
    refine (reduces.and ((Solver.new s).draws_reduce (Q := fun _ => False) v d)).mono ?_
    rintro _ u ⟨⟨steady, shrinks, same, left, _⟩, drawn⟩
    have fewer (w : Var) (n : Int) (mem : n ∈ u.peek w) : may w n := by
      refine enough w n (shrinks.mem_peek w n mem) fun alike => left n ?_
      have resolve : u.resolve w = u.resolve v := by
        rw [shrinks.resolve]
        unfold Solver.resolve
        rw [show (Solver.new s).subst = s from rfl, alike]
      unfold Solver.peek at mem ⊢
      rwa [← resolve]
    refine ⟨steady, .of_steady steady (same ▸ safe.mono fewer) fun p work => ?_⟩
    rcases drawn.work p work with ⟨id, found⟩ | none | ⟨w, stored⟩
    · simp [Solver.new, Solver.prop?] at found
    · exact none.elim
    · exact (safe w p stored).mono fewer
  have spares {u : Solver} (kept : u.Guarded u) := Narrow.spares_fixpoint.of_guarded kept
  refine spared_runToSubst (K := K) (guarded.bind ?_) fun why u failed => ?_
  · rintro _ u ⟨steady, kept⟩
    refine (steady.fixpoint.leaves.and (spares kept).1).mono ?_
    rintro _ t ⟨ended, kept'⟩
    exact ⟨ended.1, _, kept'⟩
  · obtain ⟨a, t, run, whole⟩ | ⟨why', t, run, whole⟩ := Narrow.bind_cases (Narrow.reduce v d) (fun _ => Narrow.fixpoint) (Solver.new s)
    · exact (spares (guarded a t run).2).2 why u (whole.symm.trans failed)
    · cases whole.symm.trans failed
      exact Solver.not_overflow_of_reduce run

end Subst

end ConstraintLogic
