import ConstraintLogic.Proofs.Propagator.Rules
import ConstraintLogic.Proofs.Solver.Lockstep

/-!
# Propagators on any solver

A single run of a propagator can be judged on its own, whatever else the solver knows. All
that is asked of the solver is that its bindings lead to unbound variables, to integers or
to other terms, and that its domains are in their one form. A step then leaves the bindings
as they are, makes no domain larger and lets none run empty.

Results:
* `Relation.Accepts`: what a relation says, also for a table whose rows are too long.
* `Solver.Tidy`: what is asked of a solver; `Solver.Tidy.new`: it holds of a new one.
* `Selection`, `Solver.Working`: the assignments that a run has to keep, and its state.
* `Solver.Working.reduce`, `Solver.Working.replaceWith`, `Solver.Working.finish`: its steps.
-/

namespace ConstraintLogic

/-! ## Relations -/

namespace Relation

/-- The relation holds of the integers. The values of a row beyond the variables of its
    table do not count. -/
def Accepts (σ : Assignment) : Relation → Prop
  | table vs rows _ => ∃ row ∈ rows, vs.map σ <+: row
  | r => r.Holds σ

/-- Where the rows of a table are as long as its list of variables, nothing lies beyond. -/
theorem Proper.accepts_iff {r : Relation} (h : r.Proper) {σ : Assignment} : r.Accepts σ ↔ r.Holds σ := by
  cases r with
  | table vs rows origin =>
    constructor
    · rintro ⟨row, mem, fits⟩
      have : vs.map σ = row := fits.eq_of_length (by rw [List.length_map, (h row mem).1])
      rwa [← this] at mem
    · exact fun mem => ⟨_, mem, List.prefix_rfl⟩
  | _ => exact Iff.rfl

/-- Assignments that agree on the variables of the relation are alike to it. -/
theorem accepts_congr {σ τ : Assignment} {r : Relation} (h : ∀ v ∈ r.vars, σ v = τ v) :
    r.Accepts σ ↔ r.Accepts τ := by
  cases r with
  | table vs rows origin => simp only [Accepts, List.map_congr_left (l := vs) h]
  | _ => exact holds_congr h

end Relation

namespace Solver

variable {s t u : Solver} {v w : Var} {d : Domain} {id : PropId}

/-! ## Tidy solvers -/

/-- Every variable leads to an unbound one, to an integer or to another term, and the
    domains are in their one form. -/
structure Tidy (s : Solver) : Prop where
  root : ∀ v w, s.resolve v = .free w → s.resolve w = .free w
  canonical : ∀ v, (s.peek v).Canonical

/-- Acyclic bindings to terms with integers of 64 bits leave nothing else to ask for than
    domains in their one form. -/
theorem Tidy.of_acyclic (acyclic : s.subst.Acyclic) (sized : ∀ v t, s.subst.get? v = some t → t.Sized)
    (canonical : ∀ w, (s.current w).Canonical) : s.Tidy where
  root v w found := resolve_of_unbound (acyclic.get?_of_walk (resolve_eq_free_iff.mp found))
  canonical v := by
    unfold peek
    split
    · exact canonical _
    · rename_i n found
      rw [resolve_eq_value_iff] at found
      rcases s.subst.walk_eq_or_bound (.var v) with same | ⟨u, bound⟩
      · rw [same] at found
        cases found
      · rw [found] at bound
        exact canonical_singleton (sized u _ bound)
    · trivial

theorem Tidy.new {s : Subst} (acyclic : s.Acyclic) (sized : ∀ v t, s.get? v = some t → t.Sized)
    (canonical : ∀ v, (s.storedDomain v).Canonical) : (Solver.new s).Tidy :=
  .of_acyclic acyclic sized fun w => by
    rw [current_of_not_mem (by simp [Solver.new])]
    exact canonical w

theorem Tidy.isValue_of_mem (h : s.Tidy) (finite : s.peek v ≠ .unbounded) {n : Int} (mem : n ∈ s.peek v) :
    isValue n = true :=
  (h.canonical v).isValue_of_mem finite mem

theorem Tidy.eq_of_solution (h : s.Tidy) {n : Int} (only : (s.peek v).solution = some n) :
    isValue n = true ∧ ∀ m, m ∈ s.peek v ↔ m = n := by
  have finite : s.peek v ≠ .unbounded := by
    intro full
    rw [full] at only
    cases only
  exact ⟨h.isValue_of_mem finite ((h.canonical v).mem_of_solution only), (h.canonical v).solution_eq_some_iff.mp only⟩

/-! ## Loading -/

theorem grows_adopt (pending : List Var) (s : Solver) (p : Propagator) : s.Grows (adopt (pending, s) p).2 := by
  rw [adopt_eq]
  unfold intern
  cases s.interned[p.stamp]? with
  | some id => exact .refl s
  | none =>
    dsimp only
    refine List.foldlRecOn (motive := fun r : List Var × Solver => s.Grows r.2) _ _ (s.grows_enlist p) ?_
    rintro ⟨pending, t⟩ grows v _
    unfold adoptVar
    dsimp only
    split
    · exact grows.trans (t.grows_addSubscriber _ _)
    · exact grows

/-- What is loaded was known before. -/
theorem grows_loadAll (n : Nat) : ∀ (pending : List Var) (s : Solver), s.Grows (loadAll n pending s) := by
  induction n with
  | zero =>
    intro pending s
    unfold loadAll
    exact .refl s
  | succ n ih =>
    intro pending s
    cases pending with
    | nil =>
      unfold loadAll
      exact .refl s
    | cons v pending =>
      by_cases present : v ∈ s.domains
      · rw [loadAll_of_mem present]
        exact ih pending s
      · rw [loadAll_of_not_mem present]
        refine .trans ?_ (ih _ _)
        refine List.foldlRecOn (motive := fun r : List Var × Solver => s.Grows r.2) _ _ (grows_reveal present) ?_
        rintro ⟨pending, t⟩ grows p _
        exact grows.trans (grows_adopt pending t p)

theorem grows_load (s : Solver) (v : Var) : s.Grows (s.load v) ∧ v ∈ (s.load v).domains := by
  unfold load
  split
  · rename_i present
    exact ⟨.refl s, Std.ExtTreeMap.contains_iff_mem.mp present⟩
  · rename_i absent
    have absent : v ∉ s.domains := fun mem => absent (Std.ExtTreeMap.contains_iff_mem.mpr mem)
    refine ⟨grows_loadAll _ [v] s, ?_⟩
    rw [loadAll_of_not_mem absent]
    -- The first round loads the variable, and later rounds forget nothing.
    refine (grows_loadAll _ _ _).mem_domains ?_
    refine List.foldlRecOn (motive := fun r : List Var × Solver => v ∈ r.2.domains) _ _ (mem_reveal.mpr (.inl rfl)) ?_
    rintro ⟨pending, t⟩ mem p _
    exact (grows_adopt pending t p).mem_domains mem

/-- The domain that is answered is the one that was known, loaded or not. -/
theorem domain_spec (s : Solver) (v : Var) : (s.domain v).1 = s.peek v ∧ s.Grows (s.domain v).2 := by
  unfold domain
  cases found : s.resolve v with
  | free w =>
    obtain ⟨grows, loaded⟩ := s.grows_load w
    refine ⟨?_, grows⟩
    obtain ⟨e, at_w⟩ := mem_domains_iff.mp loaded
    rw [peek_of_free found, ← grows.current w, current_of_loaded at_w]
    dsimp only
    rw [at_w, Option.getD_some]
  | value n => exact ⟨by simp [peek, found], .refl s⟩
  | other => exact ⟨by simp [peek, found], .refl s⟩

/-! ## What changes -/

/-- Both solvers know the same of every variable. -/
structure Matches (s t : Solver) : Prop where
  resolve : t.resolve = s.resolve
  peek : t.peek = s.peek

theorem Matches.refl (s : Solver) : s.Matches s := ⟨rfl, rfl⟩

theorem Matches.trans (h : s.Matches t) (h' : t.Matches u) : s.Matches u :=
  ⟨h'.resolve.trans h.resolve, h'.peek.trans h.peek⟩

theorem Grows.matched (h : s.Grows t) : s.Matches t := ⟨h.resolve, funext h.peek⟩

theorem Matches.tidy (h : s.Matches t) (tidy : s.Tidy) : t.Tidy where
  root := by rw [h.resolve]; exact tidy.root
  canonical := by rw [h.peek]; exact tidy.canonical

/-- Bindings, stored and loaded domains are all that is known of the variables. -/
theorem matched_of_eq (bindings : t.subst.bindings = s.subst.bindings) (attrs : t.subst.attrs = s.subst.attrs)
    (domains : t.domains = s.domains) : s.Matches t := by
  have resolve := resolve_of_bindings bindings
  refine ⟨resolve, funext fun v => ?_⟩
  unfold peek current Subst.storedDomain Subst.attributes
  rw [resolve, attrs, domains]

/-- The variables stand for the same in the second solver, no domain is larger there, and
    none has run empty. -/
structure Contracts (s t : Solver) : Prop where
  resolve : t.resolve = s.resolve
  mem_peek : ∀ u n, n ∈ t.peek u → n ∈ s.peek u
  inhabited : ∀ u, (∃ n, n ∈ s.peek u) → ∃ n, n ∈ t.peek u

theorem Contracts.refl (s : Solver) : s.Contracts s := ⟨rfl, fun _ _ mem => mem, fun _ some => some⟩

theorem Contracts.trans (h : s.Contracts t) (h' : t.Contracts u) : s.Contracts u where
  resolve := h'.resolve.trans h.resolve
  mem_peek v n mem := h.mem_peek v n (h'.mem_peek v n mem)
  inhabited v some := h'.inhabited v (h.inhabited v some)

theorem Matches.contracts (h : s.Matches t) : s.Contracts t where
  resolve := h.resolve
  mem_peek := by rw [h.peek]; exact fun _ _ mem => mem
  inhabited := by rw [h.peek]; exact fun _ some => some

theorem Contracts.fits (h : s.Contracts t) {vs : List Var} {σ : Assignment} (fits : t.Fits vs σ) : s.Fits vs σ :=
  fits.of_peek h.resolve h.mem_peek

/-- What has a single value left keeps it. -/
theorem Contracts.peek_of_solution (h : s.Contracts t) (hs : s.Tidy) (ht : t.Tidy) {n : Int}
    (only : (s.peek v).solution = some n) : (t.peek v).solution = some n := by
  have alone := (hs.eq_of_solution only).2
  obtain ⟨m, mem⟩ := h.inhabited v ⟨n, (alone n).mpr rfl⟩
  refine (ht.canonical v).solution_eq_some_iff.mpr fun k => ⟨fun in_t => (alone k).mp (h.mem_peek v k in_t), ?_⟩
  rintro rfl
  rwa [← (alone m).mp (h.mem_peek v m mem)]

/-- The second solver has narrowed what `v` stands for to `d`, with a value left, and
    nothing else. -/
structure Cuts (v : Var) (d : Domain) (s t : Solver) : Prop where
  resolve : t.resolve = s.resolve
  mem_peek : ∀ u n, n ∈ t.peek u ↔ n ∈ s.peek u ∧ (s.sameVar u v = true → n ∈ d)
  left : ∀ n ∈ t.peek v, n ∈ d
  inhabited : ∃ n, n ∈ t.peek v

namespace Cuts

theorem contracts (h : Cuts v d s t) : s.Contracts t where
  resolve := h.resolve
  mem_peek u n mem := ((h.mem_peek u n).mp mem).1
  inhabited u := by
    rintro ⟨n, mem⟩
    by_cases same : s.sameVar u v = true
    · have : t.peek u = t.peek v := by
        unfold peek
        rw [h.resolve, resolve_of_sameVar same]
      rw [this]
      exact h.inhabited
    · exact ⟨n, (h.mem_peek u n).mpr ⟨mem, fun eq => absurd eq same⟩⟩

theorem mem_iff (h : Cuts v d s t) {n : Int} : n ∈ t.peek v ↔ n ∈ s.peek v ∧ n ∈ d :=
  ⟨fun mem => ⟨((h.mem_peek v n).mp mem).1, h.left n mem⟩, fun ⟨mem, in_d⟩ => (h.mem_peek v n).mpr ⟨mem, fun _ => in_d⟩⟩

/-- Other variables keep their domains. -/
theorem peek_of_apart (h : Cuts v d s t) (hs : s.Tidy) (ht : t.Tidy) (apart : s.sameVar w v = false) :
    t.peek w = s.peek w := by
  refine (ht.canonical w).ext (hs.canonical w) fun n => ?_
  rw [h.mem_peek, apart]
  simp

end Cuts

/-! ## Reducing -/

/-- Waking the subscribers of a variable changes nothing that is known. -/
theorem matched_excite (s : Solver) (w : Var) : s.Matches (s.excite w) ∧ (s.excite w).prop? = s.prop? := by
  obtain ⟨a, eq⟩ := s.excite_eq w
  rw [eq]
  exact ⟨matched_of_eq rfl rfl rfl, rfl⟩

theorem peek_narrowTo (s : Solver) (w : Var) (e : Domain) (u : Var) :
    (s.narrowTo w e).peek u = if s.resolve u = .free w then e else s.peek u := by
  have resolve : (s.narrowTo w e).resolve = s.resolve := resolve_congr rfl
  unfold Solver.peek
  rw [resolve]
  cases at_u : s.resolve u with
  | free x =>
    dsimp only
    rw [current_narrowTo]
    by_cases same : w = x
    · rw [if_pos same, if_pos (by rw [same])]
    · rw [if_neg same, if_neg (by simpa using Ne.symm same)]
  | value n => rw [if_neg (by simp)]
  | other => rw [if_neg (by simp)]

/-- An unbound variable gets another domain, of which no value is new. -/
theorem cuts_narrowTo {e : Domain} (tidy : s.Tidy) (found : s.resolve v = .free w)
    (canonical : e.Canonical) (mem : ∀ n, n ∈ e ↔ n ∈ s.peek v ∧ n ∈ d) (some_value : ∃ n, n ∈ e) :
    (s.narrowTo w e).Tidy ∧ Cuts v d s (s.narrowTo w e) := by
  have resolve : (s.narrowTo w e).resolve = s.resolve := resolve_congr rfl
  have peek := s.peek_narrowTo w e
  have same_iff (u : Var) : s.sameVar u v = true ↔ s.resolve u = .free w := by
    rw [sameVar_iff, found]
    constructor
    · rintro ⟨x, at_u, at_v⟩
      cases at_v
      exact at_u
    · exact fun at_u => ⟨w, at_u, rfl⟩
  have same_peek {u : Var} (at_u : s.resolve u = .free w) : s.peek u = s.peek v := by
    rw [peek_of_free at_u, peek_of_free found]
  refine ⟨⟨by rw [resolve]; exact tidy.root, fun u => ?_⟩, resolve, fun u n => ?_, fun n in_v => ?_, ?_⟩
  · rw [peek]
    split
    · exact canonical
    · exact tidy.canonical u
  · rw [peek, same_iff]
    split
    · rename_i at_u
      rw [mem, same_peek at_u]
      simp [at_u]
    · rename_i other
      simp [other]
  · rw [peek, if_pos found] at in_v
    exact ((mem n).mp in_v).2
  · rw [peek, if_pos found]
    exact some_value

/-- A variable all of whose values belong to the domain stays as it is. -/
theorem cuts_self (within : ∀ n ∈ s.peek v, n ∈ d) (some_value : ∃ n, n ∈ s.peek v) : Cuts v d s s where
  resolve := rfl
  mem_peek u n := by
    refine ⟨fun mem => ⟨mem, fun same => within n ?_⟩, And.left⟩
    have : s.peek u = s.peek v := by
      unfold peek
      rw [resolve_of_sameVar same]
    rwa [← this]
  left := within
  inhabited := some_value

theorem Matches.cuts (h : s.Matches t) (cuts : Cuts v d t u) : Cuts v d s u where
  resolve := cuts.resolve.trans h.resolve
  mem_peek x n := by rw [cuts.mem_peek, h.peek, sameVar_congr h.resolve]
  left := cuts.left
  inhabited := cuts.inhabited

theorem Cuts.matched (h : Cuts v d s t) (same : t.Matches u) : Cuts v d s u where
  resolve := same.resolve.trans h.resolve
  mem_peek x n := by rw [same.peek, h.mem_peek]
  left := by rw [same.peek]; exact h.left
  inhabited := by rw [same.peek]; exact h.inhabited

/-- Reducing a domain keeps the values that belong to the other one, and is a conflict only
    if there are none. -/
theorem Tidy.reduce {M : (Var → Term) → Prop} (tidy : s.Tidy) (canonical : d.Canonical)
    (survives : ∀ θ, M θ → integers θ v ∈ s.peek v ∧ integers θ v ∈ d) :
    Narrow.Ensures M s (Narrow.reduce v d) fun _ t =>
      t.Tidy ∧ Cuts v d s t ∧ ∀ j p, s.prop? j = some p → t.prop? j = some p := by
  unfold Narrow.Ensures
  rw [reduce_eq]
  cases found : s.resolve v with
  | value n =>
    have peek : s.peek v = .singleton n := by simp [peek, found]
    refine Narrow.ensures_require (M := M) (s := s) (Q := fun _ t => t.Tidy ∧ Cuts v d s t ∧ _)
      (fun mem => ⟨tidy, cuts_self ?_ ?_, fun _ _ => id⟩) fun out θ model => ?_
    · intro m in_v
      rw [peek, Domain.mem_singleton] at in_v
      exact in_v ▸ mem
    · exact ⟨n, by rw [peek]; exact Domain.mem_singleton.mpr rfl⟩
    · obtain ⟨in_v, in_d⟩ := survives θ model
      rw [peek, Domain.mem_singleton] at in_v
      rw [in_v, Domain.mem_iff_contains, out] at in_d
      cases in_d
  | other =>
    intro θ model
    have := (survives θ model).1
    simp [peek, found] at this
  | free w =>
    have root := tidy.root v w found
    obtain ⟨eq, grows⟩ := s.domain_spec w
    have same := grows.matched
    have tidy' := same.tidy tidy
    have peek_v : s.peek w = s.peek v := by rw [peek_of_free root, peek_of_free found]
    have mem (n : Int) := Domain.mem_intersect (n := n) (tidy.canonical v) canonical
    have next := Domain.canonical_intersect (tidy.canonical v) canonical
    dsimp only
    rw [eq, peek_v]
    generalize (s.domain w).2 = t at *
    by_cases none_left : ((s.peek v).intersect d).isEmpty = true
    · rw [if_pos none_left]
      intro θ model
      have both := (mem _).mpr (survives θ model)
      rw [Domain.isEmpty_iff.mp none_left] at both
      exact Domain.not_mem_empty _ both
    rw [if_neg none_left]
    have some_value := next.exists_mem (by simpa using none_left)
    by_cases unchanged : (s.peek v).intersect d = s.peek v
    · rw [if_pos unchanged]
      refine ⟨tidy', same.cuts (cuts_self (fun n in_v => ?_) ?_), grows.props⟩
      · rw [same.peek, ← unchanged] at in_v
        exact ((mem n).mp in_v).2
      · rw [same.peek, ← unchanged]
        exact some_value
    · rw [if_neg unchanged]
      obtain ⟨narrowed, cuts⟩ := cuts_narrowTo (d := d) tidy' (by rw [same.resolve]; exact found) next
        (fun n => by rw [mem, same.peek]) some_value
      obtain ⟨woken, props⟩ := (t.narrowTo w ((s.peek v).intersect d)).matched_excite w
      refine ⟨woken.tidy narrowed, same.cuts (cuts.matched woken), fun j p at_j => ?_⟩
      change ((t.narrowTo w ((s.peek v).intersect d)).excite w).prop? j = _
      rw [props]
      exact grows.props j p at_j

/-! ## Steps -/

/-- The property is kept by all that a run of a propagator does to a solver: loading variables,
    narrowing those in `P`, subscribing, and going on as another relation. -/
structure Steps (P : Var → Prop) (id : PropId) (J : Solver → Prop) : Prop where
  domain : ∀ s v, J s → J (s.domain v).2
  narrow : ∀ s v w d, J s → s.Tidy → P v → s.resolve v = .free w → w ∈ s.domains → d.Canonical →
    (∀ n ∈ d, n ∈ s.current w) → d ≠ s.current w → J ((s.narrowTo w d).excite w)
  subscribe : ∀ s v, J s → J (s.subscribe id v)
  replace : ∀ s r, J s → r.Sized → (∀ v ∈ r.vars, P v) → Narrow.Leaves s (Narrow.replaceWith id r) fun _ t => J t

namespace Steps

variable {P : Var → Prop} {J : Solver → Prop}

/-- Nothing needs to be kept. -/
theorem nothing : Steps P id fun _ => True :=
  ⟨fun _ _ _ => trivial, fun _ _ _ _ _ _ _ _ _ _ _ _ => trivial, fun _ _ _ => trivial, fun _ _ _ _ _ _ _ _ => trivial⟩

theorem reduce (steps : Steps P id J) (holds : J s) (tidy : s.Tidy) (named : P v) (canonical : d.Canonical) :
    Narrow.Leaves s (Narrow.reduce v d) fun _ t => J t := by
  unfold Narrow.Leaves
  rw [reduce_eq]
  cases found : s.resolve v with
  | value n => exact Narrow.leaves_require fun _ => holds
  | other => exact Narrow.leaves_throw
  | free w =>
    have root := tidy.root v w found
    obtain ⟨eq, grows⟩ := s.domain_spec w
    have asked := steps.domain s w holds
    have loaded : w ∈ (s.domain w).2.domains := by
      unfold Solver.domain
      rw [root]
      exact (s.grows_load w).2
    have current : (s.domain w).2.current w = s.peek w := by rw [grows.current, peek_of_free root]
    have mem (n : Int) := Domain.mem_intersect (n := n) (tidy.canonical w) canonical
    dsimp only
    rw [eq]
    split
    · exact Narrow.leaves_throw
    split
    · exact Narrow.Leaves.pure asked
    · rename_i differ
      intro _ _ run
      cases run
      refine steps.narrow _ v w _ asked (grows.matched.tidy tidy) named (by rw [grows.resolve, found]) loaded
        (Domain.canonical_intersect (tidy.canonical w) canonical) (fun n in_next => ?_) ?_
      · rw [current]
        exact ((mem n).mp in_next).1
      · rwa [current]

theorem resubscribe (steps : Steps P id J) (vs : List Var) : ∀ s : Solver, J s → J (s.resubscribe id vs) := by
  induction vs with
  | nil => exact fun _ holds => holds
  | cons v vs ih =>
    intro s holds
    have asked := steps.domain s v holds
    refine ih _ ?_
    dsimp only
    split
    · exact asked
    · exact steps.subscribe _ v asked

end Steps

end Solver

/-! ## Runs -/

/-- What a run is judged by: the variables that it may look at, the assignments that it has to
    keep, and what else is known of the solver meanwhile. -/
structure Selection where
  /-- The variables that the run may look at. -/
  vars : Var → Prop
  /-- The assignments that it has to keep. -/
  kept : Assignment → Prop
  /-- A property that all steps of the run keep. -/
  frame : Solver → Prop

/-- The readings that give the variables integers that are kept. -/
def Selection.models (S : Selection) : (Var → Term) → Prop := fun θ => S.kept (integers θ)

namespace Solver

variable {S : Selection} {s t : Solver} {id : PropId} {r q : Relation} {v w : Var} {d : Domain} {σ : Assignment}

/-- The integers fit the domains of all variables in `P`. -/
def Suits (s : Solver) (P : Var → Prop) (σ : Assignment) : Prop := ∀ vs, (∀ v ∈ vs, P v) → s.Fits vs σ

theorem Contracts.suits (h : s.Contracts t) {P : Var → Prop} (suits : t.Suits P σ) : s.Suits P σ :=
  fun vs all => h.fits (suits vs all)

theorem Matches.suits_iff (h : s.Matches t) {P : Var → Prop} : t.Suits P σ ↔ s.Suits P σ := by
  refine ⟨h.contracts.suits, fun suits vs all => (suits vs all).of_peek h.resolve.symm fun v n mem => ?_⟩
  rwa [h.peek]

/-- The propagator with the number is one for `r`, and the assignments that are kept are
    those that fit the domains and satisfy `r`. -/
structure Working (S : Selection) (id : PropId) (r : Relation) (s : Solver) : Prop where
  tidy : s.Tidy
  slot : ∃ n, s.prop? id = some ⟨n, r⟩
  sized : r.Sized
  named : ∀ v ∈ r.vars, S.vars v
  closed : ∀ v w, S.vars v → s.resolve w = s.resolve v → S.vars w
  exact : ∀ σ, S.kept σ ↔ s.Suits S.vars σ ∧ r.Accepts σ
  steps : Steps S.vars id S.frame
  framed : S.frame s

/-- A run is over: the propagator has a relation that says the same as before, and unless it
    subscribes to an unbound variable of that, the relation is entailed. -/
def Finished (S : Selection) (id : PropId) (t : Solver) : Prop :=
  ∃ q, t.Working S id q ∧
    ((∀ v ∈ q.vars, ∀ w, t.resolve v = .free w → id ∉ t.subscribersOf w) → ∀ σ, t.Fits q.vars σ → q.Accepts σ)

namespace Working

theorem suits (h : s.Working S id r) (kept : S.kept σ) : s.Suits S.vars σ := ((h.exact σ).mp kept).1

theorem accepts (h : s.Working S id r) (kept : S.kept σ) : r.Accepts σ := ((h.exact σ).mp kept).2

theorem fits (h : s.Working S id r) (kept : S.kept σ) : s.Fits r.vars σ := h.suits kept _ h.named

theorem mem_peek (h : s.Working S id r) (named : S.vars v) (kept : S.kept σ) : σ v ∈ s.peek v :=
  (h.suits kept [v] (by simpa using named)).mem v (by simp)

theorem value (h : s.Working S id r) (named : S.vars v) (kept : S.kept σ) : isValue (σ v) = true :=
  (h.suits kept [v] (by simpa using named)).value v (by simp)

theorem alike (h : s.Working S id r) (named : S.vars v) (named' : S.vars w) (kept : S.kept σ)
    (same : s.resolve v = s.resolve w) : σ v = σ w :=
  (h.suits kept [v, w] (by simp [named, named'])).alike v (by simp) w (by simp) same

/-- Where nothing else is known of the variables, the run goes on. -/
theorem matched (h : s.Working S id r) (same : s.Matches t) (props : ∀ j p, s.prop? j = some p → t.prop? j = some p)
    (framed : S.frame t) : t.Working S id r where
  tidy := same.tidy h.tidy
  slot := h.slot.imp fun n found => props id _ found
  sized := h.sized
  named := h.named
  closed := by rw [same.resolve]; exact h.closed
  exact σ := by rw [h.exact, same.suits_iff]
  steps := h.steps
  framed := framed

/-! ## Steps of a run -/

theorem domain {α : Type} {f : Domain → Narrow α} {Q : α → Solver → Prop} (h : s.Working S id r) (v : Var)
    (next : ∀ t, t.Working S id r → s.Matches t → Narrow.Ensures S.models t (f (t.peek v)) Q) :
    Narrow.Ensures S.models s (Narrow.domain v >>= f) Q := by
  obtain ⟨eq, grows⟩ := s.domain_spec v
  have same := grows.matched
  refine Narrow.Ensures.step (a := s.peek v) (t := (s.domain v).2) ?_ ?_
  · change EStateM.Result.ok (s.domain v).1 (s.domain v).2 = _
    rw [eq]
  · rw [← same.peek]
    exact next _ (h.matched same grows.props (h.steps.domain s v h.framed)) same

/-- A step that every kept assignment survives reduces a domain. -/
theorem reduce (h : s.Working S id r) (named : S.vars v) (canonical : d.Canonical)
    (survives : ∀ σ, S.kept σ → σ v ∈ d) :
    Narrow.Ensures S.models s (Narrow.reduce v d) fun _ t => t.Working S id r ∧ Cuts v d s t := by
  refine ((h.tidy.reduce canonical fun θ model => ⟨h.mem_peek named model, survives _ model⟩).and
    (h.steps.reduce h.framed h.tidy named canonical)).mono ?_
  rintro _ t ⟨⟨tidy, cuts, props⟩, framed⟩
  refine ⟨⟨tidy, h.slot.imp fun n found => props id _ found, h.sized, h.named, by rw [cuts.resolve]; exact h.closed,
    fun σ => ?_, h.steps, framed⟩, cuts⟩
  rw [h.exact]
  refine ⟨fun ⟨suits, accepts⟩ => ⟨fun vs all => ?_, accepts⟩, fun ⟨suits, accepts⟩ => ⟨cuts.contracts.suits suits, accepts⟩⟩
  have kept := (h.exact σ).mpr ⟨suits, accepts⟩
  have fits := suits vs all
  refine ⟨fun u mem => (cuts.mem_peek u _).mpr ⟨fits.mem u mem, fun same => ?_⟩, fits.value, ?_⟩
  · rw [h.alike (all u mem) named kept (resolve_of_sameVar same)]
    exact survives σ kept
  · rw [cuts.resolve]
    exact fits.alike

/-- A relation may be replaced by one that says the same within the domains. -/
theorem replaceWith (h : s.Working S id r) (sized : q.Sized) (named : ∀ v ∈ q.vars, S.vars v)
    (same : ∀ σ, s.Suits S.vars σ → (q.Accepts σ ↔ r.Accepts σ)) :
    Narrow.Ensures S.models s (Narrow.replaceWith id q) fun _ t => t.Working S id q ∧ s.Matches t := by
  obtain ⟨t, run, bindings, attrs, domains, -, -, -, this⟩ := s.replaceWith_spec id q
  have framed := h.steps.replace s q h.framed sized named () t run
  unfold Narrow.Ensures
  rw [run]
  have matched := matched_of_eq bindings attrs domains
  obtain ⟨n, found⟩ := h.slot
  rw [found, Option.map_some, Option.map_eq_some_iff] at this
  obtain ⟨p, at_id, rfl⟩ := this
  refine ⟨⟨matched.tidy h.tidy, ⟨p.stamp, at_id⟩, sized, named, by rw [matched.resolve]; exact h.closed, fun σ => ?_,
    h.steps, framed⟩, matched⟩
  rw [h.exact, matched.suits_iff]
  exact and_congr_right fun suits => (same σ suits).symm

/-- A relation that the domains entail may be left. -/
theorem finished (h : s.Working S id r) (entailed : ∀ σ, s.Fits r.vars σ → r.Accepts σ) : s.Finished S id :=
  ⟨r, h, fun _ => entailed⟩

end Working

/-- Subscribing again leaves everything known, and subscribes to the variables that have no
    value yet. -/
theorem grows_resubscribe (id : PropId) (vs : List Var) : ∀ s : Solver, s.Grows (s.resubscribe id vs) ∧
    ∀ v ∈ vs, ∀ w, s.resolve v = .free w → (s.peek v).solution = none → id ∈ (s.resubscribe id vs).subscribersOf w := by
  induction vs with
  | nil => exact fun s => ⟨.refl s, by simp⟩
  | cons v vs ih =>
    intro s
    obtain ⟨eq, grows⟩ := s.domain_spec v
    have eq' : s.resubscribe id (v :: vs) =
        (if (s.domain v).1.hasSolution then (s.domain v).2 else (s.domain v).2.subscribe id v).resubscribe id vs := rfl
    rw [eq', eq]
    generalize (s.domain v).2 = t at grows
    have first : s.Grows (if (s.peek v).hasSolution then t else t.subscribe id v) := by
      split
      · exact grows
      · unfold subscribe
        split
        · exact (grows.trans (t.grows_load _).1).trans (grows_addSubscriber _ _ _)
        · exact grows
    obtain ⟨more, subscribed⟩ := ih (if (s.peek v).hasSolution then t else t.subscribe id v)
    refine ⟨first.trans more, fun u mem w free no_value => ?_⟩
    rcases List.mem_cons.mp mem with rfl | mem
    · refine more.subscribers w id ?_
      have free' : t.resolve u = .free w := by rw [grows.resolve, free]
      rw [if_neg (by simp [Domain.hasSolution, no_value])]
      simp only [subscribe, free']
      exact mem_subscribersOf_addSubscriber.mpr (.inr ⟨rfl, rfl⟩)
    · exact subscribed u mem w (by rw [first.resolve, free]) (by rw [first.peek, no_value])

/-- A run ends with its subscriptions. If all of the variables have their values, the
    relation has to be entailed. -/
theorem Working.finish (h : s.Working S id r) (vs : List Var) (covers : ∀ v ∈ vs, s.Names r v)
    (ground : (∀ v ∈ vs, ∀ w, s.resolve v = .free w → ∃ n, (s.peek v).solution = some n) →
      ∀ σ, s.Fits r.vars σ → r.Accepts σ) :
    Narrow.Ensures S.models s (Narrow.resubscribe id vs) fun _ t => t.Finished S id ∧ s.Matches t := by
  obtain ⟨grows, subscribed⟩ := s.grows_resubscribe id vs
  have same := grows.matched
  change (s.resubscribe id vs).Finished S id ∧ s.Matches (s.resubscribe id vs)
  refine ⟨⟨r, h.matched same grows.props (h.steps.resubscribe vs s h.framed), fun silent σ fits => ?_⟩, same⟩
  refine ground (fun v mem w free => ?_) σ (same.contracts.fits fits)
  obtain ⟨u, in_r, alike⟩ := covers v mem
  by_contra no_value
  have no_value : (s.peek v).solution = none := by
    rw [Option.eq_none_iff_forall_ne_some]
    exact fun n only => no_value ⟨n, only⟩
  exact silent u in_r w (by rw [same.resolve, alike, free]) (subscribed v mem w free no_value)

end Solver

end ConstraintLogic
