import ConstraintLogic.Proofs.Labeling.Integrality
import ConstraintLogic.Proofs.Subst.WellFormed

/-!
# Labeling partitions

The answers of labeling partition the models of the substitution that is labeled. Any two
of them give different integers to one of the labeled variables: the one that was split
where the ways to the two answers part.

Results:
* `Solver.Bounds`: what a state between two splits says of an answer.
* `Solver.Poised.differ`: two answers give different integers to a labeled variable.
* `Subst.Partition`: the answers of labeling.
* `Subst.Produced.label_partitions`: labeling partitions the models.
-/

namespace ConstraintLogic

namespace Solver

variable {K : Scope} {s u : Solver} {t : Subst} {vs : List Var} {v : Var} {I : Interp Task Goal Subst}

/-! ## Answers that differ -/

/-- The answer leaves to the variables no other values than the solver; no variable that
    stands for an integer or a variable stands for another term, and no labeled one has a
    finite domain any more. -/
structure Bounds (vs : List Var) (s : Solver) (t : Subst) : Prop where
  smaller : ∀ v n, n ∈ t.leaves v → n ∈ s.peek v
  proper : ∀ v, s.resolve v ≠ .other → (Solver.new t).resolve v ≠ .other
  settled : ∀ v ∈ vs, ∀ w, t.walk (.var v) = .var w → t.storedDomain w = .unbounded

theorem Bounds.of_shrinks (h : u.Bounds vs t) (shrinks : s.Shrinks u) : s.Bounds vs t :=
  ⟨fun v n mem => shrinks.mem_peek v n (h.smaller v n mem),
    fun v proper => h.proper v (by rwa [shrinks.resolve]), h.settled⟩

/-- What is written back where labeling is done. -/
theorem Poised.bounds (h : s.Poised K vs) (settled : ∀ v ∈ vs, s.Settled v) (back : s.WrittenBack t) :
    s.Bounds vs t := by
  refine ⟨fun v n => back.mem_peek h.steady, fun v proper other => ?_, fun v mem w leads => ?_⟩
  · have resolves := resolve_of_extends (s := s) (t := Solver.new t) back.acyclic back.extends_ v
    rw [other] at resolves
    cases found : s.resolve v with
    | other => exact proper found
    | value n =>
      rw [found] at resolves
      cases resolves
    | free w =>
      rcases back.resolve_of_free h.steady found with ⟨_, n, _, _, value⟩ | ⟨_, free⟩
      · cases other.symm.trans value
      · cases other.symm.trans free
  · exact Subst.settled_of_writtenBack h back mem (settled v mem) leads

/-- A labeled variable that has been left with a finite domain has a value from it. -/
theorem Bounds.exists_value (h : s.Bounds vs t) (mem : v ∈ vs) (proper : s.resolve v ≠ .other) {d : Domain}
    (canonical : d.Canonical) (finite : d ≠ .unbounded) (within : ∀ n ∈ s.peek v, n ∈ d) :
    ∃ n ∈ d, t.walk (.var v) = .int n := by
  have left (n : Int) (here : n ∈ t.leaves v) : n ∈ d := within n (h.smaller v n here)
  cases found : (Solver.new t).resolve v with
  | other => exact absurd found (h.proper v proper)
  | value n =>
    refine ⟨n, left n ?_, resolve_eq_value_iff.mp found⟩
    simp [Subst.leaves, peek, found]
  | free w =>
    have leads : t.walk (.var v) = .var w := resolve_eq_free_iff.mp found
    obtain ⟨n, out⟩ := canonical.not_all finite
    refine absurd (left n ?_) out
    rw [Subst.leaves_of_walk leads, h.settled v mem w leads]
    exact Domain.mem_unbounded n

end Solver

/-- The two substitutions give different integers to one of the variables. -/
def Subst.DifferOn (vs : List Var) (t u : Subst) : Prop :=
  ∃ v ∈ vs, ∃ m n, t.walk (.var v) = .int m ∧ u.walk (.var v) = .int n ∧ m ≠ n

theorem Subst.DifferOn.symm {vs : List Var} {t u : Subst} (h : t.DifferOn vs u) : u.DifferOn vs t := by
  obtain ⟨v, mem, m, n, at_v, at_v', differ⟩ := h
  exact ⟨v, mem, n, m, at_v', at_v, differ.symm⟩

namespace Solver

variable {K : Scope} {s u : Solver} {t : Subst} {vs : List Var} {v : Var} {I : Interp Task Goal Subst}

/-- Answers from the two halves of a domain differ. -/
theorem Halves.differ {w : Var} {left right : Domain} {t t' : Subst} {s s' : Solver} (halves : u.Halves w left right)
    (mem : v ∈ vs) (bounds : s.Bounds vs t) (bounds' : s'.Bounds vs t') (leads : s.resolve v = .free w)
    (leads' : s'.resolve v = .free w) (within : ∀ n ∈ s.current w, n ∈ left)
    (within' : ∀ n ∈ s'.current w, n ∈ right) : Subst.DifferOn vs t t' := by
  obtain ⟨m, in_left, at_v⟩ := bounds.exists_value mem (by simp [leads]) halves.canonical.1 halves.finite.1
    (by rwa [peek_of_free leads])
  obtain ⟨n, in_right, at_v'⟩ := bounds'.exists_value mem (by simp [leads']) halves.canonical.2 halves.finite.2
    (by rwa [peek_of_free leads'])
  exact ⟨v, mem, m, n, at_v, at_v', fun same => halves.apart m in_left (same ▸ in_right)⟩

/-- The answers that the tree of splits shows are bounded by the solver, and any two of
    them differ. -/
theorem Poised.differ (explores : ∀ s v half us, I.start (.explore s v half us) = s.explore v half us) (n : Nat) :
    ∀ s : Solver, s.Poised K vs → (vs.map fun v => (s.peek v).room).sum < n →
      ∃ ts out, Series.PlaysOut I (s.search vs) ts out ∧ (∀ t ∈ ts, s.Bounds vs t) ∧
        (out = none → ts.Pairwise (Subst.DifferOn vs)) := by
  induction n with
  | zero => exact fun s _ few => absurd few (Nat.not_lt_zero _)
  | succ n ih =>
    intro s poised few
    rcases poised.search_cases with ⟨eq, settled⟩ | ⟨v, mem, w, left, right, leads, split, halves, eq⟩
    · obtain ⟨t, written, back⟩ := toSubst?_spec poised.steady
      rw [eq, written]
      exact ⟨[t], none, ⟨1, .element .ended⟩, List.forall_mem_singleton.mpr (poised.bounds settled back),
        fun _ => List.pairwise_singleton _ _⟩
    · -- What one half shows, unless it is in conflict, comes from a state that has just its values.
      have half {d : Domain} (canonical : d.Canonical) (finite : d ≠ .unbounded)
          (proper : ∃ n ∈ s.current w, n ∉ d) :
          ∃ k ts out, Series.Plays I k (.suspend (.start (.explore s w d vs))) ts out ∧
            (∀ t ∈ ts, ∃ u : Solver, s.Shrinks u ∧ u.Bounds vs t ∧ ∀ n ∈ u.current w, n ∈ d) ∧
            (out = none → ts.Pairwise (Subst.DifferOn vs)) := by
        have run : (Work.start (.explore s w d vs) : Work Task Goal Subst).run I = s.explore w d vs := by
          rw [Work.run, explores]
        have shown {ts : List Subst} {out : Option Stop} (plays : Series.PlaysOut I (s.explore w d vs) ts out) :
            ∃ k, Series.Plays I k (.suspend (.start (.explore s w d vs))) ts out :=
          Series.PlaysOut.suspend (run ▸ plays)
        have narrowed := poised.narrow w canonical finite
        unfold Narrow.Ensures at narrowed
        rw [explore_eq] at shown
        split at narrowed
        · rename_i u ended
          obtain ⟨poised', shrinks, left, _⟩ := narrowed
          rw [ended] at shown
          have less := poised.room_lt poised' shrinks mem leads left proper
          obtain ⟨ts, out, plays, bounds, differ⟩ := ih u poised' (by omega)
          obtain ⟨k, plays⟩ := shown plays
          refine ⟨k, ts, out, plays, fun t in_ts => ⟨u, shrinks, bounds t in_ts, fun n here => left n ?_⟩, differ⟩
          rwa [peek_of_free (by rw [shrinks.resolve, split.free])]
        · rename_i ended
          rw [ended] at shown
          obtain ⟨k, plays⟩ := shown ⟨0, .ended⟩
          exact ⟨k, [], none, plays, by simp, fun _ => .nil⟩
        · rename_i f _ ended
          rw [ended] at shown
          obtain ⟨k, plays⟩ := shown ⟨rfl, rfl⟩
          exact ⟨k, [], some (.fault f), plays, by simp, fun ended => by cases ended⟩
        · exact narrowed.elim
      obtain ⟨_, ts, out, plays, from_left, differ⟩ := half halves.canonical.1 halves.finite.1 halves.proper.1
      obtain ⟨_, ts', out', plays', from_right, differ'⟩ := half halves.canonical.2 halves.finite.2 halves.proper.2
      obtain ⟨k, cs, d, whole, joins⟩ := plays.append plays'
      rw [eq]
      refine ⟨cs, d, ⟨k, whole⟩, fun t in_cs => ?_, fun ended => ?_⟩
      · rcases joins.subset t in_cs with here | here
        · obtain ⟨u, shrinks, bounds, _⟩ := from_left t here
          exact bounds.of_shrinks shrinks
        · obtain ⟨u, shrinks, bounds, _⟩ := from_right t here
          exact bounds.of_shrinks shrinks
      · obtain ⟨ended, ended', perm⟩ := joins.ends ended
        refine (perm.symm.pairwise_iff fun differ => differ.symm).mp ?_
        refine List.pairwise_append.mpr ⟨differ ended, differ' ended', fun t in_ts t' in_ts' => ?_⟩
        obtain ⟨u, shrinks, bounds, within⟩ := from_left t in_ts
        obtain ⟨u', shrinks', bounds', within'⟩ := from_right t' in_ts'
        exact halves.differ mem bounds bounds' (by rw [shrinks.resolve, leads]) (by rw [shrinks'.resolve, leads])
          within within'

end Solver

namespace Subst

variable {s t : Subst} {vs : List Var} {K : Scope}

/-! ## Partitions -/

/-- The reading is a model of the substitution and gives integers to the variables. What
    has a domain or is in a stored propagator is an integer in any model. -/
def ModelsOn (s : Subst) (vs : List Var) (θ : Var → Term) : Prop := s.Models θ ∧ ∀ v ∈ vs, (θ v).IsValue

/-- Each model of the substitution is a model of just one of the answers, and their models
    are models of the substitution. In each answer each of the variables has an integer, or
    stands for an unbound variable without finite domain, and two answers give different
    integers to one of the variables. -/
structure Partition (s : Subst) (vs : List Var) (ts : List Subst) : Prop where
  covers : ∀ θ, s.ModelsOn vs θ → ∃! i : Fin ts.length, ts[i].ModelsOn vs θ
  within : ∀ t ∈ ts, ∀ θ, t.ModelsOn vs θ → s.ModelsOn vs θ
  settled : ∀ t ∈ ts, ∀ v ∈ vs, (∃ n, t.walk (.var v) = .int n) ∨
    ∃ w, t.walk (.var v) = .var w ∧ t.get? w = none ∧ t.storedDomain w = .unbounded
  differ : ts.Pairwise (DifferOn vs)

theorem existsUnique_of_pairwise {α : Type} {P : α → Prop} {ts : List α}
    (apart : ts.Pairwise fun t u => P t → ¬P u) (some_holds : ∃ t ∈ ts, P t) :
    ∃! i : Fin ts.length, P ts[i] := by
  obtain ⟨t, mem, holds⟩ := some_holds
  obtain ⟨i, less, rfl⟩ := List.getElem_of_mem mem
  refine ⟨⟨i, less⟩, holds, fun j also => ?_⟩
  have apart' := List.pairwise_iff_getElem.mp apart
  rcases Nat.lt_trichotomy i j with before | same | after
  · exact absurd also (apart' i j less j.isLt before holds)
  · exact Fin.ext same.symm
  · exact absurd holds (apart' j i j.isLt less after also)

/-- In an answer of labeling no labeled variable stands for another term than an integer
    or a variable. -/
theorem Orderly.proper_of_label {solver : Solver} (h : s.Orderly K) (complete : s.Complete)
    (integral : ∀ v ∈ vs, s.Integral K v)
    (started : (do Solver.requireNonempty vs; modify Solver.wakeAll; Narrow.fixpoint : Narrow Unit)
      (Solver.new s) = .ok () solver)
    (leaf : solver.Leaf vs t) : ∀ v ∈ vs, (Solver.new t).resolve v ≠ .other := by
  obtain ⟨u, poised, proper, settled, written⟩ := h.lasting_of_label complete
    (Solver.lasting_resolve K fun resolve => ∀ v ∈ vs, resolve v ≠ .other) (fun m awake => awake.proper)
    integral started leaf
  obtain ⟨t', written', back⟩ := Solver.toSubst?_spec poised.steady
  cases written.symm.trans written'
  exact fun v mem => (poised.bounds settled back).proper v (proper v mem)

/-- The answers of labeling differ. -/
theorem Orderly.differ_of_label {I : Interp Task Goal Subst} {ts : List Subst} (h : s.Orderly K)
    (integral : ∀ v ∈ vs, s.Integral K v)
    (explores : ∀ s v half us, I.start (.explore s v half us) = s.explore v half us)
    (plays : Series.PlaysOut I (s.label vs) ts none) : ts.Pairwise (DifferOn vs) := by
  have started := h.starts integral
  rw [label_eq] at plays
  unfold Narrow.Ensures at started
  split at started
  · rename_i solver run
    rw [run] at plays
    obtain ⟨ts', out, plays', _, differ⟩ := Solver.Poised.differ explores _ solver started.1 (Nat.lt_succ_self _)
    obtain ⟨rfl, rfl⟩ := plays.unique plays'
    exact differ rfl
  · rename_i run
    rw [run] at plays
    obtain ⟨_, plays⟩ := plays
    cases plays
    exact .nil
  · rename_i run
    rw [run] at plays
    cases plays.2
  · exact started.elim

/-- Each answer of labeling is written back at a leaf of the tree of splits. -/
theorem leaf_of_plays {program : Program} {allowance : Nat} {ts : List Subst} {out : Option Stop}
    (plays : Series.PlaysOut (program.context allowance).interp (s.label vs) ts out) (mem : t ∈ ts) :
    ∃ solver : Solver, (do Solver.requireNonempty vs; modify Solver.wakeAll; Narrow.fixpoint : Narrow Unit)
      (Solver.new s) = .ok () solver ∧ solver.Leaf vs t := by
  cases applied : s.label vs with
  | error why =>
    rw [applied] at plays
    rw [plays.1] at mem
    cases mem
  | ok answers =>
    rw [applied] at plays
    obtain ⟨n, plays⟩ := plays
    have yields : (Goal.label vs).Yields program s t :=
      Goal.yields_of_reaches (n := allowance) applied (plays.reaches mem)
    cases yields with
    | label started leaf => exact ⟨_, started, leaf⟩

/-- The scope in which the readings without variables count that give integers to the
    labeled variables and to those that the substitution mentions. -/
def labelScope (s : Subst) (vs : List Var) : Scope := .ground (fun v => v ∈ vs ∨ s.Mentions v) fun _ => False

/-- The models that count are those that give integers to the labeled variables, where
    these give integers to what the substitution mentions. -/
theorem modelsOn_iff {θ : Var → Term} (values : t.Models θ → ∀ v, s.Mentions v → (θ v).IsValue) :
    t.ModelsOn vs θ ↔ (s.labelScope vs).readings θ ∧ t.Admits θ := by
  refine Iff.trans ?_ models_and_ints_iff
  refine and_congr_right fun model => ⟨fun ints v counted => counted.elim (ints v) (values model v), ?_⟩
  exact fun ints v mem => ints v (.inl mem)

theorem Produced.orderly_label (h : s.Produced) (vs : List Var) : s.Orderly (s.labelScope vs) := by
  refine h.orderly.rescope (fun _ => False.elim) ?_ (fun _ => False.elim) fun _ _ => False.elim
  rintro p (known | ⟨w, stored⟩) v mem θ reading _
  · exact known.elim
  · exact reading.2 v (.inr (.inr ⟨w, p, stored, mem⟩))

theorem integral_label {v : Var} (mem : v ∈ vs) : s.Integral (s.labelScope vs) v :=
  fun _ reading _ => reading.2 v (.inl mem)

/-- The answers that are shown where labeling comes to an end. -/
theorem Produced.partition_of_plays (h : s.Produced) {program : Program} {allowance : Nat} {ts : List Subst}
    (plays : Series.PlaysOut (program.context allowance).interp (s.label vs) ts none)
    (labeled : ∀ t ∈ ts, s.Labeled (s.labelScope vs) (fun _ => True) vs t)
    (parts : Answers.Parts (s.Labeled (s.labelScope vs) (fun _ => True) vs)
      (fun t θ => (s.labelScope vs).readings θ ∧ t.Admits θ)
      (fun θ => (s.labelScope vs).readings θ ∧ s.Admits θ) ts) : s.Partition vs ts := by
  have good := h.orderly_label vs
  have integral (v : Var) (mem : v ∈ vs) : s.Integral (s.labelScope vs) v := integral_label mem
  have counts (θ : Var → Term) : s.ModelsOn vs θ ↔ (s.labelScope vs).readings θ ∧ s.Admits θ :=
    modelsOn_iff fun model v mentioned => model.isValue mentioned
  have counts' (t : Subst) (mem : t ∈ ts) (θ : Var → Term) :
      t.ModelsOn vs θ ↔ (s.labelScope vs).readings θ ∧ t.Admits θ := by
    obtain ⟨solver, started, leaf⟩ := leaf_of_plays plays mem
    exact modelsOn_iff fun model v mentioned =>
      good.isValue_of_label h.complete integral started leaf model mentioned
  refine ⟨fun θ model => existsUnique_of_pairwise (P := fun t : Subst => t.ModelsOn vs θ) ?_ ?_,
    fun t mem θ model => ?_, fun t mem v in_vs => ?_, good.differ_of_label integral (fun _ _ _ _ => rfl) plays⟩
  · refine parts.apart.imp_of_mem fun {t u} mem mem' apart model model' => ?_
    exact apart θ ((counts' t mem θ).mp model) ((counts' u mem' θ).mp model')
  · obtain ⟨t, mem, admits⟩ := (parts.covers θ).mp ((counts θ).mp model)
    exact ⟨t, mem, (counts' t mem θ).mpr admits⟩
  · exact (counts θ).mpr ((parts.covers θ).mpr ⟨t, mem, (counts' t mem θ).mp model⟩)
  · obtain ⟨solver, started, leaf⟩ := leaf_of_plays plays mem
    have proper := good.proper_of_label h.complete integral started leaf v in_vs
    cases found : (Solver.new t).resolve v with
    | other => exact absurd found proper
    | value n => exact .inl ⟨n, Solver.resolve_eq_value_iff.mp found⟩
    | free w =>
      have leads := Solver.resolve_eq_free_iff.mp found
      exact .inr ⟨w, leads, (labeled t mem).good.orderly.acyclic.get?_of_walk leads,
        (labeled t mem).settled v in_vs w leads⟩

/-- Labeling partitions the models of a substitution that goals produce: the series of its
    answers comes to an end and partitions them, or an overflow stops it. -/
theorem Produced.label_partitions (h : s.Produced) (program : Program) (allowance : Nat) (vs : List Var) :
    ∃ ts out, Series.PlaysOut (program.context allowance).interp
        ((Goal.label vs).apply (program.context allowance) s) ts out ∧
      (out = none ∧ s.Partition vs ts ∨ ∃ f, out = some (.fault f) ∧ f.IsOverflow) := by
  obtain ⟨ts, out, plays, labeled, divided⟩ :=
    (h.orderly_label vs).inAll.label (I := (program.context allowance).interp) (fun _ _ => trivial)
      (fun _ _ _ _ => rfl) fun v mem => integral_label mem
  refine ⟨ts, out, plays, ?_⟩
  match out, divided with
  | none, parts => exact .inl ⟨rfl, h.partition_of_plays plays labeled parts⟩
  | some (.fault f), overflow => exact .inr ⟨f, rfl, overflow⟩

/-- Labeling `_0` where `_0 + 1 = _1` and `_0` is from 1 to 3. -/
theorem label_partitions_successor : ∃ s : Subst, s.Produced ∧ s.storedDomain ⟨0⟩ = .interval 1 3 ∧
    ∃ ts out, Series.PlaysOut (Program.context (fun _ _ => .fail) 0).interp
        ((Goal.label [⟨0⟩]).apply (Program.context (fun _ _ => .fail) 0) s) ts out ∧
      (out = none ∧ s.Partition [⟨0⟩] ts ∨ ∃ f, out = some (.fault f) ∧ f.IsOverflow) := by
  obtain ⟨s, produced, domain, _⟩ := exists_successor
  exact ⟨s, produced, domain, produced.label_partitions (fun _ _ => .fail) 0 [⟨0⟩]⟩

end Subst

end ConstraintLogic
