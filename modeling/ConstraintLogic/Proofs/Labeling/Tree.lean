import ConstraintLogic.Proofs.Labeling.Division
import ConstraintLogic.Proofs.Solver.Requests

/-!
# Labeling

Labeling splits domains until the variables that have finite ones have values. Each
split divides the readings that the solver describes among the two halves, so the
leaves of the tree of splits divide all of them; at a leaf the solver is at rest, and
what is written back describes its readings.

Results:
* `Solver.Poised`: the state between two splits.
* `Solver.Poised.choose`: a variable without value is chosen, or there is none.
* `Solver.Poised.narrow`: one half is propagated.
* `Solver.Poised.divides`: the leaves of the tree of splits divide the readings.
* `Subst.OrderlyIn.label`, `Subst.OrderlyIn.labelAll`: labeling under a substitution.
-/

namespace ConstraintLogic

namespace Solver

variable {K : Scope} {E : PropId → Prop} {P : Var → Prop} {s t : Solver} {vs : List Var}

/-! ## Starting -/

/-- Putting propagators on the agenda changes nothing else. -/
theorem Sound.wakeAll (h : s.Sound K E P) : Unfolds K E P s s.wakeAll := by
  have all (is : List Nat) : ∀ s : Solver, s.Sound K E P →
      Unfolds K E P s (is.foldl (fun s i => s.enqueue ⟨i⟩) s) := by
    induction is with
    | nil => exact fun s h => .refl h
    | cons i is ih =>
      intro s h
      rw [List.foldl_cons]
      cases found : s.prop? ⟨i⟩ with
      | none =>
        have same : s.enqueue ⟨i⟩ = s := by simp [Solver.enqueue, found]
        rw [same]
        exact ih s h
      | some p =>
        have first := (h.mono (fun j => Or.inr) fun _ later => later).enqueue found
        exact first.trans (ih _ first.sound)
  exact all _ s h

/-- Loading variables that are read as integers ends in a conflict only if there is no
    reading. -/
theorem Sound.requireNonempty (vs : List Var) : ∀ s : Solver, s.Sound K E P →
    (∀ v ∈ vs, ∀ θ, s.Admits K θ → (θ v).IsValue) →
    Narrow.Ensures (s.Admits K) s (Solver.requireNonempty vs) fun _ t =>
      Unfolds K E P s t ∧ ∀ v ∈ vs, ∀ w, s.resolve v = .free w → w ∈ t.domains := by
  induction vs with
  | nil => exact fun s h _ => Narrow.Ensures.pure ⟨.refl h, by simp⟩
  | cons v vs ih =>
    intro s h values
    obtain ⟨known, unfolds, loaded⟩ := h.domain v
    show Narrow.Ensures _ s (do
      (do Narrow.require !(← Narrow.domain v).isEmpty)
      vs.forM fun v => do Narrow.require !(← Narrow.domain v).isEmpty) _
    rw [bind_assoc]
    refine Narrow.Ensures.step (a := (s.domain v).1) (t := (s.domain v).2) rfl ?_
    refine Narrow.ensures_require_bind (fun empty θ admits => ?_) fun _ => ?_
    · have mem := admits.mem_peek h.base.acyclic (values v (by simp) θ admits)
      rw [← known] at mem
      cases d : (s.domain v).1 with
      | empty =>
        rw [d] at mem
        exact Domain.not_mem_empty _ mem
      | _ => simp [d, Domain.isEmpty] at empty
    · refine ((ih _ unfolds.sound fun u mem θ admits => ?_).of_models fun θ admits => ?_).mono ?_
      · exact values u (by simp [mem]) θ ((unfolds.admits θ).mp admits)
      · exact (unfolds.admits θ).mpr admits
      · rintro _ t ⟨unfolds', loaded'⟩
        refine ⟨unfolds.trans unfolds', fun u mem w free => ?_⟩
        rcases List.mem_cons.mp mem with rfl | mem
        · exact unfolds'.grows.mem_domains (loaded w free)
        · exact loaded' u mem w (by rw [unfolds.grows.resolve, free])

/-! ## Choosing -/

/-- The state between two splits: in order and at rest, with the variables that are
    labeled loaded. -/
structure Poised (K : Scope) (vs : List Var) (s : Solver) : Prop where
  steady : s.Steady K
  quiet : ∀ id, ¬s.agenda.Waits id
  loaded : ∀ v ∈ vs, ∀ w, s.resolve v = .free w → w ∈ s.domains

/-- The variable has no finite domain with two values or more. -/
def Settled (s : Solver) (v : Var) : Prop :=
  ∀ w, s.resolve v = .free w → s.current w = .unbounded ∨ (s.current w).hasSolution = true

/-- The variable is unbound and has a finite domain with two values or more. -/
structure Splittable (s : Solver) (w : Var) : Prop where
  free : s.resolve w = .free w
  loaded : w ∈ s.domains
  finite : s.current w ≠ .unbounded
  open_ : (s.current w).solution = none

/-- One variable that may be chosen is looked at. -/
theorem Sound.chooseOver (h : s.Sound K E P) {v : Var} (loaded : ∀ w, s.resolve v = .free w → w ∈ s.domains)
    (best : Option Urgency) : ∃ next, Solver.chooseOver (best, s) v = (next, s) ∧
      (next = none → best = none ∧ s.Settled v) ∧
      ∀ u, next = some u → best = some u ∨ s.resolve v = .free u.var ∧ s.Splittable u.var := by
  unfold Solver.chooseOver
  dsimp only
  cases found : s.resolve v with
  | free r =>
    have free : s.resolve r = .free r := resolve_of_unbound (h.unbound_of_free found)
    have here := loaded r found
    have canonical := h.canonical_current r
    have domain : s.domain r = (s.current r, s) := by
      rw [← peek_of_free free]
      exact domain_of_loaded fun w same => by rw [free] at same; cases same; exact here
    dsimp only
    rw [domain]
    dsimp only
    cases size : (s.current r).size with
    | none =>
      refine ⟨best, rfl, fun none => ⟨none, fun w same => ?_⟩, fun u same => .inl same⟩
      rw [found] at same
      cases same
      refine .inl ?_
      cases d : s.current r with
      | unbounded => rfl
      | _ => simp [d, Domain.size] at size
    | some k =>
      have solved := canonical.1.hasSolution_of_size canonical.2 size
      dsimp only
      split
      · rename_i few
        refine ⟨best, rfl, fun none => ⟨none, fun w same => ?_⟩, fun u same => .inl same⟩
        rw [found] at same
        cases same
        exact .inr (solved.mpr few)
      · rename_i many
        have splittable : s.Splittable r := by
          refine ⟨free, here, Domain.ne_unbounded_of_size size, ?_⟩
          have open_ : ¬(s.current r).hasSolution = true := fun only => many (solved.mp only)
          simpa [Domain.hasSolution] using open_
        cases best with
        | none =>
          refine ⟨_, rfl, by simp, fun u same => .inr ?_⟩
          cases same
          exact ⟨rfl, splittable⟩
        | some b =>
          refine ⟨_, rfl, by simp, fun u same => ?_⟩
          split at same
          · cases same
            exact .inr ⟨rfl, splittable⟩
          · exact .inl same
  | value n => exact ⟨best, rfl, fun none => ⟨none, fun w same => by cases found.symm.trans same⟩, fun u => .inl⟩
  | other => exact ⟨best, rfl, fun none => ⟨none, fun w same => by cases found.symm.trans same⟩, fun u => .inl⟩

/-- Of the variables one that can be split is chosen, unless there is none. -/
theorem Poised.choose (h : s.Poised K vs) : ∃ choice, s.choose vs = (choice, s) ∧
    (choice = none → ∀ v ∈ vs, s.Settled v) ∧
    ∀ w, choice = some w → (∃ v ∈ vs, s.resolve v = .free w) ∧ s.Splittable w := by
  have all (us : List Var) : ∀ best, (∀ v ∈ us, ∀ w, s.resolve v = .free w → w ∈ s.domains) →
      ∃ next, us.foldl Solver.chooseOver (best, s) = (next, s) ∧
        (next = none → best = none ∧ ∀ v ∈ us, s.Settled v) ∧
        ∀ u, next = some u → best = some u ∨
          (∃ v ∈ us, s.resolve v = .free u.var) ∧ s.Splittable u.var := by
    induction us with
    | nil => exact fun best _ => ⟨best, rfl, fun none => ⟨none, by simp⟩, fun u => .inl⟩
    | cons v us ih =>
      intro best loaded
      obtain ⟨first, eq, none_first, some_first⟩ := h.steady.chooseOver (loaded v (by simp)) best
      obtain ⟨next, eq', none_next, some_next⟩ := ih first fun u mem => loaded u (by simp [mem])
      refine ⟨next, by rw [List.foldl_cons, eq, eq'], fun none => ?_, fun u same => ?_⟩
      · obtain ⟨none', settled⟩ := none_next none
        obtain ⟨none'', settled'⟩ := none_first none'
        exact ⟨none'', List.forall_mem_cons.mpr ⟨settled', settled⟩⟩
      · rcases some_next u same with before | ⟨⟨v', mem, leads⟩, splittable⟩
        · refine (some_first u before).imp_right fun ⟨leads, splittable⟩ => ⟨⟨v, by simp, leads⟩, ?_⟩
          exact splittable
        · exact .inr ⟨⟨v', by simp [mem], leads⟩, splittable⟩
  obtain ⟨next, eq, none_next, some_next⟩ := all vs none h.loaded
  refine ⟨next.map Urgency.var, ?_, fun none => ?_, fun w same => ?_⟩
  · unfold Solver.choose
    rw [eq]
  · exact (none_next (Option.map_eq_none_iff.mp none)).2
  · obtain ⟨u, found, rfl⟩ := Option.map_eq_some_iff.mp same
    exact (some_next u found).resolve_left nofun

/-! ## Splitting -/

/-- Two domains that divide the values of a variable, each of which lacks one. -/
structure Halves (s : Solver) (w : Var) (left right : Domain) : Prop where
  canonical : left.Canonical ∧ right.Canonical
  finite : left ≠ .unbounded ∧ right ≠ .unbounded
  whole : ∀ n, n ∈ s.current w ↔ n ∈ left ∨ n ∈ right
  apart : ∀ n ∈ left, n ∉ right
  proper : (∃ n ∈ s.current w, n ∉ left) ∧ ∃ n ∈ s.current w, n ∉ right

/-- The domain of a variable that can be split has two halves. -/
theorem Sound.bisect (h : s.Sound K E P) {w : Var} (splittable : s.Splittable w) :
    ∃ left right, (s.current w).bisect = .ok (left, right) ∧ s.Halves w left right := by
  obtain ⟨canonical, some_value⟩ := h.canonical_current w
  obtain ⟨left, right, eq, canonical_l, canonical_r, some_l, some_r, finite_l, finite_r, whole, below⟩ :=
    canonical.bisect_spec splittable.finite some_value splittable.open_
  have apart (n : Int) (in_left : n ∈ left) : n ∉ right := fun in_right =>
    absurd (below n in_left n in_right) (Int.lt_irrefl n)
  obtain ⟨m, in_left⟩ := canonical_l.exists_mem some_l
  obtain ⟨n, in_right⟩ := canonical_r.exists_mem some_r
  refine ⟨left, right, eq, ⟨canonical_l, canonical_r⟩, ⟨finite_l, finite_r⟩, whole, apart, ?_, ?_⟩
  · exact ⟨n, (whole n).mpr (.inr in_right), fun in_left => apart n in_left in_right⟩
  · exact ⟨m, (whole m).mpr (.inl in_left), apart m in_left⟩

theorem Halves.of_either {w : Var} {left right half : Domain} (h : s.Halves w left right) (either : half = left ∨ half = right) :
    half.Canonical ∧ half ≠ .unbounded := by
  rcases either with rfl | rfl
  · exact ⟨h.canonical.1, h.finite.1⟩
  · exact ⟨h.canonical.2, h.finite.2⟩

/-- What is chosen to be split is loaded and has two halves. -/
theorem Poised.of_chosen (h : s.Poised K vs) {s' : Solver} {w : Var} (chosen : s.choose vs = (some w, s')) :
    s = s' ∧ (∃ v ∈ vs, s.resolve v = .free w) ∧ s.Splittable w ∧ s.domain w = (s.current w, s) ∧
      ∃ left right, (s.current w).bisect = .ok (left, right) ∧ s.Halves w left right := by
  obtain ⟨choice, eq, _, splittable⟩ := h.choose
  cases chosen.symm.trans eq
  obtain ⟨leads, split⟩ := splittable w rfl
  refine ⟨rfl, leads, split, ?_, h.steady.bisect split⟩
  rw [← peek_of_free split.free]
  exact domain_of_loaded fun u same => by
    rw [split.free] at same
    cases same
    exact split.loaded

/-- A half of what is chosen to be split is a finite domain. -/
theorem Poised.half (h : s.Poised K vs) {s' : Solver} {w : Var} {left right half : Domain} (chosen : s.choose vs = (some w, s'))
    (halved : (s'.domain w).1.bisect = .ok (left, right)) (either : half = left ∨ half = right) :
    (s'.domain w).2 = s ∧ half.Canonical ∧ half ≠ .unbounded := by
  obtain ⟨rfl, _, _, domain, left, right, halved', halves⟩ := h.of_chosen chosen
  rw [domain] at halved ⊢
  cases halved.symm.trans halved'
  exact ⟨rfl, halves.of_either either⟩

/-- Where nothing is chosen to be split, no variable can be. -/
theorem Poised.of_not_chosen (h : s.Poised K vs) {s' : Solver} (chosen : s.choose vs = (none, s')) :
    s = s' ∧ ∀ v ∈ vs, s.Settled v := by
  obtain ⟨choice, eq, settled, _⟩ := h.choose
  cases chosen.symm.trans eq
  exact ⟨rfl, settled rfl⟩

/-- Leaving one half of its values to a variable adds just that. -/
theorem Poised.narrow (h : s.Poised K vs) (w : Var) {half : Domain} (canonical : half.Canonical)
    (finite : half ≠ .unbounded) :
    Narrow.Ensures (fun θ => s.Admits K θ ∧ half.Holds (θ w)) s
      (do Narrow.reduce w half; Narrow.fixpoint) fun _ t =>
        t.Poised K vs ∧ s.Shrinks t ∧ (∀ n ∈ t.peek w, n ∈ half) ∧
          ∀ θ, t.Admits K θ ↔ s.Admits K θ ∧ half.Holds (θ w) := by
  refine (h.steady.reduce canonical fun full => absurd full finite).bind ?_
  rintro _ t ⟨sound, shrinks, _, left, admits⟩
  refine (sound.fixpoint.of_models fun θ model => (admits θ).mpr model).mono ?_
  rintro _ u ⟨steady, admits', shrinks', quiet⟩
  have whole := shrinks.trans shrinks'
  refine ⟨⟨steady, quiet, fun v mem x free => ?_⟩, whole, fun n mem => ?_, fun θ => ?_⟩
  · rw [whole.resolve] at free
    exact whole.loaded x (h.loaded v mem x free)
  · exact left n (shrinks'.mem_peek w n mem)
  · rw [admits', admits]

/-- Where a half is propagated, the next state between two splits comes up. -/
theorem Poised.of_narrowed (h : s.Poised K vs) {s' u : Solver} {w : Var} {left right half : Domain}
    (chosen : s.choose vs = (some w, s')) (halved : (s'.domain w).1.bisect = .ok (left, right))
    (either : half = left ∨ half = right)
    (narrowed : (do Narrow.reduce w half; Narrow.fixpoint : Narrow Unit) (s'.domain w).2 = .ok () u) : u.Poised K vs := by
  obtain ⟨same, canonical, finite⟩ := h.half chosen halved either
  rw [same] at narrowed
  have spec := h.narrow w canonical finite
  unfold Narrow.Ensures at spec
  rw [narrowed] at spec
  exact spec.1

/-- At a state between two splits labeling is done, or a domain is split. -/
theorem Poised.search_cases (h : s.Poised K vs) :
    (s.search vs = Answers.ofAttempt s.toSubst? ∧ ∀ v ∈ vs, s.Settled v) ∨
      ∃ v ∈ vs, ∃ w left right, s.resolve v = .free w ∧ s.Splittable w ∧ s.Halves w left right ∧
        s.search vs = .ok (Series.append (.suspend (.start (.explore s w left vs)))
          (.suspend (.start (.explore s w right vs)))) := by
  unfold Solver.search
  split
  · rename_i s' chosen
    obtain ⟨rfl, settled⟩ := h.of_not_chosen chosen
    exact .inl ⟨rfl, settled⟩
  · rename_i w s' chosen
    obtain ⟨rfl, ⟨v, mem, leads⟩, split, domain, left, right, halved, halves⟩ := h.of_chosen chosen
    refine .inr ⟨v, mem, w, left, right, leads, split, halves, ?_⟩
    rw [domain]
    dsimp only
    rw [halved]

/-- Exploring one half goes on where propagating it ends. -/
theorem explore_eq (s : Solver) (w : Var) (half : Domain) (vs : List Var) :
    s.explore w half vs =
      match (do Narrow.reduce w half; Narrow.fixpoint : Narrow Unit) s with
      | .ok _ t => t.search vs
      | .error .conflict _ => .ok .empty
      | .error (.stop why) _ => .error why := rfl

/-- The values left to the variables get fewer when a half is explored. -/
theorem Poised.room_lt (h : s.Poised K vs) (h' : t.Poised K vs) (shrinks : s.Shrinks t) {v w : Var}
    (mem : v ∈ vs) (leads : s.resolve v = .free w) {half : Domain} (left : ∀ n ∈ t.peek w, n ∈ half)
    (proper : ∃ n ∈ s.current w, n ∉ half) :
    (vs.map fun u => (t.peek u).room).sum < (vs.map fun u => (s.peek u).room).sum := by
  have le (u : Var) : (t.peek u).room ≤ (s.peek u).room :=
    Domain.room_le_of_subset (h'.steady.canonical_peek u) (h.steady.canonical_peek u)
      (shrinks.mem_peek u)
  refine Nat.lt_of_succ_le (sum_map_add_le (c := 1) vs le mem (Nat.succ_le_of_lt ?_))
  refine Domain.room_lt (h'.steady.canonical_peek v) (h.steady.canonical_peek v) (shrinks.mem_peek v) ?_
  intro same
  obtain ⟨n, here, out⟩ := proper
  have free : s.resolve w = .free w := resolve_of_unbound (h.steady.unbound_of_free leads)
  have alike : t.peek v = t.peek w := by
    unfold peek
    rw [shrinks.resolve, leads, free]
  refine out (left n ?_)
  rw [← alike, same, peek_of_free leads]
  exact here

end Solver

/-! ## Labeling under a substitution -/

namespace Subst

variable {K : Scope} {T : Term → Prop} {s t : Subst} {vs : List Var} {I : Interp Task Goal Subst}

/-- The second substitution refines the first one, and the variables stand for no
    variable with a finite domain. -/
structure Labeled (K : Scope) (T : Term → Prop) (vs : List Var) (s t : Subst) : Prop
    extends s.Refines K T t where
  settled : ∀ v ∈ vs, ∀ w, t.walk (.var v) = .var w → t.storedDomain w = .unbounded

/-- What is written back where labeling is done. -/
theorem settled_of_writtenBack {solver : Solver} (h : solver.Poised K vs)
    (back : solver.WrittenBack t) {v : Var} (mem : v ∈ vs) (done : solver.Settled v) {w : Var}
    (leads : t.walk (.var v) = .var w) : t.storedDomain w = .unbounded := by
  have resolves := Solver.resolve_of_extends (s := solver) (t := Solver.new t) back.acyclic
    back.extends_ v
  have leads' : (Solver.new t).resolve v = .free w := Solver.resolve_eq_free_iff.mpr leads
  rw [leads'] at resolves
  cases found : solver.resolve v with
  | free u =>
    rw [found] at resolves
    dsimp only at resolves
    obtain ⟨d, at_u⟩ := Solver.mem_domains_iff.mp (h.loaded v mem u found)
    have full : d = .unbounded := by
      rcases done u found with full | solved
      · rw [← Solver.current_of_loaded at_u, full]
      · rw [Solver.current_of_loaded at_u] at solved
        obtain ⟨n, only⟩ := Option.isSome_iff_exists.mp solved
        have bound := back.solved u d n at_u only
        have value : (Solver.new t).resolve u = .value n := by
          rw [Solver.resolve_eq_value_iff]
          exact (back.acyclic.walk_of_bound bound).trans (walk_of_not_var (by simp [Term.int]))
        rw [value] at resolves
        cases resolves
    have unbound := back.unbound (h.steady.unbound_of_free found) fun e at_e => by
      rw [at_u] at at_e
      cases at_e
      rw [full]
      rfl
    rw [Solver.resolve_of_unbound (s := Solver.new t) unbound] at resolves
    cases resolves
    rw [back.storedDomain_eq unbound, Solver.current_of_loaded at_u, full]
  | _ =>
    rw [found] at resolves
    cases resolves

end Subst

namespace Solver

variable {K : Scope} {T : Term → Prop} {vs : List Var} {I : Interp Task Goal Subst} {root : Subst}

/-- The leaves of the tree of splits divide the readings that the solver describes.
    The values left to the variables bound the depth of the tree. -/
theorem Poised.divides (h : root.OrderlyIn K T) (ints : ∀ n, isValue n = true → T (.int n))
    (explores : ∀ s v half us, I.start (.explore s v half us) = s.explore v half us) (n : Nat) :
    ∀ s : Solver, s.Poised K vs → (Solver.new root).Shrinks s →
      (vs.map fun v => (s.peek v).room).sum < n →
      Answers.Divides I (root.Labeled K T vs) (fun t θ => K.readings θ ∧ t.Admits θ) Fault.IsOverflow
        (s.Admits K) (s.search vs) := by
  induction n with
  | zero => exact fun s _ _ few => absurd few (Nat.not_lt_zero _)
  | succ n ih =>
    intro s poised shrinks few
    rcases poised.search_cases with ⟨eq, settled⟩ | ⟨v, mem, w, left, right, leads, split, halves, eq⟩
    · obtain ⟨t, written, back, good, describes⟩ := poised.steady.toSubst? poised.quiet
      rw [eq, written]
      refine Answers.divides_unit ⟨back.refines h ints poised.steady shrinks good, ?_⟩
        fun θ => (describes θ).symm
      exact fun v mem w leads => Subst.settled_of_writtenBack poised back mem (settled v mem) leads
    · have half {d : Domain} (canonical : d.Canonical) (finite : d ≠ .unbounded)
          (proper : ∃ n ∈ s.current w, n ∉ d) :
          Answers.Divides I (root.Labeled K T vs) (fun t θ => K.readings θ ∧ t.Admits θ)
            Fault.IsOverflow (fun θ => s.Admits K θ ∧ d.Holds (θ w))
            (.ok (.suspend (.start (.explore s w d vs)))) := by
        refine Answers.Divides.suspend ?_
        rw [Work.run, explores, explore_eq]
        have narrowed := poised.narrow w canonical finite
        unfold Narrow.Ensures at narrowed
        split at narrowed
        · rename_i t run
          obtain ⟨poised', shrinks', left, admits⟩ := narrowed
          rw [run]
          have less := poised.room_lt poised' shrinks' mem leads left proper
          exact (ih t poised' (shrinks.trans shrinks') (by omega)).congr admits
        · rename_i run
          rw [run]
          exact Answers.divides_empty narrowed
        · rename_i run
          rw [run]
          exact Answers.divides_fault narrowed
        · exact narrowed.elim
      rw [eq]
      refine ((half halves.canonical.1 halves.finite.1 halves.proper.1).append
        (half halves.canonical.2 halves.finite.2 halves.proper.2) ?_).congr fun θ => ?_
      · rintro θ ⟨_, n, read, _, in_left⟩ ⟨_, m, read', _, in_right⟩
        rw [read] at read'
        cases read'
        exact halves.apart n in_left in_right
      · constructor
        · rintro (⟨admits, _⟩ | ⟨admits, _⟩)
          · exact admits
          · exact admits
        · intro admits
          have unbound := poised.steady.unbound_of_free leads
          obtain ⟨n, read, value, in_w⟩ := (admits.domain w unbound).resolve_left split.finite
          rcases (halves.whole n).mp in_w with in_left | in_right
          · exact .inl ⟨admits, n, read, value, in_left⟩
          · exact .inr ⟨admits, n, read, value, in_right⟩

end Solver

namespace Subst

variable {K : Scope} {T : Term → Prop} {s : Subst} {vs : List Var} {I : Interp Task Goal Subst}

theorem label_eq (s : Subst) (vs : List Var) :
    s.label vs =
      match (do Solver.requireNonempty vs; modify Solver.wakeAll; Narrow.fixpoint : Narrow Unit)
        (Solver.new s) with
      | .ok _ solver => solver.search vs
      | .error .conflict _ => .ok .empty
      | .error (.stop why) _ => .error why := rfl

/-- Labeling variables that are read as integers starts from a state at rest that
    describes the readings of the substitution. -/
theorem Orderly.starts (h : s.Orderly K) (integral : ∀ v ∈ vs, s.Integral K v) :
    Narrow.Ensures ((Solver.new s).Admits K) (Solver.new s)
      (do Solver.requireNonempty vs; modify Solver.wakeAll; Narrow.fixpoint) fun _ t =>
        t.Poised K vs ∧ (Solver.new s).Shrinks t ∧ ∀ θ, t.Admits K θ ↔ (Solver.new s).Admits K θ := by
  refine (Solver.Sound.requireNonempty vs _ h.steady_new fun v mem θ admits => ?_).bind ?_
  · exact integral v mem θ admits.reading admits.binding
  · rintro _ t ⟨unfolds, loaded⟩
    have woken := unfolds.sound.wakeAll
    refine Narrow.Ensures.step (a := ()) (t := t.wakeAll) rfl ?_
    have both := unfolds.trans woken
    refine (both.sound.fixpoint.of_models fun θ => (both.admits θ).mpr).mono ?_
    rintro _ u ⟨steady, admits, shrinks, quiet⟩
    have whole := both.grows.shrinks.trans shrinks
    refine ⟨⟨steady, quiet, fun v mem w free => ?_⟩, whole, fun θ => ?_⟩
    · rw [whole.resolve] at free
      exact shrinks.loaded w (woken.grows.mem_domains (loaded v mem w free))
    · rw [admits, both.admits]

/-- The answers of labeling variables that are read as integers divide the readings of
    the substitution. -/
theorem OrderlyIn.label (h : s.OrderlyIn K T) (ints : ∀ n, isValue n = true → T (.int n))
    (explores : ∀ s v half us, I.start (.explore s v half us) = s.explore v half us)
    (integral : ∀ v ∈ vs, s.Integral K v) :
    Answers.Divides I (s.Labeled K T vs) (fun t θ => K.readings θ ∧ t.Admits θ) Fault.IsOverflow
      (fun θ => K.readings θ ∧ s.Admits θ) (s.label vs) := by
  have started := h.orderly.starts integral
  rw [label_eq]
  unfold Narrow.Ensures at started
  split at started
  · rename_i t run
    obtain ⟨poised, shrinks, admits⟩ := started
    rw [run]
    refine (Solver.Poised.divides h ints explores _ t poised shrinks (Nat.lt_succ_self _)).congr fun θ => ?_
    rw [admits, h.orderly.admits_new]
  · rename_i run
    rw [run]
    refine Answers.divides_empty fun θ model => started θ ?_
    exact h.orderly.admits_new.mpr model
  · rename_i run
    rw [run]
    exact Answers.divides_fault started
  · exact started.elim

/-- The variables with a finite domain. -/
theorem mem_finiteVars {v : Var} : v ∈ s.finiteVars ↔ s.storedDomain v ≠ .unbounded := by
  unfold finiteVars attributedVars
  rw [List.mem_filter, Std.ExtTreeMap.mem_keys, Bool.not_eq_true', ← Bool.not_eq_true,
    Domain.isUnbounded_iff]
  refine and_iff_right_of_imp fun finite => ?_
  by_contra absent
  refine finite ?_
  unfold storedDomain attributes
  rw [Std.ExtTreeMap.getElem?_eq_none absent]
  rfl

/-- The answers of labeling all variables with a finite domain divide the readings of
    the substitution. -/
theorem OrderlyIn.labelAll (h : s.OrderlyIn K T) (ints : ∀ n, isValue n = true → T (.int n))
    (explores : ∀ s v half us, I.start (.explore s v half us) = s.explore v half us)
    (integral : ∀ v, s.storedDomain v ≠ .unbounded → s.Integral K v) :
    Answers.Divides I (s.Labeled K T s.finiteVars) (fun t θ => K.readings θ ∧ t.Admits θ)
      Fault.IsOverflow (fun θ => K.readings θ ∧ s.Admits θ) s.labelAll := by
  unfold Subst.labelAll
  split
  · rename_i none
    refine Answers.divides_unit ⟨.refl h, fun v mem => ?_⟩ fun θ => Iff.rfl
    rw [List.isEmpty_iff.mp none] at mem
    cases mem
  · exact h.label ints explores fun v mem => integral v (mem_finiteVars.mp mem)

end Subst

end ConstraintLogic
