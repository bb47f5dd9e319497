import ConstraintLogic.Proofs.Goal.Yields
import ConstraintLogic.Proofs.Solver.Filed

/-!
# What labeling keeps

Labeling starts with all that is loaded on the agenda, and goes from one split to the
next by a reduction of one domain and by turns of the propagation loop. What the start
has, and reductions and turns keep, is there where labeling is done.

Results:
* `Solver.Awake`: the state in which labeling starts to propagate.
* `Solver.Lasting`: what reductions and turns keep.
* `Solver.Lasting.of_split`, `Solver.Lasting.of_leaf`: it is there below a split, and at the leaves
  of the tree of splits.
* `Subst.Orderly.lasting_of_label`: it is there where labeling is done.
* `Solver.lasting_filed`: propagators stay filed.
-/

namespace ConstraintLogic

open Subst (Complete)

namespace Solver

variable {K : Scope} {E : PropId → Prop} {P : Var → Prop} {Z R : Propagator → Prop}
variable {D : Propagator → Prop} {s t : Solver} {vs : List Var} {subst : Subst}

/-! ## Starting -/

/-- Everything that has a number is put on the agenda. -/
theorem wakeAll_eq (s : Solver) : ∃ a, s.wakeAll = { s with agenda := a } ∧
    ∀ id p, s.prop? id = some p → a.Waits id := by
  have all (is : List Nat) : ∀ a : Agenda, ∃ b,
      is.foldl (fun s i => s.enqueue ⟨i⟩) { s with agenda := a } = { s with agenda := b } ∧
        (∀ id, a.Waits id → b.Waits id) ∧ ∀ i ∈ is, ∀ p, s.prop? ⟨i⟩ = some p → b.Waits ⟨i⟩ := by
    induction is with
    | nil => exact fun a => ⟨a, rfl, fun _ waits => waits, by simp⟩
    | cons i is ih =>
      intro a
      cases found : s.prop? ⟨i⟩ with
      | none =>
        have same : ({ s with agenda := a } : Solver).enqueue ⟨i⟩ = { s with agenda := a } := by
          have absent : ({ s with agenda := a } : Solver).prop? ⟨i⟩ = none := found
          simp [Solver.enqueue, absent]
        obtain ⟨b, eq, kept, woken⟩ := ih a
        refine ⟨b, by rw [List.foldl_cons, same, eq], kept, fun j mem p at_j => ?_⟩
        rcases List.mem_cons.mp mem with rfl | mem
        · cases found.symm.trans at_j
        · exact woken j mem p at_j
      | some q =>
        have pushed : ({ s with agenda := a } : Solver).enqueue ⟨i⟩ =
            { s with agenda := a.push ⟨i⟩ q.val.priority } := by
          have present : ({ s with agenda := a } : Solver).prop? ⟨i⟩ = some q := found
          simp [Solver.enqueue, present]
        obtain ⟨b, eq, kept, woken⟩ := ih (a.push ⟨i⟩ q.val.priority)
        refine ⟨b, by rw [List.foldl_cons, pushed, eq], fun id waits => kept id ?_, fun j mem p at_j => ?_⟩
        · exact Agenda.waits_push.mpr (.inr waits)
        · rcases List.mem_cons.mp mem with rfl | mem
          · exact kept ⟨j⟩ (Agenda.waits_push.mpr (.inl rfl))
          · exact woken j mem p at_j
  obtain ⟨b, eq, _, woken⟩ := all (List.range s.props.size) s.agenda
  refine ⟨b, eq, fun id p found => woken id.index (List.mem_range.mpr ?_) p found⟩
  unfold prop? at found
  exact (Array.getElem?_eq_some_iff.mp found).1

/-- The state in which labeling starts to propagate: the variables that are labeled stand
    for integers or are loaded, and everything that is at work was stored and waits. -/
structure Awake (K : Scope) (vs : List Var) (subst : Subst) (s : Solver) : Prop where
  steady : s.Steady K
  vigilant : s.Vigilant fun _ => False
  proper : ∀ v ∈ vs, s.resolve v ≠ .other
  loaded : ∀ v ∈ vs, ∀ w, s.resolve v = .free w → w ∈ s.domains
  waiting : ∀ id p, s.prop? id = some p → s.agenda.Waits id
  grows : (Solver.new subst).Grows s
  drawn : (Solver.new subst).Draws (fun _ => False) s

theorem Attentive.requireNonempty (vs : List Var) : ∀ s : Solver, s.Attentive R E D → s.Sound K E P →
    Narrow.Leaves s (Solver.requireNonempty vs) fun _ t =>
      t.Attentive R E D ∧ t.Sound K E P ∧ s.Grows t ∧
        ∀ v ∈ vs, t.resolve v ≠ .other ∧ ∀ w, t.resolve v = .free w → w ∈ t.domains := by
  induction vs with
  | nil => exact fun s h sound => Narrow.Leaves.pure ⟨h, sound, .refl s, by simp⟩
  | cons v vs ih =>
    intro s h sound
    obtain ⟨known, unfolds, loaded⟩ := sound.domain v
    show Narrow.Leaves s (do
      (do Narrow.require !(← Narrow.domain v).isEmpty)
      vs.forM fun v => do Narrow.require !(← Narrow.domain v).isEmpty) _
    rw [bind_assoc]
    refine Narrow.Leaves.step (a := (s.domain v).1) (t := (s.domain v).2) rfl ?_
    refine Narrow.leaves_require_bind fun nonempty => ?_
    refine (ih _ (h.domain sound v) unfolds.sound).mono ?_
    rintro _ t ⟨h', sound', grows, loaded'⟩
    refine ⟨h', sound', unfolds.grows.trans grows, fun u mem => ?_⟩
    rcases List.mem_cons.mp mem with rfl | mem
    · rw [grows.resolve, unfolds.grows.resolve]
      refine ⟨fun other => ?_, fun w free => grows.mem_domains (loaded w free)⟩
      simp [known, peek, other, Domain.isEmpty] at nonempty
    · exact loaded' u mem

/-- Labeling draws in nothing but stored propagators. -/
theorem draws_requireNonempty (vs : List Var) : ∀ s : Solver,
    Narrow.Leaves s (Solver.requireNonempty vs) fun _ t => s.Draws (fun _ => False) t := by
  induction vs with
  | nil => exact fun s => Narrow.Leaves.pure (.refl s)
  | cons v vs ih =>
    intro s
    show Narrow.Leaves s (do
      (do Narrow.require !(← Narrow.domain v).isEmpty)
      vs.forM fun v => do Narrow.require !(← Narrow.domain v).isEmpty) _
    rw [bind_assoc]
    refine Narrow.Leaves.step (a := (s.domain v).1) (t := (s.domain v).2) rfl ?_
    exact Narrow.leaves_require_bind fun _ => (ih _).mono fun _ _ drawn => (draws_domain s v).trans drawn

/-- Labeling loads its variables, and puts what is loaded on the agenda. -/
theorem leaves_awake (orderly : subst.Orderly K) (complete : subst.Complete) (vs : List Var) :
    Narrow.Leaves (Solver.new subst) (do Solver.requireNonempty vs; modify Solver.wakeAll)
      fun _ t => t.Awake K vs subst := by
  have vigilant := attentive_new (R := fun _ => False) complete.regular
  refine ((Attentive.requireNonempty vs _ vigilant orderly.steady_new).and (draws_requireNonempty vs _)).bind ?_
  rintro _ t ⟨⟨vigilant', steady, grows, loaded⟩, drawn⟩ u v run
  cases run
  obtain ⟨a, eq, waiting⟩ := t.wakeAll_eq
  have woken := steady.wakeAll
  rw [eq] at woken ⊢
  exact ⟨woken.sound, vigilant'.grow woken.grows rfl rfl, fun v mem => (loaded v mem).1,
    fun v mem => (loaded v mem).2, waiting, grows.trans woken.grows, drawn.trans (.of_props rfl rfl)⟩

/-! ## Going on -/

/-- Reductions of finite domains and turns of the propagation loop keep it. -/
structure Lasting (K : Scope) (J : Solver → Prop) : Prop where
  aside : ∀ s t : Solver, s.Steady K → t.Steady K → s.Aside (fun _ => False) t → s.Level t → J s → J t
  turn : ∀ s t : Solver, s.Steady K → t.Steady K → s.Turn K t → J s → J t

theorem Lasting.and {J J' : Solver → Prop} (h : Lasting K J) (h' : Lasting K J') :
    Lasting K fun s => J s ∧ J' s where
  aside s t hs ht aside level kept := ⟨h.aside s t hs ht aside level kept.1, h'.aside s t hs ht aside level kept.2⟩
  turn s t hs ht turn kept := ⟨h.turn s t hs ht turn kept.1, h'.turn s t hs ht turn kept.2⟩

/-- What variables stand for stays as it is. -/
theorem lasting_resolve (K : Scope) (T : (Var → Resolved) → Prop) : Lasting K fun s => T s.resolve where
  aside _ _ _ _ aside _ h := aside.resolve ▸ h
  turn _ _ _ _ turn h := turn.framed.resolve ▸ h

/-- It is there on both sides of a split. -/
theorem Lasting.of_split {J : Solver → Prop} (lasting : Lasting K J) {s' u : Solver} {w : Var}
    {left right half : Domain} (chosen : s.choose vs = (some w, s')) (halved : (s'.domain w).1.bisect = .ok (left, right))
    (either : half = left ∨ half = right)
    (narrowed : (do Narrow.reduce w half; Narrow.fixpoint : Narrow Unit) (s'.domain w).2 = .ok () u)
    (poised : s.Poised K vs) (kept : J s) : u.Poised K vs ∧ J u := by
  obtain ⟨rfl, _, split, domain, left, right, halved', halves⟩ := poised.of_chosen chosen
  rw [domain] at halved narrowed
  cases halved.symm.trans halved'
  have fine := halves.of_either either
  have loaded (x : Var) (same : s.resolve w = .free x) : x ∈ s.domains := by
    rw [split.free] at same
    cases same
    exact split.loaded
  have poised' := (poised.narrow w fine.1 fine.2).leaves () u narrowed
  have reduced := poised.steady.reduce_aside (v := w) fine.1 loaded fun full => absurd full fine.2
  refine ⟨poised'.1, Narrow.Leaves.bind (R := fun _ u => J u) (f := fun _ => Narrow.fixpoint) reduced ?_ () u narrowed⟩
  rintro _ m ⟨sound, reduced, aside, _⟩
  have finite : s.Confined w :=
    poised.steady.confined_iff.mpr ⟨by simp [split.free], by rw [peek_of_free split.free]; exact split.finite⟩
  have level : s.Level m := fun v confined =>
    (reduced.spreads aside.resolve confined).elim (fun here => here) fun ⟨same, _⟩ => finite.congr same.symm
  exact sound.fixpoint_keeps (lasting.aside s m poised.steady sound aside level kept) lasting.turn

/-- It is there at the leaves of the tree of splits. -/
theorem Lasting.of_leaf {J : Solver → Prop} (lasting : Lasting K J) {t : Subst} (leaf : s.Leaf vs t) :
    s.Poised K vs → J s → ∃ u : Solver, u.Poised K vs ∧ J u ∧ (∀ v ∈ vs, u.Settled v) ∧ u.toSubst? = .ok t := by
  induction leaf with
  | @here s s' t chosen written =>
    intro poised kept
    obtain ⟨rfl, settled⟩ := poised.of_not_chosen chosen
    exact ⟨_, poised, kept, settled, written⟩
  | deeper chosen halved either narrowed _ ih =>
    intro poised kept
    obtain ⟨poised', kept'⟩ := lasting.of_split chosen halved either narrowed poised kept
    exact ih poised' kept'

end Solver

/-- Where splitting starts, there is what labeling starts with and what turns keep. -/
theorem Subst.Orderly.lasting_of_start {K : Scope} {J : Solver → Prop} {s : Subst} {vs : List Var}
    {solver : Solver} (h : s.Orderly K) (complete : s.Complete) (lasting : Solver.Lasting K J)
    (awake : ∀ m : Solver, m.Awake K vs s → J m) (integral : ∀ v ∈ vs, s.Integral K v)
    (started : (do Solver.requireNonempty vs; modify Solver.wakeAll; Narrow.fixpoint : Narrow Unit)
      (Solver.new s) = .ok () solver) : solver.Poised K vs ∧ J solver := by
  refine ⟨((h.starts integral).leaves () solver started).1, ?_⟩
  rw [← bind_assoc] at started
  refine Narrow.Leaves.bind (R := fun _ u => J u) (f := fun _ => Narrow.fixpoint)
    (Solver.leaves_awake h complete vs) ?_ () solver started
  intro _ m woken
  exact woken.steady.fixpoint_keeps (awake m woken) lasting.turn

/-- Where labeling is done, there is what its start has and what reductions and turns
    keep. -/
theorem Subst.Orderly.lasting_of_label {K : Scope} {J : Solver → Prop} {s t : Subst} {vs : List Var}
    {solver : Solver} (h : s.Orderly K) (complete : s.Complete) (lasting : Solver.Lasting K J)
    (awake : ∀ m : Solver, m.Awake K vs s → J m) (integral : ∀ v ∈ vs, s.Integral K v)
    (started : (do Solver.requireNonempty vs; modify Solver.wakeAll; Narrow.fixpoint : Narrow Unit)
      (Solver.new s) = .ok () solver)
    (leaf : solver.Leaf vs t) :
    ∃ u : Solver, u.Poised K vs ∧ J u ∧ (∀ v ∈ vs, u.Settled v) ∧ u.toSubst? = .ok t := by
  obtain ⟨poised, kept⟩ := h.lasting_of_start complete lasting awake integral started
  exact lasting.of_leaf leaf poised kept

namespace Solver

variable {K : Scope} {Z R : Propagator → Prop} {s t : Solver}

/-! ## Filed propagators -/

theorem Tended.aside (hs : s.Steady K) (ht : t.Steady K) (aside : s.Aside (fun _ => False) t)
    (h : s.Tended Z R) : t.Tended Z R := by
  have prop (j : PropId) : t.prop? j = s.prop? j := aside.props j fun none => none
  have subscribers (j : PropId) (w : Var) := aside.subscribers j (fun none => none) w
  refine ⟨fun p known v mem w free => ?_, fun w j mem p found v in_vars u free => ?_, fun w j mem p found => ?_⟩
  · rw [aside.resolve] at free
    refine (aside.loaded w).mpr (h.rounded p (known.imp_right fun ⟨x, loaded, stored⟩ => ?_) v mem w free)
    rw [aside.storedWatchers] at stored
    exact ⟨x, (aside.loaded x).mp loaded, stored⟩
  · rw [aside.resolve] at free
    exact (h.complete w j ((subscribers j w).mp mem) p (prop j ▸ found) v in_vars u free).imp
      (subscribers j u).mpr (hs.decided_of_aside ht aside)
  · exact (h.regular w j ((subscribers j w).mp mem) p (prop j ▸ found)).imp aside.regular.mpr
      (Or.imp_right (aside.waits j))

/-- Propagators stay filed, in the solver and in the substitution below it. -/
theorem lasting_filed (K : Scope) : Lasting K fun s =>
    s.Tended (fun _ => False) (fun _ => False) ∧ s.subst.Complete where
  aside _ _ hs ht aside _ h := ⟨h.1.aside hs ht aside, h.2.congr aside.bindings aside.attrs⟩
  turn _ _ _ ht turn h := ⟨h.1.turn ht turn, h.2.congr turn.framed.bindings turn.framed.attrs⟩

theorem Awake.filed {vs : List Var} {subst : Subst} (h : s.Awake K vs subst) (complete : subst.Complete) :
    s.Tended (fun _ => False) (fun _ => False) ∧ s.subst.Complete :=
  ⟨h.vigilant.tended h.steady fun _ none => none.elim, by rwa [h.grows.subst]⟩

end Solver

/-- The answers of labeling miss no propagator. -/
theorem Subst.Orderly.complete_of_label {K : Scope} {s t : Subst} {vs : List Var} {solver : Solver}
    (h : s.Orderly K) (complete : s.Complete) (integral : ∀ v ∈ vs, s.Integral K v)
    (started : (do Solver.requireNonempty vs; modify Solver.wakeAll; Narrow.fixpoint : Narrow Unit)
      (Solver.new s) = .ok () solver)
    (leaf : solver.Leaf vs t) : t.Complete := by
  obtain ⟨u, poised, ⟨tended, base⟩, _, written⟩ := h.lasting_of_label complete (Solver.lasting_filed K)
    (fun m awake => awake.filed complete) integral started leaf
  exact (poised.steady.filed_toSubst? poised.quiet tended base (fun p none => none.elim) written).mono
    (fun p x missed => missed.1) fun p none => none

end ConstraintLogic
