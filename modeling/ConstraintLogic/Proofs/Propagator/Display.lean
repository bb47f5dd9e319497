import ConstraintLogic.Proofs.Goal.Information

/-!
# What propagators display

A propagator shows itself as a statement, and most statements say just what the
propagator demands. A table shows the statement of the relation that it was made from.
Its rows satisfy that relation, and every row from the domains that satisfies it is
there: so the statement and the rows come to the same for whoever keeps to the domains.
Domains only shrink, and rows are only dropped if the domains exclude them, so that a
table goes on to mean what it shows.

Results:
* `Relation.Displays`, `Relation.Candid`: a relation means what it shows, given that
  integers keep to the domains.
* `Solver.Serving.candid_propagate`: a run leaves a propagator that means what it shows.
* `Solver.Legible`, `Solver.Turn.legible`: so do all turns of the propagation loop.
* `Solver.WrittenBack.legible`: what is written back is stored with the variable that
  it is about, and means what it shows.
-/

namespace ConstraintLogic

namespace Relation

variable {F G : List Var → Assignment → Prop} {r q : Relation}

/-- The relation is no table: its own statement says what it is. -/
def Primary : Relation → Prop
  | table .. => False
  | _ => True

/-- The first relation shows itself as the second one does, which is no table. It holds of
    nothing else, and of all integers that satisfy the second one and are `F`. -/
structure Displays (F : List Var → Assignment → Prop) (r q : Relation) : Prop where
  primary : q.Primary
  statement : r.statement = q.statement
  vars : r.vars = q.vars
  sound : ∀ σ, r.Holds σ → q.Holds σ
  complete : ∀ σ, F r.vars σ → q.Holds σ → r.Holds σ

/-- The relation means what it shows to integers that are `F`. -/
def Candid (F : List Var → Assignment → Prop) (r : Relation) : Prop := ∃ q, r.Displays F q

theorem Candid.mono (h : r.Candid F) (fewer : ∀ vs σ, G vs σ → F vs σ) : r.Candid G := by
  obtain ⟨q, displays⟩ := h
  exact ⟨q, { displays with complete := fun σ fits => displays.complete σ (fewer _ σ fits) }⟩

theorem Primary.candid (h : r.Primary) : r.Candid F :=
  ⟨r, h, rfl, rfl, fun _ holds => holds, fun _ _ holds => holds⟩

/-- The table of the rows of a relation that are `F` shows the relation. -/
theorem candid_table {rows : List (List Int)} (primary : q.Primary) (sound : ∀ σ : Assignment, q.vars.map σ ∈ rows → q.Holds σ)
    (complete : ∀ σ, F q.vars σ → q.Holds σ → q.vars.map σ ∈ rows) : (table q.vars rows q.statement).Candid F :=
  ⟨q, primary, rfl, rfl, sound, complete⟩

/-- A table that loses only rows that are not `F` shows what it showed. -/
theorem Candid.drop {vs : List Var} {rows live : List (List Int)} {origin : Term} (h : (table vs rows origin).Candid F)
    (sub : live ⊆ rows) (kept : ∀ σ, F vs σ → vs.map σ ∈ rows → vs.map σ ∈ live) : (table vs live origin).Candid F := by
  obtain ⟨q, primary, statement, vars, sound, complete⟩ := h
  exact ⟨q, primary, statement, vars, fun σ mem => sound σ (sub mem), fun σ fits holds =>
    kept σ fits (complete σ fits holds)⟩

end Relation

namespace Solver

variable {K : Scope} {s t u : Solver} {id : PropId} {r q : Relation} {x y z : Var} {c : Int}

/-! ## Runs -/

/-- The propagator of that number means what it shows to integers that fit the domains. -/
def CandidAt (s : Solver) (id : PropId) : Prop := ∀ p, s.prop? id = some p → p.val.Candid s.Fits

/-- A propagator goes on to mean what it shows while domains shrink. -/
theorem CandidAt.of_shrinks (h : s.CandidAt id) (shrinks : s.Shrinks t) (same : t.prop? id = s.prop? id) : t.CandidAt id :=
  fun p found => (h p (same ▸ found)).mono fun _ _ fits => shrinks.fits fits

namespace Serving

theorem candidAt (h : s.Serving K id r) (candid : r.Candid s.Fits) : s.CandidAt id := fun p found => by
  obtain ⟨n, found'⟩ := h.relation
  cases found.symm.trans found'
  exact candid

/-- A run ends with its subscriptions: the propagator stays what it is. -/
theorem candid_resubscribe (h : s.Serving K id r) {vs : List Var} (names : ∀ v ∈ vs, s.Names r v)
    (candid : r.Candid s.Fits) : Narrow.Leaves s (Narrow.resubscribe id vs) fun _ t => t.CandidAt id := by
  intro _ t run
  cases run
  obtain ⟨⟨m, eq⟩, _⟩ := resubscribe_spec id vs s fun v mem w => h.loaded (names v mem)
  beta_reduce
  rw [eq]
  exact (h.candidAt candid).of_shrinks ⟨rfl, fun _ _ mem => mem, fun _ mem => mem⟩ rfl

section Tables

variable {vs : List Var} {rows : List (List Int)} {origin : Term}

theorem candid_runTable (h : s.Serving K id (.table vs rows origin)) (candid : (Relation.table vs rows origin).Candid s.Fits) :
    Narrow.Leaves s (Narrow.runTable id vs rows origin) fun _ t => t.CandidAt id := by
  refine h.leaves_runTable fun left t trimmed => ?_
  have dropped : (Relation.table vs left origin).Candid s.Fits :=
    candid.drop trimmed.sub fun σ fits mem => trimmed.fitting _ mem fits.rowFits
  exact trimmed.serving.candid_resubscribe (fun v mem => names_of_mem mem)
    (dropped.mono fun vs σ fits => trimmed.aside.shrinks.fits fits)

/-- A relation goes on as the table of its rows, which shows it. -/
theorem candid_becomeTable (h : s.Serving K id r) (tabulates : s.Tabulates r rows) (primary : r.Primary) :
    Narrow.Leaves s (Narrow.becomeTable id r.vars rows r.statement) fun _ t => t.CandidAt id := by
  have candid : (Relation.table r.vars rows r.statement).Candid s.Fits :=
    Relation.candid_table primary tabulates.sound tabulates.complete
  unfold Narrow.becomeTable
  refine (h.replaceWith (q := .table r.vars rows r.statement) tabulates.proper fun v mem => names_of_mem mem).bind ?_
  rintro _ t ⟨serving, aside, _⟩
  exact serving.candid_runTable (candid.mono fun vs σ fits => aside.shrinks.fits fits)

end Tables

/-- A relation may be dropped for a narrowing. -/
theorem candid_reduce (h : s.Serving K id r) {v : Var} (names : s.Names r v) {n : Int} (value : isValue n = true)
    (primary : r.Primary) : Narrow.Leaves s (Narrow.reduce v (.singleton n)) fun _ t => t.CandidAt id :=
  (h.reduce names (canonical_singleton value)).mono fun _ _ left => left.1.candidAt primary.candid

theorem candid_runPlusConst (h : s.Serving K id (.plusConst x c z)) :
    Narrow.Leaves s (Narrow.runPlusConst id x c z) fun _ t => t.CandidAt id := by
  have primary : (Relation.plusConst x c z).Primary := trivial
  exact h.leaves_runPlusConst (fun _ => h.candidAt primary.candid) fun _ _ exchanged =>
    exchanged.serving.candid_resubscribe (fun v mem => names_of_mem mem) primary.candid

/-- A multiple of a small domain becomes the table of its rows. -/
theorem candid_runScale (h : s.Serving K id (.scale c x z)) :
    Narrow.Leaves s (Narrow.runScale id c x z) fun _ t => t.CandidAt id := by
  have in_x : x ∈ (Relation.scale c x z).vars := by simp [Relation.vars]
  have in_z : z ∈ (Relation.scale c x z).vars := by simp [Relation.vars]
  have primary : (Relation.scale c x z).Primary := trivial
  have zero_value : isValue 0 = true := by decide
  refine h.leaves_runScale (fun _ => ?_) (fun _ => ?_) (fun _ rows tabulates => ?_) fun _ _ t exchanged => ?_
  · exact h.candid_reduce (names_of_mem in_z) zero_value primary
  · exact ⟨h.candidAt primary.candid, h.candid_reduce (names_of_mem in_x) zero_value primary⟩
  · exact h.candid_becomeTable tabulates primary
  · exact exchanged.serving.candid_resubscribe (fun v mem => names_of_mem mem) primary.candid

/-- A sum with a known result becomes the table of its rows where both domains are small. -/
theorem candid_runSumConst (h : s.Serving K id (.sumConst x y c)) :
    Narrow.Leaves s (Narrow.runSumConst id x y c) fun _ t => t.CandidAt id := by
  have in_x : x ∈ (Relation.sumConst x y c).vars := by simp [Relation.vars]
  have primary : (Relation.sumConst x y c).Primary := trivial
  refine h.leaves_runSumConst (fun _ n value => ?_) (fun _ _ rows tabulates => ?_) fun _ t exchanged => ?_
  · exact h.candid_reduce (names_of_mem in_x) value primary
  · exact h.candid_becomeTable tabulates primary
  · exact exchanged.serving.candid_resubscribe (fun v mem => names_of_mem mem) primary.candid

/-- A sum becomes a simpler relation, or the table of its rows, or stays as it is. -/
theorem candid_runSum (h : s.Serving K id (.sum x y z)) :
    Narrow.Leaves s (Narrow.runSum id x y z) fun _ t => t.CandidAt id := by
  have in_x : x ∈ (Relation.sum x y z).vars := by simp [Relation.vars]
  have in_y : y ∈ (Relation.sum x y z).vars := by simp [Relation.vars]
  have primary : (Relation.sum x y z).Primary := trivial
  have zero_value : isValue 0 = true := by decide
  refine h.leaves_runSum (fun _ _ => ?_) (fun _ t replaced => ?_) (fun _ => ?_) (fun _ => ?_)
    (fun _ n _ t replaced => ?_) (fun _ n _ t replaced => ?_) (fun _ n _ t replaced => ?_)
    (fun _ rows tabulates => ?_) fun _ _ _ => ?_
  · exact h.candid_reduce (names_of_mem in_x) zero_value primary
  · exact replaced.serving.candid_runScale
  · exact h.candid_reduce (names_of_mem in_y) zero_value primary
  · exact h.candid_reduce (names_of_mem in_x) zero_value primary
  · exact replaced.serving.candid_runPlusConst
  · exact replaced.serving.candid_runPlusConst
  · exact replaced.serving.candid_runSumConst
  · exact h.candid_becomeTable tabulates primary
  · refine (narrowEnds _ s h).bind ?_
    rintro _ t ⟨serving, _⟩
    exact serving.candid_resubscribe (fun v mem => names_of_mem mem) primary.candid

theorem candid_runAllDifferent {vs : List Var} {cs : List Int} (h : s.Serving K id (.allDifferent vs cs)) :
    Narrow.Leaves s (Narrow.runAllDifferent id vs cs) fun _ t => t.CandidAt id := by
  have primary (vs : List Var) (cs : List Int) : (Relation.allDifferent vs cs).Primary := trivial
  refine h.leaves_runAllDifferent (fun o t swept _ => ?_) (fun o t u _ _ replaced => ?_) fun o t swept _ => ?_
  · exact swept.serving.candidAt (primary vs cs).candid
  · exact replaced.serving.candid_resubscribe (fun v mem => names_of_mem mem) (primary _ _).candid
  · exact swept.serving.candid_resubscribe swept.accounted.names (primary vs cs).candid

/-- A run of a propagator that means what it shows leaves one that does. -/
theorem candid_propagate (h : s.Serving K id r) (candid : r.Candid s.Fits) :
    Narrow.Leaves s (Narrow.propagate id r) fun _ t => t.CandidAt id := by
  cases r with
  | plusConst x c z => exact h.candid_runPlusConst
  | sumConst x y c => exact h.candid_runSumConst
  | sum x y z => exact h.candid_runSum
  | scale c x z => exact h.candid_runScale
  | allDifferent vs cs => exact h.candid_runAllDifferent
  | table vs rows origin => exact h.candid_runTable candid

end Serving

end Solver

/-! ## The loop -/

/-- A domain is stored with the variable that its statement is about, and the stored
    propagators mean what they show to integers that are `F`. -/
structure Subst.LegibleFor (F : List Var → Assignment → Prop) (s : Subst) : Prop where
  anchored : ∀ v a, (s.attributes v).domain = some a → s.walk (.var a.val.anchor) = .var v
  candid : ∀ v, ∀ p ∈ s.storedWatchers v, p.val.Candid F

/-- The stored propagators mean what they show to integers that fit the stored domains. -/
abbrev Subst.Legible (s : Subst) : Prop := s.LegibleFor (Solver.new s).Fits

namespace Subst

variable {F G : List Var → Assignment → Prop} {s t : Subst}

theorem LegibleFor.mono (h : s.LegibleFor F) (fewer : ∀ vs σ, G vs σ → F vs σ) : s.LegibleFor G :=
  ⟨h.anchored, fun v p mem => (h.candid v p mem).mono fewer⟩

theorem LegibleFor.congr (h : s.LegibleFor F) (bindings : t.bindings = s.bindings) (attributes : t.attributes = s.attributes) :
    t.LegibleFor F := by
  refine ⟨fun v a found => ?_, fun v p mem => h.candid v p ?_⟩
  · rw [walk_congr bindings]
    exact h.anchored v a (attributes ▸ found)
  · unfold storedWatchers at mem ⊢
    rwa [attributes] at mem

end Subst

namespace Solver

variable {K : Scope} {s t u : Solver} {subst : Subst} {vs : List Var} {σ : Assignment}

/-- The propagators that are stored or at work mean what they show to integers that fit the
    domains, and the stored domains are about the variables that they are stored with. -/
structure Legible (s : Solver) : Prop where
  stored : s.subst.LegibleFor s.Fits
  work : ∀ id, s.CandidAt id

/-- Shrinking domains, with all propagators as they are. -/
theorem Legible.of_framed (h : s.Legible) (framed : s.Framed t) (props : ∀ id, t.prop? id = s.prop? id) : t.Legible :=
  ⟨(h.stored.congr framed.bindings framed.attributes).mono fun _ _ fits => framed.shrinks.fits fits,
    fun id => (h.work id).of_shrinks framed.shrinks (props id)⟩

/-- What is drawn in from the stored propagators means what it shows. -/
theorem Legible.of_draws {Q : Propagator → Prop} {F : List Var → Assignment → Prop} (legible : subst.LegibleFor F)
    (drawn : (Solver.new subst).Draws Q t) (posted : ∀ p, Q p → p.val.Candid F) (enough : ∀ vs σ, t.Fits vs σ → F vs σ) :
    t.Legible := by
  have same : t.subst = subst := drawn.subst
  refine ⟨by rw [same]; exact legible.mono enough, fun id p found => ?_⟩
  rcases drawn.work p ⟨id, found⟩ with ⟨j, before⟩ | posted' | ⟨w, stored⟩
  · simp [Solver.new, prop?] at before
  · exact (posted p posted').mono enough
  · exact (legible.candid w p stored).mono enough

/-- A turn of the propagation loop leaves propagators that mean what they show. -/
theorem Turn.legible (turn : s.Turn K t) (h : s.Legible) : t.Legible := by
  have framed := turn.framed
  refine ⟨(h.stored.congr framed.bindings framed.attributes).mono fun _ _ fits => framed.shrinks.fits fits, fun j => ?_⟩
  cases turn with
  | idle _ _ eq =>
    subst eq
    exact (h.work j).of_shrinks framed.shrinks rfl
  | @served id a p m _ found _ serving served ran =>
    by_cases same : j = id
    · subst same
      have before : ({ s with agenda := a, subscribers := m } : Solver).CandidAt j :=
        (h.work j).of_shrinks ⟨rfl, fun _ _ mem => mem, fun _ mem => mem⟩ rfl
      exact serving.candid_propagate (before p found) _ t ran
    · exact (h.work j).of_shrinks framed.shrinks (served.aside.props j same)

theorem lasting_legible (K : Scope) : Lasting K Legible where
  aside _ _ _ _ aside _ h := h.of_framed aside.toFramed fun id => aside.props id fun none => none
  turn _ _ _ _ turn h := turn.legible h

/-! ## Writing back -/

/-- Integers that fit where more is bound fit before if they come from the domains. -/
theorem Fits.of_extends (fits : t.Fits vs σ) (acyclic : t.subst.Acyclic) (ext : s.subst.Extends t.subst)
    (mem : ∀ v ∈ vs, σ v ∈ s.peek v) : s.Fits vs σ where
  mem := mem
  value := fits.value
  alike v mem w mem' same := by
    refine fits.alike v mem w mem' ?_
    rw [resolve_of_extends acyclic ext v, same, ← resolve_of_extends acyclic ext w]

/-- Integers that fit what is written back fit the domains of the solver. -/
theorem WrittenBack.fits {t : Subst} (back : s.WrittenBack t) (steady : s.Steady K) (fits : (Solver.new t).Fits vs σ) :
    s.Fits vs σ :=
  fits.of_extends back.acyclic back.extends_ fun v mem => back.mem_peek steady (fits.mem v mem)

theorem WrittenBack.legible {t : Subst} (back : s.WrittenBack t) (steady : s.Steady K) (h : s.Legible) : t.Legible := by
  have orderly := back.orderly steady
  refine ⟨fun v a found => ?_, fun w p mem => Relation.Candid.mono ?_ fun _ _ fits => back.fits steady fits⟩
  · have unbound : t.get? v = none := by
      by_contra bound
      rw [orderly.unbound v bound] at found
      cases found
    have stays : t.walk (.var v) = .var v := Subst.walk_var_of_unbound unbound
    rcases back.fact_eq found with ⟨_, before⟩ | ⟨_, anchored, _⟩
    · rw [← back.acyclic.walk_walk back.extends_, h.stored.anchored v a before, stays]
    · rw [anchored]
      exact stays
  · rcases back.mem_storedWatchers.mp mem with ⟨_, stored⟩ | ⟨_, id, _, found⟩
    · exact h.stored.candid w p stored
    · exact h.work id p found

/-- What is written back from a solver that can be read can be read. -/
theorem Legible.toSubst? {t : Subst} (h : s.Legible) (steady : s.Steady K) (written : s.toSubst? = .ok t) : t.Legible := by
  obtain ⟨t', written', back⟩ := toSubst?_spec steady
  cases written.symm.trans written'
  exact back.legible steady h

/-- A run to a fixpoint leaves propagators that mean what they show. -/
theorem Legible.fixpoint (h : s.Legible) (steady : s.Steady K) :
    Narrow.Leaves s Narrow.fixpoint fun _ u => u.Steady K ∧ u.Legible :=
  (steady.fixpoint.leaves.and (steady.fixpoint_keeps h fun _ _ _ _ turn => turn.legible)).mono
    fun _ _ ⟨ended, legible⟩ => ⟨ended.1, legible⟩

end Solver

end ConstraintLogic
