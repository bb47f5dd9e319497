import ConstraintLogic.Proofs.Propagator.Display

/-!
# What is stored stays legible

Whatever goals do to a substitution, the propagators that it stores go on to mean what
they show to integers that fit its domains, and its domains are stored with the variables
that they are about. Where a variable becomes another one its domain is in transit for a
while: meanwhile the propagators mean what they show to integers that also keep to that
domain.

Results:
* `Subst.Informs.fits`: integers that fit what has been added to a substitution fit it.
* `Subst.Orderly.legible_solveWith`, `Subst.Orderly.legible_solveReduced`: solvers.
* `Subst.OrderlyIn.legible_retire`, `Subst.OrderlyIn.legible_instantiate`: unification.
* `Goal.Posts`: what a goal posts; `Goal.Yields.legible`: goals that post no tables.
-/

namespace ConstraintLogic

namespace Subst

variable {K : Scope} {T : Term → Prop} {s t u : Subst} {v w keep : Var} {d : Domain}
variable {F G : List Var → Assignment → Prop} {vs : List Var} {σ : Assignment}

/-! ## Fitting integers -/

/-- Integers that fit what has been added to a substitution fit the substitution. -/
theorem Informs.fits (h : s.Informs t) (good : t.Orderly K) (fits : (Solver.new t).Fits vs σ) :
    (Solver.new s).Fits vs σ := by
  exact fits.of_extends good.acyclic h.extends_ fun v mem => h.mem_leaves good (fits.mem v mem)

/-- The integers fit, and those of the variables that stand for the same as `v` lie in the
    domain. -/
def FitsWith (s : Subst) (v : Var) (d : Domain) (vs : List Var) (σ : Assignment) : Prop :=
  (Solver.new s).Fits vs σ ∧ ∀ w ∈ vs, s.walk (.var w) = s.walk (.var v) → σ w ∈ d

/-- Where a variable is left with a part of the domain, integers that fit lie in it. -/
theorem Informs.fitsWith (h : s.Informs t) (good : t.Orderly K) (within : t.Within v d)
    (fits : (Solver.new t).Fits vs σ) : s.FitsWith v d vs σ := by
  refine ⟨h.fits good fits, fun w mem same => ?_⟩
  have within' : t.Within w d := within.congr (by
    rw [← good.acyclic.walk_walk h.extends_, same, good.acyclic.walk_walk h.extends_])
  exact (good.within_iff.mp within').2.2 _ (fits.mem w mem)

/-! ## Solvers -/

/-- Propagators that are posted mean what they show, and so do those that are stored. -/
theorem Orderly.legible_solveWith (h : s.Orderly K) (legible : s.Legible) {ps : List Propagator}
    (known : ∀ p ∈ ps, K.known p) (candid : ∀ p ∈ ps, p.val.Candid (Solver.new s).Fits)
    (run : s.solveWith ps = .ok t) : t.Legible := by
  obtain ⟨steady, grows, _⟩ := Solver.Sound.posts ps (Solver.new s) h.steady_new known
  have started : (ps.foldl (fun s p => (s.post p).2) (Solver.new s)).Legible :=
    .of_draws legible (Solver.draws_posts ps _) candid fun vs σ fits => grows.shrinks.fits fits
  obtain ⟨u, ⟨steady', legible'⟩, written⟩ := Solver.of_runToSubst (started.fixpoint steady) run
  exact legible'.toSubst? steady' written

/-- Where a variable is reduced to a domain, it is enough that the propagators mean what
    they show to integers that keep to the domain. -/
theorem Orderly.legible_solveReduced (h : s.Orderly K) (canonical : d.Canonical)
    (full : d = .unbounded → s.Integral K v) (legible : s.LegibleFor F)
    (enough : ∀ vs σ, s.FitsWith v d vs σ → F vs σ) (run : s.solveReduced v d = .ok t) : t.Legible := by
  have reduces := (h.steady_new.reduce (v := v) canonical fun unbounded θ admits =>
    full unbounded θ admits.reading admits.binding).leaves
  obtain ⟨u, ⟨steady', legible'⟩, written⟩ := Solver.of_runToSubst
    ((reduces.and (Solver.draws_reduce (Q := fun _ => False) _ v d)).bind (f := fun _ => Narrow.fixpoint) (R := fun _ u => u.Steady K ∧ u.Legible)
      fun _ u ⟨⟨steady, shrinks, _, left, _⟩, drawn⟩ => by
        refine Solver.Legible.fixpoint (.of_draws legible drawn (fun _ => False.elim) fun vs σ fits => ?_) steady
        refine enough vs σ ⟨shrinks.fits fits, fun w mem same => left _ ?_⟩
        have alike : u.resolve w = u.resolve v := by
          rw [shrinks.resolve]
          unfold Solver.resolve
          rw [show (Solver.new s).subst = s from rfl, same]
        have at_w := fits.mem w mem
        unfold Solver.peek at at_w ⊢
        rwa [← alike]) run
  exact legible'.toSubst? steady' written

/-! ## Attributes -/

theorem LegibleFor.setWatchers {a : Stamped (List Propagator)} (h : s.LegibleFor F)
    (candid : ∀ p ∈ a.val, p.val.Candid F) : (s.setAttr v (.watchers a)).LegibleFor F := by
  refine ⟨fun w b found => ?_, fun w p mem => ?_⟩
  · rw [walk_setAttr]
    refine h.anchored w b ?_
    rw [attributes_setAttr] at found
    split at found
    · exact found
    · exact found
  · obtain ⟨b, found, mem⟩ := mem_storedWatchers_iff.mp mem
    rw [attributes_setAttr] at found
    split at found
    · cases found
      exact candid p mem
    · exact h.candid w p (mem_storedWatchers_iff.mpr ⟨b, found, mem⟩)

theorem LegibleFor.setDomain {a : Stamped DomainFact} (h : s.LegibleFor F)
    (anchored : s.walk (.var a.val.anchor) = .var v) : (s.setAttr v (.domain a)).LegibleFor F := by
  refine ⟨fun w b found => ?_, fun w p mem => ?_⟩
  · rw [walk_setAttr]
    rw [attributes_setAttr] at found
    split at found
    · rename_i same
      cases found
      rw [anchored, same]
    · exact h.anchored w b found
  · obtain ⟨b, found, mem⟩ := mem_storedWatchers_iff.mp mem
    refine h.candid w p (mem_storedWatchers_iff.mpr ⟨b, ?_, mem⟩)
    rw [attributes_setAttr] at found
    split at found
    · exact found
    · exact found

/-- What a variable is bound to and rid of its attributes for is said elsewhere. -/
theorem LegibleFor.bindBare {b : Term} (h : s.LegibleFor F) (acyclic : s.Acyclic) (unbound : s.get? v = none)
    (fresh : s.occurs v b = false) : (s.bindBare v b).LegibleFor F := by
  refine ⟨fun w a found => ?_, fun w p mem => h.candid w p (mem_storedWatchers_bindBare.mp mem).2⟩
  rw [attributes_bindBare] at found
  split at found
  · cases found
  · rename_i other
    have leads := h.anchored w a found
    rw [walk_bindBare acyclic unbound fresh, if_neg fun same => other (by cases leads.symm.trans same; rfl), leads]

/-- Integers that fit where a variable has been bound and rid of its attributes fit before
    if they keep to the domain of that variable. -/
theorem fits_of_bindBare {b : Term} (acyclic : s.Acyclic) (unbound : s.get? v = none) (fresh : s.occurs v b = false)
    (fits : (Solver.new (s.bindBare v b)).Fits vs σ)
    (kept : ∀ w ∈ vs, s.walk (.var w) = .var v → σ w ∈ s.storedDomain v) : (Solver.new s).Fits vs σ := by
  have acyclic' : (s.bindBare v b).Acyclic :=
    Acyclic.bind (s := s.dropAttrs v) acyclic unbound (by rw [occurs_dropAttrs, fresh])
  exact fits.of_extends acyclic' (.bindBare unbound b) fun w mem =>
    mem_leaves_of_bindBare acyclic unbound fresh (fits.mem w mem) (kept w mem)

/-- Nothing but bindings and attributes counts. -/
theorem Legible.congr (h : s.Legible) (bindings : t.bindings = s.bindings) (attributes : t.attributes = s.attributes) :
    t.Legible :=
  have walk : s.walk = t.walk := walk_congr bindings.symm
  (LegibleFor.congr h bindings attributes).mono fun _ _ fits =>
    fits.of_peek (s := Solver.new s) (Solver.resolve_congr walk.symm) fun v n mem => by
      have same : s.leaves v = t.leaves v := leaves_congr bindings.symm attributes.symm
      show n ∈ s.leaves v
      rw [same]
      exact mem

/-- Binding a variable to a term that is no variable. -/
theorem OrderlyIn.legible_instantiate (h : s.OrderlyIn K T) (legible : s.Legible) {b : Term} (unbound : s.get? v = none)
    (sized : b.Sized) (good_b : T b) (run : s.instantiate v b = .ok t) : t.Legible := by
  have acyclic := h.orderly.acyclic
  have fewer (fresh : s.occurs v b = false) (no_domain : (s.attributes v).domain = none) (vs : List Var) (σ : Assignment)
      (fits : (Solver.new (s.bindBare v b)).Fits vs σ) : (Solver.new s).Fits vs σ :=
    fits_of_bindBare acyclic unbound fresh fits fun w _ _ => by
      rw [storedDomain, no_domain]
      exact Domain.mem_unbounded _
  cases h.orderly.instantiates run with
  | narrowed _ _ value reduced =>
    subst value
    exact h.orderly.legible_solveReduced (Solver.canonical_singleton sized) Domain.noConfusion legible
      (fun _ _ fits => fits.1) reduced
  | bound fresh no_domain _ done =>
    subst done
    exact (legible.bindBare acyclic unbound fresh).mono (fewer fresh no_domain)
  | propagated fresh no_domain at_v ran =>
    refine (h.bindBare unbound fresh sized good_b).orderly.legible_solveWith
      ((legible.bindBare acyclic unbound fresh).mono (fewer fresh no_domain)) (carries_of_watchers at_v)
      (fun p mem => ?_) ran
    exact (legible.candid v p (mem_storedWatchers_iff.mpr ⟨_, at_v, mem⟩)).mono (fewer fresh no_domain)

/-- Propagators that move to a variable. -/
theorem OrderlyIn.legible_moveWatchers (h : s.OrderlyIn K T) (ints : ∀ n, isValue n = true → T (.int n))
    {joined joined' : List Attribute} {ps : Stamped (List Propagator)} (suits : s.Suits K.known keep (.watchers ps))
    (legible : s.Legible) (candid : ∀ p ∈ ps.val, p.val.Candid (Solver.new s).Fits)
    (run : Subst.moveAttr keep (s, joined) (.watchers ps) = .ok (t, joined')) : t.Legible := by
  have moved := h.moveAttr ints joined suits
  rw [run] at moved
  obtain ⟨good, _⟩ := moved
  obtain ⟨informs, _⟩ := h.informs_moveAttr ints suits run
  cases suits.moves run with
  | taken _ _ done =>
    subst done
    exact (LegibleFor.setWatchers legible candid).mono fun _ _ fits => informs.fits good.orderly fits
  | narrowed is_domain => cases is_domain
  | @united rep _ b u is_watchers leads at_rep solved back =>
    cases is_watchers
    have unbound := h.orderly.acyclic.get?_of_walk leads
    have here : s.walk (.var rep) = s.walk (.var keep) := by rw [leads, walk_var_of_unbound unbound]
    have attached := h.orderly.attachUnion at_rep unbound (suits.congr here)
    have all (p : Propagator) (mem : p ∈ unionWatchers b.val ps.val) : p.val.Candid (Solver.new s).Fits := by
      rcases mem_of_mem_unionWatchers mem with before | new
      · exact legible.candid rep p (mem_storedWatchers_iff.mpr ⟨b, at_rep, before⟩)
      · exact candid p new
    have fewer (vs : List Var) (σ : Assignment) (fits : (Solver.new (s.attachUnion rep b ps)).Fits vs σ) :
        (Solver.new s).Fits vs σ := (s.informs_attachUnion rep b ps).fits attached fits
    have stamped : (s.stamped (unionWatchers b.val ps.val)).2.LegibleFor (Solver.new s).Fits :=
      LegibleFor.congr legible rfl rfl
    have ran : u.Legible := attached.legible_solveWith ((stamped.setWatchers all).mono fewer) carries_attachUnion
      (fun p mem => (all p mem).mono fewer) solved
    rcases back with rfl | rfl
    · exact ran
    · exact ran.congr (u.putBack_frame rep _).1 (u.attributes_putBack rep _)
  | consulted _ consulted =>
    exact h.orderly.legible_solveWith legible (fun p mem => (suits.2 p mem).1) candid (solveWith_of_validate consulted)

/-- A domain that moves to an unbound variable. Until then it is enough that propagators
    mean what they show to integers that keep to it. -/
theorem OrderlyIn.legible_moveDomain (h : s.OrderlyIn K T) (ints : ∀ n, isValue n = true → T (.int n))
    {joined joined' : List Attribute} {c : Stamped DomainFact} (suits : s.Suits K.known keep (.domain c))
    (unbound : s.get? keep = none) (anchored : s.walk (.var c.val.anchor) = .var keep)
    (legible : s.LegibleFor (s.FitsWith keep c.val.domain))
    (run : Subst.moveAttr keep (s, joined) (.domain c) = .ok (t, joined')) : t.Legible := by
  have moved := h.moveAttr ints joined suits
  rw [run] at moved
  obtain ⟨good, _⟩ := moved
  obtain ⟨informs, within⟩ := h.informs_moveAttr ints suits run
  have here : s.walk (.var keep) = .var keep := walk_var_of_unbound unbound
  cases suits.moves run with
  | taken leads _ done =>
    cases here.symm.trans leads
    subst done
    exact (legible.setDomain anchored).mono fun _ _ fits => informs.fitsWith good.orderly (within c rfl) fits
  | @narrowed _ _ _ u is_domain leads _ reduced back =>
    cases is_domain
    cases here.symm.trans leads
    have ran : u.Legible := h.orderly.legible_solveReduced suits.canonical (fun full => absurd full suits.finite) legible
      (fun _ _ fits => fits) reduced
    rcases back with rfl | rfl
    · exact ran
    · exact ran.congr (u.putBack_frame keep _).1 (u.attributes_putBack keep _)
  | united is_watchers => cases is_watchers
  | consulted value => exact absurd here (value keep)

theorem OrderlyIn.legible_settleAll (h : s.OrderlyIn K T) (ints : ∀ n, isValue n = true → T (.int n))
    (legible : s.Legible) (joined : List Attribute) (run : joined.foldlM (Subst.settleAt keep) s = .ok t) : t.Legible :=
  h.settleAll_keeps ints (fun good legible at_v run =>
    good.orderly.legible_solveWith legible (carries_of_watchers at_v)
      (fun p mem => legible.candid _ p (mem_storedWatchers_iff.mpr ⟨_, at_v, mem⟩)) run) joined legible run

/-- Where a variable becomes another one, the propagators of both go on to mean what they
    show: first the domain moves and then the propagators, which meanwhile mean what they
    show to integers that also keep to that domain. -/
theorem OrderlyIn.legible_retire (h : s.OrderlyIn K T) (ints : ∀ n, isValue n = true → T (.int n))
    (legible : s.Legible) (retires : s.Retires keep v) (good : T (.var keep)) (run : s.retire keep v = .ok t) :
    t.Legible := by
  have acyclic := h.orderly.acyclic
  have bare := h.bindRetired retires good
  have there {x : Var} (here : s.walk (.var x) = .var v) :
      (s.bindBare v (.var keep)).walk (.var x) = (s.bindBare v (.var keep)).walk (.var keep) := by
    rw [walk_bindBare acyclic retires.unbound retires.fresh, if_pos here]
  have suits (a : Attribute) (mem : a ∈ (s.attributes v).toList) := h.orderly.suits_retired retires mem
  have bound := legible.bindBare acyclic retires.unbound retires.fresh
  -- What is left to do once all that is stored means what it shows.
  have finish (u : Subst) (good : u.OrderlyIn { K with known := s.Carries K } T) (legible' : u.Legible)
      (ext : (s.bindBare v (.var keep)).Extends u)
      (fewer : ∀ vs σ, (Solver.new u).Fits vs σ → (Solver.new s).Fits vs σ) (joined : List Attribute)
      (run : u.moveAll keep ((s.attributes v).watchers.map Attribute.watchers).toList joined = .ok t) : t.Legible := by
    cases watched : (s.attributes v).watchers with
    | none =>
      rw [watched] at run
      exact good.legible_settleAll ints legible' _ run
    | some ps =>
      rw [watched] at run
      have at_ps := suits (.watchers ps)
        (Attributes.mem_toList.mpr (by simp [Attribute.name, Attributes.get?, watched]))
      rw [Option.map_some, Option.toList_some, moveAll_cons] at run
      obtain ⟨⟨u', joined'⟩, moves, settles⟩ := exists_of_bind_ok run
      have suits' := at_ps.of_extends good.orderly.acyclic ext
      have moved := good.moveAttr ints joined suits'
      rw [moves] at moved
      refine moved.1.legible_settleAll ints (good.legible_moveWatchers ints suits' legible' (fun p mem => ?_) moves) _
        settles
      exact (legible.candid v p (mem_storedWatchers_iff.mpr ⟨ps, watched, mem⟩)).mono fewer
  have list := h.orderly.toList_attributes v
  cases at_v : (s.attributes v).domain with
  | none =>
    rw [Subst.retire, list, at_v] at run
    have fewer (vs : List Var) (σ : Assignment) (fits : (Solver.new (s.bindBare v (.var keep))).Fits vs σ) :
        (Solver.new s).Fits vs σ := fits_of_bindBare acyclic retires.unbound retires.fresh fits fun w _ _ => by
      rw [storedDomain, at_v]
      exact Domain.mem_unbounded _
    exact finish _ bare (bound.mono fewer) (.refl _) fewer [] run
  | some c =>
    have fewer (vs : List Var) (σ : Assignment) (fits : (s.bindBare v (.var keep)).FitsWith keep c.val.domain vs σ) :
        (Solver.new s).Fits vs σ := fits_of_bindBare acyclic retires.unbound retires.fresh fits.1 fun w mem here => by
      rw [storedDomain, at_v]
      exact fits.2 w mem (there here)
    have at_c := suits (.domain c) (Attributes.mem_toList.mpr (by simp [Attribute.name, Attributes.get?, at_v]))
    rw [Subst.retire, list, at_v, Option.map_some, Option.toList_some, List.singleton_append, moveAll_cons] at run
    obtain ⟨⟨u, joined⟩, moves, rest⟩ := exists_of_bind_ok run
    have moved := bare.moveAttr ints [] at_c
    rw [moves] at moved
    obtain ⟨good', ext, _⟩ := moved
    obtain ⟨informs, within⟩ := bare.informs_moveAttr ints at_c moves
    refine finish u good' (bare.legible_moveDomain ints at_c retires.get?_keep ?_ (bound.mono fewer) moves) ext
      (fun vs σ fits => fewer vs σ (informs.fitsWith good'.orderly (within c rfl) fits)) joined rest
    rw [there (legible.anchored v c at_v), retires.walk_keep]

/-- Binding a variable leaves what is stored legible. -/
theorem lasting_legible (K : Scope) : Lasting K Legible where
  retire good ints legible retires good_keep run := good.legible_retire ints legible retires good_keep run
  instantiate good _ legible unbound _ sized good_b run := good.legible_instantiate legible unbound sized good_b run

/-- Unification leaves what is stored legible. -/
theorem Orderly.legible_unify (h : s.Orderly K) (legible : s.Legible) {a b : Term} (sized_a : a.Sized)
    (sized_b : b.Sized) (run : s.unify a b = .ok t) : t.Legible :=
  (lasting_legible K).unify h legible sized_a sized_b run

/-! ## Labeling -/

/-- The answers of labeling are legible. -/
theorem Orderly.legible_label {vs : List Var} {solver : Solver} (h : s.Orderly K) (complete : s.Complete)
    (legible : s.Legible) (integral : ∀ v ∈ vs, s.Integral K v)
    (started : (do Solver.requireNonempty vs; modify Solver.wakeAll; Narrow.fixpoint : Narrow Unit)
      (Solver.new s) = .ok () solver)
    (leaf : solver.Leaf vs t) : t.Legible := by
  obtain ⟨u, poised, legible', _, written⟩ := h.lasting_of_label complete (Solver.lasting_legible K)
    (fun m awake => .of_draws legible awake.drawn (fun _ => False.elim) fun vs σ fits =>
      awake.grows.shrinks.fits fits) integral started leaf
  exact legible'.toSubst? poised.steady written

end Subst

/-! ## Goals -/

namespace Goal

variable {W : Relation → Prop}

/-- The goal posts only relations of a kind, as far as it says so without calls. -/
def Posts (W : Relation → Prop) : Goal → Prop
  | conj g h => g.Posts W ∧ h.Posts W
  | disj g h => g.Posts W ∧ h.Posts W
  | par _ g h => g.Posts W ∧ h.Posts W
  | suspend g => g.Posts W
  | not g => g.Posts W
  | once g => g.Posts W
  | ifte cond yes no => cond.Posts W ∧ yes.Posts W ∧ no.Posts W
  | fresh _ body => ∀ vs, (body vs).Posts W
  | post r => W r
  | posted p => W p.val
  | reserve _ body => ∀ k, (body k).Posts W
  | _ => True

theorem posts_conjAll {gs : List Goal} (h : ∀ g ∈ gs, g.Posts W) : (conjAll gs).Posts W :=
  conjAll_of_forall (Q := (·.Posts W)) trivial (fun first second => ⟨first, second⟩) h

theorem posts_disjAll {gs : List Goal} (h : ∀ g ∈ gs, g.Posts W) : (disjAll gs).Posts W :=
  disjAll_of_forall (Q := (·.Posts W)) trivial (fun first second => ⟨first, second⟩) h

theorem posts_conde {clauses : List (List Goal)} (h : ∀ clause ∈ clauses, ∀ g ∈ clause, g.Posts W) :
    (conde clauses).Posts W :=
  conde_of_forall (Q := (·.Posts W)) posts_conjAll posts_disjAll h

end Goal

/-- The relations of a program mean goals that post only relations of a kind. -/
def Program.Posts (W : Relation → Prop) (program : Program) : Prop := ∀ name args, (program name args).Posts W

theorem RelName.posts_body {W : Relation → Prop} {program : Program} (posts : program.Posts W) (r : RelName)
    (args : List Term) : (r.body program args).Posts W := by
  unfold RelName.body
  split
  · rename_i l s out
    refine Goal.posts_conde ?_
    simp only [List.forall_mem_cons]
    refine ⟨⟨trivial, trivial, by simp⟩, ⟨fun vs => ?_, by simp⟩, by simp⟩
    dsimp only
    split
    · exact Goal.posts_conjAll (by simp [Goal.cons, Goal.append, Goal.Posts])
    · trivial
  · rename_i x l
    have posts_first : (Goal.first l x).Posts W := by
      intro vs
      dsimp only
      split <;> trivial
    have posts_rest (tail : Var) : (Goal.rest l (.var tail)).Posts W := by
      intro vs
      dsimp only
      split <;> trivial
    refine Goal.posts_conde ?_
    simp only [List.forall_mem_cons]
    refine ⟨⟨posts_first, by simp⟩, ⟨fun vs => ?_, by simp⟩, by simp⟩
    dsimp only
    split
    · exact ⟨posts_rest _, trivial⟩
    · trivial
  · exact posts _ _
  · trivial

/-- A goal that posts no tables leads from what is legible to what is legible. -/
theorem Goal.Yields.legible {program : Program} (fair : program.Fair) (primary : program.Posts Relation.Primary)
    {g : Goal} {s t : Subst} (h : g.Yields program s t) : ∀ {known : Propagator → Prop}, g.Fair known →
      g.Posts Relation.Primary → s.Orderly (.ints known) → s.Complete → s.Legible → t.Legible := by
  induction h with
  | succeed => exact fun _ _ _ _ legible => legible
  | eq unified => exact fun stated _ good _ legible => good.legible_unify legible stated.1 stated.2 unified
  | conj first _ ih ih' =>
    exact fun stated posts good complete legible => ih' stated.2 posts.2 (first.orderly fair stated.1 good)
      (first.complete fair stated.1 good complete) (ih stated.1 posts.1 good complete legible)
  | disjLeft _ ih => exact fun stated posts => ih stated.1 posts.1
  | disjRight _ ih => exact fun stated posts => ih stated.2 posts.2
  | suspend _ ih => exact fun stated posts => ih stated posts
  | fresh _ ih =>
    exact fun stated posts good complete legible => ih (stated _) (posts _) (good.congr rfl rfl (Nat.le_refl _))
      (complete.congr rfl rfl) (legible.congr rfl rfl)
  | call _ ih =>
    exact fun stated _ => ih ((RelName.fair_body fair _ stated).mono fun _ => False.elim)
      (RelName.posts_body primary _ _)
  | not => exact fun _ _ _ _ legible => legible
  | ifteYes found _ ih ih' =>
    exact fun stated posts good complete legible => ih' stated.2.1 posts.2.1 (found.orderly fair stated.1 good)
      (found.complete fair stated.1 good complete) (ih stated.1 posts.1 good complete legible)
  | ifteNo _ ih => exact fun stated posts => ih stated.2.2 posts.2.2
  | once _ ih => exact fun stated posts => ih stated posts
  | parLeft _ ih => exact fun stated posts => ih stated.1 posts.1
  | parRight _ ih => exact fun stated posts => ih stated.2 posts.2
  | always => exact fun _ _ _ _ legible => legible
  | @post r s t solved =>
    intro known stated posts good _ legible
    have stamped := good.stamp stated fun v _ => Subst.integral_ints v
    exact stamped.legible_solveWith (legible.congr rfl rfl) (List.forall_mem_singleton.mpr (.inr rfl))
      (List.forall_mem_singleton.mpr (Relation.Primary.candid posts)) solved
  | posted solved =>
    exact fun stated posts good _ legible => good.legible_solveWith legible (List.forall_mem_singleton.mpr stated)
      (List.forall_mem_singleton.mpr (Relation.Primary.candid posts)) solved
  | narrow solved =>
    exact fun stated _ good _ legible => good.legible_solveReduced stated (fun _ => Subst.integral_ints _) legible
      (fun _ _ fits => fits.1) solved
  | label started leaf =>
    exact fun _ _ good complete legible =>
      good.legible_label complete legible (fun v _ => Subst.integral_ints v) started leaf
  | unlabeled _ => exact fun _ _ _ _ legible => legible
  | labelAll _ ih => exact fun _ _ => ih trivial trivial
  | reserve _ ih =>
    intro known stated posts good complete legible
    obtain ⟨own, ranges, coherent, holds⟩ := stated _
    exact ih holds (posts _) (good.reserve ranges coherent) (complete.congr rfl rfl) (legible.congr rfl rfl)

theorem Subst.legible_empty : Subst.empty.Legible :=
  ⟨fun v a found => by simp at found, fun v p mem => by simp [Subst.storedWatchers] at mem⟩

end ConstraintLogic
