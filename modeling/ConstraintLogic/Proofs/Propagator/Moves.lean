import ConstraintLogic.Proofs.Solver.Alignment
import ConstraintLogic.Proofs.Solver.OtherAttributes
import ConstraintLogic.Proofs.Solver.Termination

/-!
# The moves of a run

Whatever relation a propagator is for, its run is a series of few kinds of moves: variables
are loaded and narrowed, the propagator subscribes again, others are woken, and another
relation may take its place. This is so however the run ends; a conflict undoes nothing of
what was done before. A property of solvers that every move keeps is kept by the whole run,
and with the steps between two runs by the loop.

Results:
* `Solver.Move`, `Solver.Moves`: what a run does to its solver.
* `Solver.Tidy.moves`: moves leave a tidy solver.
* `Solver.Reduces`: how a reduction ends.
* `Narrow.Moving`: a narrowing that consists of moves, with what is known of its result.
* `Narrow.moving_propagate`: a run of any relation consists of moves.
* `Narrow.upholds_fixpoint`: what every turn of the loop upholds, the loop upholds, however
  it ends.
-/

namespace ConstraintLogic

namespace Solver

variable {s t u : Solver} {id : PropId} {v w : Var} {d : Domain} {r : Relation}

/-! ## Moves -/

/-- A new propagator for `r` is put in the place of the one with the number. -/
def become (s : Solver) (id : PropId) (r : Relation) : Solver :=
  ({ s with subst := (s.subst.stamped r).2 } : Solver).replace id (s.subst.stamped r).1

/-- What a run of the propagator with that number does to its solver at a time: it loads a
    variable, subscribes to one, takes values from a domain but not all, puts a propagator on
    the agenda, or goes on as another relation. -/
inductive Move (id : PropId) (s : Solver) : Solver → Prop
  | load {w : Var} (root : s.resolve w = .free w) : Move id s (s.load w)
  | subscribe {w : Var} (root : s.resolve w = .free w) (loaded : w ∈ s.domains) : Move id s (s.addSubscriber id w)
  | narrow {w : Var} {d : Domain} (root : s.resolve w = .free w) (loaded : w ∈ s.domains) (canonical : d.Canonical)
      (some_left : d.isEmpty = false) (sub : ∀ n ∈ d, n ∈ s.current w) : Move id s (s.narrowTo w d)
  | enqueue (j : PropId) : Move id s (s.enqueue j)
  | become {r : Relation} (sized : r.Sized) : Move id s (s.become id r)

/-- A series of moves. -/
abbrev Moves (id : PropId) : Solver → Solver → Prop := Relation.ReflTransGen (Move id)

/-- What is left of a propagator that is replaced: the substitution has given a stamp. -/
theorem matched_become (s : Solver) (id : PropId) (r : Relation) : s.Matches (s.become id r) := by
  obtain ⟨t, run, bindings, attrs, domains, -⟩ := s.replaceWith_spec id r
  cases run
  exact matched_of_eq bindings attrs domains

theorem matched_enqueue (s : Solver) (id : PropId) : s.Matches (s.enqueue id) := (s.grows_enqueue id).matched

theorem Tidy.narrowTo (tidy : s.Tidy) (canonical : d.Canonical) (w : Var) : (s.narrowTo w d).Tidy where
  root := tidy.root
  canonical v := by
    rw [peek_narrowTo]
    split
    · exact canonical
    · exact tidy.canonical v

theorem Tidy.move (tidy : s.Tidy) (move : s.Move id t) : t.Tidy := by
  cases move with
  | load root => exact (s.grows_load _).1.matched.tidy tidy
  | subscribe root loaded => exact (s.grows_addSubscriber id _).matched.tidy tidy
  | narrow root loaded canonical some_left sub => exact tidy.narrowTo canonical _
  | enqueue j => exact (s.matched_enqueue j).tidy tidy
  | become sized => exact (s.matched_become id _).tidy tidy

/-- Moves leave a tidy solver. -/
theorem Tidy.moves (tidy : s.Tidy) (moves : s.Moves id t) : t.Tidy := by
  induction moves with
  | refl => exact tidy
  | tail _ move ih => exact ih.move move

/-! ## Moves of the solver's operations -/

theorem Tidy.moves_domain (tidy : s.Tidy) (v : Var) : s.Moves id (s.domain v).2 := by
  unfold Solver.domain
  cases found : s.resolve v with
  | free w => exact .single (.load (tidy.root v w found))
  | _ => exact .refl

theorem Tidy.moves_subscribe (tidy : s.Tidy) (id : PropId) (v : Var) : s.Moves id (s.subscribe id v) := by
  unfold Solver.subscribe
  cases found : s.resolve v with
  | free w =>
    have root := tidy.root v w found
    obtain ⟨grows, loaded⟩ := s.grows_load w
    exact .tail (.single (.load root)) (.subscribe (by rw [grows.resolve, root]) loaded)
  | _ => exact .refl

theorem Tidy.moves_resubscribe (id : PropId) (vs : List Var) : ∀ {s : Solver}, s.Tidy →
    s.Moves id (s.resubscribe id vs) := by
  induction vs with
  | nil => exact fun _ => .refl
  | cons v vs ih =>
    intro s tidy
    have asked : s.Moves id (s.domain v).2 := tidy.moves_domain v
    have tidy' := tidy.moves asked
    refine .trans (b := if (s.domain v).1.hasSolution then (s.domain v).2 else (s.domain v).2.subscribe id v) ?_ ?_
    · split
      · exact asked
      · exact asked.trans (tidy'.moves_subscribe id v)
    · refine ih ?_
      split
      · exact tidy'
      · exact tidy'.moves (tidy'.moves_subscribe id v)

theorem moves_enqueueAll (ids : List PropId) : ∀ s : Solver, s.Moves id (ids.foldl enqueue s) := by
  induction ids with
  | nil => exact fun _ => .refl
  | cons j ids ih => exact fun s => .head (.enqueue j) (ih _)

/-! ## Reducing -/

/-- How the reduction of `v` to `d` ends on a solver: it finds no unbound variable and leaves
    the solver, it would leave no value, it changes nothing, or it narrows a domain and wakes
    the subscribers of its variable. -/
inductive Reduces (v : Var) (d : Domain) (s : Solver) : EStateM.Result Halt Solver Unit → Prop
  | bound {e : EStateM.Result Halt Solver Unit} (bound : ∀ w, s.resolve v ≠ .free w)
      (same : e = .ok () s ∨ e = .error .conflict s) : Reduces v d s e
  | empty {w : Var} (free : s.resolve v = .free w) (none_left : ((s.peek w).intersect d).isEmpty = true) :
      Reduces v d s (.error .conflict (s.domain w).2)
  | kept {w : Var} (free : s.resolve v = .free w) (same : (s.peek w).intersect d = s.peek w) :
      Reduces v d s (.ok () (s.domain w).2)
  | narrowed {w : Var} (free : s.resolve v = .free w) (some_left : ((s.peek w).intersect d).isEmpty = false) :
      Reduces v d s (.ok () (((s.domain w).2.narrowTo w ((s.peek w).intersect d)).excite w))

theorem reduces (s : Solver) (v : Var) (d : Domain) : s.Reduces v d (Narrow.reduce v d s) := by
  rw [reduce_eq]
  cases found : s.resolve v with
  | value n =>
    refine .bound (by simp [found]) ?_
    dsimp only [Narrow.require]
    split
    · exact .inl rfl
    · exact .inr rfl
  | other => exact .bound (by simp [found]) (.inr rfl)
  | free w =>
    dsimp only
    rw [(s.domain_spec w).1]
    split
    · exact .empty found ‹_›
    rename_i some_left
    split
    · exact .kept found ‹_›
    · exact .narrowed found (by simpa using some_left)

/-- Where a variable is narrowed to what it has in common with a domain, it is loaded, and
    nothing is new. -/
theorem Tidy.narrowed (tidy : s.Tidy) (canonical : d.Canonical) (free : s.resolve v = .free w) :
    (s.domain w).2.resolve w = .free w ∧ w ∈ (s.domain w).2.domains ∧ ((s.peek w).intersect d).Canonical ∧
      ∀ n ∈ (s.peek w).intersect d, n ∈ (s.domain w).2.current w := by
  have root := tidy.root v w free
  obtain ⟨eq, grows⟩ := s.domain_spec w
  refine ⟨by rw [grows.resolve, root], ?_, Domain.canonical_intersect (tidy.canonical w) canonical, fun n mem => ?_⟩
  · unfold Solver.domain
    rw [root]
    exact (s.grows_load w).2
  · rw [grows.current, ← peek_of_free root]
    exact ((Domain.mem_intersect (tidy.canonical w) canonical).mp mem).1

end Solver

namespace Narrow

open Solver

variable {α β : Type} {id : PropId} {s : Solver} {m : Narrow α} {f : α → Narrow β} {Q : α → Prop} {R : β → Prop}
variable {v w x y z : Var} {c : Int} {d : Domain} {r : Relation}

/-! ## Narrowings that consist of moves -/

theorem bind_cases (m : Narrow α) (f : α → Narrow β) (s : Solver) :
    (∃ a t, m s = .ok a t ∧ (m >>= f) s = f a t) ∨ ∃ why t, m s = .error why t ∧ (m >>= f) s = .error why t := by
  change (∃ a t, m s = .ok a t ∧ EStateM.bind m f s = f a t) ∨
    ∃ why t, m s = .error why t ∧ EStateM.bind m f s = .error why t
  unfold EStateM.bind
  cases m s with
  | ok a t => exact .inl ⟨a, t, rfl, rfl⟩
  | error why t => exact .inr ⟨why, t, rfl, rfl⟩

/-- On a tidy solver the narrowing is a series of moves, however it ends, and a result that it
    has satisfies `Q`. -/
def Moving (id : PropId) (m : Narrow α) (Q : α → Prop) : Prop :=
  ∀ s : Solver, s.Tidy → s.Moves id (leaving (m s)) ∧ Leaves s m fun a _ => Q a

theorem Moving.pure {a : α} (good : Q a) : Moving id (Pure.pure a) Q := fun _ _ => ⟨.refl, .pure good⟩

theorem moving_throw (why : Halt) : Moving id (throw why : Narrow α) Q := fun _ _ => ⟨.refl, leaves_throw⟩

theorem Moving.mono {Q' : α → Prop} (h : Moving id m Q) (weaker : ∀ a, Q a → Q' a) : Moving id m Q' :=
  fun s tidy => ⟨(h s tidy).1, (h s tidy).2.mono fun a _ => weaker a⟩

theorem Moving.bind (h : Moving id m Q) (next : ∀ a, Q a → Moving id (f a) R) : Moving id (m >>= f) R := by
  intro s tidy
  obtain ⟨moves, good⟩ := h s tidy
  unfold Leaves
  obtain ⟨a, t, run, whole⟩ | ⟨why, t, run, whole⟩ := bind_cases m f s
  all_goals rw [run] at moves
  · obtain ⟨moves', good'⟩ := next a (good a t run) t (tidy.moves moves)
    rw [whole]
    exact ⟨moves.trans moves', good'⟩
  · rw [whole]
    exact ⟨moves, nofun⟩

theorem moving_get : Moving id get fun _ => True := fun _ _ => ⟨.refl, fun _ _ _ => trivial⟩

theorem moving_modify {g : Solver → Solver} (step : ∀ s : Solver, s.Tidy → s.Moves id (g s)) :
    Moving id (modify g) fun _ => True := fun s tidy => ⟨step s tidy, fun _ _ _ => trivial⟩

/-! ## Steps -/

theorem moving_domain (v : Var) : Moving id (domain v) Domain.Canonical := fun s tidy => by
  refine ⟨tidy.moves_domain v, fun _ _ run => ?_⟩
  cases run
  exact (s.domain_spec v).1 ▸ tidy.canonical v

theorem moving_sameVar (v w : Var) : Moving id (sameVar v w) fun _ => True :=
  moving_get.bind fun _ _ => .pure trivial

/-- The integer that a variable stands for has 64 bits. -/
theorem moving_resolve (v : Var) : Moving id (resolve v) fun found => ∀ n, found = .value n → isValue n = true := by
  intro s tidy
  refine ⟨.refl, fun _ _ run n found => ?_⟩
  cases run
  have peek : s.peek v = .singleton n := by simp only [peek, found]
  refine tidy.isValue_of_mem (v := v) ?_ (peek ▸ Domain.mem_singleton.mpr rfl)
  rw [peek]
  intro same
  cases same

/-- Reducing a domain loads it, narrows it and wakes its subscribers. -/
theorem moving_reduce (v : Var) (canonical : d.Canonical) : Moving id (reduce v d) fun _ => True := by
  refine fun s tidy => ⟨?_, fun _ _ _ => trivial⟩
  have reduces := s.reduces v d
  generalize reduce v d s = e at reduces
  cases reduces with
  | bound bound same => rcases same with rfl | rfl <;> exact .refl
  | empty free none_left => exact tidy.moves_domain _
  | kept free same => exact tidy.moves_domain _
  | narrowed free some_left =>
    obtain ⟨root, loaded, next, sub⟩ := tidy.narrowed canonical free
    exact ((tidy.moves_domain _).tail (.narrow root loaded next some_left sub)).trans (moves_enqueueAll _ _)

theorem moving_resubscribe (vs : List Var) : Moving id (resubscribe id vs) fun _ => True :=
  moving_modify fun _ tidy => tidy.moves_resubscribe id vs

theorem moving_replaceWith (sized : r.Sized) : Moving id (replaceWith id r) fun _ => True :=
  moving_modify fun _ _ => .single (.become sized)

/-! ## Runs -/

/-- That a narrowing consists of moves has a rule for every step. -/
theorem moving_rules (id : PropId) : Rules id (fun _ => True) True False (fun _ _ => True) (Moving id) where
  sized := False.elim
  pure := Moving.pure
  throw _ := moving_throw _
  bind := Moving.bind
  domain _ := (moving_domain _).mono fun _ canonical => ⟨fun _ => canonical, False.elim⟩
  sameVar v w := moving_sameVar v w
  aliases _ := moving_get.bind fun _ _ => .pure trivial
  resolve _ := (moving_resolve _).mono fun _ value =>
    ⟨fun _ _ => ⟨trivial, False.elim⟩, fun n found => ⟨fun _ => value n found, False.elim⟩⟩
  reduce _ canonical := moving_reduce _ (canonical trivial)
  resubscribe _ := moving_resubscribe _
  replaceWith _ sized _ := moving_replaceWith (sized trivial)

/-- A run of any relation consists of moves, however it ends. -/
theorem moving_propagate (id : PropId) (sized : r.Sized) : Moving id (propagate id r) fun _ => True :=
  (moving_rules id).propagate (fun _ _ => trivial) (fun _ => sized) False.elim

/-! ## The loop -/

/-- The narrowing keeps the property, however it ends. -/
def Upholds (I : Solver → Prop) (m : Narrow α) : Prop := ∀ s, I s → I (leaving (m s))

variable {I : Solver → Prop}

theorem Upholds.bind (h : Upholds I m) (next : ∀ a, Upholds I (f a)) : Upholds I (m >>= f) := by
  intro s holds
  have first := h s holds
  obtain ⟨a, t, run, whole⟩ | ⟨why, t, run, whole⟩ := bind_cases m f s
  all_goals
    rw [run] at first
    rw [whole]
  · exact next a t first
  · exact first

/-- A run consists of moves, which start where the propagator has given up its subscriptions. -/
theorem moves_runNumbered {p : Propagator} (tidy : s.Tidy) (found : s.prop? id = some p) (sized : p.val.Sized) :
    (s.unsubscribe id).Moves id (leaving (runNumbered id s)) := by
  obtain ⟨m, eq⟩ := s.unsubscribe_frame id
  have tidy' : (s.unsubscribe id).Tidy := by
    refine Matches.tidy ?_ tidy
    rw [eq]
    exact matched_of_eq rfl rfl rfl
  have run : runNumbered id s = propagate id p.val (s.unsubscribe id) := by rw [runNumbered_eq, found]
  rw [run]
  exact (moving_propagate id sized _ tidy').1

/-- What is upheld by each turn, in which a number comes off the agenda and is run, is upheld
    by the loop. -/
theorem upholds_runWaiting (turn : ∀ s id a, I s → s.agenda.pop? = some (id, a) →
    I (leaving (runNumbered id { s with agenda := a }))) : ∀ n, Upholds I (runWaiting n)
  | 0 => fun _ holds => holds
  | n + 1 => by
    intro s holds
    cases popped : s.agenda.pop? with
    | none =>
      rw [runWaiting_of_none n popped]
      exact holds
    | some entry =>
      obtain ⟨id, a⟩ := entry
      have first := turn s id a holds popped
      rw [runWaiting_of_some n popped]
      obtain ⟨_, t, run, whole⟩ | ⟨why, t, run, whole⟩ :=
        bind_cases (runNumbered id) (fun _ => runWaiting n) { s with agenda := a }
      all_goals
        rw [run] at first
        rw [whole]
      · exact upholds_runWaiting turn n t first
      · exact first

theorem upholds_fixpoint (turn : ∀ s id a, I s → s.agenda.pop? = some (id, a) →
    I (leaving (runNumbered id { s with agenda := a }))) : Upholds I fixpoint :=
  Upholds.bind (fun _ holds => holds) fun _ => upholds_runWaiting turn _

end Narrow

end ConstraintLogic
