import ConstraintLogic.Proofs.Solver.History

/-!
# What a call loads

A call that is about a variable loads it, together with all that is connected to it by stored
propagators. What is stored with the variables that are loaded then was numbered once, or once
more when it was posted after it had been replaced, and all of its variables are loaded. The
domain of a variable that was loaded before is what it was, unless the call reduces it.

Results:
* `Solver.Records.tracks`: every history tracks its solver.
* `Solver.Call.loads_touched`: a call loads the variables that it is about.
* `Solver.Call.domain_kept`: it leaves loaded domains as they are, but reduces the one that it
  is to reduce.
* `Subst.Produced.call_covers`: what is loaded and numbered after a call.
* `Subst.stored_not_covered`: a propagator that is numbered twice, and one whose variables are
  not loaded.
-/

namespace ConstraintLogic

namespace Solver

variable {subst : Subst} {h : History} {s t : Solver} {c : Call} {v w : Var} {d : Domain} {p : Propagator}

/-- Nothing has happened to a solver that was opened on a substitution that goals produce. -/
theorem History.tracks_new (produced : subst.Produced) : ({} : History).Tracks (.new subst) where
  tidy := .of_produced produced
  sized id p found := by simp [Solver.new, prop?] at found
  stored v p stored :=
    ⟨(produced.orderly.proper p (.inr ⟨v, stored⟩)).sized, produced.orderly.stamped p (.inr ⟨v, stored⟩)⟩
  mentions v p stored := by
    obtain ⟨x, mem, walks⟩ := produced.orderly.mentions v p stored
    exact ⟨x, mem, resolve_eq_free_iff.mpr walks⟩
  coherent p q known known' same := by
    have stored {p : Propagator} (known : ({} : History).Knows (.new subst) p) : ∃ v, p ∈ subst.storedWatchers v :=
      known.resolve_left List.not_mem_nil
    exact produced.orderly.coherent p q (.inr (stored known)) (.inr (stored known')) same
  numbers n id at_n := by simp [Solver.new] at at_n
  size := rfl
  original id p at_id := by simp at at_id
  apart v _ p _ := ⟨List.not_mem_nil, fun id q found => by simp [Solver.new, prop?] at found⟩
  taken w loaded := by simp [Solver.new] at loaded
  closed p given := absurd given List.not_mem_nil
  subscribed id p at_id := by simp at at_id
  once p given := absurd given List.not_mem_nil
  repeats p repeated := absurd repeated List.not_mem_nil

/-- Calls and turns keep what a history tells. -/
theorem Records.tracks (produced : subst.Produced) (records : Records subst h s) : h.Tracks s := by
  induction records with
  | new => exact History.tracks_new produced
  | call _ c apt ih => exact ih.call apt
  | turn _ popped ih => exact ih.turn

/-- Waking the subscribers of a variable that was narrowed changes no domain. -/
theorem getElem?_excited (s : Solver) (w u : Var) (e : Domain) :
    ((s.narrowTo w e).excite w).domains[u]? = if w = u then some e else s.domains[u]? := by
  obtain ⟨a, eq⟩ := (s.narrowTo w e).excite_eq w
  rw [eq]
  exact getElem?_narrowTo s w u e

/-- A propagator that subscribes again asks for the domains of all variables of the list. -/
theorem mem_domains_resubscribe (id : PropId) (vs : List Var) : ∀ s : Solver, ∀ v ∈ vs, ∀ w, s.resolve v = .free w →
    w ∈ (s.resubscribe id vs).domains := by
  induction vs with
  | nil => simp
  | cons x vs ih =>
    intro s v mem w free
    -- The rest of the loop starts where the first variable was asked for, and perhaps subscribed to.
    obtain ⟨t, grows, rest⟩ : ∃ t, (s.domain x).2.Grows t ∧ s.resubscribe id (x :: vs) = t.resubscribe id vs := by
      refine ⟨if (s.domain x).1.hasSolution then (s.domain x).2 else (s.domain x).2.subscribe id x, ?_, rfl⟩
      split
      · exact .refl _
      · exact (Covers.subscribe _ id x).toGrows
    rw [rest]
    rcases List.mem_cons.mp mem with rfl | mem
    · exact (Covers.resubscribe id vs t).mem_domains (grows.mem_domains (mem_domains_domain free))
    · exact ih t v mem w (((s.domain_spec x).2.trans grows).resolve ▸ free)

namespace Call

/-- The unbound variables that a call is about are loaded afterwards. -/
theorem loads_touched (tidy : s.Tidy) (c : Call) (touched : v ∈ c.touches) (free : s.resolve v = .free w) :
    w ∈ (Narrow.leaving (c.perform s)).domains := by
  cases c with
  | domain x | value x =>
    cases List.mem_singleton.mp touched
    exact mem_domains_domain free
  | post p =>
    have matched : s.Matches (s.past p) := matched_of_eq rfl rfl rfl
    have reached (id : PropId) (t : Solver) (same : t.resolve = s.resolve) :
        w ∈ ((p.val.vars.foldl (fun t v => t.subscribe id v) t).enqueue id).domains :=
      (grows_enqueue _ id).mem_domains (reaches_subscribeAll id p.val.vars t v touched w (same ▸ free)).1
    change w ∈ ((s.past p).post p).2.domains
    unfold Solver.post Solver.intern
    split
    rename_i found
    split at found <;> cases found
    · exact reached _ _ matched.resolve
    · exact reached _ _ (((s.past p).grows_enlist p).resolve.trans matched.resolve)
  | subscribe id x =>
    cases List.mem_singleton.mp touched
    exact (reaches_subscribeAll id [v] s v (List.mem_singleton_self v) w free).1
  | resubscribe id vs => exact mem_domains_resubscribe id vs s v touched w free
  | reduce x e =>
    cases List.mem_singleton.mp touched
    have asked : w ∈ (s.domain w).2.domains := mem_domains_domain (tidy.root v w free)
    have reduces := s.reduces v e
    change w ∈ (Narrow.leaving (Narrow.reduce v e s)).domains
    generalize Narrow.reduce v e s = r at reduces
    cases reduces with
    | bound bound _ => exact absurd free (bound w)
    | empty found _ | kept found _ =>
      cases found.symm.trans free
      exact asked
    | narrowed found _ =>
      cases found.symm.trans free
      exact mem_domains_iff.mpr ⟨_, (getElem?_excited _ w w _).trans (if_pos rfl)⟩
  | replace id p | wakeAll | fixpoint => exact absurd touched List.not_mem_nil

/-- A domain that was loaded before a call is what it was, or what the call leaves of it when it
    reduces that domain. -/
theorem domain_kept (tidy : s.Tidy) (apt : c.Apt h s) (at_w : s.domains[w]? = some d) :
    (Narrow.leaving (c.perform s)).domains[w]? = some d ∨ ∃ v e, c = .reduce v e ∧ s.resolve v = .free w ∧
      (Narrow.leaving (c.perform s)).domains[w]? = some (d.intersect e) := by
  cases c with
  | domain v | value v => exact .inl ((s.domain_spec v).2.domains w d at_w)
  | post p => exact .inl ((Covers.post (s.past p) p).domains w d at_w)
  | subscribe id v => exact .inl ((Covers.subscribe s id v).domains w d at_w)
  | resubscribe id vs => exact .inl ((Covers.resubscribe id vs s).domains w d at_w)
  | replace id p =>
    refine .inl ?_
    change ((s.past p).replace id p).domains[w]? = some d
    unfold Solver.replace
    split <;> exact at_w
  | reduce v e =>
    have reduces := s.reduces v e
    change (Narrow.leaving (Narrow.reduce v e s)).domains[w]? = some d ∨ ∃ v' e', Call.reduce v e = .reduce v' e' ∧
      s.resolve v' = .free w ∧ (Narrow.leaving (Narrow.reduce v e s)).domains[w]? = some (d.intersect e')
    generalize Narrow.reduce v e s = r at reduces
    have asked (x : Var) : (s.domain x).2.domains[w]? = some d := (s.domain_spec x).2.domains w d at_w
    cases reduces with
    | bound _ same => rcases same with rfl | rfl <;> exact .inl at_w
    | @empty x _ _ | @kept x _ _ => exact .inl (asked x)
    | @narrowed x free _ =>
      by_cases here : x = w
      · subst here
        have current : s.peek x = d := by rw [peek_of_free (tidy.root v x free), current_of_loaded at_w]
        exact .inr ⟨v, e, rfl, free, by rw [current]; exact (getElem?_excited _ x x _).trans (if_pos rfl)⟩
      · exact .inl ((getElem?_excited _ x w _).trans ((if_neg here).trans (asked x)))
  | wakeAll =>
    have grows : s.Grows s.wakeAll := s.wakeAll_eq_enqueueAll ▸ (Covers.enqueueAll _ s).toGrows
    exact .inl (grows.domains w d at_w)
  | fixpoint => exact apt.elim

end Call

end Solver

namespace Subst

open Solver

variable {subst : Subst} {h : History} {s : Solver} {c : Call}

/-- A solver is opened on a substitution that goals produce, and its history is kept. After a
    further call the unbound variables that the call is about are loaded. A propagator that is
    stored with a loaded variable has been numbered once, and once more for each time that it
    was posted after another one had taken its place. All unbound variables that it names are
    loaded. A number of its own that has not been run or replaced still belongs to it, and
    subscribes to these variables. A domain that was loaded before is what it was, or what the
    call has left of it. The loop that loads comes to an end, on every solver. And a run to a
    fixpoint has a history again. -/
theorem Produced.call_covers (produced : subst.Produced) (records : Records subst h s) (apt : c.Apt h s) :
    let t := Narrow.leaving (c.perform s)
    let h' := h.after s c
    (∀ v ∈ c.touches, ∀ w, s.resolve v = .free w → w ∈ t.domains) ∧
    (∀ w ∈ t.domains, ∀ p ∈ t.subst.storedWatchers w,
      h'.given.count p = 1 + h'.again.count p ∧
      (∀ v ∈ p.val.vars, ∀ u, t.resolve v = .free u → u ∈ t.domains) ∧
      ∀ id : PropId, h'.given[id.index]? = some p → id ∉ h'.spent →
        t.prop? id = some p ∧ ∀ v ∈ p.val.vars, ∀ u, t.resolve v = .free u → id ∈ t.subscribersOf u) ∧
    (∀ (w : Var) (d : Domain), s.domains[w]? = some d → t.domains[w]? = some d ∨
      ∃ v e, c = .reduce v e ∧ s.resolve v = .free w ∧ t.domains[w]? = some (d.intersect e)) ∧
    (∀ (r : Solver) (w : Var) (u : Solver), Spreads [w] r u ↔ u = r.load w) ∧
    ∃ h'', Records subst h'' (Narrow.leaving (Narrow.fixpoint t)) := by
  intro t h'
  have tidy := (records.tracks produced).tidy
  have recorded : Records subst h' t := records.call c apt
  have tracks := recorded.tracks produced
  refine ⟨fun v touched w free => Call.loads_touched tidy c touched free, fun w loaded p stored => ?_,
    fun w d at_w => Call.domain_kept tidy apt at_w, fun r w u => spreads_iff, recorded.fixpoint⟩
  have given := tracks.taken w loaded p stored
  exact ⟨tracks.once p given, tracks.closed p given, fun id at_id unspent =>
    ⟨tracks.original id p at_id unspent, tracks.subscribed id p at_id unspent⟩⟩

/-- The sum `_0 + _1 = _2` is stored. Narrowing `_0` loads its variables, and it is run. -/
theorem call_covers_sum : ∃ (subst : Subst) (p : Propagator) (h : History) (s : Solver), subst.Produced ∧
    Records subst h s ∧ (Call.reduce ⟨1⟩ (.interval 0 9)).Apt h s ∧
    let t := Narrow.leaving ((Call.reduce ⟨1⟩ (.interval 0 9)).perform s)
    let h' := h.after s (.reduce ⟨1⟩ (.interval 0 9))
    p.val = .sum ⟨0⟩ ⟨1⟩ ⟨2⟩ ∧ t.subst.storedWatchers ⟨0⟩ = [p] ∧ h'.spent = [⟨0⟩] ∧
    h'.given.count p = 1 ∧ ∀ v ∈ p.val.vars, ∀ u, t.resolve v = .free u → u ∈ t.domains := by
  let stamped := (Subst.empty.freshMany 3).2.stamped (Relation.sum ⟨0⟩ ⟨1⟩ ⟨2⟩)
  let subst := (stamped.2.solveWith [stamped.1]).toOption.getD Subst.empty
  have solved : stamped.2.solveWith [stamped.1] = .ok subst := eq_ok_of_isSome (by decide +kernel)
  have produced : subst.Produced := produced_of_solveWith (r := .sum ⟨0⟩ ⟨1⟩ ⟨2⟩) trivial solved
  let opening := Call.reduce ⟨0⟩ (.interval 1 5)
  let c := Call.reduce ⟨1⟩ (.interval 0 9)
  have canonical : (Domain.interval 1 5).Canonical := by simp [Domain.Canonical, minValue, maxValue]
  have canonical' : (Domain.interval 0 9).Canonical := by simp [Domain.Canonical, minValue, maxValue]
  let first := History.after {} (.new subst) opening
  let opened := Narrow.leaving (opening.perform (.new subst))
  let next := opened.agenda.pop?.get (by decide +kernel)
  let s := Narrow.leaving (Narrow.runNumbered next.1 { opened with agenda := next.2 })
  let h := (first.spend next.1).note s
  have recorded : Records subst first opened := Records.new.call opening canonical
  have records : Records subst h s := recorded.next _
  have facts : stamped.1.val = .sum ⟨0⟩ ⟨1⟩ ⟨2⟩ ∧
      (Narrow.leaving (c.perform s)).subst.storedWatchers ⟨0⟩ = [stamped.1] ∧
      (h.after s c).spent = [⟨0⟩] ∧ (h.after s c).again = [] ∧
      (Narrow.leaving (c.perform s)).domains.contains ⟨0⟩ = true := by decide +kernel
  generalize stamped.1 = p at facts
  -- What was run to get here does not matter any more.
  clear_value s h
  obtain ⟨val, stored, spent, again, loaded⟩ := facts
  obtain ⟨_, closed, _⟩ := @Produced.call_covers subst h s c produced records canonical'
  have is_stored : p ∈ (Narrow.leaving (c.perform s)).subst.storedWatchers ⟨0⟩ := stored ▸ List.mem_singleton_self p
  obtain ⟨count, reached, _⟩ := closed ⟨0⟩ (Std.ExtTreeMap.contains_iff_mem.mp loaded) p is_stored
  rw [again] at count
  exact ⟨subst, p, h, s, produced, records, canonical', val, stored, spent, count, reached⟩

/-- The sum `_0 + _1 = _2` is stored. Narrowing `_0` to 2 loads it; its run puts a difference in
    its place, and the sum is posted again, which gives it a second number. In another solver
    `_3 + 1 = _4` is posted, and the sum takes its place before any variable of the sum is
    loaded; then `_0` is asked for, and `_1` is not loaded with it. -/
theorem stored_not_covered : ∃ (subst : Subst) (p : Propagator), subst.Produced ∧ p.val = .sum ⟨0⟩ ⟨1⟩ ⟨2⟩ ∧
    (∃ h s, Records subst h s ∧ ⟨0⟩ ∈ s.domains ∧ s.subst.storedWatchers ⟨0⟩ = [p] ∧ h.given = [p, p]) ∧
    ∃ s, (Solver.new subst).Calls s ∧ ⟨0⟩ ∈ s.domains ∧ s.subst.storedWatchers ⟨0⟩ = [p] ∧
      s.resolve ⟨1⟩ = .free ⟨1⟩ ∧ ⟨1⟩ ∉ s.domains := by
  let stamped := (Subst.empty.freshMany 5).2.stamped (Relation.sum ⟨0⟩ ⟨1⟩ ⟨2⟩)
  let p := stamped.1
  let subst := (stamped.2.solveWith [p]).toOption.getD Subst.empty
  have solved : stamped.2.solveWith [p] = .ok subst := eq_ok_of_isSome (by decide +kernel)
  have produced : subst.Produced := produced_of_solveWith (r := .sum ⟨0⟩ ⟨1⟩ ⟨2⟩) trivial solved
  refine ⟨subst, p, produced, rfl, ?_, ?_⟩
  · let narrowing := Call.reduce ⟨0⟩ (.singleton 2)
    let opened := Narrow.leaving (narrowing.perform (.new subst))
    let first := History.after {} (.new subst) narrowing
    let next := opened.agenda.pop?.get (by decide +kernel)
    let run := Narrow.leaving (Narrow.runNumbered next.1 { opened with agenda := next.2 })
    let second := (first.spend next.1).note run
    have canonical : (Domain.singleton 2).Canonical := Solver.canonical_singleton (by decide)
    have recorded : Records subst first opened := Records.new.call narrowing canonical
    have records : Records subst second run := recorded.next _
    have stored : p ∈ run.subst.storedWatchers ⟨0⟩ := by decide +kernel
    have apt : (Call.post p).Apt second run := ⟨trivial, fun q known same =>
      (records.tracks produced).coherent q p known (.inr ⟨⟨0⟩, stored⟩) same⟩
    have facts : (Narrow.leaving ((Call.post p).perform run)).domains.contains ⟨0⟩ = true ∧
        (Narrow.leaving ((Call.post p).perform run)).subst.storedWatchers ⟨0⟩ = [p] ∧
        (second.after run (.post p)).given = [p, p] := by decide +kernel
    exact ⟨_, _, records.call (.post p) apt, Std.ExtTreeMap.contains_iff_mem.mp facts.1, facts.2⟩
  · let posting := Call.post ⟨7, .plusConst ⟨3⟩ 1 ⟨4⟩⟩
    let replacing := Call.replace ⟨0⟩ p
    let asking := Call.domain ⟨0⟩
    let posted := leftBy (posting.perform (.new subst))
    let replaced := leftBy (replacing.perform posted)
    let s := leftBy (asking.perform replaced)
    have sized : (Relation.plusConst ⟨3⟩ 1 ⟨4⟩).Sized := by decide
    have unmet : posted.interned[p.stamp]? = none := by decide +kernel
    have called₁ : (Solver.new subst).Called posted := called_of_succeeds sized (by decide +kernel)
    have called₂ : posted.Called replaced := called_of_succeeds ⟨trivial, unmet⟩ (by decide +kernel)
    have called₃ : replaced.Called s := called_of_succeeds trivial (by decide +kernel)
    have facts : s.domains.contains ⟨0⟩ = true ∧ s.subst.storedWatchers ⟨0⟩ = [p] ∧
        s.resolve ⟨1⟩ = .free ⟨1⟩ ∧ s.domains.contains ⟨1⟩ = false := by decide +kernel
    obtain ⟨loaded, stored, free, missing⟩ := facts
    have calls : (Solver.new subst).Calls s := .tail (.tail (.single called₁) called₂) called₃
    refine ⟨s, calls, Std.ExtTreeMap.contains_iff_mem.mp loaded, stored, free, fun mem => ?_⟩
    exact Bool.false_ne_true (missing.symm.trans (Std.ExtTreeMap.contains_iff_mem.mpr mem))

end Subst

end ConstraintLogic
