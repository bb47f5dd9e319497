import ConstraintLogic.Proofs.Solver.Calls
import ConstraintLogic.Proofs.Solver.Reload

/-!
# How loading spreads

Loading a variable goes on until its stack is empty. A variable that is loaded already is
passed by, so that a cycle of variables that share propagators comes to an end; a propagator
that has a number is passed by too, but not the variables that it is stored with. Nothing is
asked here of the solver that loads.

Results:
* `Solver.Spreads`: the loop, run until the stack is empty.
* `Solver.spreads_iff`: it comes to an end on every solver, with what loading answers.
* `Solver.Covers`: what is loaded and numbered on the way from one solver to another.
* `Solver.Covers.load`: loading covers all that is stored with what it loads.
-/

namespace ConstraintLogic.Solver

variable {s t u : Solver} {id : PropId} {v w : Var} {p : Propagator} {pending : List Var}

/-! ## The loop -/

/-- One round for a variable that is not loaded: it is loaded, and what is stored with it is
    taken up. -/
def round (s : Solver) (v : Var) (pending : List Var) : List Var × Solver :=
  (s.subst.storedWatchers v).foldl adopt (pending, s.reveal v)

/-- The loop takes the first solver with the stack to the second one, where the stack is empty. -/
inductive Spreads : List Var → Solver → Solver → Prop
  | done {s : Solver} : Spreads [] s s
  | pass {v : Var} {pending : List Var} {s t : Solver} (present : v ∈ s.domains) (rest : Spreads pending s t) :
      Spreads (v :: pending) s t
  | take {v : Var} {pending : List Var} {s t : Solver} (absent : v ∉ s.domains)
      (rest : Spreads (s.round v pending).1 (s.round v pending).2 t) : Spreads (v :: pending) s t

/-- The loop has one outcome. -/
theorem Spreads.unique (h : Spreads pending s t) (h' : Spreads pending s u) : t = u := by
  induction h generalizing u with
  | done =>
    cases h'
    rfl
  | pass present rest ih =>
    cases h' with
    | pass _ rest' => exact ih rest'
    | take absent _ => exact absurd present absent
  | take absent rest ih =>
    cases h' with
    | pass present _ => exact absurd present absent
    | take _ rest' => exact ih rest'

/-- A round lowers what the stack and the variables that are not loaded cost together. -/
theorem spreads_loadAll (n : Nat) : ∀ (pending : List Var) (s : Solver), pending.length + s.burden ≤ n →
    Spreads pending s (loadAll n pending s) := by
  induction n with
  | zero =>
    intro pending s enough
    cases pending with
    | nil => exact .done
    | cons v pending =>
      rw [List.length_cons] at enough
      omega
  | succ n ih =>
    intro pending s enough
    cases pending with
    | nil => exact .done
    | cons v pending =>
      rw [List.length_cons] at enough
      by_cases present : v ∈ s.domains
      · rw [loadAll_of_mem present]
        exact .pass present (ih pending s (by omega))
      · rw [loadAll_of_not_mem present]
        have cost := (adoptAll_reveal present pending).2
        exact .take present (ih _ _ (by unfold round; omega))

/-- On every solver the loop comes to an end, with what loading answers. -/
theorem spreads_iff : Spreads [v] s t ↔ t = s.load v := by
  have spreads : Spreads [v] s (s.load v) := by
    unfold load
    split
    · rename_i present
      exact .pass (Std.ExtTreeMap.contains_iff_mem.mp present) .done
    · have := s.burden_le
      exact spreads_loadAll _ [v] s (by rw [List.length_singleton]; omega)
  constructor
  · exact fun h => h.unique spreads
  · rintro rfl
    exact spreads

/-! ## What the loop does -/

/-- A propagator subscribes to the unbound variables of the list, and these get on the stack. -/
theorem adoptVars_spec (id : PropId) (vs : List Var) : ∀ (pending : List Var) (s : Solver),
    let r := vs.foldl (adoptVar id) (pending, s)
    (∃ m, r.2 = { s with subscribers := m }) ∧ s.Grows r.2 ∧ pending ⊆ r.1 ∧
      ∀ v ∈ vs, ∀ w, s.resolve v = .free w → w ∈ r.1 ∧ id ∈ r.2.subscribersOf w := by
  induction vs with
  | nil => exact fun pending s => ⟨⟨s.subscribers, rfl⟩, .refl s, List.Subset.refl _, by simp⟩
  | cons v vs ih =>
    intro pending s
    rw [List.foldl_cons, adoptVar]
    dsimp only
    cases found : s.resolve v with
    | free w =>
      have grows := s.grows_addSubscriber id w
      obtain ⟨m, eq⟩ := s.addSubscriber_eq id w
      obtain ⟨⟨m', eq'⟩, grows', sub, each⟩ := ih (w :: pending) (s.addSubscriber id w)
      refine ⟨⟨m', by rw [eq', eq]⟩, grows.trans grows', fun x mem => sub (List.mem_cons_of_mem w mem),
        List.forall_mem_cons.mpr ⟨fun x free => ?_, fun u mem x free => each u mem x (by rw [grows.resolve, free])⟩⟩
      cases found.symm.trans free
      exact ⟨sub List.mem_cons_self, grows'.subscribers w id (mem_subscribersOf_addSubscriber.mpr (.inr ⟨rfl, rfl⟩))⟩
    | value n | other =>
      obtain ⟨eq, grows, sub, each⟩ := ih pending s
      have bound (x : Var) : s.resolve v ≠ .free x := by simp [found]
      exact ⟨eq, grows, sub, List.forall_mem_cons.mpr ⟨fun x free => absurd free (bound x), each⟩⟩

/-- What the loop has done on the way from the first solver to the second one, with the stack
    that is left. Stamps keep their numbers, and others get new ones; a propagator with a new
    number is known by its stamp, which had none; what is in `M` has a number; and all that a
    new propagator names is loaded or on the stack, and the propagator subscribes to it. -/
structure Underway (s : Solver) (M : Propagator → Prop) (pending : List Var) (t : Solver) : Prop where
  loads : s.Loads t
  kept : ∀ (n : Nat) (id : PropId), s.interned[n]? = some id → t.interned[n]? = some id
  interns : ∀ (n : Nat) (id : PropId), t.interned[n]? = some id → s.interned[n]? = some id ∨
    s.props.size ≤ id.index ∧ ∃ p, t.prop? id = some p ∧ p.stamp = n
  fresh : ∀ id p, s.props.size ≤ id.index → t.prop? id = some p →
    s.interned[p.stamp]? = none ∧ t.interned[p.stamp]? = some id
  met : ∀ p, M p → ∃ id, t.interned[p.stamp]? = some id
  led : ∀ id p, s.props.size ≤ id.index → t.prop? id = some p → ∀ v ∈ p.val.vars, ∀ w, s.resolve v = .free w →
    (w ∈ t.domains ∨ w ∈ pending) ∧ id ∈ t.subscribersOf w

/-- A variable that is loaded need not be on the stack. -/
theorem Underway.pass {M : Propagator → Prop} (h : s.Underway M (v :: pending) t) (present : v ∈ t.domains) :
    s.Underway M pending t :=
  { h with
    led := fun id p above found x mem w free => by
      obtain ⟨reached, subscribed⟩ := h.led id p above found x mem w free
      refine ⟨?_, subscribed⟩
      rcases reached with loaded | stacked
      · exact .inl loaded
      · rcases List.mem_cons.mp stacked with rfl | stacked
        · exact .inl present
        · exact .inr stacked }

theorem Underway.reveal {M : Propagator → Prop} (h : s.Underway M (v :: pending) t) (absent : v ∉ t.domains) :
    s.Underway M pending (t.reveal v) := by
  have revealed : s.Underway M (v :: pending) (t.reveal v) :=
    { h with
      loads := h.loads.reveal absent
      led := fun id p above found x mem w free => by
        obtain ⟨reached, subscribed⟩ := h.led id p above found x mem w free
        exact ⟨reached.imp_left fun loaded => mem_reveal.mpr (.inr loaded), subscribed⟩ }
  exact revealed.pass (mem_reveal.mpr (.inl rfl))

/-- A propagator that is stored with a variable that was not loaded is taken up. -/
theorem Underway.adopt {M : Propagator → Prop} {state : List Var × Solver} (h : s.Underway M state.1 state.2)
    (absent : v ∉ s.domains) (stored : p ∈ s.subst.storedWatchers v) :
    s.Underway (fun q => M q ∨ q = p) (Solver.adopt state p).1 (Solver.adopt state p).2 := by
  obtain ⟨pending, t⟩ := state
  have loads := h.loads.adopt absent stored
  dsimp only at h loads
  rw [adopt_eq] at loads ⊢
  unfold intern at loads ⊢
  cases met : t.interned[p.stamp]? with
  | some id =>
    refine { h with met := ?_ }
    rintro q (before | rfl)
    · exact h.met q before
    · exact ⟨id, met⟩
  | none =>
    rw [met] at loads
    change s.Loads (p.val.vars.foldl (adoptVar ⟨t.props.size⟩) (pending, t.enlist p)).2 at loads
    change s.Underway _ (p.val.vars.foldl (adoptVar ⟨t.props.size⟩) (pending, t.enlist p)).1
      (p.val.vars.foldl (adoptVar ⟨t.props.size⟩) (pending, t.enlist p)).2
    obtain ⟨⟨m, eq⟩, grows, sub, each⟩ := adoptVars_spec ⟨t.props.size⟩ p.val.vars pending (t.enlist p)
    generalize p.val.vars.foldl (adoptVar ⟨t.props.size⟩) (pending, t.enlist p) = r at *
    have interned (n : Nat) : r.2.interned[n]? = if p.stamp = n then some ⟨t.props.size⟩ else t.interned[n]? := by
      rw [eq]
      simp [Solver.enlist, Std.ExtTreeMap.getElem?_insert]
    -- A stamp that had a number is not the one of the propagator.
    have apart {n : Nat} {id : PropId} (at_n : t.interned[n]? = some id) : p.stamp ≠ n := by
      rintro rfl
      rw [met] at at_n
      cases at_n
    have slots (id : PropId) : r.2.prop? id = if id = ⟨t.props.size⟩ then some p else t.prop? id := by
      rw [eq]
      exact t.prop?_enlist p id
    have resolve : (t.enlist p).resolve = s.resolve := h.loads.resolve
    refine ⟨loads, fun n id at_n => ?_, fun n id at_n => ?_, fun id q above found => ?_, ?_,
      fun id q above found x mem w free => ?_⟩
    · have at_t := h.kept n id at_n
      rw [interned, if_neg (apart at_t), at_t]
    · rw [interned] at at_n
      split at at_n
      · cases at_n
        exact .inr ⟨h.loads.size, p, by rw [slots, if_pos rfl], ‹_›⟩
      · rcases h.interns n id at_n with before | ⟨above, q, found, same⟩
        · exact .inl before
        · exact .inr ⟨above, q, grows.props id q ((t.grows_enlist p).props id q found), same⟩
    · rw [slots] at found
      rw [interned]
      split at found
      · rename_i here
        cases found
        refine ⟨Option.eq_none_iff_forall_ne_some.mpr fun j at_p => ?_, by rw [if_pos rfl, here]⟩
        exact apart (h.kept _ j at_p) rfl
      · obtain ⟨none_before, at_q⟩ := h.fresh id q above found
        exact ⟨none_before, by rw [if_neg (apart at_q), at_q]⟩
    · rintro q (before | rfl)
      · obtain ⟨id, at_q⟩ := h.met q before
        exact ⟨id, by rw [interned, if_neg (apart at_q), at_q]⟩
      · exact ⟨_, by rw [interned, if_pos rfl]⟩
    · rw [slots] at found
      split at found
      · rename_i here
        cases found
        obtain ⟨stacked, subscribed⟩ := each x mem w (by rw [resolve, free])
        exact ⟨.inr stacked, here ▸ subscribed⟩
      · obtain ⟨reached, subscribed⟩ := h.led id q above found x mem w free
        exact ⟨reached.imp (fun loaded => grows.mem_domains loaded) fun stacked => sub stacked,
          grows.subscribers w id subscribed⟩

theorem Underway.adoptAll (absent : v ∉ s.domains) (ps : List Propagator) :
    ∀ {M : Propagator → Prop} {state : List Var × Solver}, s.Underway M state.1 state.2 →
      (∀ p ∈ ps, p ∈ s.subst.storedWatchers v) →
      s.Underway (fun q => M q ∨ q ∈ ps) (ps.foldl Solver.adopt state).1 (ps.foldl Solver.adopt state).2 := by
  induction ps with
  | nil => exact fun h _ => { h with met := fun q mem => h.met q (by simpa using mem) }
  | cons p ps ih =>
    intro M state h stored
    rw [List.forall_mem_cons] at stored
    have rest := ih (h.adopt absent stored.1) stored.2
    exact { rest with met := fun q mem => rest.met q (by simpa [or_assoc] using mem) }

/-! ## What is covered -/

/-- The second solver has loaded more variables, and numbered what is stored with them, and it
    has numbered `posted` besides. Stamps have kept their numbers, and others have got new ones,
    those of the new propagators. All that a new propagator names is loaded, and the propagator
    subscribes to it. -/
structure Covers (posted : Option Propagator) (s t : Solver) : Prop extends s.Grows t where
  size : s.props.size ≤ t.props.size
  kept : ∀ (n : Nat) (id : PropId), s.interned[n]? = some id → t.interned[n]? = some id
  interns : ∀ (n : Nat) (id : PropId), t.interned[n]? = some id → s.interned[n]? = some id ∨
    s.props.size ≤ id.index ∧ ∃ p, t.prop? id = some p ∧ p.stamp = n
  newer : ∀ id p, s.props.size ≤ id.index → t.prop? id = some p →
    posted = some p ∨ ∃ y, y ∉ s.domains ∧ p ∈ s.subst.storedWatchers y
  numbered : ∀ p, posted = some p → ∃ id, s.props.size ≤ id.index ∧ t.prop? id = some p
  fresh : ∀ id p, s.props.size ≤ id.index → t.prop? id = some p →
    s.interned[p.stamp]? = none ∧ t.interned[p.stamp]? = some id
  met : ∀ w ∈ t.domains, w ∉ s.domains → ∀ p ∈ s.subst.storedWatchers w, ∃ id, t.interned[p.stamp]? = some id
  led : ∀ id p, s.props.size ≤ id.index → t.prop? id = some p → ∀ v ∈ p.val.vars, ∀ w, s.resolve v = .free w →
    w ∈ t.domains ∧ id ∈ t.subscribersOf w

/-- What is stored with a variable that was loaded on the way. -/
def Passed (s t : Solver) (p : Propagator) : Prop := ∃ w ∈ t.domains, w ∉ s.domains ∧ p ∈ s.subst.storedWatchers w

/-- What the loop has done is so when it ends, and then nothing is left on the stack. -/
theorem Spreads.covers (spreads : Spreads pending t u) (underway : s.Underway (s.Passed t) pending t) :
    s.Covers none u := by
  induction spreads with
  | done =>
    exact
      { underway.loads with
        kept := underway.kept
        interns := underway.interns
        newer := fun id p above found => .inr (underway.loads.newer id p above found)
        numbered := fun p posted => absurd posted.symm (Option.some_ne_none p)
        fresh := underway.fresh
        met := fun w mem out p stored => underway.met p ⟨w, mem, out, stored⟩
        led := fun id p above found v mem w free =>
          (underway.led id p above found v mem w free).imp_left fun reached => by simpa using reached }
  | pass present _ ih => exact ih (underway.pass present)
  | @take v pending t _ absent _ ih =>
    have out : v ∉ s.domains := fun mem => absent (underway.loads.mem_domains mem)
    have same : t.subst.storedWatchers v = s.subst.storedWatchers v := by rw [underway.loads.subst]
    have revealed : s.Underway (s.Passed t) (pending, t.reveal v).1 (pending, t.reveal v).2 := underway.reveal absent
    have next := Underway.adoptAll out (t.subst.storedWatchers v) revealed fun p mem => same ▸ mem
    have frame := (adoptAll_frame (t.subst.storedWatchers v) (pending, t.reveal v)).2.1
    refine ih { next with met := ?_ }
    rintro p ⟨w, mem, before, stored⟩
    rw [show (t.round v pending).2.domains = (t.reveal v).domains from frame, mem_reveal] at mem
    rcases mem with rfl | mem
    · exact next.met p (.inr (same ▸ stored))
    · exact next.met p (.inl ⟨w, mem, before, stored⟩)

namespace Covers

variable {posted : Option Propagator}

/-- A solver that has grown, but not in what is loaded or numbered. -/
theorem of_grows (grows : s.Grows t) (domains : t.domains = s.domains) (props : t.props = s.props)
    (interned : t.interned = s.interned) : s.Covers none t where
  toGrows := grows
  size := by rw [props]
  kept n id at_n := by rw [interned, at_n]
  interns n id at_n := .inl (interned ▸ at_n)
  newer id p above found := absurd (index_lt_size found) (by rw [props]; exact Nat.not_lt_of_le above)
  numbered p posted := absurd posted.symm (Option.some_ne_none p)
  fresh id p above found := absurd (index_lt_size found) (by rw [props]; exact Nat.not_lt_of_le above)
  met w mem out := absurd (domains ▸ mem) out
  led id p above found := absurd (index_lt_size found) (by rw [props]; exact Nat.not_lt_of_le above)

theorem refl (s : Solver) : s.Covers none s := of_grows (.refl s) rfl rfl rfl

/-- A propagator that the first solver has no number for is not given a second one later. -/
theorem trans (h : s.Covers posted t) (h' : t.Covers none u) : s.Covers posted u where
  toGrows := h.toGrows.trans h'.toGrows
  size := Nat.le_trans h.size h'.size
  kept n id at_n := h'.kept n id (h.kept n id at_n)
  interns n id at_n := by
    rcases h'.interns n id at_n with before | ⟨above, found⟩
    · rcases h.interns n id before with older | ⟨above, p, found, same⟩
      · exact .inl older
      · exact .inr ⟨above, p, h'.props id p found, same⟩
    · exact .inr ⟨Nat.le_trans h.size above, found⟩
  newer id p above found := by
    by_cases below : id.index < t.props.size
    · exact h.newer id p above (h'.prop?_of_lt below found)
    · obtain none_posted | ⟨y, out, stored⟩ := h'.newer id p (Nat.le_of_not_lt below) found
      · cases none_posted
      · exact .inr ⟨y, fun mem => out (h.mem_domains mem), h.subst ▸ stored⟩
  numbered p posted := by
    obtain ⟨id, above, found⟩ := h.numbered p posted
    exact ⟨id, above, h'.props id p found⟩
  fresh id p above found := by
    by_cases below : id.index < t.props.size
    · obtain ⟨none_before, at_p⟩ := h.fresh id p above (h'.prop?_of_lt below found)
      exact ⟨none_before, h'.kept _ id at_p⟩
    · obtain ⟨none_before, at_p⟩ := h'.fresh id p (Nat.le_of_not_lt below) found
      refine ⟨Option.eq_none_iff_forall_ne_some.mpr fun j at_j => ?_, at_p⟩
      rw [h.kept _ j at_j] at none_before
      cases none_before
  met w mem out p stored := by
    by_cases before : w ∈ t.domains
    · obtain ⟨id, at_p⟩ := h.met w before out p stored
      exact ⟨id, h'.kept _ id at_p⟩
    · exact h'.met w mem before p (h.subst ▸ stored)
  led id p above found v mem w free := by
    by_cases below : id.index < t.props.size
    · obtain ⟨loaded, subscribed⟩ := h.led id p above (h'.prop?_of_lt below found) v mem w free
      exact ⟨h'.mem_domains loaded, h'.subscribers w id subscribed⟩
    · exact h'.led id p (Nat.le_of_not_lt below) found v mem w (h.resolve ▸ free)

/-- Loading a variable covers all that is stored with the variables that it comes to. -/
theorem load (s : Solver) (v : Var) : s.Covers none (s.load v) := by
  refine (spreads_iff.mpr rfl : Spreads [v] s (s.load v)).covers
    ⟨.refl s, fun _ _ at_n => at_n, fun _ _ at_n => .inl at_n, fun id p above found => ?_, ?_,
      fun id p above found => ?_⟩
  · exact absurd (index_lt_size found) (Nat.not_lt_of_le above)
  · rintro p ⟨w, mem, out, _⟩
    exact absurd mem out
  · exact absurd (index_lt_size found) (Nat.not_lt_of_le above)

theorem addSubscriber (s : Solver) (id : PropId) (w : Var) : s.Covers none (s.addSubscriber id w) := by
  have grows := s.grows_addSubscriber id w
  obtain ⟨m, eq⟩ := s.addSubscriber_eq id w
  rw [eq] at grows ⊢
  exact of_grows grows rfl rfl rfl

theorem enqueue (s : Solver) (id : PropId) : s.Covers none (s.enqueue id) := by
  have grows := s.grows_enqueue id
  obtain ⟨a, eq⟩ := s.enqueue_eq id
  rw [eq] at grows ⊢
  exact of_grows grows rfl rfl rfl

theorem enqueueAll (ids : List PropId) (s : Solver) : s.Covers none (ids.foldl Solver.enqueue s) :=
  List.foldlRecOn (motive := s.Covers none) _ _ (refl s) fun t covers id _ => covers.trans (enqueue t id)

theorem domain (s : Solver) (v : Var) : s.Covers none (s.domain v).2 := by
  unfold Solver.domain
  cases s.resolve v with
  | free w => exact load s w
  | _ => exact refl s

theorem subscribe (s : Solver) (id : PropId) (v : Var) : s.Covers none (s.subscribe id v) := by
  unfold Solver.subscribe
  cases s.resolve v with
  | free w => exact (load s w).trans (addSubscriber _ id w)
  | _ => exact refl s

theorem subscribeAll (id : PropId) (vs : List Var) (s : Solver) :
    s.Covers none (vs.foldl (fun t v => t.subscribe id v) s) :=
  List.foldlRecOn (motive := s.Covers none) _ _ (refl s) fun t covers v _ => covers.trans (subscribe t id v)

theorem resubscribe (id : PropId) (vs : List Var) (s : Solver) : s.Covers none (s.resubscribe id vs) := by
  refine List.foldlRecOn (motive := s.Covers none) _ _ (refl s) fun t covers v _ => ?_
  have asked := covers.trans (domain t v)
  dsimp only
  split
  · exact asked
  · exact asked.trans (subscribe _ id v)

/-- A propagator that gets its number before what it names is loaded. -/
theorem of_enlist (new : s.interned[p.stamp]? = none) (h : (s.enlist p).Covers none t)
    (reached : ∀ v ∈ p.val.vars, ∀ w, s.resolve v = .free w → w ∈ t.domains ∧ ⟨s.props.size⟩ ∈ t.subscribersOf w) :
    s.Covers (some p) t := by
  have grows := s.grows_enlist p
  have size : (s.enlist p).props.size = s.props.size + 1 := by simp [Solver.enlist]
  have here : (s.enlist p).prop? ⟨s.props.size⟩ = some p := by rw [prop?_enlist, if_pos rfl]
  have interned (n : Nat) :
      (s.enlist p).interned[n]? = if p.stamp = n then some ⟨s.props.size⟩ else s.interned[n]? := by
    simp [Solver.enlist, Std.ExtTreeMap.getElem?_insert]
  have kept (n : Nat) (id : PropId) (at_n : s.interned[n]? = some id) : (s.enlist p).interned[n]? = some id := by
    rw [interned, if_neg, at_n]
    rintro rfl
    rw [new] at at_n
    cases at_n
  -- A new number is the one of the propagator or comes after it.
  have cases_of_new {id : PropId} {q : Propagator} (above : s.props.size ≤ id.index) (found : t.prop? id = some q) :
      (id = ⟨s.props.size⟩ ∧ q = p) ∨ (s.enlist p).props.size ≤ id.index := by
    rcases Nat.eq_or_lt_of_le above with same | after
    · have same : id = ⟨s.props.size⟩ := by
        cases id
        exact congrArg PropId.mk same.symm
      rw [same, h.props _ p here] at found
      exact .inl ⟨same, (Option.some.inj found).symm⟩
    · exact .inr (size ▸ after)
  refine
    { toGrows := grows.trans h.toGrows
      size := by have := h.size; omega
      kept := fun n id at_n => h.kept n id (kept n id at_n)
      interns := fun n id at_n => ?_
      newer := fun id q above found => ?_
      numbered := fun q posted => ?_
      fresh := fun id q above found => ?_
      met := h.met
      led := fun id q above found v mem w free => ?_ }
  · rcases h.interns n id at_n with before | ⟨above, found⟩
    · rw [interned] at before
      split at before
      · cases before
        exact .inr ⟨Nat.le_refl _, p, h.props _ p here, ‹_›⟩
      · exact .inl before
    · exact .inr ⟨Nat.le_trans (Nat.le_of_lt (size ▸ Nat.lt_succ_self _)) above, found⟩
  · rcases cases_of_new above found with ⟨_, rfl⟩ | after
    · exact .inl rfl
    · exact .inr ((h.newer id q after found).resolve_left (Option.some_ne_none q).symm)
  · cases posted
    exact ⟨⟨s.props.size⟩, Nat.le_refl _, h.props _ p here⟩
  · rcases cases_of_new above found with ⟨rfl, rfl⟩ | after
    · exact ⟨new, h.kept _ _ (by rw [interned, if_pos rfl])⟩
    · obtain ⟨none_before, at_q⟩ := h.fresh id q after found
      refine ⟨Option.eq_none_iff_forall_ne_some.mpr fun j at_j => ?_, at_q⟩
      rw [kept _ j at_j] at none_before
      cases none_before
  · rcases cases_of_new above found with ⟨rfl, rfl⟩ | after
    · exact reached v mem w free
    · exact h.led id q after found v mem w (grows.resolve ▸ free)

end Covers

/-! ## Variables that are asked for -/

theorem mem_domains_domain (free : s.resolve v = .free w) : w ∈ (s.domain v).2.domains := by
  unfold domain
  rw [free]
  exact (s.grows_load w).2

/-- A propagator that subscribes to the variables of a list is one of their subscribers, and
    they are loaded. -/
theorem reaches_subscribeAll (id : PropId) (vs : List Var) : ∀ s : Solver, ∀ v ∈ vs, ∀ w, s.resolve v = .free w →
    w ∈ (vs.foldl (fun t v => t.subscribe id v) s).domains ∧
      id ∈ (vs.foldl (fun t v => t.subscribe id v) s).subscribersOf w := by
  induction vs with
  | nil => simp
  | cons x vs ih =>
    intro s v mem w free
    have grows := (Covers.subscribe s id x).toGrows
    rcases List.mem_cons.mp mem with rfl | mem
    · have subscribed : s.subscribe id v = (s.load w).addSubscriber id w := by
        unfold subscribe
        rw [free]
      have rest := (Covers.subscribeAll id vs (s.subscribe id v)).toGrows
      rw [List.foldl_cons]
      refine ⟨rest.mem_domains ?_, rest.subscribers w id ?_⟩
      · rw [subscribed]
        exact (grows_addSubscriber _ id w).mem_domains (s.grows_load w).2
      · rw [subscribed]
        exact mem_subscribersOf_addSubscriber.mpr (.inr ⟨rfl, rfl⟩)
    · exact ih (s.subscribe id x) v mem w (grows.resolve ▸ free)

/-- A propagator that is posted has a number, or gets one. -/
theorem Covers.post (s : Solver) (p : Propagator) :
    s.Covers (if s.interned[p.stamp]? = none then some p else none) (s.post p).2 := by
  unfold Solver.post Solver.intern
  cases met : s.interned[p.stamp]? with
  | some id =>
    rw [if_neg (Option.some_ne_none id)]
    exact (subscribeAll id p.val.vars s).trans (enqueue _ id)
  | none =>
    rw [if_pos rfl]
    have reached := reaches_subscribeAll ⟨s.props.size⟩ p.val.vars (s.enlist p)
    rw [(s.grows_enlist p).resolve] at reached
    exact (of_enlist met (subscribeAll _ p.val.vars (s.enlist p)) reached).trans (enqueue _ _)

end ConstraintLogic.Solver
