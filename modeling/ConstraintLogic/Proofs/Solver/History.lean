import ConstraintLogic.Proofs.Solver.LoadClosure

/-!
# Records of what was numbered

A solver forgets which propagator a number was given for, as another one may take its place.
A history remembers it: which propagators were numbered, in the order of their numbers, which
numbers have been run or replaced, and which propagators were numbered again. It is kept from
the opening of the solver on, through every call and every turn of a run to a fixpoint.

Results:
* `Solver.History`, `Solver.Records`: histories of a solver, and how they are kept.
* `Solver.History.Tracks`: what is stored with loaded variables has been numbered, and what has
  been numbered has all of its variables loaded and subscribes to them.
* `Solver.History.Tracks.note`: growing by what is stored keeps this.
* `Solver.History.Tracks.alter`: so does a change in place.
* `Solver.History.Tracks.turn`, `Solver.History.Tracks.call`: so do turns and calls.
-/

namespace ConstraintLogic

namespace Solver

variable {s t : Solver} {id : PropId} {v w : Var} {d : Domain} {p q : Propagator} {posted : Option Propagator}

/-! ## Histories -/

/-- What has become of the propagators of a solver. -/
structure History where
  /-- The propagators that have been numbered, in the order of their numbers. -/
  given : List Propagator := []
  /-- The numbers whose propagators have been run or replaced. -/
  spent : List PropId := []
  /-- The propagators that have been numbered although they had been before. -/
  again : List Propagator := []

namespace History

variable {h h' : History}

/-- The solver has numbered further propagators. -/
def note (h : History) (s : Solver) : History := { h with given := h.given ++ s.props.toList.drop h.given.length }

/-- The propagator with that number is run or replaced. -/
def spend (h : History) (id : PropId) : History := { h with spent := id :: h.spent }

/-- A propagator that has no number is posted; it may have had one before. -/
def repost (h : History) (p : Propagator) : History := if p ∈ h.given then { h with again := p :: h.again } else h

/-- The call is made, and what the solver numbers is taken down. -/
def after (h : History) (s : Solver) (c : Call) : History :=
  let h := match c with
    | .post p => if s.interned[p.stamp]? = none then h.repost p else h
    | .replace id _ => if id.index < h.given.length then h.spend id else h
    | _ => h
  h.note (Narrow.leaving (c.perform s))

/-- The propagators that have been numbered or are stored. -/
def Knows (h : History) (s : Solver) (p : Propagator) : Prop := p ∈ h.given ∨ ∃ v, p ∈ s.subst.storedWatchers v

theorem getElem?_note (i : Nat) :
    (h.note s).given[i]? = if i < h.given.length then h.given[i]? else s.props[i]? := by
  unfold note
  split
  · rename_i below
    exact List.getElem?_append_left below
  · rename_i above
    rw [List.getElem?_append_right (Nat.le_of_not_lt above), List.getElem?_drop, Array.getElem?_toList,
      Nat.add_sub_of_le (Nat.le_of_not_lt above)]

theorem length_note (within : h.given.length ≤ s.props.size) : (h.note s).given.length = s.props.size := by
  simp only [note, List.length_append, List.length_drop, Array.length_toList]
  omega

/-- The propagators that the solver has numbered since. -/
theorem mem_drop_iff :
    p ∈ s.props.toList.drop h.given.length ↔ ∃ id, h.given.length ≤ id.index ∧ s.prop? id = some p := by
  rw [List.mem_iff_getElem?]
  simp only [List.getElem?_drop, Array.getElem?_toList]
  constructor
  · rintro ⟨i, found⟩
    exact ⟨⟨h.given.length + i⟩, Nat.le_add_right _ _, found⟩
  · rintro ⟨id, above, found⟩
    exact ⟨id.index - h.given.length, by rw [Nat.add_sub_of_le above]; exact found⟩

theorem mem_note : p ∈ (h.note s).given ↔ p ∈ h.given ∨ ∃ id, h.given.length ≤ id.index ∧ s.prop? id = some p := by
  rw [← mem_drop_iff]
  exact List.mem_append

/-- Where nothing was numbered, nothing is to be taken down. -/
theorem note_of_size (same : h.given.length = s.props.size) : h.note s = h := by
  unfold note
  rw [List.drop_of_length_le (by simp [same]), List.append_nil]

/-- The history may be taken down on the way. -/
theorem note_note (within : h.given.length ≤ s.props.size) (grows : s.Grows t) :
    (h.note s).note t = h.note t := by
  have same : ((h.note s).note t).given = (h.note t).given := by
    refine List.ext_getElem? fun i => ?_
    rw [getElem?_note, getElem?_note, getElem?_note, length_note within]
    by_cases before : i < h.given.length
    · simp only [before, if_true, Nat.lt_of_lt_of_le before within]
    · rw [if_neg before, if_neg before]
      split
      · rename_i below
        have found : s.prop? ⟨i⟩ = some s.props[i] := Array.getElem?_eq_getElem below
        exact found.trans (grows.props _ _ found).symm
      · rfl
  exact congrArg (fun given => { h with given }) same

/-- A number that was taken down before may get another propagator. -/
theorem note_replace (below : id.index < h.given.length) : h.note (s.replace id p) = h.note s := by
  unfold Solver.replace
  split
  · rfl
  · simp only [note, Array.toList_setIfInBounds, List.drop_set_of_lt below]

@[simp] theorem again_note (h : History) (s : Solver) : (h.note s).again = h.again := rfl

theorem given_repost (h : History) (p : Propagator) : (h.repost p).given = h.given := by
  unfold repost
  split <;> rfl

theorem spent_repost (h : History) (p : Propagator) : (h.repost p).spent = h.spent := by
  unfold repost
  split <;> rfl

theorem count_repost (h : History) (p q : Propagator) :
    (h.repost p).again.count q = h.again.count q + if p = q ∧ q ∈ h.given then 1 else 0 := by
  unfold repost
  by_cases same : p = q
  · subst same
    split <;> simp [*]
  · split <;> simp [same]

end History

/-- Constants have 64 bits and domains are in their one form. A propagator that is posted is
    known by its stamp, and one that takes the place of another is not stored with a variable
    that is not loaded. A run to a fixpoint is not taken as one call, but turn by turn. -/
def Call.Apt (h : History) (s : Solver) : Call → Prop
  | .post p => p.val.Sized ∧ ∀ q, h.Knows s q → q.stamp = p.stamp → q = p
  | .replace _ p => p.val.Sized ∧ ∀ v, v ∉ s.domains → ∀ q ∈ s.subst.storedWatchers v, p.stamp ≠ q.stamp
  | .reduce _ d => d.Canonical
  | .fixpoint => False
  | _ => True

/-- The variables that the call is about. -/
def Call.touches : Call → List Var
  | .domain v | .value v | .subscribe _ v | .reduce v _ => [v]
  | .post p => p.val.vars
  | .resubscribe _ vs => vs
  | _ => []

/-- The history of a solver that is opened on the substitution. Each call adds to it, and so
    does each turn of a run to a fixpoint, where a propagator comes off the agenda and is run. -/
inductive Records (subst : Subst) : History → Solver → Prop
  | new : Records subst {} (.new subst)
  | call {h : History} {s : Solver} (records : Records subst h s) (c : Call) (apt : c.Apt h s) :
      Records subst (h.after s c) (Narrow.leaving (c.perform s))
  | turn {h : History} {s : Solver} {id : PropId} {a : Agenda} (records : Records subst h s)
      (popped : s.agenda.pop? = some (id, a)) :
      Records subst ((h.spend id).note (Narrow.leaving (Narrow.runNumbered id { s with agenda := a })))
        (Narrow.leaving (Narrow.runNumbered id { s with agenda := a }))

/-- A turn with what comes off the agenda. -/
theorem Records.next {subst : Subst} {h : History} (records : Records subst h s) (waits : s.agenda.pop?.isSome = true) :
    let entry := s.agenda.pop?.get waits
    let t := Narrow.leaving (Narrow.runNumbered entry.1 { s with agenda := entry.2 })
    Records subst ((h.spend entry.1).note t) t := records.turn (Option.some_get waits).symm

/-- A run to a fixpoint has a history too, as its turns have. -/
theorem Records.fixpoint {subst : Subst} {h : History} (records : Records subst h s) :
    ∃ h', Records subst h' (Narrow.leaving (Narrow.fixpoint s)) :=
  Narrow.upholds_fixpoint (I := fun s => ∃ h, Records subst h s)
    (fun _ _ _ recorded popped => recorded.elim fun _ records => ⟨_, records.turn popped⟩) s ⟨h, records⟩

/-! ## What a history tells -/

/-- What is stored with a loaded variable has been numbered, and what is stored with another one
    has not. What has been numbered has all of its variables loaded, and was numbered once, and
    once more whenever it was posted again. Numbers that have not been run or replaced belong to
    the propagator that they were given for, and subscribe to all of its variables. -/
structure History.Tracks (h : History) (s : Solver) : Prop where
  tidy : s.Tidy
  sized : ∀ id p, s.prop? id = some p → p.val.Sized
  stored : ∀ v, ∀ p ∈ s.subst.storedWatchers v, p.val.Sized ∧ p.stamp < s.subst.supply
  mentions : ∀ v, ∀ p ∈ s.subst.storedWatchers v, ∃ x ∈ p.val.vars, s.resolve x = .free v
  coherent : ∀ p q, h.Knows s p → h.Knows s q → p.stamp = q.stamp → p = q
  numbers : ∀ (n : Nat) (id : PropId), s.interned[n]? = some id → ∃ p, s.prop? id = some p ∧ p.stamp = n
  size : h.given.length = s.props.size
  original : ∀ (id : PropId) (p : Propagator), h.given[id.index]? = some p → id ∉ h.spent → s.prop? id = some p
  apart : ∀ v, v ∉ s.domains → ∀ p ∈ s.subst.storedWatchers v,
    p ∉ h.given ∧ ∀ id q, s.prop? id = some q → q.stamp ≠ p.stamp
  taken : ∀ w ∈ s.domains, ∀ p ∈ s.subst.storedWatchers w, p ∈ h.given
  closed : ∀ p ∈ h.given, ∀ x ∈ p.val.vars, ∀ y, s.resolve x = .free y → y ∈ s.domains
  subscribed : ∀ (id : PropId) (p : Propagator), h.given[id.index]? = some p → id ∉ h.spent →
    ∀ x ∈ p.val.vars, ∀ y, s.resolve x = .free y → id ∈ s.subscribersOf y
  once : ∀ p ∈ h.given, h.given.count p = 1 + h.again.count p
  repeats : ∀ p ∈ h.again, p ∈ h.given

namespace History.Tracks

variable {h h' : History}

/-! ### Growing -/

/-- A stored propagator that was numbered since has all of its variables loaded, and so the one
    that it is stored with. -/
theorem mem_domains_of_new (tracks : h.Tracks s) (covers : s.Covers posted t) (above : s.props.size ≤ id.index)
    (found : t.prop? id = some p) (stored : p ∈ s.subst.storedWatchers v) : v ∈ t.domains := by
  obtain ⟨x, mem, free⟩ := tracks.mentions v p stored
  exact (covers.led id p above found x mem v free).1

/-- The numbers that were given since are those of different propagators. -/
theorem nodup_drop (tracks : h.Tracks s) (covers : s.Covers posted t) :
    (t.props.toList.drop h.given.length).Nodup := by
  rw [List.nodup_iff_getElem?_ne_getElem?]
  intro i j before below same
  rw [List.length_drop, Array.length_toList] at below
  simp only [List.getElem?_drop, Array.getElem?_toList] at same
  obtain ⟨q, found⟩ : ∃ q, t.prop? ⟨h.given.length + j⟩ = some q :=
    ⟨_, Array.getElem?_eq_getElem (show h.given.length + j < t.props.size by omega)⟩
  have above (k : Nat) : s.props.size ≤ h.given.length + k := tracks.size ▸ Nat.le_add_right _ _
  have at_j := (covers.fresh _ _ (above j) found).2
  have at_i := (covers.fresh ⟨h.given.length + i⟩ _ (above i) (same.trans found)).2
  rw [at_i] at at_j
  have := congrArg PropId.index (Option.some.inj at_j)
  dsimp only at this
  omega

section Growing

variable (tracks : h.Tracks s) (given : h'.given = h.given) (covers : s.Covers posted t)

include tracks given

theorem mem_given_iff : p ∈ (h'.note t).given ↔ p ∈ h.given ∨ ∃ id, s.props.size ≤ id.index ∧ t.prop? id = some p := by
  rw [mem_note, given, tracks.size]

theorem cases_of_number (at_id : (h'.note t).given[id.index]? = some p) :
    h.given[id.index]? = some p ∨ (s.props.size ≤ id.index ∧ t.prop? id = some p) := by
  rw [getElem?_note, given, tracks.size] at at_id
  split at at_id
  · exact .inl at_id
  · rename_i above
    exact .inr ⟨Nat.le_of_not_lt above, at_id⟩

include covers

/-- What was numbered since was posted, or was stored with a variable that was not loaded. -/
theorem knows (known : (h'.note t).Knows t p) : h.Knows s p ∨ posted = some p := by
  rcases known with mem | ⟨v, stored⟩
  · rcases (tracks.mem_given_iff given).mp mem with before | ⟨id, above, found⟩
    · exact .inl (.inl before)
    · rcases covers.newer id p above found with posted | ⟨y, _, stored⟩
      · exact .inr posted
      · exact .inl (.inr ⟨y, stored⟩)
  · exact .inl (.inr ⟨v, covers.subst ▸ stored⟩)

theorem coherent_note (apt : ∀ p, posted = some p → ∀ q, h.Knows s q → q.stamp = p.stamp → q = p)
    (known : (h'.note t).Knows t p) (known' : (h'.note t).Knows t q) (same : p.stamp = q.stamp) : p = q := by
  rcases tracks.knows given covers known with known | posted₁ <;>
    rcases tracks.knows given covers known' with known' | posted₂
  · exact tracks.coherent p q known known' same
  · exact apt q posted₂ p known same
  · exact (apt p posted₁ q known' same.symm).symm
  · exact Option.some.inj (posted₁.symm.trans posted₂)

/-- A propagator is numbered once, and once more when it is posted again. -/
theorem count_note (again : ∀ q, h'.again.count q = h.again.count q + if posted = some q ∧ q ∈ h.given then 1 else 0)
    (mem : p ∈ (h'.note t).given) : (h'.note t).given.count p = 1 + (h'.note t).again.count p := by
  have counts : (h'.note t).given.count p = h.given.count p + (t.props.toList.drop h.given.length).count p := by
    rw [note, given, List.count_append]
  have nodup := tracks.nodup_drop covers
  rw [counts, again_note, again p]
  by_cases new : p ∈ t.props.toList.drop h.given.length
  · rw [List.count_eq_one_of_mem nodup new]
    obtain ⟨id, above, found⟩ := mem_drop_iff.mp new
    rw [tracks.size] at above
    by_cases old : p ∈ h.given
    · -- What was numbered before is not stored with a variable that was not loaded.
      have posted : posted = some p := by
        refine (covers.newer id p above found).resolve_right ?_
        rintro ⟨y, out, stored⟩
        exact (tracks.apart y out p stored).1 old
      rw [if_pos ⟨posted, old⟩, tracks.once p old, Nat.add_assoc]
    · rw [if_neg fun posted => old posted.2, List.count_eq_zero_of_not_mem old,
        List.count_eq_zero_of_not_mem fun repeated => old (tracks.repeats p repeated)]
  · have old : p ∈ h.given := by
      refine ((tracks.mem_given_iff given).mp mem).resolve_right ?_
      rintro ⟨id, above, found⟩
      exact new (mem_drop_iff.mpr ⟨id, tracks.size ▸ above, found⟩)
    have unposted : ¬(posted = some p ∧ p ∈ h.given) := fun posted => by
      obtain ⟨id, above, found⟩ := covers.numbered p posted.1
      exact new (mem_drop_iff.mpr ⟨id, tracks.size ▸ above, found⟩)
    rw [if_neg unposted, List.count_eq_zero_of_not_mem new, tracks.once p old, Nat.add_zero, Nat.add_zero]

/-- The history of what a solver numbers tracks the one that covers what is stored. -/
theorem note (spent : h'.spent = h.spent) (sized : ∀ p, posted = some p → p.val.Sized)
    (apt : ∀ p, posted = some p → ∀ q, h.Knows s q → q.stamp = p.stamp → q = p)
    (again : ∀ q, h'.again.count q = h.again.count q + if posted = some q ∧ q ∈ h.given then 1 else 0) :
    (h'.note t).Tracks t := by
  have resolve := covers.resolve
  have same_stored : t.subst.storedWatchers = s.subst.storedWatchers := by rw [covers.subst]
  have mem_iff (q : Propagator) := tracks.mem_given_iff (p := q) given (t := t)
  -- What is stored with a variable that was not loaded has the stamp of a new propagator only.
  have new_of_stored {v : Var} {p q : Propagator} {id : PropId} (out : v ∉ s.domains)
      (stored : p ∈ s.subst.storedWatchers v) (found : t.prop? id = some q) (same : q.stamp = p.stamp) :
      s.props.size ≤ id.index ∧ t.prop? id = some p := by
    have above : s.props.size ≤ id.index := Nat.le_of_not_lt fun below =>
      (tracks.apart v out p stored).2 id q (covers.prop?_of_lt below found) same
    have known : (h'.note t).Knows t q := .inl ((mem_iff q).mpr (.inr ⟨id, above, found⟩))
    rw [← tracks.coherent_note given covers apt known (.inr ⟨v, same_stored ▸ stored⟩) same]
    exact ⟨above, found⟩
  exact
    { tidy := covers.matched.tidy tracks.tidy
      sized := fun id p found => by
        by_cases below : id.index < s.props.size
        · exact tracks.sized id p (covers.prop?_of_lt below found)
        · rcases covers.newer id p (Nat.le_of_not_lt below) found with posted | ⟨y, _, stored⟩
          · exact sized p posted
          · exact (tracks.stored y p stored).1
      stored := by
        rw [same_stored, covers.subst]
        exact tracks.stored
      mentions := by
        rw [same_stored, resolve]
        exact tracks.mentions
      coherent := fun p q known known' same => tracks.coherent_note given covers apt known known' same
      numbers := fun n id at_n => by
        rcases covers.interns n id at_n with before | ⟨_, found⟩
        · obtain ⟨p, found, same⟩ := tracks.numbers n id before
          exact ⟨p, covers.props id p found, same⟩
        · exact found
      size := length_note (by rw [given, tracks.size]; exact covers.size)
      original := fun id p at_id unspent => by
        rcases tracks.cases_of_number given at_id with before | ⟨_, found⟩
        · exact covers.props id p (tracks.original id p before (spent ▸ unspent))
        · exact found
      apart := fun v out p stored => by
        rw [same_stored] at stored
        have before : v ∉ s.domains := fun mem => out (covers.mem_domains mem)
        refine ⟨fun mem => ?_, fun id q found same => ?_⟩
        · rcases (mem_iff p).mp mem with old | ⟨id, above, found⟩
          · exact (tracks.apart v before p stored).1 old
          · exact out (tracks.mem_domains_of_new covers above found stored)
        · obtain ⟨above, found'⟩ := new_of_stored before stored found same
          exact out (tracks.mem_domains_of_new covers above found' stored)
      taken := fun w loaded p stored => by
        rw [same_stored] at stored
        rw [mem_iff]
        by_cases before : w ∈ s.domains
        · exact .inl (tracks.taken w before p stored)
        · obtain ⟨id, at_p⟩ := covers.met w loaded before p stored
          rcases covers.interns _ id at_p with old | ⟨above, q, found, same⟩
          · obtain ⟨q, found, same⟩ := tracks.numbers _ id old
            exact absurd same ((tracks.apart w before p stored).2 id q found)
          · exact .inr ⟨id, new_of_stored before stored found same⟩
      closed := fun p mem x in_vars y free => by
        rw [resolve] at free
        rcases (mem_iff p).mp mem with old | ⟨id, above, found⟩
        · exact covers.mem_domains (tracks.closed p old x in_vars y free)
        · exact (covers.led id p above found x in_vars y free).1
      subscribed := fun id p at_id unspent x in_vars y free => by
        rw [resolve] at free
        rcases tracks.cases_of_number given at_id with before | ⟨above, found⟩
        · exact covers.subscribers y id (tracks.subscribed id p before (spent ▸ unspent) x in_vars y free)
        · exact (covers.led id p above found x in_vars y free).2
      once := fun p mem => tracks.count_note given covers again mem
      repeats := fun p mem => by
        refine (mem_iff p).mpr (.inl (Classical.byContradiction fun out => ?_))
        have counted := List.count_pos_iff.mpr mem
        rw [again_note, again p, if_neg fun posted => out posted.2] at counted
        exact out (tracks.repeats p (List.count_pos_iff.mp counted)) }

end Growing

/-- A solver that has grown without posting. -/
theorem grown (tracks : h.Tracks s) (covers : s.Covers none t) : (h.note t).Tracks t :=
  tracks.note rfl covers rfl (by simp) (by simp) (by simp)

/-! ### Changes in place -/

/-- What is known of the variables is the same, a number has the propagator that it had, or it
    is spent and has one that is not stored with a variable that is not loaded, and numbers that
    are not spent keep their subscriptions. -/
theorem alter (tracks : h.Tracks s) (tidy : t.Tidy) (resolve : t.resolve = s.resolve)
    (same_stored : t.subst.storedWatchers = s.subst.storedWatchers) (supply : s.subst.supply ≤ t.subst.supply)
    (loaded : ∀ w, w ∈ t.domains ↔ w ∈ s.domains) (size : t.props.size = s.props.size)
    (numbers : ∀ (n : Nat) (id : PropId), t.interned[n]? = some id → ∃ p, t.prop? id = some p ∧ p.stamp = n)
    (props : ∀ id q, t.prop? id = some q → s.prop? id = some q ∨ id ∈ h.spent ∧ q.val.Sized ∧
      ∀ v, v ∉ s.domains → ∀ p ∈ s.subst.storedWatchers v, q.stamp ≠ p.stamp)
    (subscribers : ∀ id, id ∉ h.spent → ∀ w, id ∈ s.subscribersOf w → id ∈ t.subscribersOf w) : h.Tracks t where
  tidy
  sized id q found := (props id q found).elim (tracks.sized id q) fun replaced => replaced.2.1
  stored v p stored := by
    rw [same_stored] at stored
    exact ⟨(tracks.stored v p stored).1, Nat.lt_of_lt_of_le (tracks.stored v p stored).2 supply⟩
  mentions := by
    rw [resolve, same_stored]
    exact tracks.mentions
  coherent := by
    unfold Knows
    rw [same_stored]
    exact tracks.coherent
  numbers
  size := tracks.size.trans size.symm
  original id p at_id unspent := by
    have before := tracks.original id p at_id unspent
    obtain ⟨q, found⟩ : ∃ q, t.prop? id = some q := ⟨_, Array.getElem?_eq_getElem (size ▸ index_lt_size before)⟩
    rcases props id _ found with same | ⟨spent, _⟩
    · exact found.trans (same.symm.trans before)
    · exact absurd spent unspent
  apart v out p stored := by
    rw [loaded] at out
    rw [same_stored] at stored
    obtain ⟨ungiven, apart⟩ := tracks.apart v out p stored
    exact ⟨ungiven, fun id q found => (props id q found).elim (apart id q) fun replaced => replaced.2.2 v out p stored⟩
  taken w mem p stored := tracks.taken w ((loaded w).mp mem) p (same_stored ▸ stored)
  closed p given x in_vars y free := (loaded y).mpr (tracks.closed p given x in_vars y (resolve ▸ free))
  subscribed id p at_id unspent x in_vars y free :=
    subscribers id unspent y (tracks.subscribed id p at_id unspent x in_vars y (resolve ▸ free))
  once := tracks.once
  repeats := tracks.repeats

theorem spend (tracks : h.Tracks s) (id : PropId) : (h.spend id).Tracks s :=
  { tracks with
    original := fun j p at_j unspent => tracks.original j p at_j fun mem => unspent (List.mem_cons_of_mem id mem)
    subscribed := fun j p at_j unspent => tracks.subscribed j p at_j fun mem => unspent (List.mem_cons_of_mem id mem) }

/-- A later supply of stamps changes nothing else. -/
theorem raise (tracks : h.Tracks s) {n : Nat} (later : s.subst.supply ≤ n) :
    h.Tracks { s with subst := { s.subst with supply := n } } := by
  have matched : s.Matches { s with subst := { s.subst with supply := n } } := matched_of_eq rfl rfl rfl
  exact tracks.alter (matched.tidy tracks.tidy) matched.resolve rfl later (fun _ => Iff.rfl) rfl tracks.numbers
    (fun _ _ found => .inl found) fun _ _ _ mem => mem

/-- Other propagators wait. -/
theorem agenda (tracks : h.Tracks s) (a : Agenda) : h.Tracks { s with agenda := a } :=
  tracks.alter (tracks.tidy.congr rfl rfl rfl) rfl rfl (Nat.le_refl _) (fun _ => Iff.rfl) rfl tracks.numbers
    (fun _ _ found => .inl found) fun _ _ _ mem => mem

theorem narrowTo (tracks : h.Tracks s) (loaded : w ∈ s.domains) (canonical : d.Canonical) :
    h.Tracks (s.narrowTo w d) := by
  refine tracks.alter (tracks.tidy.narrowTo canonical w) rfl rfl (Nat.le_refl _) (fun u => ?_) rfl tracks.numbers
    (fun _ _ found => .inl found) fun _ _ _ mem => mem
  rw [mem_domains_iff, mem_domains_iff, getElem?_narrowTo]
  split
  · rename_i same
    exact ⟨fun _ => mem_domains_iff.mp (same ▸ loaded), fun _ => ⟨d, rfl⟩⟩
  · exact Iff.rfl

/-- The propagator of a spent number gives up its subscriptions. -/
theorem unsubscribe (tracks : h.Tracks s) (spent : id ∈ h.spent) : h.Tracks (s.unsubscribe id) := by
  cases found : s.prop? id with
  | none =>
    have same : s.unsubscribe id = s := by simp only [Solver.unsubscribe, found]
    rwa [same]
  | some p =>
    rw [unsubscribe_of_found found]
    obtain ⟨m, eq, dropped⟩ := dropAll_spec id p.val.vars s
    have kept (j : PropId) (unspent : j ∉ h.spent) (w : Var) (mem : j ∈ s.subscribersOf w) :=
      (dropped w).2.1 j mem fun same => unspent (same ▸ spent)
    rw [eq] at kept ⊢
    exact tracks.alter (tracks.tidy.congr rfl rfl rfl) rfl rfl (Nat.le_refl _) (fun _ => Iff.rfl) rfl tracks.numbers
      (fun _ _ found => .inl found) kept

/-- A propagator that is not stored with a variable that is not loaded takes the place of a
    spent one. -/
theorem replace (tracks : h.Tracks s) (spent : id ∈ h.spent) (sized : p.val.Sized)
    (apt : ∀ v, v ∉ s.domains → ∀ q ∈ s.subst.storedWatchers v, p.stamp ≠ q.stamp) : h.Tracks (s.replace id p) := by
  cases found : s.prop? id with
  | none =>
    have same : s.replace id p = s := by simp only [Solver.replace, found]
    rwa [same]
  | some old =>
    have prop? (j : PropId) := prop?_replace found p j
    simp only [Solver.replace, found] at prop? ⊢
    refine tracks.alter (tracks.tidy.congr rfl rfl rfl) rfl rfl (Nat.le_refl _) (fun _ => Iff.rfl) (by simp)
      (fun n j at_n => ?_) (fun j q at_j => ?_) fun _ _ _ mem => mem
    · simp only [Std.ExtTreeMap.getElem?_insert, Std.ExtTreeMap.getElem?_erase, Std.compare_eq_iff_eq] at at_n
      rw [prop?]
      split at at_n
      · cases at_n
        exact ⟨p, if_pos rfl, ‹_›⟩
      · split at at_n
        · cases at_n
        · rename_i differ
          -- The number of another stamp is not the one that gets a new propagator.
          obtain ⟨q, at_j, same⟩ := tracks.numbers n j at_n
          have other : j ≠ id := by
            rintro rfl
            rw [found] at at_j
            cases at_j
            exact differ same
          exact ⟨q, by rw [if_neg other, at_j], same⟩
    · rw [prop?] at at_j
      split at at_j
      · rename_i here
        cases at_j
        exact .inr ⟨here ▸ spent, sized, apt⟩
      · exact .inl at_j

/-! ### Runs -/

/-- A move of a spent propagator. -/
theorem move (within : h.given.length ≤ s.props.size) (tracks : (h.note s).Tracks s) (spent : id ∈ h.spent)
    (below : id.index < h.given.length) (move : s.Move id t) :
    h.given.length ≤ t.props.size ∧ (h.note t).Tracks t := by
  have grown (covers : s.Covers none t) : h.given.length ≤ t.props.size ∧ (h.note t).Tracks t := by
    refine ⟨Nat.le_trans within covers.size, ?_⟩
    rw [← note_note within covers.toGrows]
    exact tracks.grown covers
  cases move with
  | load root => exact grown (.load s _)
  | subscribe root loaded => exact grown (.addSubscriber s id _)
  | narrow root loaded canonical some_left sub => exact ⟨within, tracks.narrowTo loaded canonical⟩
  | enqueue j => exact grown (.enqueue s j)
  | @become r sized =>
    have stamped := tracks.raise (Nat.le_succ s.subst.supply)
    -- The new stamp is past all that are stored.
    have replaced : (h.note s).Tracks (s.become id r) :=
      stamped.replace spent sized fun v _ q stored => Nat.ne_of_gt (tracks.stored v q stored).2
    have noted : h.note (s.become id r) = h.note s := note_replace below
    exact ⟨replaced.size ▸ length_note within ▸ within, noted ▸ replaced⟩

theorem moves (within : h.given.length ≤ s.props.size) (tracks : (h.note s).Tracks s) (spent : id ∈ h.spent)
    (below : id.index < h.given.length) (moves : s.Moves id t) : (h.note t).Tracks t := by
  have kept : h.given.length ≤ t.props.size ∧ (h.note t).Tracks t := by
    induction moves with
    | refl => exact ⟨within, tracks⟩
    | tail _ move ih => exact ih.2.move ih.1 spent below move
  exact kept.2

/-- A turn in which a propagator comes off the agenda and is run. -/
theorem turn {a : Agenda} (tracks : h.Tracks s) :
    ((h.spend id).note (Narrow.leaving (Narrow.runNumbered id { s with agenda := a }))).Tracks
      (Narrow.leaving (Narrow.runNumbered id { s with agenda := a })) := by
  have popping := (tracks.spend id).agenda a
  generalize ({ s with agenda := a } : Solver) = t at popping
  cases found : t.prop? id with
  | none =>
    rw [runNumbered_eq, found]
    exact (note_of_size popping.size).symm ▸ popping
  | some p =>
    have spent : id ∈ (h.spend id).spent := List.mem_cons_self
    have unsubscribed := popping.unsubscribe spent
    have noted := note_of_size unsubscribed.size
    refine moves (Nat.le_of_eq unsubscribed.size) (noted.symm ▸ unsubscribed) spent ?_
      (Narrow.moves_runNumbered popping.tidy found (popping.sized id p found))
    rw [popping.size]
    exact index_lt_size found

/-! ### Calls -/

theorem past (tracks : h.Tracks s) (p : Propagator) : h.Tracks (s.past p) := tracks.raise (Nat.le_max_left _ _)

theorem post (tracks : h.Tracks s) (sized : p.val.Sized) (apt : ∀ q, h.Knows s q → q.stamp = p.stamp → q = p) :
    ((if s.interned[p.stamp]? = none then h.repost p else h).note (s.post p).2).Tracks (s.post p).2 := by
  have covers := Covers.post s p
  split
  · rename_i new
    rw [if_pos new] at covers
    refine tracks.note (h.given_repost p) covers (h.spent_repost p) ?_ ?_ fun q => ?_
    · rintro _ ⟨⟩
      exact sized
    · rintro _ ⟨⟩
      exact apt
    · simp only [count_repost, Option.some.injEq]
  · rename_i met
    rw [if_neg met] at covers
    exact tracks.grown covers

theorem reduce (tracks : h.Tracks s) (canonical : d.Canonical) (v : Var) :
    (h.note (Narrow.leaving (Narrow.reduce v d s))).Tracks (Narrow.leaving (Narrow.reduce v d s)) := by
  have asked (w : Var) := tracks.grown (.domain s w)
  have reduces := s.reduces v d
  generalize Narrow.reduce v d s = e at reduces
  cases reduces with
  | bound bound same => rcases same with rfl | rfl <;> exact (note_of_size tracks.size).symm ▸ tracks
  | @empty w free none_left => exact asked w
  | @kept w free same => exact asked w
  | @narrowed w free some_left =>
    obtain ⟨_, loaded, next, _⟩ := tracks.tidy.narrowed canonical free
    have narrowed := (asked w).narrowTo loaded next
    generalize narrows : (s.domain w).2.narrowTo w ((s.peek w).intersect d) = u at narrowed
    have covers := Covers.enqueueAll (u.subscribersOf w) u
    have within : h.given.length ≤ u.props.size := by
      rw [← narrows]
      exact tracks.size ▸ (Covers.domain s w).size
    have noted : h.note (s.domain w).2 = h.note u := by
      rw [← narrows]
      rfl
    rw [noted] at narrowed
    exact note_note within covers.toGrows ▸ narrowed.grown covers

/-- A call keeps what a history tells. -/
theorem call (tracks : h.Tracks s) {c : Call} (apt : c.Apt h s) :
    (h.after s c).Tracks (Narrow.leaving (c.perform s)) := by
  cases c with
  | domain v | value v => exact tracks.grown (.domain s v)
  | post p => exact (tracks.past p).post apt.1 apt.2
  | subscribe id v => exact tracks.grown (.subscribe s id v)
  | resubscribe id vs => exact tracks.grown (.resubscribe id vs s)
  | replace id p =>
    have replaced : (if id.index < h.given.length then h.spend id else h).Tracks ((s.past p).replace id p) := by
      split
      · exact ((tracks.past p).spend id).replace List.mem_cons_self apt.1 apt.2
      · rename_i above
        have missing : (s.past p).prop? id = none := Array.getElem?_eq_none (tracks.size ▸ Nat.le_of_not_lt above)
        unfold Solver.replace
        rw [missing]
        exact tracks.past p
    have noted := note_of_size replaced.size
    exact (noted.symm ▸ replaced :)
  | reduce v d => exact tracks.reduce apt v
  | wakeAll =>
    have covers : s.Covers none s.wakeAll := s.wakeAll_eq_enqueueAll ▸ .enqueueAll _ s
    exact tracks.grown covers
  | fixpoint => exact apt.elim

end History.Tracks

end Solver

end ConstraintLogic
