import ConstraintLogic.Proofs.Agenda.Coherence
import Mathlib.Data.Set.Card

/-!
# The agenda and its history

What an agenda holds after any pushes and pops can be read off these alone. A push counts as
long as its propagator has not been taken off since. A propagator waits just when a push of
it counts, and then its place is decided by one of them: by the first of those that have the
least weight. A pop takes the propagator whose place comes first, and nothing else.

Results:
* `Agenda.after`: the agenda after a list of operations.
* `Agenda.Counts`, `Agenda.Decides`: the pushes that count, and the one that decides a place.
* `Agenda.Recalls`: an agenda that can be read off its history; `Agenda.Recalls.act`: one more
  operation.
* `Agenda.Coherent.pop_first`: what is taken off comes before all that is left.
* `Agenda.priority_queue`: any history.
-/

namespace ConstraintLogic

theorem Place.compare_eq_lt_iff {p q : Place} :
    compare p q = .lt ↔ p.weight < q.weight ∨ p.weight = q.weight ∧ p.arrival < q.arrival := by
  show (compare p.weight q.weight).then (compare p.arrival q.arrival) = .lt ↔ _
  rw [Ordering.then_eq_lt, Nat.compare_eq_lt, Nat.compare_eq_eq, Nat.compare_eq_lt]

namespace Agenda

/-! ## Histories -/

/-- An operation on an agenda. -/
inductive Act where
  /-- The propagator is to wait at that weight. -/
  | push (id : PropId) (weight : Nat)
  /-- The first propagator is taken off. -/
  | pop
deriving DecidableEq, Repr

/-- The propagator that comes first. -/
def first? (a : Agenda) : Option PropId := a.pop?.map Prod.fst

/-- The agenda after an operation. -/
def act (a : Agenda) : Act → Agenda
  | .push id weight => a.push id weight
  | .pop => (a.pop?.map Prod.snd).getD a

/-- The empty agenda after the operations. -/
def after (acts : List Act) : Agenda := acts.foldl act {}

/-- The number of arrivals before operation number `i`. -/
def clock (acts : List Act) (i : Nat) : Nat := (after (acts.take i)).arrivals

/-- Operation number `j` takes the propagator off. -/
def TakenAt (acts : List Act) (id : PropId) (j : Nat) : Prop :=
  acts[j]? = some .pop ∧ (after (acts.take j)).first? = some id

/-- Operation number `i` pushes the propagator at that weight, and it has not been taken off
    since. -/
structure Counts (acts : List Act) (id : PropId) (i weight : Nat) : Prop where
  pushed : acts[i]? = some (.push id weight)
  kept : ∀ j, i < j → ¬TakenAt acts id j

/-- Of the pushes that count for the propagator, number `i` is the first of the least weight. -/
structure Decides (acts : List Act) (id : PropId) (i weight : Nat) : Prop extends
    Counts acts id i weight where
  lightest : ∀ j w, Counts acts id j w → weight ≤ w
  first : ∀ j, Counts acts id j weight → i ≤ j

variable {acts : List Act} {x : Act} {a b : Agenda} {id j : PropId} {i k weight w : Nat} {place : Place}

theorem after_concat (acts : List Act) (x : Act) : after (acts ++ [x]) = (after acts).act x := by
  rw [after, List.foldl_append]
  rfl

theorem take_concat_of_le (le : i ≤ acts.length) : (acts ++ [x]).take i = acts.take i :=
  List.take_append_of_le_length le

theorem getElem?_concat_eq_some {y : Act} :
    (acts ++ [x])[i]? = some y ↔ acts[i]? = some y ∨ i = acts.length ∧ x = y := by
  rcases Nat.lt_trichotomy i acts.length with less | rfl | more
  · simp [List.getElem?_append_left less, Nat.ne_of_lt less]
  · simp
  · have outside : (acts ++ [x])[i]? = none := List.getElem?_eq_none (by simpa using more)
    simp [outside, List.getElem?_eq_none (Nat.le_of_lt more), Nat.ne_of_gt more]

theorem lt_length_of_pushed {y : Act} (at_i : acts[i]? = some y) : i < acts.length :=
  (List.getElem?_eq_some_iff.mp at_i).1

theorem clock_concat (le : i ≤ acts.length) : clock (acts ++ [x]) i = clock acts i := by
  rw [clock, take_concat_of_le le, clock]

/-- When a place has arrived is not changed by a later operation. -/
theorem clocked_concat {n : Nat} (less : i < acts.length) (clocked : clock acts i < n ∧ n = clock acts (i + 1)) :
    clock (acts ++ [x]) i < n ∧ n = clock (acts ++ [x]) (i + 1) := by
  rwa [clock_concat (Nat.le_of_lt less), clock_concat less]

theorem clock_length (acts : List Act) : clock acts acts.length = (after acts).arrivals := by
  rw [clock, List.take_length]

/-! ## One more operation -/

theorem takenAt_concat {n : Nat} : TakenAt (acts ++ [x]) id n ↔
    TakenAt acts id n ∨ n = acts.length ∧ x = .pop ∧ (after acts).first? = some id := by
  unfold TakenAt
  rw [getElem?_concat_eq_some]
  constructor
  · rintro ⟨before | ⟨rfl, rfl⟩, taken⟩
    · rw [take_concat_of_le (Nat.le_of_lt (lt_length_of_pushed before))] at taken
      exact .inl ⟨before, taken⟩
    · rw [take_concat_of_le (Nat.le_refl _), List.take_length] at taken
      exact .inr ⟨rfl, rfl, taken⟩
  · rintro (⟨before, taken⟩ | ⟨rfl, rfl, taken⟩)
    · rw [take_concat_of_le (Nat.le_of_lt (lt_length_of_pushed before))]
      exact ⟨.inl before, taken⟩
    · rw [take_concat_of_le (Nat.le_refl _), List.take_length]
      exact ⟨.inr ⟨rfl, rfl⟩, taken⟩

/-- A push counts besides those that have counted before. -/
theorem counts_push : Counts (acts ++ [.push j w]) id i weight ↔
    Counts acts id i weight ∨ i = acts.length ∧ j = id ∧ w = weight := by
  have taken (n : Nat) : TakenAt (acts ++ [.push j w]) id n ↔ TakenAt acts id n := by
    rw [takenAt_concat]
    simp
  constructor
  · rintro ⟨pushed, kept⟩
    rcases getElem?_concat_eq_some.mp pushed with before | ⟨rfl, same⟩
    · exact .inl ⟨before, fun n later at_n => kept n later ((taken n).mpr at_n)⟩
    · cases same
      exact .inr ⟨rfl, rfl, rfl⟩
  · rintro (⟨pushed, kept⟩ | ⟨rfl, rfl, rfl⟩)
    · exact ⟨getElem?_concat_eq_some.mpr (.inl pushed), fun n later at_n => kept n later ((taken n).mp at_n)⟩
    · refine ⟨getElem?_concat_eq_some.mpr (.inr ⟨rfl, rfl⟩), fun n later at_n => ?_⟩
      exact absurd (lt_length_of_pushed ((taken n).mp at_n).1) (by omega)

/-- The pushes of what is taken off count no longer. -/
theorem counts_pop : Counts (acts ++ [.pop]) id i weight ↔
    Counts acts id i weight ∧ (after acts).first? ≠ some id := by
  constructor
  · rintro ⟨pushed, kept⟩
    have before : acts[i]? = some (.push id weight) := by
      simpa using getElem?_concat_eq_some.mp pushed
    refine ⟨⟨before, fun n later at_n => kept n later (takenAt_concat.mpr (.inl at_n))⟩, fun taken => ?_⟩
    exact kept acts.length (lt_length_of_pushed before) (takenAt_concat.mpr (.inr ⟨rfl, rfl, taken⟩))
  · rintro ⟨⟨pushed, kept⟩, other⟩
    refine ⟨getElem?_concat_eq_some.mpr (.inl pushed), fun n later at_n => ?_⟩
    rcases takenAt_concat.mp at_n with before | ⟨_, _, taken⟩
    · exact kept n later before
    · exact other taken

/-- Only one push decides a place. -/
theorem Decides.unique (h : Decides acts id i weight) (h' : Decides acts id k w) : i = k ∧ weight = w := by
  have weights : weight = w := Nat.le_antisymm (h.lightest k w h'.toCounts) (h'.lightest i weight h.toCounts)
  subst weights
  exact ⟨Nat.le_antisymm (h.first k h'.toCounts) (h'.first i h.toCounts), rfl⟩

/-- Where the same pushes count, the same one decides. -/
theorem Decides.congr {acts' : List Act} (h : Decides acts id i weight)
    (same : ∀ i w, Counts acts' id i w ↔ Counts acts id i w) : Decides acts' id i weight where
  toCounts := (same i weight).mpr h.toCounts
  lightest k w counts := h.lightest k w ((same k w).mp counts)
  first k counts := h.first k ((same k weight).mp counts)

/-- A push that is no lighter than what decides the place changes nothing. -/
theorem Decides.push (h : Decides acts id i weight) (le : weight ≤ w) :
    Decides (acts ++ [.push id w]) id i weight where
  toCounts := counts_push.mpr (.inl h.toCounts)
  lightest k v counts := by
    rcases counts_push.mp counts with before | ⟨_, _, rfl⟩
    · exact h.lightest k v before
    · exact le
  first k counts := by
    rcases counts_push.mp counts with before | ⟨rfl, _, _⟩
    · exact h.first k before
    · exact Nat.le_of_lt (lt_length_of_pushed h.pushed)

/-- A push that is lighter than all that count decides the place. -/
theorem decides_push (lighter : ∀ k v, Counts acts id k v → weight < v) :
    Decides (acts ++ [.push id weight]) id acts.length weight where
  toCounts := counts_push.mpr (.inr ⟨rfl, rfl, rfl⟩)
  lightest k v counts := by
    rcases counts_push.mp counts with before | ⟨_, _, rfl⟩
    · exact Nat.le_of_lt (lighter k v before)
    · exact Nat.le_refl _
  first k counts := by
    rcases counts_push.mp counts with before | ⟨rfl, _, _⟩
    · exact absurd (lighter k weight before) (Nat.lt_irrefl _)
    · exact Nat.le_refl _

/-! ## Agendas that recall their history -/

/-- The agenda can be read off the operations: what waits has been pushed, and its place is the
    weight and the arrival of the push that decides. -/
structure Recalls (acts : List Act) (a : Agenda) : Prop where
  coherent : a.Coherent
  waits : ∀ id i weight, Counts acts id i weight → a.Waits id
  placed : ∀ id place, a.queued[id]? = some place → ∃ i, Decides acts id i place.weight ∧
    clock acts i < place.arrival ∧ place.arrival = clock acts (i + 1)

namespace Recalls

theorem nil : Recalls [] {} where
  coherent := coherent_empty
  waits id i weight counts := by simpa using counts.pushed
  placed id place found := by simp at found

/-- A propagator for which the pushes count as before keeps its place. -/
theorem keep (h : Recalls acts (after acts)) (same : ∀ i w, Counts (acts ++ [x]) id i w ↔ Counts acts id i w)
    (found : (after acts).queued[id]? = some place) : ∃ i, Decides (acts ++ [x]) id i place.weight ∧
      clock (acts ++ [x]) i < place.arrival ∧ place.arrival = clock (acts ++ [x]) (i + 1) := by
  obtain ⟨i, decides, clocked⟩ := h.placed id place found
  exact ⟨i, decides.congr same, clocked_concat (lt_length_of_pushed decides.pushed) clocked⟩

/-- A propagator enters that does not wait, or at a lower weight. -/
theorem entered (h : Recalls acts (after acts)) (lighter : ∀ k v, Counts acts id k v → weight < v)
    (arrivals : ((after acts).push id weight).arrivals = (after acts).arrivals + 1)
    (queued : ∀ j, ((after acts).push id weight).queued[j]? =
      if id = j then some ⟨weight, (after acts).arrivals + 1⟩ else (after acts).queued[j]?) :
    Recalls (acts ++ [.push id weight]) ((after acts).push id weight) where
  coherent := h.coherent.push id weight
  waits j i w counts := by
    rw [waits_push]
    rcases counts_push.mp counts with before | ⟨_, rfl, _⟩
    · exact .inr (h.waits j i w before)
    · exact .inl rfl
  placed j place found := by
    rw [queued] at found
    split at found
    · rename_i same
      cases same
      cases found
      refine ⟨acts.length, decides_push lighter, ?_, ?_⟩
      · rw [clock_concat (Nat.le_refl _), clock_length]
        exact Nat.lt_succ_self _
      · rw [clock, List.take_of_length_le (by simp), after_concat]
        exact arrivals.symm
    · rename_i other
      exact h.keep (fun i w => by rw [counts_push]; simp [other]) found

theorem push (h : Recalls acts (after acts)) (id : PropId) (weight : Nat) :
    Recalls (acts ++ [.push id weight]) ((after acts).push id weight) := by
  cases found : (after acts).queued[id]? with
  | none =>
    have entering : (after acts).push id weight = (after acts).enter id weight := by
      unfold Agenda.push
      rw [found]
    refine h.entered (fun k v counts => ?_) (by rw [entering]; rfl) fun j => by rw [entering, getElem?_queued_enter]
    obtain ⟨place, at_place⟩ := h.waits id k v counts
    rw [found] at at_place
    cases at_place
  | some place =>
    obtain ⟨i, decides, clocked⟩ := h.placed id place found
    by_cases heavy : place.weight ≤ weight
    · have staying : (after acts).push id weight = after acts := by
        unfold Agenda.push
        rw [found]
        exact if_pos heavy
      rw [staying]
      refine ⟨h.coherent, fun j i w counts => ?_, fun j q at_j => ?_⟩
      · rcases counts_push.mp counts with before | ⟨_, rfl, _⟩
        · exact h.waits j i w before
        · exact ⟨place, found⟩
      · by_cases same : id = j
        · cases same
          cases found.symm.trans at_j
          exact ⟨i, decides.push heavy, clocked_concat (lt_length_of_pushed decides.pushed) clocked⟩
        · exact h.keep (fun i w => by rw [counts_push]; simp [same]) at_j
    · have entering : (after acts).push id weight =
          { after acts with queue := (after acts).queue.erase place }.enter id weight := by
        unfold Agenda.push
        rw [found]
        exact if_neg heavy
      refine h.entered (fun k v counts => ?_) (by rw [entering]; rfl) fun j => by rw [entering, getElem?_queued_enter]
      have := decides.lightest k v counts
      omega

theorem pop (h : Recalls acts (after acts)) : Recalls (acts ++ [.pop]) ((after acts).act .pop) := by
  cases popped : (after acts).pop? with
  | none =>
    have staying : (after acts).act .pop = after acts := by rw [act, popped]; rfl
    have same (id : PropId) (i w : Nat) : Counts (acts ++ [.pop]) id i w ↔ Counts acts id i w := by
      rw [counts_pop, first?, popped]
      simp
    rw [staying]
    refine ⟨h.coherent, fun id i w counts => h.waits id i w ((same id i w).mp counts), fun id place found => ?_⟩
    exact h.keep (same id) found
  | some entry =>
    obtain ⟨id, b⟩ := entry
    have leaving : (after acts).act .pop = b := by rw [act, popped]; rfl
    have same (j : PropId) (other : j ≠ id) (i w : Nat) : Counts (acts ++ [.pop]) j i w ↔ Counts acts j i w := by
      rw [counts_pop, first?, popped]
      simpa using fun _ => Ne.symm other
    rw [leaving]
    refine ⟨h.coherent.pop popped, fun j i w counts => ?_, fun j place found => ?_⟩
    · obtain ⟨before, other⟩ := counts_pop.mp counts
      rw [first?, popped] at other
      exact (waits_pop popped).mpr ⟨fun same => other (by rw [same]; rfl), h.waits j i w before⟩
    · have other := ((waits_pop popped).mp ⟨place, found⟩).1
      refine h.keep (same j other) ?_
      obtain ⟨_, _, rfl⟩ := pop?_eq_some popped
      simpa [Std.ExtTreeMap.getElem?_erase, Ne.symm other] using found

theorem act (h : Recalls acts (after acts)) : ∀ x, Recalls (acts ++ [x]) ((after acts).act x)
  | .push id weight => h.push id weight
  | .pop => h.pop

end Recalls

/-- After any operations the agenda recalls them. -/
theorem recalls_after (acts : List Act) : Recalls acts (after acts) := by
  induction acts using List.reverseRecOn with
  | nil => exact .nil
  | append_singleton acts x ih =>
    rw [after_concat]
    exact ih.act x

/-! ## Order -/

theorem arrivals_act_le (a : Agenda) (x : Act) : a.arrivals ≤ (a.act x).arrivals := by
  cases x with
  | push id weight =>
    show a.arrivals ≤ (a.push id weight).arrivals
    unfold push
    split
    · split
      · exact Nat.le_refl _
      · exact Nat.le_succ _
    · exact Nat.le_succ _
  | pop =>
    cases popped : a.pop? with
    | none => simp [act, popped]
    | some entry =>
      obtain ⟨id, b⟩ := entry
      obtain ⟨place, _, rfl⟩ := pop?_eq_some popped
      simp [act, popped]

theorem clock_mono (acts : List Act) (le : i ≤ k) : clock acts i ≤ clock acts k := by
  induction le with
  | refl => exact Nat.le_refl _
  | @step k _ ih =>
    refine Nat.le_trans ih ?_
    unfold clock
    rw [List.take_add_one]
    cases acts[k]? with
    | none => simp
    | some x =>
      rw [Option.toList_some, after_concat]
      exact arrivals_act_le _ x

/-- A place is told by the push that decides it, and by when that push came. -/
theorem Recalls.queued_iff (h : Recalls acts a) : a.queued[id]? = some place ↔
    ∃ i, Decides acts id i place.weight ∧ clock acts i < place.arrival ∧ place.arrival = clock acts (i + 1) := by
  refine ⟨h.placed id place, ?_⟩
  rintro ⟨i, decides, _, here⟩
  obtain ⟨⟨w, n⟩, found⟩ := h.waits id i _ decides.toCounts
  obtain ⟨k, decides', _, here'⟩ := h.placed id ⟨w, n⟩ found
  obtain ⟨rfl, rfl⟩ : i = k ∧ place.weight = w := decides.unique decides'
  obtain rfl : place.arrival = n := here.trans here'.symm
  exact found

theorem Recalls.waits_iff (h : Recalls acts a) : a.Waits id ↔ ∃ i weight, Counts acts id i weight := by
  constructor
  · rintro ⟨place, found⟩
    obtain ⟨i, decides, _⟩ := h.placed id place found
    exact ⟨i, place.weight, decides.toCounts⟩
  · rintro ⟨i, weight, counts⟩
    exact h.waits id i weight counts

/-- The places of two propagators have arrived in the order of the pushes that decide them. -/
theorem Recalls.arrival_lt_iff (h : Recalls acts a) {place' : Place} (at_id : a.queued[id]? = some place)
    (at_j : a.queued[j]? = some place') (decides : Decides acts id i place.weight)
    (decides' : Decides acts j k place'.weight) : place.arrival < place'.arrival ↔ i < k := by
  have alone {id : PropId} {place : Place} {i : Nat} (found : a.queued[id]? = some place)
      (decides : Decides acts id i place.weight) : clock acts i < place.arrival ∧ place.arrival = clock acts (i + 1) := by
    obtain ⟨k, decides', clocked⟩ := h.placed id place found
    rwa [(decides.unique decides').1]
  obtain ⟨before, here⟩ := alone at_id decides
  obtain ⟨before', here'⟩ := alone at_j decides'
  rcases Nat.lt_trichotomy i k with less | rfl | more
  · have := clock_mono acts (i := i + 1) less
    omega
  · omega
  · have := clock_mono acts (i := k + 1) more
    omega

/-- What is taken off comes before all that is left. -/
theorem Coherent.pop_first (h : a.Coherent) (popped : a.pop? = some (id, b)) :
    ∃ place, a.queued[id]? = some place ∧ ∀ (j : PropId) (place' : Place), a.queued[j]? = some place' → j ≠ id →
      place.weight < place'.weight ∨ place.weight = place'.weight ∧ place.arrival < place'.arrival := by
  have sorted := Std.ExtTreeMap.ordered_keys_toList (t := a.queue)
  have listed (place : Place) (id : PropId) : (place, id) ∈ a.queue.toList ↔ a.queue[place]? = some id :=
    mem_toList_queue
  unfold pop? at popped
  split at popped
  · rename_i place first rest order
    cases popped
    rw [order] at sorted listed
    refine ⟨place, (h.inverse place id).mp ((listed place id).mp List.mem_cons_self), fun j place' at_j other => ?_⟩
    have mem := (listed place' j).mpr ((h.inverse place' j).mpr at_j)
    rcases List.mem_cons.mp mem with same | later
    · cases same
      exact absurd rfl other
    · exact Place.compare_eq_lt_iff.mp ((List.pairwise_cons.mp sorted).1 _ later)
  · cases popped

theorem Coherent.length_eq (h : a.Coherent) : a.length = {id | a.Waits id}.ncard := by
  have same : {id | a.Waits id} = ↑(a.queue.toList.map Prod.snd).toFinset := by
    ext id
    rw [List.coe_toFinset, Set.mem_ofPred_eq, Set.mem_ofPred_eq, h.mem_waiting]
  rw [same, Set.ncard_coe_finset, List.toFinset_card_of_nodup h.nodup_waiting, List.length_map,
    Std.ExtTreeMap.length_toList, length]

/-- After any pushes and pops, the agenda holds each propagator that has been pushed and not
    taken off since at one place, the same in both of its maps: at the least weight of the
    pushes that count, with the arrival of the first push of that weight. Its length is the
    number of these propagators, and a pop takes the one with the least place and no other, or
    none just when nothing waits. -/
theorem priority_queue (acts : List Act) :
    let a := after acts
    (∀ id, a.Waits id ↔ ∃ i weight, Counts acts id i weight) ∧
    (∀ (id : PropId) (place : Place), a.queued[id]? = some place ↔ a.queue[place]? = some id) ∧
    (∀ (id : PropId) (place : Place), a.queued[id]? = some place ↔ ∃ i, Decides acts id i place.weight ∧
      clock acts i < place.arrival ∧ place.arrival = clock acts (i + 1)) ∧
    (∀ (id : PropId) (place : Place) (i : Nat) (id' : PropId) (place' : Place) (i' : Nat),
      a.queued[id]? = some place → Decides acts id i place.weight →
      a.queued[id']? = some place' → Decides acts id' i' place'.weight →
      (place.arrival < place'.arrival ↔ i < i')) ∧
    a.length = {id | a.Waits id}.ncard ∧
    match a.pop? with
    | some (id, b) =>
      (∃ place, a.queued[id]? = some place ∧ ∀ (id' : PropId) (place' : Place), a.queued[id']? = some place' → id' ≠ id →
        place.weight < place'.weight ∨ place.weight = place'.weight ∧ place.arrival < place'.arrival) ∧
      ∀ id' : PropId, b.queued[id']? = if id' = id then none else a.queued[id']?
    | none => ∀ id, ¬a.Waits id := by
  have recalls := recalls_after acts
  have coherent := recalls.coherent
  refine ⟨fun id => recalls.waits_iff, fun id place => (coherent.inverse place id).symm, fun id place => recalls.queued_iff,
    fun id place i id' place' i' found decides found' decides' => recalls.arrival_lt_iff found found' decides decides',
    coherent.length_eq, ?_⟩
  split
  · rename_i id b popped
    refine ⟨coherent.pop_first popped, fun j => ?_⟩
    obtain ⟨_, _, rfl⟩ := pop?_eq_some popped
    simp only [Std.ExtTreeMap.getElem?_erase, Std.compare_eq_iff_eq, eq_comm (a := j)]
  · rename_i popped
    exact coherent.not_waits_of_pop popped

end Agenda

end ConstraintLogic
