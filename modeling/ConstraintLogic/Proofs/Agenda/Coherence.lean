import ConstraintLogic.Agenda
import Mathlib.Data.List.Nodup
import Mathlib.Tactic.Common

/-!
# What waits on the agenda

The two maps of an agenda are inverse to one another, and no place is given twice.
Hence a push makes its propagator wait and nothing else, and a pop takes one
propagator off.

Results:
* `Agenda.Coherent`: the two maps agree.
* `Agenda.Coherent.nodup_waiting`, `Agenda.Coherent.mem_waiting`: the queue lists what waits, once.
* `Agenda.waits_push`, `Agenda.waits_pop`: what waits afterwards.
* `Agenda.length_push_le`, `Agenda.length_of_pop`: how the length changes.
-/

namespace ConstraintLogic.Agenda

/-- The propagator waits at some place. -/
def Waits (a : Agenda) (id : PropId) : Prop := ∃ place, a.queued[id]? = some place

/-- Both maps hold the same pairs, and later arrivals get other places. -/
structure Coherent (a : Agenda) : Prop where
  inverse : ∀ (place : Place) (id : PropId), a.queue[place]? = some id ↔ a.queued[id]? = some place
  arrived : ∀ (place : Place) (id : PropId), a.queue[place]? = some id → place.arrival ≤ a.arrivals

theorem coherent_empty : ({} : Agenda).Coherent where
  inverse place id := by simp
  arrived place id h := by simp at h

theorem not_waits_empty (id : PropId) : ¬({} : Agenda).Waits id := by
  rintro ⟨place, h⟩
  simp at h

/-! ## Entering -/

theorem getElem?_queue_enter (a : Agenda) (id : PropId) (weight : Nat) (place : Place) :
    (a.enter id weight).queue[place]? =
      if (⟨weight, a.arrivals + 1⟩ : Place) = place then some id else a.queue[place]? := by
  simp [enter, Std.ExtTreeMap.getElem?_insert]

theorem getElem?_queued_enter (a : Agenda) (id j : PropId) (weight : Nat) :
    (a.enter id weight).queued[j]? =
      if id = j then some ⟨weight, a.arrivals + 1⟩ else a.queued[j]? := by
  simp [enter, Std.ExtTreeMap.getElem?_insert]

theorem waits_enter {a : Agenda} {id j : PropId} {weight : Nat} :
    (a.enter id weight).Waits j ↔ j = id ∨ a.Waits j := by
  unfold Waits
  rw [getElem?_queued_enter]
  by_cases same : id = j
  · simp [same]
  · simp [same, Ne.symm same]

/-- The place of the next arrival is not taken. -/
theorem Coherent.next_free {a : Agenda} (h : a.Coherent) (j : PropId) (weight : Nat) :
    a.queued[j]? ≠ some ⟨weight, a.arrivals + 1⟩ := fun at_place =>
  Nat.not_succ_le_self _ (h.arrived _ j ((h.inverse _ j).mpr at_place))

/-- Where the propagator has no place yet, entering keeps the maps inverse. -/
theorem Coherent.enter {a : Agenda} (h : a.Coherent) {id : PropId} {weight : Nat}
    (absent : a.queued[id]? = none) : (a.enter id weight).Coherent where
  inverse place j := by
    rw [getElem?_queue_enter, getElem?_queued_enter]
    by_cases here : (⟨weight, a.arrivals + 1⟩ : Place) = place
    · by_cases same : id = j
      · simp [here, same]
      · have := here ▸ h.next_free j weight
        simp [here, same, this]
    · by_cases same : id = j
      · have other : a.queue[place]? ≠ some j := fun at_place => by
          rw [h.inverse, ← same, absent] at at_place
          cases at_place
        simp [here, same, other]
      · simp only [here, same, if_false]
        exact h.inverse place j
  arrived place j found := by
    rw [getElem?_queue_enter] at found
    split at found
    · rename_i here
      rw [← here]
      exact Nat.le_refl _
    · exact Nat.le_succ_of_le (h.arrived place j found)

theorem length_enter_le (a : Agenda) (id : PropId) (weight : Nat) :
    (a.enter id weight).length ≤ a.length + 1 := Std.ExtTreeMap.size_insert_le

/-- A push makes its propagator wait, and nothing else. -/
theorem waits_push {a : Agenda} {id j : PropId} {weight : Nat} :
    (a.push id weight).Waits j ↔ j = id ∨ a.Waits j := by
  unfold push
  split
  · rename_i place found
    split
    · constructor
      · exact .inr
      · rintro (rfl | waits)
        · exact ⟨place, found⟩
        · exact waits
    · rw [waits_enter]
      exact Iff.rfl
  · exact waits_enter

theorem Coherent.push {a : Agenda} (h : a.Coherent) (id : PropId) (weight : Nat) :
    (a.push id weight).Coherent := by
  unfold Agenda.push
  split
  · rename_i place found
    split
    · exact h
    · -- The old place is given up before the new one is taken.
      refine ⟨fun other j => ?_, fun other j at_other => ?_⟩
      · rw [getElem?_queue_enter, getElem?_queued_enter]
        by_cases here : (⟨weight, a.arrivals + 1⟩ : Place) = other
        · by_cases same : id = j
          · simp [here, same]
          · have := here ▸ h.next_free j weight
            simp [here, same, this]
        · simp only [here, if_false, Std.ExtTreeMap.getElem?_erase, Std.compare_eq_iff_eq]
          by_cases same : id = j
          · subst same
            simp only [if_true, Option.some.injEq, here, iff_false]
            split
            · simp
            · rename_i differ
              rw [h.inverse, found]
              simpa using differ
          · simp only [same, if_false]
            split
            · rename_i old
              subst old
              simp only [reduceCtorEq, false_iff]
              intro at_place
              have := (h.inverse place j).mpr at_place
              rw [(h.inverse place id).mpr found] at this
              exact same (Option.some.inj this)
            · exact h.inverse other j
      · rw [getElem?_queue_enter] at at_other
        split at at_other
        · rename_i here
          rw [← here]
          exact Nat.le_refl _
        · rw [Std.ExtTreeMap.getElem?_erase] at at_other
          split at at_other
          · cases at_other
          · exact Nat.le_succ_of_le (h.arrived other j at_other)
  · rename_i absent
    exact h.enter absent

theorem length_push_le (a : Agenda) (id : PropId) (weight : Nat) :
    (a.push id weight).length ≤ a.length + 1 := by
  unfold push
  split
  · split
    · exact Nat.le_succ _
    · rename_i place _ _
      refine Nat.le_trans (length_enter_le _ id weight) ?_
      exact Nat.succ_le_succ Std.ExtTreeMap.size_erase_le
  · exact length_enter_le a id weight

/-! ## Leaving -/

theorem mem_toList_queue {a : Agenda} {place : Place} {id : PropId} :
    (place, id) ∈ a.queue.toList ↔ a.queue[place]? = some id :=
  Std.ExtTreeMap.mem_toList_iff_getElem?_eq_some

/-- No propagator waits at two places. -/
theorem Coherent.nodup_waiting {a : Agenda} (h : a.Coherent) : (a.queue.toList.map Prod.snd).Nodup := by
  refine List.Nodup.map_on ?_ ?_
  · rintro ⟨place, id⟩ mem ⟨place', id'⟩ mem' same
    cases same
    have at_place := (h.inverse place id).mp (mem_toList_queue.mp mem)
    rw [(h.inverse place' id).mp (mem_toList_queue.mp mem')] at at_place
    cases at_place
    rfl
  · refine List.Pairwise.imp ?_ (Std.ExtTreeMap.distinct_keys_toList (t := a.queue))
    rintro e e' differ rfl
    exact differ Std.ReflCmp.compare_self

theorem Coherent.mem_waiting {a : Agenda} (h : a.Coherent) {id : PropId} :
    id ∈ a.queue.toList.map Prod.snd ↔ a.Waits id := by
  rw [List.mem_map]
  constructor
  · rintro ⟨⟨place, _⟩, mem, rfl⟩
    exact ⟨place, (h.inverse place _).mp (mem_toList_queue.mp mem)⟩
  · rintro ⟨place, at_place⟩
    exact ⟨(place, id), mem_toList_queue.mpr ((h.inverse place id).mpr at_place), rfl⟩

/-- What is taken off the agenda is the head of its queue. -/
theorem pop?_eq_some {a b : Agenda} {id : PropId} (h : a.pop? = some (id, b)) :
    ∃ place, a.queue[place]? = some id ∧
      b = { a with queue := a.queue.erase place, queued := a.queued.erase id } := by
  unfold pop? at h
  split at h
  · rename_i place first rest order
    cases h
    exact ⟨place, mem_toList_queue.mp (by rw [order]; exact List.mem_cons_self), rfl⟩
  · cases h

/-- What is pushed on the empty agenda is taken off again. -/
theorem pop?_push_empty (id : PropId) (weight : Nat) :
    (({} : Agenda).push id weight).pop? = some (id, { arrivals := 1 }) := by
  have missing : ({} : Agenda).queued[id]? = none := by simp
  have entered : ({} : Agenda).push id weight = ({} : Agenda).enter id weight := by
    unfold push
    rw [missing]
  have first : (⟨weight, 1⟩, id) ∈ (({} : Agenda).enter id weight).queue.toList := by
    rw [mem_toList_queue, getElem?_queue_enter, if_pos rfl]
  have one : (({} : Agenda).enter id weight).queue.toList.length = 1 := by simp [enter, Std.ExtTreeMap.size_insert]
  obtain ⟨entry, order⟩ := List.length_eq_one_iff.mp one
  rw [order, List.mem_singleton] at first
  subst first
  rw [entered, pop?, order]
  simp only [enter, Option.some.injEq, Prod.mk.injEq, Agenda.mk.injEq, true_and, and_true]
  refine ⟨Std.ExtTreeMap.ext_getElem? fun place => ?_, Std.ExtTreeMap.ext_getElem? fun j => ?_⟩
  · simp only [Std.ExtTreeMap.getElem?_erase, Std.ExtTreeMap.getElem?_insert]
    split <;> simp_all
  · simp only [Std.ExtTreeMap.getElem?_erase, Std.ExtTreeMap.getElem?_insert]
    split <;> simp_all

/-- A pop takes its propagator off, and nothing else. -/
theorem waits_pop {a b : Agenda} {id j : PropId}
    (popped : a.pop? = some (id, b)) : b.Waits j ↔ j ≠ id ∧ a.Waits j := by
  obtain ⟨place, found, rfl⟩ := pop?_eq_some popped
  unfold Waits
  simp only [Std.ExtTreeMap.getElem?_erase, Std.compare_eq_iff_eq]
  by_cases same : id = j
  · simp [same]
  · simp [same, Ne.symm same]

theorem Coherent.pop {a b : Agenda} (h : a.Coherent) {id : PropId}
    (popped : a.pop? = some (id, b)) : b.Coherent := by
  obtain ⟨place, found, rfl⟩ := pop?_eq_some popped
  have at_place := (h.inverse place id).mp found
  refine ⟨fun other j => ?_, fun other j at_other => ?_⟩
  · simp only [Std.ExtTreeMap.getElem?_erase, Std.compare_eq_iff_eq]
    by_cases here : place = other
    · subst here
      by_cases same : id = j
      · simp [same]
      · have : a.queued[j]? ≠ some place := fun at_j => by
          rw [← h.inverse, found] at at_j
          exact same (Option.some.inj at_j)
        simp [same, this]
    · by_cases same : id = j
      · subst same
        have : a.queue[other]? ≠ some id := fun at_id => by
          rw [h.inverse, at_place] at at_id
          exact here (Option.some.inj at_id)
        simp [here, this]
      · simp only [here, same, if_false]
        exact h.inverse other j
  · rw [Std.ExtTreeMap.getElem?_erase] at at_other
    split at at_other
    · cases at_other
    · exact h.arrived other j at_other

theorem length_of_pop {a b : Agenda} {id : PropId} (popped : a.pop? = some (id, b)) :
    b.length + 1 = a.length := by
  obtain ⟨place, found, rfl⟩ := pop?_eq_some popped
  have mem : a.queue.contains place = true := by
    rw [Std.ExtTreeMap.contains_eq_isSome_getElem?, found]
    rfl
  have pos : a.queue.size ≠ 0 := fun zero => by
    rw [← Std.ExtTreeMap.eq_empty_iff_size_eq_zero] at zero
    rw [zero] at found
    simp at found
  simp only [length, Std.ExtTreeMap.size_erase, mem, if_true]
  omega

theorem Coherent.not_waits_of_pop {a : Agenda} (h : a.Coherent) (popped : a.pop? = none)
    (id : PropId) : ¬a.Waits id := by
  rintro ⟨place, at_place⟩
  have found := mem_toList_queue.mpr ((h.inverse place id).mpr at_place)
  unfold pop? at popped
  split at popped
  · cases popped
  · rename_i nil
    rw [nil] at found
    cases found

end ConstraintLogic.Agenda
