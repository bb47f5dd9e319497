import ConstraintLogic.Proofs.Agenda.Coherence

/-!
# Agendas under other numbers

A solver numbers its propagators in the order in which it meets them. One that has met
`δ` propagators more, which do not wait any longer, gives the same propagators other
numbers, and they arrive at later places on its agenda. They wait in the same order all
the same.

Results:
* `PropId.raise`, `Place.later`: the other numbers, and the places of later arrivals.
* `Agenda.Raised`: the agenda under the other numbers.
* `Agenda.Raised.push`, `Agenda.Raised.pop_some`, `Agenda.Raised.pop_none`: entering and
  leaving keep it so.
-/

namespace ConstraintLogic

namespace PropId

/-- The number of the propagator where `δ` others come first. -/
def raise (δ : Nat) (id : PropId) : PropId := ⟨id.index + δ⟩

@[simp] theorem raise_inj {δ : Nat} {i j : PropId} : i.raise δ = j.raise δ ↔ i = j := by
  cases i
  cases j
  simp [raise]

@[simp] theorem raise_zero (id : PropId) : id.raise 0 = id := rfl

theorem filter_ne_map_raise (δ : Nat) (id : PropId) (ids : List PropId) :
    (ids.map (raise δ)).filter (· ≠ id.raise δ) = (ids.filter (· ≠ id)).map (raise δ) := by
  rw [List.filter_map]
  refine congrArg (List.map (raise δ)) (List.filter_congr fun j _ => ?_)
  simp

end PropId

namespace Place

/-- The place of the same weight where `δ` others have arrived before. -/
def later (δ : Nat) (place : Place) : Place := ⟨place.weight, place.arrival + δ⟩

@[simp] theorem later_inj {δ : Nat} {a b : Place} : a.later δ = b.later δ ↔ a = b := by
  cases a
  cases b
  simp [later]

@[simp] theorem later_zero (place : Place) : place.later 0 = place := rfl

/-- Places keep their order. -/
theorem compare_later (δ : Nat) (a b : Place) : compare (a.later δ) (b.later δ) = compare a b := by
  have arrivals : compare (a.arrival + δ) (b.arrival + δ) = compare a.arrival b.arrival := by
    rw [Nat.compare_eq_ite_lt, Nat.compare_eq_ite_lt]
    simp only [Nat.add_lt_add_iff_right]
  show (compare a.weight b.weight).then (compare (a.arrival + δ) (b.arrival + δ)) = _
  rw [arrivals]
  rfl

end Place

namespace Agenda

variable {δ : Nat} {a b a' : Agenda} {id : PropId} {place : Place}

/-- The same propagators wait at the same weights and in the same order, under numbers and
    places that are raised. -/
structure Raised (δ : Nat) (a b : Agenda) : Prop where
  arrivals : b.arrivals = a.arrivals + δ
  queued : ∀ id : PropId, b.queued[id.raise δ]? = a.queued[id]?.map (Place.later δ)
  queue : ∀ place : Place, b.queue[place.later δ]? = a.queue[place]?.map (PropId.raise δ)
  origin : ∀ (place : Place) (id : PropId), b.queue[place]? = some id → ∃ before : Place, place = before.later δ

theorem raised_refl (a : Agenda) : Raised 0 a a where
  arrivals := rfl
  queued id := by cases found : a.queued[id]? <;> simp [found]
  queue place := by cases found : a.queue[place]? <;> simp [found]
  origin place _ _ := ⟨place, rfl⟩

/-- Nothing waits, and one propagator more has arrived and left. -/
theorem raised_empty (δ : Nat) : Raised δ {} { arrivals := δ } where
  arrivals := (Nat.zero_add δ).symm
  queued id := by simp
  queue place := by simp
  origin place id found := by simp at found

namespace Raised

theorem enter (h : Raised δ a b) (id : PropId) (weight : Nat) :
    Raised δ (a.enter id weight) (b.enter (id.raise δ) weight) where
  arrivals := by
    show b.arrivals + 1 = a.arrivals + 1 + δ
    rw [h.arrivals]
    omega
  queued j := by
    rw [getElem?_queued_enter, getElem?_queued_enter, h.queued, h.arrivals]
    simp only [PropId.raise_inj]
    split
    · simp only [Option.map_some, Place.later]
      rw [Nat.add_right_comm]
    · rfl
  queue place := by
    have next : (⟨weight, b.arrivals + 1⟩ : Place) = Place.later δ ⟨weight, a.arrivals + 1⟩ := by
      rw [h.arrivals, Place.later, Nat.add_right_comm]
    rw [getElem?_queue_enter, getElem?_queue_enter, h.queue, next]
    simp only [Place.later_inj]
    split <;> rfl
  origin place j found := by
    rw [getElem?_queue_enter] at found
    split at found
    · rename_i here
      refine ⟨⟨weight, a.arrivals + 1⟩, ?_⟩
      rw [← here, h.arrivals, Place.later, Nat.add_right_comm]
    · exact h.origin place j found

/-- Giving a place up keeps the others in order. -/
theorem erase (h : Raised δ a b) (place : Place) :
    Raised δ { a with queue := a.queue.erase place } { b with queue := b.queue.erase (place.later δ) } where
  arrivals := h.arrivals
  queued := h.queued
  queue other := by
    simp only [Std.ExtTreeMap.getElem?_erase, Std.compare_eq_iff_eq, Place.later_inj]
    split
    · rfl
    · exact h.queue other
  origin other j found := by
    simp only [Std.ExtTreeMap.getElem?_erase] at found
    split at found
    · cases found
    · exact h.origin other j found

/-- A push does the same under both numbers. -/
theorem push (h : Raised δ a b) (id : PropId) (weight : Nat) :
    Raised δ (a.push id weight) (b.push (id.raise δ) weight) := by
  unfold Agenda.push
  rw [h.queued]
  cases a.queued[id]? with
  | none => exact h.enter id weight
  | some place =>
    simp only [Option.map_some, Place.later]
    split
    · exact h
    · exact (h.erase place).enter id weight

theorem toList_queue (h : Raised δ a b) :
    b.queue.toList = a.queue.toList.map fun e => (e.1.later δ, e.2.raise δ) := by
  have sorted (m : Std.ExtTreeMap Place PropId) : m.toList.Pairwise fun e e' => compare e.1 e'.1 = .lt :=
    m.ordered_keys_toList
  have sorted' : (a.queue.toList.map fun e => (e.1.later δ, e.2.raise δ)).Pairwise
      fun e e' => compare e.1 e'.1 = .lt := by
    rw [List.pairwise_map]
    exact (sorted a.queue).imp fun before => (Place.compare_later δ _ _).trans before
  have distinct (l : List (Place × PropId)) (ordered : l.Pairwise fun e e' => compare e.1 e'.1 = .lt) : l.Nodup :=
    ordered.imp fun before same => by
      rw [same, Std.compare_self] at before
      cases before
  refine List.Perm.eq_of_pairwise (fun e e' _ _ before after => ?_) (sorted b.queue) sorted' ?_
  · exact absurd before (Std.OrientedCmp.not_lt_of_lt after)
  · refine (List.perm_ext_iff_of_nodup (distinct _ (sorted b.queue)) (distinct _ sorted')).mpr ?_
    rintro ⟨place, id⟩
    rw [List.mem_map, mem_toList_queue]
    constructor
    · intro found
      obtain ⟨before, rfl⟩ := h.origin place id found
      rw [h.queue, Option.map_eq_some_iff] at found
      obtain ⟨j, found, rfl⟩ := found
      exact ⟨(before, j), mem_toList_queue.mpr found, rfl⟩
    · rintro ⟨⟨before, j⟩, mem, same⟩
      cases same
      rw [h.queue, mem_toList_queue.mp mem]
      rfl

theorem pop_none (h : Raised δ a b) (popped : a.pop? = none) : b.pop? = none := by
  unfold Agenda.pop? at popped ⊢
  rw [h.toList_queue]
  split at popped
  · cases popped
  · rename_i nil
    rw [nil]
    rfl

/-- What comes first under one number does so under the other. -/
theorem pop_some (h : Raised δ a b) (popped : a.pop? = some (id, a')) :
    ∃ b', b.pop? = some (id.raise δ, b') ∧ Raised δ a' b' := by
  unfold Agenda.pop? at popped ⊢
  rw [h.toList_queue]
  split at popped
  · rename_i place j rest order
    cases popped
    rw [order]
    refine ⟨_, rfl, h.arrivals, fun j => ?_, (h.erase place).queue, (h.erase place).origin⟩
    simp only [Std.ExtTreeMap.getElem?_erase, Std.compare_eq_iff_eq, PropId.raise_inj]
    split
    · rfl
    · exact h.queued j
  · cases popped

end Raised

end Agenda

end ConstraintLogic
