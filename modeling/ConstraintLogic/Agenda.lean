import Std.Data.ExtTreeMap

/-!
# The agenda

The propagators that wait to be run, lightest first and among equal weights in
the order of arrival. A propagator waits at most once: a push at a lower weight
moves it to a new place, any other push leaves it where it is.

Contents:
* `Agenda.push`, `Agenda.pop?`: entering and leaving the agenda.
* `Agenda.isEmpty`, `Agenda.length`: what is waiting.
-/

namespace ConstraintLogic

/-- The number of a posted propagator within one solver. -/
structure PropId where
  /-- The position among the posted propagators. -/
  index : Nat
deriving DecidableEq, Repr

namespace PropId

/-- Numbers of propagators are ordered by position. -/
instance : Ord PropId := ⟨fun a b => compare a.index b.index⟩

instance : Std.TransOrd PropId := inferInstanceAs (Std.TransCmp (compareOn PropId.index))

instance : Std.LawfulEqOrd PropId where
  eq_of_compare {a b} h := by
    have : a.index = b.index := Std.compare_eq_iff_eq.mp h
    cases a; cases b; simp_all

/-- The number with its kind. -/
def describe (id : PropId) : String := "PropId(" ++ toString id.index ++ ")"

end PropId

/-- A place on the agenda: the weight, then the number of the arrival. -/
structure Place where
  /-- The weight of the propagator. -/
  weight : Nat
  /-- The number of the arrival. -/
  arrival : Nat
deriving DecidableEq, Repr

namespace Place

/-- Lighter places come first, then earlier arrivals. -/
instance : Ord Place :=
  ⟨compareLex (compareOn Place.weight) (compareOn Place.arrival)⟩

instance : Std.TransOrd Place :=
  inferInstanceAs (Std.TransCmp (compareLex (compareOn Place.weight) (compareOn Place.arrival)))

instance : Std.LawfulEqOrd Place where
  eq_of_compare {a b} h := by
    have h' : compareLex (compareOn Place.weight) (compareOn Place.arrival) a b = .eq := h
    simp only [compareLex_eq_eq, compareOn, Std.compare_eq_iff_eq] at h'
    cases a; cases b; simp_all

end Place

/-- What waits, by place and by propagator. -/
structure Agenda where
  /-- The waiting propagators by their places. -/
  queue : Std.ExtTreeMap Place PropId := ∅
  /-- The places of the waiting propagators. -/
  queued : Std.ExtTreeMap PropId Place := ∅
  /-- The number of arrivals so far. -/
  arrivals : Nat := 0

namespace Agenda

/-- Puts the propagator at the end of its weight. -/
def enter (a : Agenda) (id : PropId) (weight : Nat) : Agenda :=
  let place : Place := ⟨weight, a.arrivals + 1⟩
  { queue := a.queue.insert place id
    queued := a.queued.insert id place
    arrivals := a.arrivals + 1 }

/-- Lets the propagator wait at that weight, unless it waits at one no heavier (`Agenda::push`). -/
def push (a : Agenda) (id : PropId) (weight : Nat) : Agenda :=
  match a.queued[id]? with
  | some place =>
    if place.weight ≤ weight then a
    else { a with queue := a.queue.erase place }.enter id weight
  | none => a.enter id weight

/-- Takes the propagator at the first place (`Agenda::pop`). -/
def pop? (a : Agenda) : Option (PropId × Agenda) :=
  match a.queue.toList with
  | (place, id) :: _ =>
    some (id, { a with queue := a.queue.erase place, queued := a.queued.erase id })
  | [] => none

/-- The number of waiting propagators (`Agenda::len`). -/
def length (a : Agenda) : Nat := a.queue.size

/-- Nothing waits. -/
def isEmpty (a : Agenda) : Bool := a.length = 0

end Agenda

end ConstraintLogic
