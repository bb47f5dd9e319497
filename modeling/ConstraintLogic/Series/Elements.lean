import ConstraintLogic.Series.Basic

/-!
# The elements of series

An element of a series is reached by finitely many steps to the next node, each of
which forces a suspension, waits for a pending branch or passes an element. A
series that comes to an end delivers the list of its elements.

Results:
* `Series.Reaches`: an element is reached.
* `Series.Delivers`: the series ends and has the elements of a list.
* `Series.Delivers.reaches_iff`: the elements reached are those of the list.
* `Series.delivers_ofList`: a series that was made from a list.
* `Series.of_forceReady`, `Series.of_forceDeep`: what is known of a series from the node
  that forcing it comes to.
* `Series.Shuffle`, `Series.Shuffles`: a list made of two others, or of many, that keep
  their orders.
-/

namespace ConstraintLogic.Series

variable {κ β α : Type}

/-- The element `a` is reached after finitely many steps. -/
inductive Reaches (I : Interp κ β α) : Series κ β α → α → Prop
  | here {a : α} {rest : Series κ β α} : Reaches I (.cons a rest) a
  | later {a b : α} {rest : Series κ β α} (next : Reaches I rest b) : Reaches I (.cons a rest) b
  | forced {w : Work κ β α} {s : Series κ β α} {a : α} (run : w.run I = .ok s)
      (next : Reaches I s a) : Reaches I (.suspend w) a
  | awaited {w : Work κ β α} {s : Series κ β α} {a : α} (run : w.run I = .ok s)
      (next : Reaches I s a) : Reaches I (.pending w) a

/-- The series comes to an end after finitely many steps, and its elements are
    those of the list, in order. -/
inductive Delivers (I : Interp κ β α) : Series κ β α → List α → Prop
  | ended : Delivers I .empty []
  | element {a : α} {rest : Series κ β α} {as : List α} (next : Delivers I rest as) :
      Delivers I (.cons a rest) (a :: as)
  | forced {w : Work κ β α} {s : Series κ β α} {as : List α} (run : w.run I = .ok s)
      (next : Delivers I s as) : Delivers I (.suspend w) as
  | awaited {w : Work κ β α} {s : Series κ β α} {as : List α} (run : w.run I = .ok s)
      (next : Delivers I s as) : Delivers I (.pending w) as

/-- The third list is made of the first two, each of which keeps its order. -/
inductive Shuffle : List α → List α → List α → Prop
  | nil : Shuffle [] [] []
  | left {a : α} {as bs cs : List α} (rest : Shuffle as bs cs) : Shuffle (a :: as) bs (a :: cs)
  | right {b : α} {as bs cs : List α} (rest : Shuffle as bs cs) : Shuffle as (b :: bs) (b :: cs)

/-- The list is made of all lists of a list, each of which keeps its order. -/
inductive Shuffles : List (List α) → List α → Prop
  | nil : Shuffles [] []
  | cons {as bs cs : List α} {lists : List (List α)} (rest : Shuffles lists bs)
      (merged : Shuffle as bs cs) : Shuffles (as :: lists) cs

variable {I : Interp κ β α}

theorem delivers_ofList (as : List α) : Delivers I (ofList as) as := by
  induction as with
  | nil => exact .ended
  | cons a as ih => exact .element ih

/-- A series that comes to an end reaches just the elements that it delivers. -/
theorem Delivers.reaches_iff {s : Series κ β α} {as : List α} (h : Delivers I s as) (a : α) :
    Reaches I s a ↔ a ∈ as := by
  induction h with
  | ended => simp only [List.not_mem_nil, iff_false]; nofun
  | element _ ih =>
    rw [List.mem_cons, ← ih]
    constructor
    · rintro (_ | next)
      · exact .inl rfl
      · exact .inr next
    · rintro (rfl | next)
      · exact .here
      · exact .later next
  | forced run _ ih =>
    rw [← ih]
    refine ⟨fun reached => ?_, .forced run⟩
    cases reached with
    | forced run' next =>
      cases run.symm.trans run'
      exact next
  | awaited run _ ih =>
    rw [← ih]
    refine ⟨fun reached => ?_, .awaited run⟩
    cases reached with
    | awaited run' next =>
      cases run.symm.trans run'
      exact next

/-- A series delivers at most one list. -/
theorem Delivers.unique {s : Series κ β α} {as bs : List α} (h : Delivers I s as)
    (h' : Delivers I s bs) : as = bs := by
  induction h generalizing bs with
  | ended =>
    cases h'
    rfl
  | element _ ih =>
    cases h' with
    | element next => rw [ih next]
  | forced run _ ih =>
    cases h' with
    | forced run' next =>
      cases run.symm.trans run'
      exact ih next
  | awaited run _ ih =>
    cases h' with
    | awaited run' next =>
      cases run.symm.trans run'
      exact ih next

/-! ## Forcing -/

/-- What a suspension has of the series that it delivers, a series has of the node that
    forcing its suspensions comes to. -/
theorem of_forceReady {P : Series κ β α → Prop} (back : ∀ w s, w.run I = .ok s → P s → P (.suspend w)) (n : Nat) :
    ∀ {s t : Series κ β α}, s.forceReady I n = .ok t → P t → P s := by
  induction n with
  | zero => exact fun run => by cases run
  | succ n ih =>
    intro s t run h
    cases s with
    | suspend w =>
      rw [forceReady] at run
      cases inner : w.run I with
      | error why =>
        rw [inner] at run
        cases run
      | ok u =>
        rw [inner] at run
        exact back w u inner (ih run h)
    | _ =>
      cases run
      exact h

/-- What suspensions and pending branches have of the series that they deliver, a series
    has of the node that forcing deeply comes to. -/
theorem of_forceDeep {P : Series κ β α → Prop} (back : ∀ w s, w.run I = .ok s → P s → P (.suspend w))
    (back' : ∀ w s, w.run I = .ok s → P s → P (.pending w)) (n : Nat) :
    ∀ {s t : Series κ β α}, s.forceDeep I n = .ok t → P t → P s := by
  induction n with
  | zero => exact fun run => by cases run
  | succ n ih =>
    have deeper {w : Work κ β α} {t : Series κ β α}
        (run : (do forceDeep I n (← w.run I)) = .ok t) (h : P t) : ∃ u, w.run I = .ok u ∧ P u := by
      cases inner : w.run I with
      | error why =>
        rw [inner] at run
        cases run
      | ok u =>
        rw [inner] at run
        exact ⟨u, rfl, ih run h⟩
    intro s t run h
    cases s with
    | suspend w =>
      obtain ⟨u, inner, holds⟩ := deeper run h
      exact back w u inner holds
    | pending w =>
      obtain ⟨u, inner, holds⟩ := deeper run h
      exact back' w u inner holds
    | _ =>
      cases run
      exact h

/-- Forcing deeply comes to an element or to the end. -/
theorem forceDeep_cases (n : Nat) : ∀ {s t : Series κ β α}, s.forceDeep I n = .ok t →
    t = .empty ∨ ∃ a rest, t = .cons a rest := by
  induction n with
  | zero => exact fun run => by cases run
  | succ n ih =>
    have deeper {w : Work κ β α} {t : Series κ β α}
        (run : (do forceDeep I n (← w.run I)) = .ok t) : t = .empty ∨ ∃ a rest, t = .cons a rest := by
      cases inner : w.run I with
      | error why =>
        rw [inner] at run
        cases run
      | ok u =>
        rw [inner] at run
        exact ih run
    intro s t run
    cases s with
    | empty =>
      cases run
      exact .inl rfl
    | cons a rest =>
      cases run
      exact .inr ⟨a, rest, rfl⟩
    | suspend w => exact deeper run
    | pending w => exact deeper run

end ConstraintLogic.Series
