import ConstraintLogic.Proofs.Series.Interleaving
import ConstraintLogic.Search.Apply
import ConstraintLogic.Series.Numbers

/-!
# Fairness

An interleaving comes to what its sides come to, also where both go on for ever and have
branches that are waited for. The sides change places at suspensions only, so a side has
to come to a suspension again and again: an endless run of elements and pending branches
without a suspension keeps the other side waiting for ever.

Results:
* `Series.Step`, `Series.Onward`: the nodes behind a node.
* `Series.Lively`: a suspension comes up again and again, and all work delivers.
* `Series.Reaches.append_left`, `Series.Reaches.append_right`, `Series.Reaches.bindWith`:
  what is reached in an interleaving.
* `Series.append_reaches_iff`: interleaving is fair.
-/

namespace ConstraintLogic

namespace Series

variable {κ β α : Type} {I : Interp κ β α} {s t u v : Series κ β α} {a b : α} {f : β}

/-! ## Going through a series -/

/-- The second node comes right behind the first. -/
inductive Step (I : Interp κ β α) : Series κ β α → Series κ β α → Prop
  | passed {a : α} {rest : Series κ β α} : Step I (.cons a rest) rest
  | forced {w : Work κ β α} {s : Series κ β α} (run : w.run I = .ok s) : Step I (.suspend w) s
  | awaited {w : Work κ β α} {s : Series κ β α} (run : w.run I = .ok s) : Step I (.pending w) s

/-- The second node is met on the way through the first. -/
abbrev Onward (I : Interp κ β α) : Series κ β α → Series κ β α → Prop :=
  Relation.ReflTransGen (Step I)

/-- All suspensions and pending branches on the way deliver a series. -/
def Responds (I : Interp κ β α) (s : Series κ β α) : Prop :=
  ∀ w, Onward I s (.suspend w) ∨ Onward I s (.pending w) → ∃ t, w.run I = .ok t

/-- After finitely many elements and waits there is a suspension that delivers a series,
    or the end. -/
inductive Pauses (I : Interp κ β α) : Series κ β α → Prop
  | ended : Pauses I .empty
  | suspended {w : Work κ β α} {s : Series κ β α} (run : w.run I = .ok s) : Pauses I (.suspend w)
  | passed {a : α} {rest : Series κ β α} (next : Pauses I rest) : Pauses I (.cons a rest)
  | awaited {w : Work κ β α} {s : Series κ β α} (run : w.run I = .ok s) (next : Pauses I s) :
      Pauses I (.pending w)

/-- Wherever one is on the way through the series, it comes to a suspension or its end
    after finitely many elements and waits. -/
def Lively (I : Interp κ β α) (s : Series κ β α) : Prop := ∀ t, Onward I s t → Pauses I t

theorem Lively.pauses (h : Lively I s) : Pauses I s := h s .refl

theorem Lively.step (h : Lively I s) (step : Step I s t) : Lively I t :=
  fun u onward => h u (.head step onward)

theorem Lively.responds (h : Lively I s) : Responds I s := by
  rintro w (onward | onward)
  · cases h _ onward with
    | suspended run => exact ⟨_, run⟩
  · cases h _ onward with
    | awaited run _ => exact ⟨_, run⟩

/-- Where an invariant holds that every step keeps and that makes a node pause, the series
    is lively. -/
theorem lively_of_invariant (R : Series κ β α → Prop) (pauses : ∀ s, R s → Pauses I s)
    (step : ∀ s t, R s → Step I s t → R t) (h : R s) : Lively I s := by
  intro t onward
  refine pauses t ?_
  induction onward with
  | refl => exact h
  | tail _ last ih => exact step _ _ ih last

theorem lively_ofList (as : List α) : Lively I (ofList as) := by
  refine lively_of_invariant (fun s => ∃ as, s = ofList as) ?_ ?_ ⟨as, rfl⟩
  · rintro _ ⟨as, rfl⟩
    induction as with
    | nil => exact .ended
    | cons a as ih => exact .passed ih
  · rintro _ t ⟨as, rfl⟩ step
    cases as with
    | nil => cases step
    | cons a as =>
      cases step
      exact ⟨as, rfl⟩

/-! ## Reaching the elements of both sides -/

/-- Where an interleaving reaches an element if the side of the element goes first, it
    reaches it if the other side goes first, since that side pauses. -/
theorem Pauses.reaches_append (pauses : Pauses I t) (lively : Lively I t) (alone : s.Reaches I a)
    (first : ∀ u, Lively I u → (s.append u).Reaches I a) : (t.append s).Reaches I a := by
  induction pauses with
  | ended => exact alone
  | suspended run => exact .forced (by rw [Work.run, run]; rfl) (first _ (lively.step (.forced run)))
  | passed _ ih => exact .later (.forced rfl (ih (lively.step .passed)))
  | awaited run _ ih =>
    have next := ih (lively.step (.awaited run))
    cases s with
    | empty => cases alone
    | _ => exact .awaited (by rw [Work.run, run]; rfl) next

/-- What the left side reaches the interleaving reaches, if the right side is lively. -/
theorem Reaches.append_left (h : s.Reaches I a) (lively : Lively I t) : (s.append t).Reaches I a := by
  induction h generalizing t with
  | here => exact .here
  | later _ ih => exact .later (.forced rfl (ih lively))
  | forced run next ih =>
    refine .forced (by rw [Work.run, run]; rfl) ?_
    exact lively.pauses.reaches_append lively next fun u => ih
  | awaited run next ih =>
    cases t with
    | empty => exact .awaited run next
    | _ => exact .awaited (by rw [Work.run, run]; rfl) (ih lively)

/-- What the right side reaches the interleaving reaches, if the left side is lively. -/
theorem Reaches.append_right (h : t.Reaches I a) (lively : Lively I s) : (s.append t).Reaches I a :=
  lively.pauses.reaches_append lively h fun _ => h.append_left

/-! ## Interleavings are lively -/

theorem Pauses.append (hs : Pauses I s) (ht : Pauses I t) : Pauses I (s.append t) := by
  induction hs with
  | ended => exact ht
  | suspended run => exact .suspended (by rw [Work.run, run]; rfl)
  | passed _ _ => exact .passed (.suspended rfl)
  | awaited run next ih =>
    cases t with
    | empty => exact .awaited run next
    | _ => exact .awaited (by rw [Work.run, run]; rfl) ih

/-- The function makes a lively series of every element of the series. -/
def Images (I : Interp κ β α) (f : β) (s : Series κ β α) : Prop :=
  ∀ a, s.Reaches I a → ∃ t, I.bind f a = .ok t ∧ Lively I t

theorem Images.step (h : Images I f s) (step : Step I s t) : Images I f t := by
  intro a reached
  cases step with
  | passed => exact h a (.later reached)
  | forced run => exact h a (.forced run reached)
  | awaited run => exact h a (.awaited run reached)

theorem Images.exists_bindWith (h : Images I f s) : ∃ u, s.bindWith (I.bind f) f = .ok u := by
  cases s with
  | cons a rest =>
    obtain ⟨first, image, _⟩ := h a .here
    exact ⟨_, by rw [Series.bindWith, image]; rfl⟩
  | _ => exact ⟨_, rfl⟩

theorem Images.pauses_rest {rest : Series κ β α} (h : Images I f rest) :
    Pauses I (.suspend (.thenBind (.done rest) f)) := by
  obtain ⟨u, bound⟩ := h.exists_bindWith
  exact .suspended bound

theorem Pauses.bindWith (hs : Pauses I s) (images : Images I f s)
    (bound : s.bindWith (I.bind f) f = .ok u) : Pauses I u := by
  induction hs generalizing u with
  | ended =>
    cases bound
    exact .ended
  | suspended run =>
    cases bound
    obtain ⟨v, next⟩ := (images.step (.forced run)).exists_bindWith
    exact .suspended (by rw [Work.run, run]; exact next)
  | passed _ _ =>
    obtain ⟨first, image, same⟩ := exists_of_bind_ok bound
    cases same
    obtain ⟨_, image', lively⟩ := images _ .here
    cases image.symm.trans image'
    exact lively.pauses.append (images.step .passed).pauses_rest
  | awaited run _ ih =>
    cases bound
    have later := images.step (.awaited run)
    obtain ⟨v, next⟩ := later.exists_bindWith
    exact .awaited (by rw [Work.run, run]; exact next) (ih later next)

/-- What is made of lively series by interleaving, and what is met on the way through it. -/
inductive Woven (I : Interp κ β α) : Series κ β α → Prop
  | lively {s : Series κ β α} (h : Lively I s) : Woven I s
  | append {s t : Series κ β α} (left : Woven I s) (right : Woven I t) : Woven I (s.append t)
  | passed {s t : Series κ β α} (left : Woven I s) (right : Woven I t) :
      Woven I (.suspend (.thenAppend (.done s) t))
  | bound {f : β} {s u : Series κ β α} (h : Lively I s) (images : Images I f s)
      (bound : s.bindWith (I.bind f) f = .ok u) : Woven I u
  | rest {f : β} {s : Series κ β α} (h : Lively I s) (images : Images I f s) :
      Woven I (.suspend (.thenBind (.done s) f))

theorem Woven.pauses (h : Woven I s) : Pauses I s := by
  induction h with
  | lively h => exact h.pauses
  | append _ _ left right => exact left.append right
  | passed => exact .suspended rfl
  | bound h images bound => exact h.pauses.bindWith images bound
  | rest _ images => exact images.pauses_rest

/-- A step of an interleaving is a step of its first side. -/
theorem Woven.step_append (left : ∀ u, Step I s u → Woven I u) (right : ∀ u, Step I t u → Woven I u)
    (other : Woven I t) (step : Step I (s.append t) v) : Woven I v := by
  cases s with
  | empty => exact right v step
  | cons a rest =>
    cases step
    exact .passed (left rest .passed) other
  | suspend w =>
    cases step with
    | forced run =>
      obtain ⟨u, inner, same⟩ := exists_of_bind_ok run
      cases same
      exact other.append (left u (.forced inner))
  | pending w =>
    cases t with
    | empty => exact left v step
    | _ =>
      cases step with
      | awaited run =>
        obtain ⟨u, inner, same⟩ := exists_of_bind_ok run
        cases same
        exact (left u (.awaited inner)).append other

theorem Woven.step_rest (h : Lively I s) (images : Images I f s)
    (step : Step I (.suspend (.thenBind (.done s) f)) v) : Woven I v := by
  cases step with
  | forced run => exact .bound h images run

theorem Woven.step_bound (h : Lively I s) (images : Images I f s)
    (bound : s.bindWith (I.bind f) f = .ok u) (step : Step I u v) : Woven I v := by
  cases s with
  | empty =>
    cases bound
    cases step
  | cons a rest =>
    obtain ⟨first, image, same⟩ := exists_of_bind_ok bound
    cases same
    obtain ⟨_, image', lively⟩ := images a .here
    cases image.symm.trans image'
    have behind := images.step .passed
    exact step_append (fun u next => .lively (lively.step next))
      (fun u => step_rest (h.step .passed) behind) (.rest (h.step .passed) behind) step
  | suspend w =>
    cases bound
    cases step with
    | forced run =>
      obtain ⟨u, inner, next⟩ := exists_of_bind_ok run
      exact .bound (h.step (.forced inner)) (images.step (.forced inner)) next
  | pending w =>
    cases bound
    cases step with
    | awaited run =>
      obtain ⟨u, inner, next⟩ := exists_of_bind_ok run
      exact .bound (h.step (.awaited inner)) (images.step (.awaited inner)) next

theorem Woven.step (h : Woven I s) : ∀ t, Step I s t → Woven I t := by
  induction h with
  | lively h => exact fun t step => .lively (h.step step)
  | append _ other left right => exact fun t => step_append left right other
  | passed left right _ _ =>
    intro t step
    cases step with
    | forced run =>
      cases run
      exact left.append right
  | bound h images bound => exact fun t => step_bound h images bound
  | rest h images => exact fun t => step_rest h images

theorem Woven.isLively (h : Woven I s) : Lively I s :=
  lively_of_invariant (Woven I) (fun _ => Woven.pauses) (fun _ t woven => woven.step t) h

/-- What the series of an element reaches the interleaving of all of them reaches. -/
theorem Reaches.bindWith (h : s.Reaches I a) (lively : Lively I s) (images : Images I f s)
    (image : I.bind f a = .ok t) (reached : t.Reaches I b)
    (bound : s.bindWith (I.bind f) f = .ok u) : u.Reaches I b := by
  induction h generalizing u with
  | here =>
    obtain ⟨first, image', same⟩ := exists_of_bind_ok bound
    cases same
    cases image.symm.trans image'
    exact reached.append_left (Woven.rest (lively.step .passed) (images.step .passed)).isLively
  | later _ ih =>
    obtain ⟨first, image', same⟩ := exists_of_bind_ok bound
    cases same
    obtain ⟨_, again, pausing⟩ := images _ .here
    cases image'.symm.trans again
    obtain ⟨v, next⟩ := (images.step .passed).exists_bindWith
    have behind := ih (lively.step .passed) (images.step .passed) image next
    exact Reaches.append_right (Reaches.forced (w := .thenBind (.done _) f) next behind) pausing
  | forced run _ ih =>
    cases bound
    have later := images.step (.forced run)
    obtain ⟨v, next⟩ := later.exists_bindWith
    exact .forced (by rw [Work.run, run]; exact next) (ih (lively.step (.forced run)) later image next)
  | awaited run _ ih =>
    cases bound
    have later := images.step (.awaited run)
    obtain ⟨v, next⟩ := later.exists_bindWith
    exact .awaited (by rw [Work.run, run]; exact next) (ih (lively.step (.awaited run)) later image next)

/-- Interleaving is fair: of lively series, however long, an element is reached in the
    interleaving just if one of the sides reaches it, and in the series of the elements of
    one just if the series of an element that is reached reaches it. -/
theorem append_reaches_iff (I : Interp κ β α) :
    (∀ s t, Lively I s → Lively I t → ∀ a, (s.append t).Reaches I a ↔ s.Reaches I a ∨ t.Reaches I a) ∧
    ∀ s f, Lively I s → (∀ a, s.Reaches I a → ∃ t, I.bind f a = .ok t ∧ Lively I t) →
      ∃ u, s.bindWith (I.bind f) f = .ok u ∧
        ∀ b, u.Reaches I b ↔ ∃ a t, s.Reaches I a ∧ I.bind f a = .ok t ∧ t.Reaches I b := by
  refine ⟨fun s t hs ht a => ⟨fun h => ?_, ?_⟩, fun s f hs images => ?_⟩
  · obtain ⟨k, reached⟩ := reaches_iff.mp h
    exact (reachesIn_append k reached).imp (fun left => reaches_iff.mpr ⟨k, left⟩)
      fun right => reaches_iff.mpr ⟨k, right⟩
  · rintro (left | right)
    · exact left.append_left ht
    · exact right.append_right hs
  · obtain ⟨u, bound⟩ := Images.exists_bindWith images
    refine ⟨u, bound, fun b => ⟨fun h => ?_, ?_⟩⟩
    · obtain ⟨k, reached⟩ := reaches_iff.mp h
      obtain ⟨a, t, source, image, target⟩ := reachesIn_bindWith k bound reached
      exact ⟨a, t, reaches_iff.mpr ⟨k, source⟩, image, reaches_iff.mpr ⟨k, target⟩⟩
    · rintro ⟨a, t, source, image, target⟩
      exact source.bindWith hs images image target bound

/-! ## An endless series and one that is waited for -/

theorem lively_repeated (n step : Int) : Lively numbers (Numbers.repeated n step) := by
  refine lively_of_invariant (fun s => ∃ n, s = Numbers.repeated n step ∨
    s = .suspend (.start (.repeated n step))) ?_ ?_ ⟨n, .inl rfl⟩
  · rintro _ ⟨n, rfl | rfl⟩
    · exact .passed (.suspended rfl)
    · exact .suspended rfl
  · rintro _ t ⟨n, rfl | rfl⟩ step
    · cases step
      exact ⟨_, .inr rfl⟩
    · cases step with
      | forced run =>
        cases run
        exact ⟨n, .inl rfl⟩

theorem lively_pending {w : Work κ β α} (run : w.run I = .ok s) (h : Lively I s) : Lively I (.pending w) := by
  intro t onward
  rcases onward.cases_head with rfl | ⟨u, step, rest⟩
  · exact .awaited run h.pauses
  · cases step with
    | awaited run' =>
      cases run.symm.trans run'
      exact h t rest

/-- The 2 that is waited for is reached beside endlessly many 1s, and so is the 5 of the
    endless series that begin with the elements waited for. -/
theorem append_reaches_iff_endless :
    let s : Numbers := .repeated 1 0
    let t : Numbers := .pending (.done (.ofList [2, 4]))
    Lively numbers s ∧ Lively numbers t ∧ (s.append t).Reaches numbers 2 ∧ (t.append s).Reaches numbers 1 ∧
      ∃ u, t.bindWith (numbers.bind (.repeated 1)) (.repeated 1) = .ok u ∧ u.Reaches numbers 5 := by
  intro s t
  have hs : Lively numbers s := lively_repeated 1 0
  have ht : Lively numbers t := lively_pending rfl (lively_ofList [2, 4])
  have fair := append_reaches_iff numbers
  obtain ⟨u, bound, reached⟩ := fair.2 t (.repeated 1) ht fun n _ => ⟨_, rfl, lively_repeated n 1⟩
  exact ⟨hs, ht, (fair.1 s t hs ht 2).mpr (.inr (.awaited rfl .here)),
    (fair.1 t s ht hs 1).mpr (.inr .here), u, bound,
    (reached 5).mpr ⟨4, _, .awaited rfl (.later .here), rfl, .later (.forced rfl .here)⟩⟩

/-! ## An endless run of pending branches -/

/-- Whatever comes behind a node that delivers itself is that node. -/
theorem Onward.eq_of_loop {w : Work κ β α}
    (h : Onward I (.pending w) s) (loop : w.run I = .ok (.pending w)) : s = .pending w := by
  induction h with
  | refl => rfl
  | tail _ step ih =>
    subst ih
    cases step with
    | awaited run => exact (Except.ok.inj (loop.symm.trans run)).symm

/-- A node that delivers itself reaches nothing. -/
theorem not_reaches_of_loop {w : Work κ β α} (loop : w.run I = .ok (.pending w)) :
    ¬(Series.pending w).Reaches I a := by
  intro h
  generalize same : Series.pending w = s at h
  induction h with
  | awaited run next ih =>
    cases same
    exact ih (Except.ok.inj (loop.symm.trans run))
  | _ => cases same

end Series

/-- The program whose relations do nothing but wait for a branch that calls them again. -/
def Program.spinning : Program := fun name args => .par 1 .fail (.call (.defined name) args)

/-- The answer of an equation is there, and all that is waited for delivers. But beside
    branches that deliver one more branch each, the answer is never reached. -/
theorem Series.append_starves_right :
    let c := Program.spinning.context 3
    let x := (Subst.empty.freshMany 1).2
    ∃ s t y, (Goal.par 1 .fail (.call (.defined "spin") [])).apply c x = .ok s ∧
      (Goal.eq (.var ⟨0⟩) .nil).apply c x = .ok t ∧ Responds c.interp s ∧ Responds c.interp t ∧
      t.Reaches c.interp y ∧ ¬(s.append t).Reaches c.interp y := by
  intro c x
  let w : Work Task Goal Subst := .start (.branch (.call (.defined "spin") []) x)
  have loop : w.run c.interp = .ok (.pending w) := rfl
  have both (t : Answers) : (Work.thenAppend w t).run c.interp = .ok (.append (.pending w) t) := by
    rw [Work.run, loop]
    rfl
  obtain ⟨y, unified⟩ : ∃ y, x.unify (.var ⟨0⟩) .nil = .ok y := ⟨_, rfl⟩
  refine ⟨.pending w, .unit y, y, rfl, ?_, ?_, (lively_ofList [y]).responds, .here, ?_⟩
  · show Answers.ofAttempt (x.unify (.var ⟨0⟩) .nil) = _
    rw [unified]
    rfl
  · rintro v (onward | onward)
    · cases onward.eq_of_loop loop
    · cases onward.eq_of_loop loop
      exact ⟨_, loop⟩
  · exact not_reaches_of_loop (both (.unit y))

end ConstraintLogic
