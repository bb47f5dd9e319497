import ConstraintLogic.Engine
import ConstraintLogic.Series.Elements

/-!
# Playing series

A series that is read to its end shows a list of elements, and either comes to an
end or stops for a reason. How the operations on series interleave is not visible
in the list but for its order.

Results:
* `Series.Plays`: what a series shows, and in how many steps.
* `Series.Plays.unique`: it shows nothing else.
* `Series.Plays.append`, `Series.Plays.bindWith`: interleaved series.
* `Series.Plays.forceReady`, `Series.Plays.forceDeep`: series that are forced.
* `Engine.collect_of_plays`: what a query collects.
-/

namespace ConstraintLogic

namespace Series

variable {κ β α : Type}

/-- The series shows the elements of a list, in so many steps, and then ends or stops
    for a reason. -/
inductive Plays (I : Interp κ β α) : Nat → Series κ β α → List α → Option Stop → Prop
  | ended : Plays I 0 .empty [] none
  | element {n : Nat} {a : α} {rest : Series κ β α} {as : List α} {e : Option Stop}
      (next : Plays I n rest as e) : Plays I (n + 1) (.cons a rest) (a :: as) e
  | forced {n : Nat} {w : Work κ β α} {s : Series κ β α} {as : List α} {e : Option Stop}
      (run : w.run I = .ok s) (next : Plays I n s as e) : Plays I (n + 1) (.suspend w) as e
  | awaited {n : Nat} {w : Work κ β α} {s : Series κ β α} {as : List α} {e : Option Stop}
      (run : w.run I = .ok s) (next : Plays I n s as e) : Plays I (n + 1) (.pending w) as e
  | failed {w : Work κ β α} {why : Stop} (run : w.run I = .error why) :
      Plays I 0 (.suspend w) [] (some why)
  | lost {w : Work κ β α} {why : Stop} (run : w.run I = .error why) :
      Plays I 0 (.pending w) [] (some why)

/-- What an attempt at a series shows: the series, or why there is none. -/
def PlaysOut (I : Interp κ β α) (r : Except Stop (Series κ β α)) (as : List α) (e : Option Stop) :
    Prop :=
  match r with
  | .ok s => ∃ n, Plays I n s as e
  | .error why => as = [] ∧ e = some why

variable {I : Interp κ β α} {n m : Nat} {s t : Series κ β α} {as bs : List α} {e e' : Option Stop}

theorem Plays.length_le (h : Plays I n s as e) : as.length ≤ n := by
  induction h with
  | element _ ih => exact Nat.succ_le_succ ih
  | forced _ _ ih => exact Nat.le_succ_of_le ih
  | awaited _ _ ih => exact Nat.le_succ_of_le ih
  | _ => exact Nat.zero_le _

/-- What is shown is reached. -/
theorem Plays.reaches {a : α} (h : Plays I n s as e) (mem : a ∈ as) : s.Reaches I a := by
  induction h with
  | ended => cases mem
  | element _ ih =>
    rcases List.mem_cons.mp mem with rfl | mem
    · exact .here
    · exact .later (ih mem)
  | forced run _ ih => exact .forced run (ih mem)
  | awaited run _ ih => exact .awaited run (ih mem)
  | failed _ => cases mem
  | lost _ => cases mem

/-- A series shows one list and has one end. -/
theorem Plays.unique (h : Plays I n s as e) (h' : Plays I m s bs e') : as = bs ∧ e = e' := by
  induction h generalizing m bs e' with
  | ended =>
    cases h'
    exact ⟨rfl, rfl⟩
  | element _ ih =>
    cases h' with
    | element next =>
      obtain ⟨rfl, rfl⟩ := ih next
      exact ⟨rfl, rfl⟩
  | forced run _ ih =>
    cases h' with
    | forced run' next =>
      cases run.symm.trans run'
      exact ih next
    | failed run' => cases run.symm.trans run'
  | awaited run _ ih =>
    cases h' with
    | awaited run' next =>
      cases run.symm.trans run'
      exact ih next
    | lost run' => cases run.symm.trans run'
  | failed run =>
    cases h' with
    | forced run' next => cases run.symm.trans run'
    | failed run' =>
      cases run.symm.trans run'
      exact ⟨rfl, rfl⟩
  | lost run =>
    cases h' with
    | awaited run' next => cases run.symm.trans run'
    | lost run' =>
      cases run.symm.trans run'
      exact ⟨rfl, rfl⟩

theorem PlaysOut.unique {r : Except Stop (Series κ β α)} (h : PlaysOut I r as e)
    (h' : PlaysOut I r bs e') : as = bs ∧ e = e' := by
  cases r with
  | ok s =>
    obtain ⟨n, plays⟩ := h
    obtain ⟨m, plays'⟩ := h'
    exact plays.unique plays'
  | error why =>
    obtain ⟨rfl, rfl⟩ := h
    obtain ⟨rfl, rfl⟩ := h'
    exact ⟨rfl, rfl⟩

theorem PlaysOut.suspend {w : Work κ β α} (h : PlaysOut I (w.run I) as e) :
    ∃ n, Plays I n (.suspend w) as e := by
  unfold PlaysOut at h
  split at h
  · rename_i s run
    obtain ⟨n, plays⟩ := h
    exact ⟨n + 1, .forced run plays⟩
  · rename_i why run
    obtain ⟨rfl, rfl⟩ := h
    exact ⟨0, .failed run⟩

theorem PlaysOut.pending {w : Work κ β α} (h : PlaysOut I (w.run I) as e) :
    ∃ n, Plays I n (.pending w) as e := by
  unfold PlaysOut at h
  split at h
  · rename_i s run
    obtain ⟨n, plays⟩ := h
    exact ⟨n + 1, .awaited run plays⟩
  · rename_i why run
    obtain ⟨rfl, rfl⟩ := h
    exact ⟨0, .lost run⟩

/-! ## Interleaving -/

theorem Shuffle.swap {cs : List α} (h : Shuffle bs as cs) : Shuffle as bs cs := by
  induction h with
  | nil => exact .nil
  | left _ ih => exact .right ih
  | right _ ih => exact .left ih

theorem shuffle_nil : ∀ bs : List α, Shuffle [] bs bs
  | [] => .nil
  | _ :: bs => .right (shuffle_nil bs)

theorem Shuffle.perm {cs : List α} (h : Shuffle as bs cs) : cs.Perm (as ++ bs) := by
  induction h with
  | nil => exact .refl _
  | left _ ih => exact ih.cons _
  | right _ ih => exact (ih.cons _).trans List.perm_middle.symm

theorem Shuffles.perm {lists : List (List α)} {cs : List α} (h : Shuffles lists cs) : cs.Perm lists.flatten := by
  induction h with
  | nil => exact .refl _
  | cons _ merged ih => exact merged.perm.trans (ih.append_left _)

/-- The list and the end are those of two series that are interleaved: a shuffle of the
    elements of both if they end, and some of them if one of them stops. -/
structure Joins (as : List α) (e : Option Stop) (bs : List α) (e' : Option Stop) (cs : List α)
    (d : Option Stop) : Prop where
  subset : ∀ c ∈ cs, c ∈ as ∨ c ∈ bs
  shuffles : d = none → e = none ∧ e' = none ∧ Shuffle as bs cs
  stops : ∀ why, d = some why → e = some why ∨ e' = some why

theorem Joins.ends {cs : List α} {d : Option Stop} (h : Joins as e bs e' cs d) (ended : d = none) :
    e = none ∧ e' = none ∧ cs.Perm (as ++ bs) := by
  obtain ⟨ends, ends', shuffled⟩ := h.shuffles ended
  exact ⟨ends, ends', shuffled.perm⟩

theorem Joins.swap {cs : List α} {d : Option Stop} (h : Joins bs e' as e cs d) :
    Joins as e bs e' cs d := by
  refine ⟨fun c mem => (h.subset c mem).symm, fun ended => ?_, fun why stops => (h.stops why stops).symm⟩
  obtain ⟨ends', ends, shuffled⟩ := h.shuffles ended
  exact ⟨ends, ends', shuffled.swap⟩

theorem Joins.cons {a : α} {cs : List α} {d : Option Stop} (h : Joins as e bs e' cs d) :
    Joins (a :: as) e bs e' (a :: cs) d := by
  refine ⟨fun c mem => ?_, fun ended => ?_, h.stops⟩
  · rcases List.mem_cons.mp mem with rfl | mem
    · exact .inl (by simp)
    · exact (h.subset c mem).imp_left (List.mem_cons_of_mem a)
  · obtain ⟨ends, ends', shuffled⟩ := h.shuffles ended
    exact ⟨ends, ends', .left shuffled⟩

theorem joins_nil : Joins ([] : List α) none bs e' bs e' :=
  ⟨fun _ => .inr, fun ended => ⟨rfl, ended, shuffle_nil bs⟩, fun _ => .inr⟩

theorem joins_stopped {why : Stop} : Joins as (some why) bs e' ([] : List α) (some why) :=
  ⟨by simp, nofun, fun _ => .inl⟩

theorem plays_append (N : Nat) : ∀ {n m : Nat} {s t : Series κ β α} {as bs : List α}
    {e e' : Option Stop}, n + m < N → Plays I n s as e → Plays I m t bs e' →
    ∃ k cs d, Plays I k (s.append t) cs d ∧ Joins as e bs e' cs d := by
  induction N with
  | zero => exact fun few => absurd few (Nat.not_lt_zero _)
  | succ N ih =>
    intro n m s t as bs e e' few hs ht
    cases hs with
    | ended => exact ⟨m, bs, e', ht, joins_nil⟩
    | @element n a rest as _ next =>
      obtain ⟨k, cs, d, plays, joins⟩ := ih (by omega) next ht
      have run : (Work.thenAppend (.done rest) t).run I = .ok (rest.append t) := rfl
      exact ⟨k + 2, a :: cs, d, .element (.forced run plays), joins.cons⟩
    | @forced n w s' _ _ run next =>
      -- The right side goes first when the left one suspends.
      obtain ⟨k, cs, d, plays, joins⟩ := ih (by omega) ht next
      have run' : (Work.ontoAppend t w).run I = .ok (t.append s') := by
        rw [Work.run, run]
        rfl
      exact ⟨k + 1, cs, d, .forced run' plays, joins.swap⟩
    | @awaited n w s' _ _ run next =>
      obtain ⟨k, cs, d, plays, joins⟩ := ih (by omega) next ht
      have run' : (Work.thenAppend w t).run I = .ok (s'.append t) := by
        rw [Work.run, run]
        rfl
      cases t with
      | empty =>
        cases ht
        exact ⟨_, as, e, .awaited run next, joins_nil.swap⟩
      | _ => exact ⟨k + 1, cs, d, .awaited run' plays, joins⟩
    | @failed w why run =>
      have run' : (Work.ontoAppend t w).run I = .error why := by
        rw [Work.run, run]
        rfl
      exact ⟨0, [], some why, .failed run', joins_stopped⟩
    | @lost w why run =>
      have run' : (Work.thenAppend w t).run I = .error why := by
        rw [Work.run, run]
        rfl
      cases t with
      | empty => exact ⟨0, [], some why, .lost run, joins_stopped⟩
      | _ => exact ⟨0, [], some why, .lost run', joins_stopped⟩

/-- Two series that are interleaved show the elements of both. -/
theorem Plays.append (hs : Plays I n s as e) (ht : Plays I m t bs e') :
    ∃ k cs d, Plays I k (s.append t) cs d ∧ Joins as e bs e' cs d :=
  plays_append (n + m + 1) (Nat.lt_succ_self _) hs ht

/-- A series with its elements replaced shows the elements of their series, and each of
    these keeps its order. -/
theorem Plays.bindWith_shuffles {f : β} {image : α → List α} {out : α → Option Stop} (h : Plays I n s as e)
    (each : ∀ a ∈ as, PlaysOut I (I.bind f a) (image a) (out a)) :
    ∃ cs d, PlaysOut I (s.bindWith (I.bind f) f) cs d ∧ (∀ c ∈ cs, ∃ a ∈ as, c ∈ image a) ∧
      (d = none → e = none ∧ (∀ a ∈ as, out a = none) ∧ Shuffles (as.map image) cs) ∧
      ∀ why, d = some why → e = some why ∨ ∃ a ∈ as, out a = some why := by
  induction h with
  | ended => exact ⟨[], none, ⟨0, .ended⟩, by simp, fun _ => ⟨rfl, by simp, .nil⟩, nofun⟩
  | @element _ a rest as e _ ih =>
    obtain ⟨cs, d, rests, subset, ends, stops⟩ := ih fun b mem => each b (List.mem_cons_of_mem a mem)
    have first := each a (by simp)
    cases run : I.bind f a with
    | error why =>
      have whole : (cons a rest).bindWith (I.bind f) f = .error why := by
        rw [Series.bindWith, run]
        rfl
      rw [run] at first
      obtain ⟨_, stopped⟩ := first
      rw [whole]
      exact ⟨[], some why, ⟨rfl, rfl⟩, by simp, nofun, fun why' same => .inr ⟨a, by simp, by rw [stopped, same]⟩⟩
    | ok u =>
      have both : (cons a rest).bindWith (I.bind f) f =
          .ok (u.append (.suspend (.thenBind (.done rest) f))) := by
        rw [Series.bindWith, run]
        rfl
      rw [both]
      rw [run] at first
      obtain ⟨k, plays⟩ := first
      obtain ⟨k', later⟩ := PlaysOut.suspend (w := .thenBind (.done rest) f) rests
      obtain ⟨_, cs', d', whole, joins⟩ := plays.append later
      refine ⟨cs', d', ⟨_, whole⟩, fun c mem => ?_, fun ended => ?_, fun why stopped => ?_⟩
      · rcases joins.subset c mem with here | later
        · exact ⟨a, by simp, here⟩
        · obtain ⟨b, mem', in_image⟩ := subset c later
          exact ⟨b, List.mem_cons_of_mem a mem', in_image⟩
      · obtain ⟨first_ends, rest_ends, merged⟩ := joins.shuffles ended
        obtain ⟨ended', others, shuffled⟩ := ends rest_ends
        refine ⟨ended', fun b mem => ?_, .cons shuffled merged⟩
        rcases List.mem_cons.mp mem with rfl | mem
        · exact first_ends
        · exact others b mem
      · rcases joins.stops why stopped with here | later
        · exact .inr ⟨a, by simp, here⟩
        · exact (stops why later).imp_right fun ⟨b, mem, stop⟩ => ⟨b, List.mem_cons_of_mem a mem, stop⟩
  | @forced _ w s' as e run _ ih =>
    obtain ⟨cs, d, plays, facts⟩ := ih each
    have same : (Work.thenBind w f).run I = s'.bindWith (I.bind f) f := by
      rw [Work.run, run]
      rfl
    exact ⟨cs, d, PlaysOut.suspend (w := .thenBind w f) (same ▸ plays), facts⟩
  | @awaited _ w s' as e run _ ih =>
    obtain ⟨cs, d, plays, facts⟩ := ih each
    have same : (Work.thenBind w f).run I = s'.bindWith (I.bind f) f := by
      rw [Work.run, run]
      rfl
    exact ⟨cs, d, PlaysOut.pending (w := .thenBind w f) (same ▸ plays), facts⟩
  | @failed w why run =>
    have same : (Work.thenBind w f).run I = .error why := by
      rw [Work.run, run]
      rfl
    exact ⟨[], some why, ⟨0, .failed same⟩, by simp⟩
  | @lost w why run =>
    have same : (Work.thenBind w f).run I = .error why := by
      rw [Work.run, run]
      rfl
    exact ⟨[], some why, ⟨0, .lost same⟩, by simp⟩

/-- A series with its elements replaced shows the elements of their series. -/
theorem Plays.bindWith {f : β} {image : α → List α} {out : α → Option Stop} (h : Plays I n s as e)
    (each : ∀ a ∈ as, PlaysOut I (I.bind f a) (image a) (out a)) :
    ∃ cs d, PlaysOut I (s.bindWith (I.bind f) f) cs d ∧ (∀ c ∈ cs, ∃ a ∈ as, c ∈ image a) ∧
      (d = none → e = none ∧ (∀ a ∈ as, out a = none) ∧ cs.Perm (as.flatMap image)) ∧
      ∀ why, d = some why → e = some why ∨ ∃ a ∈ as, out a = some why := by
  obtain ⟨cs, d, shown, subset, ends, stops⟩ := h.bindWith_shuffles each
  refine ⟨cs, d, shown, subset, fun ended => ?_, stops⟩
  obtain ⟨ended', others, shuffled⟩ := ends ended
  exact ⟨ended', others, List.flatMap_def ▸ shuffled.perm⟩

/-! ## Forcing -/

/-- Forcing the suspensions of a series that shows its end comes to a node that shows the
    same. -/
theorem Plays.forceReady (h : Plays I n s as e) (ended : e = none) : ∀ m, n < m →
    ∃ k t, k ≤ n ∧ s.forceReady I m = .ok t ∧ Plays I k t as none := by
  induction h with
  | ended =>
    rintro (_ | m) enough
    · cases enough
    · exact ⟨0, .empty, Nat.le_refl 0, rfl, .ended⟩
  | element plays _ =>
    rintro (_ | m) enough
    · cases enough
    · exact ⟨_, _, Nat.le_refl _, rfl, .element (ended ▸ plays)⟩
  | @forced k w s as e run _ ih =>
    rintro (_ | m) enough
    · cases enough
    · obtain ⟨i, t, le, found, plays⟩ := ih ended m (Nat.lt_of_succ_lt_succ enough)
      exact ⟨i, t, Nat.le_succ_of_le le, by rw [Series.forceReady, run]; exact found, plays⟩
  | awaited run plays _ =>
    rintro (_ | m) enough
    · cases enough
    · exact ⟨_, _, Nat.le_refl _, rfl, .awaited run (ended ▸ plays)⟩
  | failed _ => cases ended
  | lost _ => cases ended

/-- Forcing a series that shows its end deeply comes to an element or the end, and that
    shows the same. -/
theorem Plays.forceDeep (h : Plays I n s as e) (ended : e = none) : ∀ m, n < m →
    ∃ k t, k ≤ n ∧ s.forceDeep I m = .ok t ∧ Plays I k t as none := by
  induction h with
  | ended =>
    rintro (_ | m) enough
    · cases enough
    · exact ⟨0, .empty, Nat.le_refl 0, rfl, .ended⟩
  | element plays _ =>
    rintro (_ | m) enough
    · cases enough
    · exact ⟨_, _, Nat.le_refl _, rfl, .element (ended ▸ plays)⟩
  | forced run _ ih =>
    rintro (_ | m) enough
    · cases enough
    · obtain ⟨i, t, le, found, plays⟩ := ih ended m (Nat.lt_of_succ_lt_succ enough)
      exact ⟨i, t, Nat.le_succ_of_le le, by rw [Series.forceDeep, run]; exact found, plays⟩
  | awaited run _ ih =>
    rintro (_ | m) enough
    · cases enough
    · obtain ⟨i, t, le, found, plays⟩ := ih ended m (Nat.lt_of_succ_lt_succ enough)
      exact ⟨i, t, Nat.le_succ_of_le le, by rw [Series.forceDeep, run]; exact found, plays⟩
  | failed _ => cases ended
  | lost _ => cases ended

end Series

/-! ## Collecting -/

namespace Engine

open Series

variable {I : Interp Task Goal Subst} {n : Nat} {s : Answers} {as : List Subst} {out : Option Stop}

/-- What a search for the next answer finds in an engine that has the elements of a
    list to show: the first of them, with the others behind it, or how the list ends. -/
def Finds (I : Interp Task Goal Subst) (n : Nat) (e : Engine) (as : List Subst) (out : Option Stop)
    (r : Except Stop (Option Subst) × Engine) : Prop :=
  match as, out with
  | a :: rest, _ => ∃ k t count, k < n ∧ Plays I k t rest out ∧
      r = (.ok (some a), { e with stream := t, emitted := count })
  | [], none => ∃ e', r = (.ok none, e')
  | [], some why => ∃ e', r = (.error why, e')

theorem limitReached_of_none {e : Engine} (free : e.limit = none) : e.limitReached = false := by
  simp [limitReached, free]

/-- A node that is forced or waited for takes one step. -/
theorem Finds.again {e : Engine} {m : Nat}
    (h : Finds I n { e with stream := s } as out (nextWithin m { e with stream := s }))
    (stepped : e.step = (.ok .again, { e with stream := s })) :
    Finds I (n + 1) e as out (nextWithin (m + 1) e) := by
  rw [nextWithin, stepped]
  unfold Finds at *
  split at h
  · obtain ⟨k, t, count, less, plays, eq⟩ := h
    exact ⟨k, t, count, Nat.lt_succ_of_lt less, plays, eq⟩
  · exact h
  · exact h

/-- The next answer of a query without limit is the next element that is shown. -/
theorem finds_of_plays (h : Plays I n s as out) : ∀ {m : Nat} {e : Engine}, n < m →
    e.interp = I → e.stream = s → e.limit = none → Finds I n e as out (nextWithin m e) := by
  induction h with
  | ended =>
    rintro (_ | m) e enough interp stream free
    · cases enough
    · exact ⟨e, by simp [nextWithin, Engine.step, limitReached_of_none free, stream]⟩
  | @element k a rest as e next _ =>
    rintro (_ | m) e enough interp stream free
    · cases enough
    · refine ⟨k, rest, e.emitted + 1, Nat.lt_succ_self k, next, ?_⟩
      simp [nextWithin, Engine.step, limitReached_of_none free, stream]
  | @forced _ _ t _ _ run _ ih =>
    rintro (_ | m) e enough interp stream free
    · cases enough
    · refine (ih (e := { e with stream := t }) (Nat.lt_of_succ_lt_succ enough) interp rfl free).again ?_
      simp [Engine.step, limitReached_of_none free, stream, interp, run]
  | @awaited _ _ t _ _ run _ ih =>
    rintro (_ | m) e enough interp stream free
    · cases enough
    · refine (ih (e := { e with stream := t }) (Nat.lt_of_succ_lt_succ enough) interp rfl free).again ?_
      simp [Engine.step, limitReached_of_none free, stream, interp, run]
  | failed run =>
    rintro (_ | m) e enough interp stream free
    · cases enough
    · refine ⟨{ e with stream := .empty }, ?_⟩
      simp [nextWithin, Engine.step, limitReached_of_none free, stream, interp, run]
  | lost run =>
    rintro (_ | m) e enough interp stream free
    · cases enough
    · refine ⟨{ e with stream := .empty }, ?_⟩
      simp [nextWithin, Engine.step, limitReached_of_none free, stream, interp, run]

/-- Reading on collects the elements that are shown, behind those taken before. -/
theorem collectWith_of_plays (as : List Subst) : ∀ {n : Nat} {e : Engine} {m : Nat} {taken : List Term},
    Plays I n e.stream as out → e.interp = I → e.limit = none → n < e.allowance → as.length < m →
    (collectWith next m e taken).1 = out.elim (.ok (taken.reverse ++ as.map e.answerTerm)) .error := by
  induction as with
  | nil =>
    rintro n e (_ | m) taken plays interp free enough room
    · cases room
    · have ends := finds_of_plays plays enough interp rfl free
      cases out with
      | none =>
        obtain ⟨e', eq⟩ := ends
        simp [collectWith, next, nextSubst, eq, Except.map]
      | some why =>
        obtain ⟨e', eq⟩ := ends
        simp [collectWith, next, nextSubst, eq, Except.map]
  | cons a as ih =>
    rintro n e (_ | m) taken plays interp free enough room
    · cases room
    · obtain ⟨k, t, count, less, rest, eq⟩ := finds_of_plays plays enough interp rfl free
      have same : collectWith next (m + 1) e taken =
          collectWith next m { e with stream := t, emitted := count } (e.answerTerm a :: taken) := by
        simp [collectWith, next, nextSubst, eq, Except.map]
      rw [same, ih (e := { e with stream := t, emitted := count }) rest interp free
        (Nat.lt_trans less enough) (Nat.lt_of_succ_lt_succ room)]
      cases out with
      | none =>
        have query : ({ e with stream := t, emitted := count } : Engine).answerTerm = e.answerTerm := rfl
        simp [query]
      | some why => rfl

/-- A query without limit collects the answers that its series shows, or stops where
    the series does. -/
theorem collect_of_plays {e : Engine} (h : Plays e.interp n e.stream as out)
    (free : e.limit = none) (enough : n < e.allowance) :
    e.collect.1 = out.elim (.ok (as.map e.answerTerm)) .error :=
  collectWith_of_plays as h rfl free enough (Nat.lt_of_le_of_lt h.length_le enough)

end Engine

end ConstraintLogic
