import ConstraintLogic.Proofs.Goal.Yields

/-!
# Interleaving

Interleaving is fair: what one of two series comes to, be it an element or a reason
to stop, their interleaving comes to as well, however long the other series is. For
the two sides change places at every suspension, and a series has a suspension after
finitely many elements that are there already. Only a branch that is waited for may
hold the other side back.

Results:
* `Series.ReachesIn`: reaching an element, with the steps counted.
* `Series.reachesIn_append`, `Series.reachesIn_bindWith`: where the elements of
  interleaved series come from.
* `Series.Meets`: an element is reached, unless the series breaks before.
* `Series.Meets.append_left`, `Series.Meets.append_right`, `Series.Meets.bindWith`:
  interleaving is fair.
* `Series.Stops`: why a series stops.
* `Promise`, `Series.Honors`: what holds of the elements of a series, and of the
  reasons for which it stops.
-/

namespace ConstraintLogic

namespace Series

variable {κ β α : Type} {I J : Interp κ β α} {s t u : Series κ β α} {a : α} {f : β} {why : Stop}

/-- An attempt at a series comes to the element. -/
def ReachesOut (I : Interp κ β α) (r : Except Stop (Series κ β α)) (a : α) : Prop :=
  ∃ s, r = .ok s ∧ s.Reaches I a

/-! ## Where elements come from -/

/-- The element is reached in less than `k` steps. -/
def ReachesIn (I : Interp κ β α) : Nat → Series κ β α → α → Prop
  | 0, _, _ => False
  | _ + 1, .empty, _ => False
  | k + 1, .cons b rest, a => a = b ∨ ReachesIn I k rest a
  | k + 1, .suspend w, a => ∃ s, w.run I = .ok s ∧ ReachesIn I k s a
  | k + 1, .pending w, a => ∃ s, w.run I = .ok s ∧ ReachesIn I k s a

theorem ReachesIn.succ : ∀ {k : Nat} {s : Series κ β α}, ReachesIn I k s a → ReachesIn I (k + 1) s a
  | _ + 1, .cons _ _, h => h.imp_right ReachesIn.succ
  | _ + 1, .suspend _, ⟨s, run, h⟩ => ⟨s, run, h.succ⟩
  | _ + 1, .pending _, ⟨s, run, h⟩ => ⟨s, run, h.succ⟩

/-- Behind a suspension an element is reached in fewer steps. -/
theorem ReachesIn.of_suspend {k : Nat} {w : Work κ β α} (h : ReachesIn I k (.suspend w) a) :
    ∃ s, w.run I = .ok s ∧ ReachesIn I k s a := by
  cases k with
  | zero => exact h.elim
  | succ k =>
    obtain ⟨s, run, next⟩ := h
    exact ⟨s, run, next.succ⟩

theorem reaches_iff : s.Reaches I a ↔ ∃ k, ReachesIn I k s a := by
  constructor
  · intro h
    induction h with
    | here => exact ⟨1, .inl rfl⟩
    | later _ ih =>
      obtain ⟨k, next⟩ := ih
      exact ⟨k + 1, .inr next⟩
    | forced run _ ih =>
      obtain ⟨k, next⟩ := ih
      exact ⟨k + 1, _, run, next⟩
    | awaited run _ ih =>
      obtain ⟨k, next⟩ := ih
      exact ⟨k + 1, _, run, next⟩
  · rintro ⟨k, h⟩
    induction k generalizing s with
    | zero => exact h.elim
    | succ k ih =>
      match s, h with
      | .cons _ _, .inl rfl => exact .here
      | .cons _ _, .inr next => exact .later (ih next)
      | .suspend _, ⟨_, run, next⟩ => exact .forced run (ih next)
      | .pending _, ⟨_, run, next⟩ => exact .awaited run (ih next)

/-- An element of two series that are interleaved is one of either of them, and is
    reached there in as many steps at most. -/
theorem reachesIn_append (k : Nat) : ∀ {s t : Series κ β α}, ReachesIn I k (s.append t) a →
    ReachesIn I k s a ∨ ReachesIn I k t a := by
  induction k with
  | zero => exact fun h => h.elim
  | succ k ih =>
    intro s t h
    cases s with
    | empty => exact .inr h
    | cons b rest =>
      rcases h with rfl | later
      · exact .inl (.inl rfl)
      · obtain ⟨u, run, next⟩ := later.of_suspend
        cases run
        exact (ih next).imp .inr ReachesIn.succ
    | suspend w =>
      obtain ⟨u, run, next⟩ := h
      obtain ⟨s', inner, same⟩ := exists_of_bind_ok run
      cases same
      exact (ih next).symm.imp (fun left => ⟨s', inner, left⟩) ReachesIn.succ
    | pending w =>
      cases t with
      | empty => exact .inl h
      | _ =>
        obtain ⟨u, run, next⟩ := h
        obtain ⟨s', inner, same⟩ := exists_of_bind_ok run
        cases same
        exact (ih next).imp (fun left => ⟨s', inner, left⟩) ReachesIn.succ

/-- An element of a series that is made of the elements of another one is made of one
    of them, and both are reached in as many steps at most. -/
theorem reachesIn_bindWith (k : Nat) : ∀ {s t : Series κ β α},
    s.bindWith (I.bind f) f = .ok t → ReachesIn I k t a →
    ∃ b u, ReachesIn I k s b ∧ I.bind f b = .ok u ∧ ReachesIn I k u a := by
  induction k with
  | zero => exact fun _ h => h.elim
  | succ k ih =>
    have deeper {w : Work κ β α} {v : Series κ β α} (run : (Work.thenBind w f).run I = .ok v)
        (h : ReachesIn I k v a) : ∃ s, w.run I = .ok s ∧
          ∃ b u, ReachesIn I k s b ∧ I.bind f b = .ok u ∧ ReachesIn I k u a := by
      obtain ⟨s, inner, bound⟩ := exists_of_bind_ok run
      exact ⟨s, inner, ih bound h⟩
    intro s t bound h
    cases s with
    | empty =>
      cases bound
      exact h.elim
    | cons b rest =>
      obtain ⟨u, first, same⟩ := exists_of_bind_ok bound
      cases same
      rcases reachesIn_append (k + 1) h with here | ⟨v, run, next⟩
      · exact ⟨b, u, .inl rfl, first, here⟩
      · obtain ⟨_, inner, c, u', reached, image, next'⟩ := deeper run next
        cases inner
        exact ⟨c, u', .inr reached, image, next'.succ⟩
    | suspend w =>
      cases bound
      obtain ⟨v, run, next⟩ := h
      obtain ⟨s, inner, b, u, reached, image, next'⟩ := deeper run next
      exact ⟨b, u, ⟨s, inner, reached⟩, image, next'.succ⟩
    | pending w =>
      cases bound
      obtain ⟨v, run, next⟩ := h
      obtain ⟨s, inner, b, u, reached, image, next'⟩ := deeper run next
      exact ⟨b, u, ⟨s, inner, reached⟩, image, next'.succ⟩

/-! ## Fairness -/

/-- The series comes to an element of the kind `P`, unless it breaks before: it stops,
    or comes to a branch that has to be waited for. -/
inductive Meets (I : Interp κ β α) (P : α → Prop) : Series κ β α → Prop
  | here {a : α} {rest : Series κ β α} (holds : P a) : Meets I P (.cons a rest)
  | later {a : α} {rest : Series κ β α} (next : Meets I P rest) : Meets I P (.cons a rest)
  | forced {w : Work κ β α} {s : Series κ β α} (run : w.run I = .ok s) (next : Meets I P s) :
      Meets I P (.suspend w)
  | failed {w : Work κ β α} {why : Stop} (run : w.run I = .error why) : Meets I P (.suspend w)
  | waiting {w : Work κ β α} : Meets I P (.pending w)

/-- An attempt at a series comes to an element of the kind `P`, or breaks before. -/
def MeetsOut (I : Interp κ β α) (P : α → Prop) (r : Except Stop (Series κ β α)) : Prop :=
  ∀ s, r = .ok s → Meets I P s

variable {P Q : α → Prop}

theorem MeetsOut.suspend {w : Work κ β α} (h : MeetsOut I P (w.run I)) : Meets I P (.suspend w) := by
  cases run : w.run I with
  | error why => exact .failed run
  | ok s => exact .forced run (h s run)

/-- What comes first in any interleaving comes in any interleaving: the side that goes
    first has a suspension after finitely many elements. -/
theorem meets_append_of_first (alone : Meets I P s) (first : ∀ t, Meets I P (s.append t)) :
    ∀ t : Series κ β α, Meets I P (t.append s)
  | .empty => alone
  | .cons a rest => by
    refine .later (MeetsOut.suspend fun u run => ?_)
    cases run
    exact meets_append_of_first alone first rest
  | .suspend w => by
    refine MeetsOut.suspend fun u run => ?_
    obtain ⟨v, _, same⟩ := exists_of_bind_ok run
    cases same
    exact first v
  | .pending w => by cases s <;> exact .waiting

/-- What the left side comes to the interleaving comes to. -/
theorem Meets.append_left (h : Meets I P s) : ∀ t, Meets I P (s.append t) := by
  induction h with
  | here holds => exact fun t => .here holds
  | later _ ih =>
    refine fun t => .later (MeetsOut.suspend fun u run => ?_)
    cases run
    exact ih t
  | @forced w s run next ih =>
    refine fun t => MeetsOut.suspend fun u run' => ?_
    obtain ⟨v, inner, same⟩ := exists_of_bind_ok run'
    cases run.symm.trans inner
    cases same
    exact meets_append_of_first next ih t
  | failed run =>
    refine fun t => MeetsOut.suspend fun u run' => ?_
    obtain ⟨v, inner, _⟩ := exists_of_bind_ok run'
    cases run.symm.trans inner
  | waiting => exact fun t => by cases t <;> exact .waiting

/-- What the right side comes to the interleaving comes to. -/
theorem Meets.append_right (h : Meets I P s) (t : Series κ β α) : Meets I P (t.append s) :=
  meets_append_of_first h h.append_left t

/-- What the image of one element comes to is come to by all images together. -/
theorem Meets.bindWith (h : Meets I P s) (each : ∀ a, P a → MeetsOut I Q (I.bind f a)) :
    MeetsOut I Q (s.bindWith (I.bind f) f) := by
  induction h with
  | here holds =>
    intro u bound
    obtain ⟨first, image, same⟩ := exists_of_bind_ok bound
    cases same
    exact (each _ holds first image).append_left _
  | later _ ih =>
    intro u bound
    obtain ⟨first, _, same⟩ := exists_of_bind_ok bound
    cases same
    exact (MeetsOut.suspend (w := .thenBind (.done _) f) ih).append_right first
  | @forced w s run _ ih =>
    intro u bound
    cases bound
    refine MeetsOut.suspend fun v run' => ?_
    obtain ⟨_, inner, image⟩ := exists_of_bind_ok run'
    cases run.symm.trans inner
    exact ih v image
  | failed run =>
    intro u bound
    cases bound
    refine MeetsOut.suspend fun v run' => ?_
    obtain ⟨_, inner, _⟩ := exists_of_bind_ok run'
    cases run.symm.trans inner
  | waiting =>
    intro u bound
    cases bound
    exact .waiting

theorem MeetsOut.bindWith {r : Except Stop (Series κ β α)} (h : MeetsOut I P r)
    (each : ∀ a, P a → MeetsOut I Q (I.bind f a)) :
    MeetsOut I Q (r >>= Series.bindWith (I.bind f) f) := by
  intro u run
  obtain ⟨s, inner, bound⟩ := exists_of_bind_ok run
  exact (h s inner).bindWith each u bound

theorem Reaches.meets (h : s.Reaches I a) (holds : P a) : Meets I P s := by
  induction h with
  | here => exact .here holds
  | later _ ih => exact .later (ih holds)
  | forced run _ ih => exact .forced run (ih holds)
  | awaited => exact .waiting

/-! ## Stopping -/

/-- The series stops for the reason after finitely many steps. -/
inductive Stops (I : Interp κ β α) (why : Stop) : Series κ β α → Prop
  | failed {w : Work κ β α} (run : w.run I = .error why) : Stops I why (.suspend w)
  | lost {w : Work κ β α} (run : w.run I = .error why) : Stops I why (.pending w)
  | later {a : α} {rest : Series κ β α} (next : Stops I why rest) : Stops I why (.cons a rest)
  | forced {w : Work κ β α} {s : Series κ β α} (run : w.run I = .ok s) (next : Stops I why s) :
      Stops I why (.suspend w)
  | awaited {w : Work κ β α} {s : Series κ β α} (run : w.run I = .ok s) (next : Stops I why s) :
      Stops I why (.pending w)

/-- An attempt at a series stops for the reason, at once or after finitely many
    steps. -/
def StopsOut (I : Interp κ β α) (r : Except Stop (Series κ β α)) (why : Stop) : Prop :=
  r = .error why ∨ ∃ s, r = .ok s ∧ s.Stops I why

end Series

/-! ## Promises -/

section Promises

variable {κ β α : Type}

/-- What is promised of the codes of series: for which kinds of elements they are used. -/
structure Promise (κ β α : Type) where
  /-- There may be branches that have to be waited for. -/
  waits : Prop
  /-- The computation delivers elements of the kind only. -/
  task : κ → (α → Prop) → Prop
  /-- The function makes elements of the second kind of those of the first. -/
  step : β → (α → Prop) → (α → Prop) → Prop
  /-- A computation may stop for the reason. -/
  stops : Stop → Prop

mutual

/-- The elements that are there are of the kind `P`, and so are those to come by the
    promise. -/
def Series.Honors (p : Promise κ β α) : (α → Prop) → Series κ β α → Prop
  | _, .empty => True
  | P, .cons a rest => P a ∧ rest.Honors p P
  | P, .suspend w => w.Honors p P
  | P, .pending w => p.waits ∧ w.Honors p P

/-- The elements that the work delivers are of the kind `P` by the promise. -/
def Work.Honors (p : Promise κ β α) : (α → Prop) → Work κ β α → Prop
  | P, .done s => s.Honors p P
  | P, .start k => p.task k P
  | P, .thenAppend w s => w.Honors p P ∧ s.Honors p P
  | P, .ontoAppend s w => s.Honors p P ∧ w.Honors p P
  | P, .thenBind w f => ∃ Q, w.Honors p Q ∧ p.step f Q P

end

/-- An attempt at a series honors the promise, or stops for a reason that it allows. -/
def Promise.HonoredBy (p : Promise κ β α) (P : α → Prop) : Except Stop (Series κ β α) → Prop
  | .ok s => s.Honors p P
  | .error why => p.stops why

/-- The codes keep the promise. -/
structure Interp.Keeps (p : Promise κ β α) (I : Interp κ β α) : Prop where
  task : ∀ k P, p.task k P → p.HonoredBy P (I.start k)
  step : ∀ f Q P a, p.step f Q P → Q a → p.HonoredBy P (I.bind f a)

variable {p : Promise κ β α} {P Q : α → Prop} {I J : Interp κ β α} {s t : Series κ β α} {f : β}

theorem Series.Honors.append (hs : s.Honors p P) (ht : t.Honors p P) : (s.append t).Honors p P := by
  cases s with
  | empty => exact ht
  | cons a rest => exact ⟨hs.1, hs.2, ht⟩
  | suspend w => exact ⟨ht, hs⟩
  | pending w =>
    cases t with
    | empty => exact hs
    | _ => exact ⟨hs.1, hs.2, ht⟩

theorem Promise.HonoredBy.bind {r : Except Stop (Series κ β α)}
    {g : Series κ β α → Except Stop (Series κ β α)} (h : p.HonoredBy Q r)
    (next : ∀ s, s.Honors p Q → p.HonoredBy P (g s)) : p.HonoredBy P (r >>= g) := by
  cases r with
  | error why => exact h
  | ok s => exact next s h

theorem Series.Honors.bindWith {run : α → Except Stop (Series κ β α)}
    (each : ∀ a, Q a → p.HonoredBy P (run a)) (step : p.step f Q P) (h : s.Honors p Q) :
    p.HonoredBy P (s.bindWith run f) := by
  cases s with
  | empty => trivial
  | cons a rest =>
    refine (each a h.1).bind fun u honors => ?_
    have rests : Series.Honors p P (.suspend (.thenBind (.done rest) f)) := ⟨Q, h.2, step⟩
    exact honors.append rests
  | suspend w => exact ⟨Q, h, step⟩
  | pending w => exact ⟨h.1, Q, h.2, step⟩

/-- Work that is done honors the promise. -/
theorem Work.honoredBy_run (keeps : I.Keeps p) : ∀ {w : Work κ β α} {P : α → Prop}, w.Honors p P →
    p.HonoredBy P (w.run I)
  | .done _, _, h => h
  | .start k, P, h => keeps.task k P h
  | .thenAppend _ _, _, h => (Work.honoredBy_run keeps h.1).bind fun _ left => left.append h.2
  | .ontoAppend _ _, _, h => (Work.honoredBy_run keeps h.2).bind fun _ right => h.1.append right
  | .thenBind _ f, _, ⟨Q, inner, step⟩ =>
    (Work.honoredBy_run keeps inner).bind fun _ honors =>
      honors.bindWith (fun a => keeps.step f Q _ a step) step

theorem Work.honors_of_run (keeps : I.Keeps p) {w : Work κ β α} (h : w.Honors p P)
    (run : w.run I = .ok s) : s.Honors p P := by
  have honored := w.honoredBy_run keeps h
  rw [run] at honored
  exact honored

theorem Work.stops_of_run (keeps : I.Keeps p) {w : Work κ β α} {why : Stop} (h : w.Honors p P)
    (run : w.run I = .error why) : p.stops why := by
  have honored := w.honoredBy_run keeps h
  rw [run] at honored
  exact honored

/-- Codes that two meanings give the same make the same work. -/
theorem Work.run_congr (task : ∀ k P, p.task k P → J.start k = I.start k)
    (step : ∀ f Q P, p.step f Q P → J.bind f = I.bind f) : ∀ {w : Work κ β α} {P : α → Prop},
    w.Honors p P → w.run J = w.run I
  | .done _, _, _ => rfl
  | .start k, P, h => task k P h
  | .thenAppend w _, _, h => by rw [Work.run, Work.run, Work.run_congr task step h.1]
  | .ontoAppend _ w, _, h => by rw [Work.run, Work.run, Work.run_congr task step h.2]
  | .thenBind w f, P, ⟨Q, inner, made⟩ => by
    rw [Work.run, Work.run, Work.run_congr task step inner, step f Q P made]

namespace Series

/-- A series stops only for the reasons that the promise allows. -/
theorem Stops.allowed (keeps : I.Keeps p) {why : Stop} (h : s.Stops I why) : s.Honors p P → p.stops why := by
  induction h with
  | failed run => exact fun honors => Work.stops_of_run keeps honors run
  | lost run => exact fun honors => Work.stops_of_run keeps honors.2 run
  | later _ ih => exact fun honors => ih honors.2
  | forced run _ ih => exact fun honors => ih (Work.honors_of_run keeps honors run)
  | awaited run _ ih => exact fun honors => ih (Work.honors_of_run keeps honors.2 run)

theorem StopsOut.allowed (keeps : I.Keeps p) {r : Except Stop (Series κ β α)} {why : Stop}
    (h : StopsOut I r why) (honored : p.HonoredBy P r) : p.stops why := by
  rcases h with rfl | ⟨s, rfl, stops⟩
  · exact honored
  · exact stops.allowed keeps honored

/-- Where no branch is waited for, a series that does not stop reaches what it meets. -/
theorem Meets.reaches (keeps : I.Keeps p) (busy : ¬p.waits) (h : s.Meets I Q) : s.Honors p P →
    (∃ a, Q a ∧ s.Reaches I a) ∨ ∃ why, s.Stops I why := by
  induction h with
  | here holds => exact fun _ => .inl ⟨_, holds, .here⟩
  | later _ ih =>
    intro honors
    rcases ih honors.2 with ⟨a, holds, reached⟩ | ⟨why, stops⟩
    · exact .inl ⟨a, holds, .later reached⟩
    · exact .inr ⟨why, .later stops⟩
  | forced run _ ih =>
    intro honors
    rcases ih (Work.honors_of_run keeps honors run) with ⟨a, holds, reached⟩ | ⟨why, stops⟩
    · exact .inl ⟨a, holds, .forced run reached⟩
    · exact .inr ⟨why, .forced run stops⟩
  | failed run => exact fun _ => .inr ⟨_, .failed run⟩
  | waiting => exact fun honors => absurd honors.1 busy

theorem MeetsOut.reaches (keeps : I.Keeps p) (busy : ¬p.waits) {r : Except Stop (Series κ β α)}
    (h : MeetsOut I Q r) (honored : p.HonoredBy P r) :
    (∃ a, Q a ∧ ReachesOut I r a) ∨ ∃ why, StopsOut I r why := by
  cases r with
  | error why => exact .inr ⟨why, .inl rfl⟩
  | ok s =>
    rcases (h s rfl).reaches keeps busy honored with ⟨a, holds, reached⟩ | ⟨why, stops⟩
    · exact .inl ⟨a, holds, s, rfl, reached⟩
    · exact .inr ⟨why, .inr ⟨s, rfl, stops⟩⟩

/-- Codes that two meanings give the same lead to the same elements. -/
theorem Reaches.congr (keeps : I.Keeps p) (task : ∀ k P, p.task k P → J.start k = I.start k)
    (step : ∀ f Q P, p.step f Q P → J.bind f = I.bind f) {a : α} (h : s.Reaches I a) :
    s.Honors p P → s.Reaches J a := by
  induction h with
  | here => exact fun _ => .here
  | later _ ih => exact fun honors => .later (ih honors.2)
  | forced run _ ih =>
    exact fun honors => .forced ((Work.run_congr task step honors).trans run) (ih (Work.honors_of_run keeps honors run))
  | awaited run _ ih =>
    exact fun honors => .awaited ((Work.run_congr task step honors.2).trans run) (ih (Work.honors_of_run keeps honors.2 run))

/-! ## Looking ahead -/

theorem Honors.forceReady (keeps : I.Keeps p) (exhausted : p.stops .exhausted) (n : Nat) :
    ∀ {s : Series κ β α}, s.Honors p P → p.HonoredBy P (s.forceReady I n) := by
  induction n with
  | zero => exact fun _ => exhausted
  | succ n ih =>
    intro s honors
    cases s with
    | suspend w => exact (Work.honoredBy_run keeps honors).bind fun _ => ih
    | _ => exact honors

theorem Honors.forceDeep (keeps : I.Keeps p) (exhausted : p.stops .exhausted) (n : Nat) :
    ∀ {s : Series κ β α}, s.Honors p P → p.HonoredBy P (s.forceDeep I n) := by
  induction n with
  | zero => exact fun _ => exhausted
  | succ n ih =>
    intro s honors
    cases s with
    | suspend w => exact (Work.honoredBy_run keeps honors).bind fun _ => ih
    | pending w => exact (Work.honoredBy_run keeps honors.2).bind fun _ => ih
    | _ => exact honors

end Series

end Promises

end ConstraintLogic
