import ConstraintLogic.Proofs.Series.Plays
import ConstraintLogic.Search.Apply

/-!
# Larger allowances

A search that has come to a result with some allowance of steps comes to the same
result with any larger one: the allowance is nothing that a goal can see.

Results:
* `Continues`: a result, or what comes of it with a larger allowance.
* `Goal.continues_apply`: applying a goal.
* `Program.continues_context`: the contexts of a program.
* `Series.Plays.continues`: what a series shows to its end.
-/

namespace ConstraintLogic

section Results

variable {α β : Type} {r r' q : Except Stop α}

/-- The second result is the first one, unless the allowance of the first was used up. -/
def Continues (r r' : Except Stop α) : Prop := r = .error .exhausted ∨ r' = r

theorem Continues.refl (r : Except Stop α) : Continues r r := .inr rfl

theorem Continues.trans (h : Continues r r') (h' : Continues r' q) : Continues r q := by
  rcases h with rfl | rfl
  · exact .inl rfl
  · exact h'

theorem Continues.ok {a : α} (h : Continues r r') (found : r = .ok a) : r' = .ok a := by
  rcases h with rfl | rfl
  · cases found
  · exact found

theorem Continues.fault {f : Fault} (h : Continues r r') (failed : r = .error (.fault f)) : r' = .error (.fault f) := by
  rcases h with rfl | rfl
  · cases failed
  · exact failed

theorem Continues.bind {f f' : α → Except Stop β} (h : Continues r r') (next : ∀ a, Continues (f a) (f' a)) :
    Continues (r >>= f) (r' >>= f') := by
  rcases h with rfl | rfl
  · exact .inl rfl
  · cases r' with
    | error why => exact .inr rfl
    | ok a => exact next a

end Results

section Codes

variable {κ β α : Type} {I J : Interp κ β α} {n m : Nat} {s : Series κ β α} {as : List α} {e : Option Stop}

/-- The second meaning of the codes continues the first. -/
structure Interp.Continues (I J : Interp κ β α) : Prop where
  start : ∀ k, ConstraintLogic.Continues (I.start k) (J.start k)
  bind : ∀ f a, ConstraintLogic.Continues (I.bind f a) (J.bind f a)

namespace Series

theorem continues_bindWith {run run' : α → Except Stop (Series κ β α)} {f : β}
    (each : ∀ a, Continues (run a) (run' a)) (s : Series κ β α) :
    Continues (s.bindWith run f) (s.bindWith run' f) := by
  cases s with
  | cons a rest => exact (each a).bind fun _ => .refl _
  | _ => exact .refl _

end Series

theorem Interp.Continues.run (h : I.Continues J) : ∀ w : Work κ β α, ConstraintLogic.Continues (w.run I) (w.run J)
  | .done s => .refl (.ok s)
  | .start k => h.start k
  | .thenAppend w s => (h.run w).bind fun t => .refl (.ok (t.append s))
  | .ontoAppend s w => (h.run w).bind fun t => .refl (.ok (s.append t))
  | .thenBind w f => (h.run w).bind (Series.continues_bindWith (h.bind f))

namespace Series

theorem continues_forceReady (h : I.Continues J) : ∀ {n m : Nat} (s : Series κ β α), n ≤ m →
    Continues (s.forceReady I n) (s.forceReady J m) := by
  intro n
  induction n with
  | zero => exact fun _ _ => .inl rfl
  | succ n ih =>
    rintro (_ | m) s le
    · cases le
    · cases s with
      | suspend w => exact (h.run w).bind fun t => ih t (Nat.le_of_succ_le_succ le)
      | _ => exact .refl _

theorem continues_forceDeep (h : I.Continues J) : ∀ {n m : Nat} (s : Series κ β α), n ≤ m →
    Continues (s.forceDeep I n) (s.forceDeep J m) := by
  intro n
  induction n with
  | zero => exact fun _ _ => .inl rfl
  | succ n ih =>
    rintro (_ | m) s le
    · cases le
    · cases s with
      | suspend w => exact (h.run w).bind fun t => ih t (Nat.le_of_succ_le_succ le)
      | pending w => exact (h.run w).bind fun t => ih t (Nat.le_of_succ_le_succ le)
      | _ => exact .refl _

/-- What a series shows to its end it shows with a larger allowance. -/
theorem Plays.continues (h : I.Continues J) (plays : Plays I n s as e) (ended : e = none) : Plays J n s as none := by
  induction plays with
  | ended => exact .ended
  | element _ ih => exact .element (ih ended)
  | forced run _ ih => exact .forced ((h.run _).ok run) (ih ended)
  | awaited run _ ih => exact .awaited ((h.run _).ok run) (ih ended)
  | failed _ => cases ended
  | lost _ => cases ended

end Series

end Codes

/-! ## Contexts -/

/-- The second context continues the first. -/
structure Context.Continues (c d : Context) : Prop where
  program : d.program = c.program
  ready : ∀ answers, ConstraintLogic.Continues (c.forceReady answers) (d.forceReady answers)
  deep : ∀ answers, ConstraintLogic.Continues (c.forceDeep answers) (d.forceDeep answers)

variable {c d : Context}

theorem Task.continues_settled (g : Goal) (s : Subst) {r r' : Except Stop Answers} (h : Continues r r') :
    Continues (Task.settled g s r) (Task.settled g s r') := by
  rcases h with rfl | rfl
  · exact .inl rfl
  · exact .refl _

/-- Applying a goal with a larger allowance gives what it gave with a smaller one. -/
theorem Goal.continues_apply (h : c.Continues d) (g : Goal) : ∀ s, Continues (g.apply c s) (g.apply d s) := by
  induction g with
  | conj g g' ih ih' => exact fun s => (ih s).bind fun found => Series.continues_bindWith ih' found
  | disj g g' ih ih' => exact fun s => (ih s).bind fun left => (ih' s).bind fun right => .refl _
  | fresh n body ih => exact fun s => ih _ _
  | call r args => exact fun s => by rw [apply, apply, h.program]; exact .refl _
  | not g ih => exact fun s => (ih s).bind fun found => (h.deep found).bind fun forced => .refl _
  | ifte cond yes no ihc ihy ihn =>
    refine fun s => (ihc s).bind fun found => (h.deep found).bind fun forced => ?_
    cases forced with
    | empty => exact ihn s
    | _ => exact Series.continues_bindWith ihy _
  | once g ih => exact fun s => (ih s).bind fun found => (h.deep found).bind fun forced => .refl _
  | par workers g g' ih ih' =>
    intro s
    refine Continues.bind ?_ fun branch => (ih s).bind fun left => .refl _
    split
    · exact .refl _
    · exact Task.continues_settled g' s ((ih' s).bind h.ready)
  | reserve n body ih => exact fun s => ih _ _
  | _ => exact fun s => .refl _

theorem Context.Continues.interp (h : c.Continues d) : c.interp.Continues d.interp where
  start k := by
    cases k with
    | apply g s => exact g.continues_apply h s
    | branch g s =>
      have found := (g.continues_apply h s).bind h.ready
      show ConstraintLogic.Continues (c.branch g s) (d.branch g s)
      rw [branch, branch]
      rcases found with out | same
      · exact .inl (by rw [out])
      · exact .inr (by rw [same])
    | explore solver v half vs => exact .refl _
  bind g s := g.continues_apply h s

theorem Program.continues_succ (program : Program) (n : Nat) :
    (program.context n).Continues (program.context (n + 1)) := by
  induction n with
  | zero => exact ⟨rfl, fun _ => .inl rfl, fun _ => .inl rfl⟩
  | succ n ih =>
    exact ⟨rfl, fun answers => Series.continues_forceReady ih.interp answers (Nat.le_succ n),
      fun answers => Series.continues_forceDeep ih.interp answers (Nat.le_succ n)⟩

/-- A context with a larger allowance continues one with a smaller allowance. -/
theorem Program.continues_context (program : Program) {n m : Nat} (le : n ≤ m) :
    (program.context n).Continues (program.context m) := by
  induction le with
  | refl => exact ⟨rfl, fun _ => .refl _, fun _ => .refl _⟩
  | @step m _ ih =>
    have last := program.continues_succ m
    exact ⟨last.program.trans ih.program, fun answers => (ih.ready answers).trans (last.ready answers),
      fun answers => (ih.deep answers).trans (last.deep answers)⟩

end ConstraintLogic
