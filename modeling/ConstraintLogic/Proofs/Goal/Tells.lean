import ConstraintLogic.Proofs.Goal.Yields
import ConstraintLogic.Proofs.Search.Stops
import ConstraintLogic.Proofs.Series.Verdicts

/-!
# What goals tell

What a goal tells is said here by its parts alone, with no word on the order of search,
on branches or on workers; a parallel disjunction tells what a disjunction does. What a
search finds has been told, and where no part asks for the first answer only, all that is
told of a goal fits together. So a search that comes to its end has found all that is
told.

Results:
* `Goal.sequential`: disjunctions in the place of parallel disjunctions.
* `Goal.Uncut`: no part asks for the first answer only.
* `Solver.Tells`, `Goal.Tells`: what labeling and goals tell.
* `Goal.Tells.fits`: it fits together.
* `Goal.Tells.sequential`: a parallel disjunction tells what a disjunction does.
* `Goal.tells_of_apply`, `Goal.Ends.tells`: what a search finds has been told.
-/

namespace ConstraintLogic

open Verdict

/-! ## Goals without parallel disjunctions -/

namespace Goal

/-- The goal with a disjunction in the place of every parallel disjunction. -/
def sequential : Goal → Goal
  | conj g h => conj g.sequential h.sequential
  | disj g h => disj g.sequential h.sequential
  | par _ g h => disj g.sequential h.sequential
  | suspend g => suspend g.sequential
  | fresh n body => fresh n fun vs => (body vs).sequential
  | reserve n body => reserve n fun k => (body k).sequential
  | not g => not g.sequential
  | ifte cond yes no => ifte cond.sequential yes.sequential no.sequential
  | once g => once g.sequential
  | g => g

/-- No part of the goal asks for the first answer of another goal only. -/
def Uncut : Goal → Prop
  | conj g h => g.Uncut ∧ h.Uncut
  | disj g h => g.Uncut ∧ h.Uncut
  | par _ g h => g.Uncut ∧ h.Uncut
  | suspend g => g.Uncut
  | fresh _ body => ∀ vs, (body vs).Uncut
  | reserve _ body => ∀ k, (body k).Uncut
  | not g => g.Uncut
  | ifte cond yes no => cond.Uncut ∧ yes.Uncut ∧ no.Uncut
  | once _ => False
  | _ => True

theorem Plain.uncut {g : Goal} (h : g.Plain) : g.Uncut := by
  induction g with
  | conj g g' ih ih' => exact ⟨ih h.1, ih' h.2⟩
  | disj g g' ih ih' => exact ⟨ih h.1, ih' h.2⟩
  | suspend g ih => exact ih h
  | fresh n body ih => exact fun vs => ih vs (h vs)
  | reserve n body ih => exact fun k => ih k (h k)
  | not => exact h.elim
  | ifte => exact h.elim
  | once => exact h.elim
  | par => exact h.elim
  | _ => trivial

theorem Plain.sequential_eq {g : Goal} (h : g.Plain) : g.sequential = g := by
  induction g with
  | conj g g' ih ih' => rw [sequential, ih h.1, ih' h.2]
  | disj g g' ih ih' => rw [sequential, ih h.1, ih' h.2]
  | suspend g ih => rw [sequential, ih h]
  | fresh n body ih => rw [sequential, funext fun vs => ih vs (h vs)]
  | reserve n body ih => rw [sequential, funext fun k => ih k (h k)]
  | not => exact h.elim
  | ifte => exact h.elim
  | once => exact h.elim
  | par => exact h.elim
  | _ => rfl

theorem Uncut.sequential {g : Goal} (h : g.Uncut) : g.sequential.Uncut := by
  induction g with
  | conj g g' ih ih' => exact ⟨ih h.1, ih' h.2⟩
  | disj g g' ih ih' => exact ⟨ih h.1, ih' h.2⟩
  | par workers g g' ih ih' => exact ⟨ih h.1, ih' h.2⟩
  | suspend g ih => exact ih h
  | fresh n body ih => exact fun vs => ih vs (h vs)
  | reserve n body ih => exact fun k => ih k (h k)
  | not g ih => exact ih h
  | ifte cond yes no ihc ihy ihn => exact ⟨ihc h.1, ihy h.2.1, ihn h.2.2⟩
  | once => exact h.elim
  | _ => trivial

end Goal

/-- The program with disjunctions in the place of parallel disjunctions. -/
def Program.sequential (program : Program) : Program := fun name args => (program name args).sequential

/-- No relation of the program asks for the first answer of a goal only. -/
def Program.Uncut (program : Program) : Prop := ∀ name args, (program name args).Uncut

theorem Program.Uncut.sequential {program : Program} (h : program.Uncut) : program.sequential.Uncut :=
  fun name args => (h name args).sequential

theorem RelName.uncut_body {program : Program} (uncut : program.Uncut) (r : RelName) (args : List Term) :
    (r.body program args).Uncut := by
  unfold RelName.body
  split
  · exact (Goal.plain_appendBody _ _ _).uncut
  · exact (Goal.plain_memberBody _ _).uncut
  · exact uncut _ _
  · trivial

theorem RelName.sequential_body (program : Program) (r : RelName) (args : List Term) :
    (r.body program args).sequential = r.body program.sequential args := by
  unfold RelName.body
  split
  · exact (Goal.plain_appendBody _ _ _).sequential_eq
  · exact (Goal.plain_memberBody _ _).sequential_eq
  · rfl
  · rfl

/-! ## What labeling tells -/

/-- The verdict on the answer of an attempt. -/
inductive Answers.Told : Attempt Subst → Verdict Subst → Prop
  | solved {s : Subst} {v : Verdict Subst} (told : Sole s v) : Told (.ok s) v
  | conflict : Told (.error .conflict) (.all 0)

theorem Answers.Told.fits {r : Attempt Subst} {v w : Verdict Subst} (h : Answers.Told r v) (h' : Answers.Told r w) :
    v.Fits w := by
  cases h with
  | solved told =>
    cases h' with
    | solved told' => exact told.fits told'
  | conflict =>
    cases h'
    rfl

namespace Solver

/-- The solver after one variable has been given the values of one half. -/
def reduced (s : Solver) (w : Var) (half : Domain) : EStateM.Result Halt Solver Unit :=
  (do Narrow.reduce w half; Narrow.fixpoint : Narrow Unit) s

/-- The verdict on the answers of the tree of splits below a solver. -/
inductive Tells (vs : List Var) : EStateM.Result Halt Solver Unit → Verdict Subst → Prop
  | conflict {s : Solver} : Tells vs (.error .conflict s) (.all 0)
  | ended {s s' : Solver} {v : Verdict Subst} (chosen : s.choose vs = (none, s'))
      (told : Answers.Told s'.toSubst? v) : Tells vs (.ok () s) v
  | left {s s' : Solver} {w : Var} {left right : Domain} {t : Subst} (chosen : s.choose vs = (some w, s'))
      (halved : (s'.domain w).1.bisect = .ok (left, right))
      (told : Tells vs ((s'.domain w).2.reduced w left) (.has t)) : Tells vs (.ok () s) (.has t)
  | right {s s' : Solver} {w : Var} {left right : Domain} {t : Subst} (chosen : s.choose vs = (some w, s'))
      (halved : (s'.domain w).1.bisect = .ok (left, right))
      (told : Tells vs ((s'.domain w).2.reduced w right) (.has t)) : Tells vs (.ok () s) (.has t)
  | both {s s' : Solver} {w : Var} {left right : Domain} {as bs : Multiset Subst}
      (chosen : s.choose vs = (some w, s')) (halved : (s'.domain w).1.bisect = .ok (left, right))
      (told : Tells vs ((s'.domain w).2.reduced w left) (.all as))
      (told' : Tells vs ((s'.domain w).2.reduced w right) (.all bs)) : Tells vs (.ok () s) (.all (as + bs))

variable {vs : List Var} {s s' : Solver} {w : Var} {left right : Domain} {v : Verdict Subst}

theorem tells_ended (chosen : s.choose vs = (none, s')) (h : Tells vs (.ok () s) v) :
    Answers.Told s'.toSubst? v := by
  cases h with
  | ended chosen' told =>
    cases chosen.symm.trans chosen'
    exact told
  | left chosen' => cases chosen.symm.trans chosen'
  | right chosen' => cases chosen.symm.trans chosen'
  | both chosen' => cases chosen.symm.trans chosen'

theorem tells_halves (chosen : s.choose vs = (some w, s')) (halved : (s'.domain w).1.bisect = .ok (left, right)) :
    Tells vs (.ok () s) v ↔
      Both (Tells vs ((s'.domain w).2.reduced w left)) (Tells vs ((s'.domain w).2.reduced w right)) v := by
  constructor
  · intro h
    cases h with
    | ended chosen' => cases chosen.symm.trans chosen'
    | left chosen' halved' told =>
      cases chosen.symm.trans chosen'
      cases halved.symm.trans halved'
      exact .inl told
    | right chosen' halved' told =>
      cases chosen.symm.trans chosen'
      cases halved.symm.trans halved'
      exact .inr told
    | both chosen' halved' told told' =>
      cases chosen.symm.trans chosen'
      cases halved.symm.trans halved'
      exact ⟨_, _, told, told', rfl⟩
  · intro h
    cases v with
    | has t =>
      rcases h with told | told
      · exact .left chosen halved told
      · exact .right chosen halved told
    | all as =>
      obtain ⟨bs, cs, told, told', rfl⟩ := h
      exact .both chosen halved told told'

theorem Tells.fits {r : EStateM.Result Halt Solver Unit} (h : Tells vs r v) : Only (Tells vs r) v := by
  induction h with
  | conflict =>
    intro w h'
    cases h'
    rfl
  | ended chosen told => exact fun w h' => told.fits (tells_ended chosen h')
  | left chosen halved _ ih => exact fun w h' => only_has_both ih w ((tells_halves chosen halved).mp h')
  | right chosen halved _ ih =>
    exact fun w h' => only_has_both ih w ((tells_halves chosen halved).mp h').swap
  | both chosen halved _ _ ih ih' =>
    exact fun w h' => only_all_both ih ih' w ((tells_halves chosen halved).mp h')

end Solver

/-! ## What goals tell -/

namespace Goal

/-- The verdict on the answers of a goal under a substitution. If `peeks` holds, a goal that
    looks at the answers of another one may look at one of them and leave the others. -/
inductive Tells (program : Program) (peeks : Prop) : Goal → Subst → Verdict Subst → Prop
  | succeed {s : Subst} {v : Verdict Subst} (told : Sole s v) : Tells program peeks .succeed s v
  | fail {s : Subst} : Tells program peeks .fail s (.all 0)
  | eq {a b : Term} {s : Subst} {v : Verdict Subst} (told : Answers.Told (s.unify a b) v) :
      Tells program peeks (.eq a b) s v
  | conjHas {g h : Goal} {s m t : Subst} (first : Tells program peeks g s (.has m))
      (second : Tells program peeks h m (.has t)) : Tells program peeks (.conj g h) s (.has t)
  | conjAll {g h : Goal} {s : Subst} {L : Multiset (Subst × Multiset Subst)}
      (first : Tells program peeks g s (.all (L.map Prod.fst)))
      (each : ∀ p ∈ L, Tells program peeks h p.1 (.all p.2)) :
      Tells program peeks (.conj g h) s (.all (L.bind Prod.snd))
  | left {g h : Goal} {s t : Subst} (told : Tells program peeks g s (.has t)) : Tells program peeks (.disj g h) s (.has t)
  | right {g h : Goal} {s t : Subst} (told : Tells program peeks h s (.has t)) : Tells program peeks (.disj g h) s (.has t)
  | both {g h : Goal} {s : Subst} {as bs : Multiset Subst} (told : Tells program peeks g s (.all as))
      (told' : Tells program peeks h s (.all bs)) : Tells program peeks (.disj g h) s (.all (as + bs))
  | parLeft {workers : Nat} {g h : Goal} {s t : Subst} (told : Tells program peeks g s (.has t)) :
      Tells program peeks (.par workers g h) s (.has t)
  | parRight {workers : Nat} {g h : Goal} {s t : Subst} (told : Tells program peeks h s (.has t)) :
      Tells program peeks (.par workers g h) s (.has t)
  | parBoth {workers : Nat} {g h : Goal} {s : Subst} {as bs : Multiset Subst}
      (told : Tells program peeks g s (.all as)) (told' : Tells program peeks h s (.all bs)) :
      Tells program peeks (.par workers g h) s (.all (as + bs))
  | suspend {g : Goal} {s : Subst} {v : Verdict Subst} (told : Tells program peeks g s v) :
      Tells program peeks (.suspend g) s v
  | fresh {n : Nat} {body : List Var → Goal} {s : Subst} {v : Verdict Subst}
      (told : Tells program peeks (body (s.freshMany n).1) (s.freshMany n).2 v) :
      Tells program peeks (.fresh n body) s v
  | call {r : RelName} {args : List Term} {s : Subst} {v : Verdict Subst}
      (told : Tells program peeks (r.body program args) s v) : Tells program peeks (.call r args) s v
  | notNone {g : Goal} {s : Subst} {v : Verdict Subst} (none : Tells program peeks g s (.all 0))
      (told : Sole s v) : Tells program peeks (.not g) s v
  | notSome {g : Goal} {s m : Subst} (peek : peeks) (found : Tells program peeks g s (.has m)) :
      Tells program peeks (.not g) s (.all 0)
  | notAll {g : Goal} {s : Subst} {as : Multiset Subst} (found : Tells program peeks g s (.all as)) (some : as ≠ 0) :
      Tells program peeks (.not g) s (.all 0)
  | ifteNo {cond yes no : Goal} {s : Subst} {v : Verdict Subst} (none : Tells program peeks cond s (.all 0))
      (told : Tells program peeks no s v) : Tells program peeks (.ifte cond yes no) s v
  | ifteHas {cond yes no : Goal} {s m t : Subst} (first : Tells program peeks cond s (.has m))
      (second : Tells program peeks yes m (.has t)) : Tells program peeks (.ifte cond yes no) s (.has t)
  | ifteAll {cond yes no : Goal} {s : Subst} {L : Multiset (Subst × Multiset Subst)} (some : L ≠ 0)
      (first : Tells program peeks cond s (.all (L.map Prod.fst)))
      (each : ∀ p ∈ L, Tells program peeks yes p.1 (.all p.2)) :
      Tells program peeks (.ifte cond yes no) s (.all (L.bind Prod.snd))
  | onceNone {g : Goal} {s : Subst} (none : Tells program peeks g s (.all 0)) : Tells program peeks (.once g) s (.all 0)
  | onceSome {g : Goal} {s m : Subst} {v : Verdict Subst} (peek : peeks) (found : Tells program peeks g s (.has m))
      (told : Sole m v) : Tells program peeks (.once g) s v
  | alwaysHas {s : Subst} : Tells program peeks .always s (.has s)
  | alwaysAll {s : Subst} {as : Multiset Subst} (rest : Tells program peeks .always s (.all as)) :
      Tells program peeks .always s (.all ({s} + as))
  | post {r : Relation} {s : Subst} {v : Verdict Subst}
      (told : Answers.Told ((s.stamped r).2.solveWith [(s.stamped r).1]) v) : Tells program peeks (.post r) s v
  | posted {p : Propagator} {s : Subst} {v : Verdict Subst} (told : Answers.Told (s.solveWith [p]) v) :
      Tells program peeks (.posted p) s v
  | narrow {x : Var} {d : Domain} {s : Subst} {v : Verdict Subst} (told : Answers.Told (s.solveReduced x d) v) :
      Tells program peeks (.narrow x d) s v
  | label {vs : List Var} {s : Subst} {v : Verdict Subst}
      (told : Solver.Tells vs ((do Solver.requireNonempty vs; modify Solver.wakeAll; Narrow.fixpoint : Narrow Unit)
        (Solver.new s)) v) : Tells program peeks (.label vs) s v
  | unlabeled {s : Subst} {v : Verdict Subst} (none_finite : s.finiteVars.isEmpty = true) (told : Sole s v) :
      Tells program peeks .labelAll s v
  | labelAll {s : Subst} {v : Verdict Subst} (some_finite : s.finiteVars.isEmpty = false)
      (told : Tells program peeks (.label s.finiteVars) s v) : Tells program peeks .labelAll s v
  | reserve {n : Nat} {body : Nat → Goal} {s : Subst} {v : Verdict Subst}
      (told : Tells program peeks (body s.supply) { s with supply := s.supply + n } v) :
      Tells program peeks (.reserve n body) s v

variable {program : Program} {peeks : Prop} {g h cond yes no : Goal} {s : Subst} {v : Verdict Subst}

theorem tells_conj : Tells program peeks (.conj g h) s v ↔ Each (Tells program peeks g s) (Tells program peeks h) v := by
  constructor
  · intro told
    cases told with
    | conjHas first second => exact ⟨_, first, second⟩
    | conjAll first each => exact ⟨_, first, each, rfl⟩
  · intro told
    cases v with
    | has t =>
      obtain ⟨m, first, second⟩ := told
      exact .conjHas first second
    | all as =>
      obtain ⟨L, first, each, rfl⟩ := told
      exact .conjAll first each

theorem tells_disj : Tells program peeks (.disj g h) s v ↔ Both (Tells program peeks g s) (Tells program peeks h s) v := by
  constructor
  · intro told
    cases told with
    | left told => exact .inl told
    | right told => exact .inr told
    | both told told' => exact ⟨_, _, told, told', rfl⟩
  · intro told
    cases v with
    | has t =>
      rcases told with told | told
      · exact .left told
      · exact .right told
    | all as =>
      obtain ⟨bs, cs, told, told', rfl⟩ := told
      exact .both told told'

theorem tells_par {workers : Nat} :
    Tells program peeks (.par workers g h) s v ↔ Both (Tells program peeks g s) (Tells program peeks h s) v := by
  constructor
  · intro told
    cases told with
    | parLeft told => exact .inl told
    | parRight told => exact .inr told
    | parBoth told told' => exact ⟨_, _, told, told', rfl⟩
  · intro told
    cases v with
    | has t =>
      rcases told with told | told
      · exact .parLeft told
      · exact .parRight told
    | all as =>
      obtain ⟨bs, cs, told, told', rfl⟩ := told
      exact .parBoth told told'

/-- What is told of a conditional: the condition has no answer, or it has some. -/
theorem Tells.of_ifte (told : Tells program peeks (.ifte cond yes no) s v) :
    (Tells program peeks cond s (.all 0) ∧ Tells program peeks no s v) ∨
      (∃ w, w ≠ .all 0 ∧ Tells program peeks cond s w) ∧
        Each (Tells program peeks cond s) (Tells program peeks yes) v := by
  cases told with
  | ifteNo none told => exact .inl ⟨none, told⟩
  | ifteHas first second => exact .inr ⟨⟨.has _, nofun, first⟩, _, first, second⟩
  | ifteAll some first each =>
    refine .inr ⟨⟨_, fun same => some ?_, first⟩, _, first, each, rfl⟩
    exact Multiset.map_eq_zero.mp (Verdict.all.inj same)

/-- What is told of a goal that asks nowhere for the first answer only fits together. -/
theorem Tells.fits (uncut : program.Uncut) (told : Tells program peeks g s v) :
    g.Uncut → Only (Tells program peeks g s) v := by
  induction told with
  | succeed told =>
    intro _ w told'
    cases told' with
    | succeed told' => exact told.fits told'
  | fail =>
    rintro _ w ⟨⟩
    rfl
  | eq told =>
    intro _ w told'
    cases told' with
    | eq told' => exact told.fits told'
  | conjHas _ _ ihg ihh => exact fun here w told' => only_has_each (ihg here.1) (ihh here.2) w (tells_conj.mp told')
  | conjAll _ _ ihg ihh =>
    exact fun here w told' => only_all_each (ihg here.1) (fun p mem => ihh p mem here.2) w (tells_conj.mp told')
  | left _ ih => exact fun here w told' => only_has_both (ih here.1) w (tells_disj.mp told')
  | right _ ih => exact fun here w told' => only_has_both (ih here.2) w (tells_disj.mp told').swap
  | both _ _ ihg ihh => exact fun here w told' => only_all_both (ihg here.1) (ihh here.2) w (tells_disj.mp told')
  | parLeft _ ih => exact fun here w told' => only_has_both (ih here.1) w (tells_par.mp told')
  | parRight _ ih => exact fun here w told' => only_has_both (ih here.2) w (tells_par.mp told').swap
  | parBoth _ _ ihg ihh => exact fun here w told' => only_all_both (ihg here.1) (ihh here.2) w (tells_par.mp told')
  | suspend _ ih =>
    intro here w told'
    cases told' with
    | suspend told' => exact ih here w told'
  | fresh _ ih =>
    intro here w told'
    cases told' with
    | fresh told' => exact ih (here _) w told'
  | call _ ih =>
    intro here w told'
    cases told' with
    | call told' => exact ih (RelName.uncut_body uncut _ _) w told'
  | notNone _ told ih =>
    intro here w told'
    cases told' with
    | notNone _ told' => exact told.fits told'
    | notSome _ found => exact absurd (ih here _ found) (not_fits_none nofun)
    | notAll found some => exact absurd (ih here _ found) (not_fits_none fun same => some (Verdict.all.inj same))
  | notSome _ _ ih =>
    intro here w told'
    cases told' with
    | notNone none => exact absurd (ih here _ none) (not_none_fits nofun)
    | _ => rfl
  | notAll _ some ih =>
    intro here w told'
    cases told' with
    | notNone none => exact absurd (ih here _ none) (not_none_fits fun same => some (Verdict.all.inj same))
    | _ => rfl
  | ifteNo _ _ ihc ihn =>
    intro here w told'
    rcases told'.of_ifte with ⟨_, told'⟩ | ⟨⟨u, differ, found⟩, _⟩
    · exact ihn here.2.2 w told'
    · exact absurd (ihc here.1 u found) (not_fits_none differ)
  | ifteHas _ _ ihc ihy =>
    intro here w told'
    rcases told'.of_ifte with ⟨none, _⟩ | ⟨_, told'⟩
    · exact absurd (ihc here.1 _ none) (not_none_fits nofun)
    · exact only_has_each (ihc here.1) (ihy here.2.1) w told'
  | ifteAll some _ _ ihc ihy =>
    intro here w told'
    rcases told'.of_ifte with ⟨none, _⟩ | ⟨_, told'⟩
    · exact absurd (ihc here.1 _ none) (not_none_fits fun same => some (Multiset.map_eq_zero.mp (Verdict.all.inj same)))
    · exact only_all_each (ihc here.1) (fun p mem => ihy p mem here.2.1) w told'
  | onceNone => exact fun here => here.elim
  | onceSome => exact fun here => here.elim
  | @alwaysHas s =>
    intro _ w told'
    cases told' with
    | alwaysHas => trivial
    | alwaysAll _ => exact Multiset.mem_add.mpr (.inl (Multiset.mem_singleton_self s))
  | @alwaysAll s as _ ih =>
    intro here w told'
    cases told' with
    | alwaysHas => exact Multiset.mem_add.mpr (.inl (Multiset.mem_singleton_self s))
    | alwaysAll rest => exact congrArg ({s} + ·) (ih here _ rest)
  | post told =>
    intro _ w told'
    cases told' with
    | post told' => exact told.fits told'
  | posted told =>
    intro _ w told'
    cases told' with
    | posted told' => exact told.fits told'
  | narrow told =>
    intro _ w told'
    cases told' with
    | narrow told' => exact told.fits told'
  | label told =>
    intro _ w told'
    cases told' with
    | label told' => exact told.fits w told'
  | unlabeled none_finite told =>
    intro _ w told'
    cases told' with
    | unlabeled _ told' => exact told.fits told'
    | labelAll some_finite => cases none_finite.symm.trans some_finite
  | labelAll some_finite _ ih =>
    intro here w told'
    cases told' with
    | unlabeled none_finite => cases none_finite.symm.trans some_finite
    | labelAll _ told' => exact ih trivial w told'
  | reserve _ ih =>
    intro here w told'
    cases told' with
    | reserve told' => exact ih (here _) w told'

/-- What is told of a goal is told of it with disjunctions in the place of parallel
    disjunctions. -/
theorem Tells.sequential (told : Tells program peeks g s v) : Tells program.sequential peeks g.sequential s v := by
  induction told with
  | succeed told => exact .succeed told
  | fail => exact .fail
  | eq told => exact .eq told
  | conjHas _ _ ihg ihh => exact .conjHas ihg ihh
  | conjAll _ _ ihg ihh => exact .conjAll ihg ihh
  | left _ ih => exact .left ih
  | right _ ih => exact .right ih
  | both _ _ ihg ihh => exact .both ihg ihh
  | parLeft _ ih => exact .left ih
  | parRight _ ih => exact .right ih
  | parBoth _ _ ihg ihh => exact .both ihg ihh
  | suspend _ ih => exact .suspend ih
  | fresh _ ih => exact .fresh ih
  | call _ ih => exact .call (RelName.sequential_body program _ _ ▸ ih)
  | notNone _ told ih => exact .notNone ih told
  | notSome peek _ ih => exact .notSome peek ih
  | notAll _ some ih => exact .notAll ih some
  | ifteNo _ _ ihc ihn => exact .ifteNo ihc ihn
  | ifteHas _ _ ihc ihy => exact .ifteHas ihc ihy
  | ifteAll some _ _ ihc ihy => exact .ifteAll some ihc ihy
  | onceNone _ ih => exact .onceNone ih
  | onceSome peek _ told ih => exact .onceSome peek ih told
  | alwaysHas => exact .alwaysHas
  | alwaysAll _ ih => exact .alwaysAll ih
  | post told => exact .post told
  | posted told => exact .posted told
  | narrow told => exact .narrow told
  | label told => exact .label told
  | unlabeled none_finite told => exact .unlabeled none_finite told
  | labelAll some_finite _ ih => exact .labelAll some_finite ih
  | reserve _ ih => exact .reserve ih

end Goal

/-! ## What a search finds -/

/-- The verdict on what a task delivers. -/
def Task.Tells (program : Program) : Task → Verdict Subst → Prop
  | .apply g s, v => Goal.Tells program True g s v
  | .branch g s, v => Goal.Tells program True g s v
  | .explore solver w half vs, v => Solver.Tells vs (solver.reduced w half) v

/-- The verdict on the answers of a search. -/
abbrev Answers.Tells (program : Program) (answers : Answers) (v : Verdict Subst) : Prop :=
  Series.Tells (Task.Tells program) (Goal.Tells program True) answers v

/-- Forcing in the context finds what has been told, and comes to an answer or the end. -/
structure Context.Told (c : Context) : Prop where
  ready : ∀ answers forced v, c.forceReady answers = .ok forced → Answers.Tells c.program forced v →
    Answers.Tells c.program answers v
  deep : ∀ answers forced v, c.forceDeep answers = .ok forced → Answers.Tells c.program forced v →
    Answers.Tells c.program answers v
  deep_cases : ∀ answers forced, c.forceDeep answers = .ok forced →
    forced = .empty ∨ ∃ s rest, forced = .cons s rest

section Finding

variable {program : Program} {answers : Answers} {s : Subst} {v : Verdict Subst}

theorem Answers.tells_unit (h : Answers.Tells program (.unit s) v) : Sole s v := by
  cases v with
  | has t => exact h.resolve_right (by simp [Series.Tells])
  | all as =>
    obtain ⟨bs, cs, here, rest, rfl⟩ := h
    cases here
    cases rest
    exact add_zero _

theorem Answers.told_of_tells {r : Attempt Subst} (run : Answers.ofAttempt r = .ok answers)
    (h : answers.Tells program v) : Answers.Told r v := by
  match r with
  | .ok t =>
    cases run
    exact .solved (Answers.tells_unit h)
  | .error .conflict =>
    cases run
    cases h
    exact .conflict
  | .error (.stop _) => cases run

theorem Solver.tells_of_search {solver : Solver} {vs : List Var} (run : solver.search vs = .ok answers)
    (h : answers.Tells program v) : Solver.Tells vs (.ok () solver) v := by
  unfold Solver.search at run
  split at run
  · rename_i s' chosen
    exact .ended chosen (Answers.told_of_tells run h)
  · rename_i w s' chosen
    dsimp only at run
    split at run
    · cases run
    · rename_i left right halved
      cases run
      exact (Solver.tells_halves chosen halved).mpr (Series.tells_append h)

theorem Goal.tells_of_label {vs : List Var} (run : s.label vs = .ok answers) (h : answers.Tells program v) :
    Goal.Tells program True (.label vs) s v := by
  rw [Subst.label_eq] at run
  split at run
  · rename_i solver started
    exact .label (by rw [started]; exact Solver.tells_of_search run h)
  · rename_i started
    cases run
    cases h
    exact .label (by rw [started]; exact .conflict)
  · cases run

/-- What is told of the answers of a goal is told of the goal. -/
theorem Goal.tells_of_apply {c : Context} (told : c.Told) (g : Goal) :
    ∀ {s : Subst} {v : Verdict Subst} {answers : Answers}, g.apply c s = .ok answers →
      answers.Tells c.program v → Goal.Tells c.program True g s v := by
  induction g with
  | succeed =>
    intro s v answers run h
    cases run
    exact .succeed (Answers.tells_unit h)
  | fail =>
    intro s v answers run h
    cases run
    cases h
    exact .fail
  | eq a b => exact fun run h => .eq (Answers.told_of_tells run h)
  | conj g h ihg ihh =>
    intro s v answers run tells
    obtain ⟨found, first, second⟩ := exists_of_bind_ok run
    have each := Series.tells_bindWith (fun m u w => ihh) second tells
    exact tells_conj.mpr (each.mono (fun w => ihg first) fun _ _ => id)
  | disj g h ihg ihh =>
    intro s v answers run tells
    obtain ⟨left, first, rest⟩ := exists_of_bind_ok run
    obtain ⟨right, second, same⟩ := exists_of_bind_ok rest
    cases same
    exact tells_disj.mpr ((Series.tells_append tells).mono (fun w => ihg first) fun w => ihh second)
  | suspend g ih =>
    intro s v answers run tells
    cases run
    exact .suspend tells
  | fresh n body ih => exact fun run tells => .fresh (ih _ run tells)
  | call r args =>
    intro s v answers run tells
    cases run
    exact .call tells
  | not g ih =>
    intro s v answers run tells
    obtain ⟨found, first, rest⟩ := exists_of_bind_ok run
    obtain ⟨forced, deep, rest⟩ := exists_of_bind_ok rest
    have passed (w : Verdict Subst) (tells : Answers.Tells c.program forced w) := ih first (told.deep found forced w deep tells)
    rcases told.deep_cases found forced deep with rfl | ⟨m, others, rfl⟩
    · cases rest
      exact .notNone (passed _ rfl) (Answers.tells_unit tells)
    · cases rest
      cases tells
      exact .notSome trivial (passed (.has m) (.inl rfl))
  | ifte cond yes no ihc ihy ihn =>
    intro s v answers run tells
    obtain ⟨found, first, rest⟩ := exists_of_bind_ok run
    obtain ⟨forced, deep, rest⟩ := exists_of_bind_ok rest
    have passed (w : Verdict Subst) (tells : Answers.Tells c.program forced w) := ihc first (told.deep found forced w deep tells)
    rcases told.deep_cases found forced deep with rfl | ⟨m, others, rfl⟩
    · exact .ifteNo (passed _ rfl) (ihn rest tells)
    · have each := Series.tells_bindWith (fun m u w => ihy) rest tells
      cases v with
      | has t =>
        obtain ⟨a, first, second⟩ := each
        exact .ifteHas (passed _ first) second
      | all as =>
        obtain ⟨L, first, each, rfl⟩ := each
        refine .ifteAll (fun none => ?_) (passed _ first) each
        obtain ⟨bs, cs, here, _, sum⟩ := first
        cases here
        rw [none] at sum
        exact absurd (congrArg (m ∈ ·) sum) (by simp)
  | once g ih =>
    intro s v answers run tells
    obtain ⟨found, first, rest⟩ := exists_of_bind_ok run
    obtain ⟨forced, deep, rest⟩ := exists_of_bind_ok rest
    have passed (w : Verdict Subst) (tells : Answers.Tells c.program forced w) := ih first (told.deep found forced w deep tells)
    rcases told.deep_cases found forced deep with rfl | ⟨m, others, rfl⟩
    · cases rest
      cases tells
      exact .onceNone (passed _ rfl)
    · cases rest
      exact .onceSome trivial (passed (.has m) (.inl rfl)) (Answers.tells_unit tells)
  | par workers g h ihg ihh =>
    intro s v answers run tells
    obtain ⟨branch, placed, rest⟩ := exists_of_bind_ok run
    obtain ⟨left, first, same⟩ := exists_of_bind_ok rest
    cases same
    refine tells_par.mpr ((Series.tells_append tells).mono (fun w => ihg first) fun w tells => ?_)
    -- Whether the branch is still to be run or has been forced already, it tells what its goal tells.
    rcases Task.settled_cases placed with rfl | ⟨found, rfl, searched⟩
    · exact tells
    · obtain ⟨found', applied, forced⟩ := exists_of_bind_ok searched
      exact ihh applied (told.ready found' found w forced tells)
  | never =>
    intro s v answers run tells
    cases run
    exact tells
  | always =>
    intro s v answers run tells
    cases run
    cases v with
    | has t =>
      rcases tells with rfl | tells
      · exact .alwaysHas
      · exact tells
    | all as =>
      obtain ⟨bs, cs, here, rest, rfl⟩ := tells
      cases here
      exact .alwaysAll rest
  | post r => exact fun run tells => .post (Answers.told_of_tells run tells)
  | posted p => exact fun run tells => .posted (Answers.told_of_tells run tells)
  | narrow x d => exact fun run tells => .narrow (Answers.told_of_tells run tells)
  | label vs => exact fun run tells => Goal.tells_of_label run tells
  | labelAll =>
    intro s v answers run tells
    rw [apply, Subst.labelAll] at run
    split at run
    · rename_i none_finite
      cases run
      exact .unlabeled none_finite (Answers.tells_unit tells)
    · rename_i some_finite
      exact .labelAll (by simpa using some_finite) (Goal.tells_of_label run tells)
  | reserve n body ih => exact fun run tells => .reserve (ih _ run tells)

/-- Where forcing finds what has been told, so do the tasks of a search. -/
theorem Context.Told.interp {c : Context} (told : c.Told) :
    c.interp.Told (Task.Tells c.program) (Goal.Tells c.program True) where
  start k answers v run tells := by
    cases k with
    | apply g s => exact Goal.tells_of_apply told g run tells
    | branch g s =>
      change c.branch g s = _ at run
      unfold Context.branch at run
      split at run
      · cases run
      · obtain ⟨found, applied, ready⟩ := exists_of_bind_ok run
        exact Goal.tells_of_apply told g applied (told.ready found answers v ready tells)
    | explore solver w half vs =>
      change solver.explore w half vs = _ at run
      rw [Solver.explore_eq] at run
      split at run
      · rename_i u reduced
        show Solver.Tells vs (solver.reduced w half) v
        rw [Solver.reduced, reduced]
        exact Solver.tells_of_search run tells
      · rename_i u reduced
        cases run
        cases tells
        show Solver.Tells vs (solver.reduced w half) _
        rw [Solver.reduced, reduced]
        exact .conflict
      · cases run
  bind g s answers v run tells := Goal.tells_of_apply told g run tells

theorem Program.told_context (program : Program) (n : Nat) : (program.context n).Told := by
  induction n with
  | zero => exact ⟨nofun, nofun, nofun⟩
  | succ n ih =>
    have inner := ih.interp
    rw [program.program_context] at inner
    exact ⟨fun _ _ _ run => Series.tells_forceReady inner n run,
      fun _ _ _ run => Series.tells_forceDeep inner n run, fun _ _ run => Series.forceDeep_cases n run⟩

end Finding

/-! ## Searches that come to their end -/

namespace Goal

/-- With some allowance the search for the goal comes to its end, nothing stops it, and
    the answers are those of the list, in order. -/
def Ends (program : Program) (g : Goal) (s : Subst) (as : List Subst) : Prop :=
  ∃ n, Series.PlaysOut (program.context n).interp (g.apply (program.context n) s) as none

/-- The answers of a search that comes to its end are all that is told. -/
theorem Ends.tells {program : Program} {g : Goal} {s : Subst} {as : List Subst} (h : g.Ends program s as) :
    Goal.Tells program True g s (.all as) := by
  obtain ⟨n, plays⟩ := h
  have told := program.told_context n
  cases applied : g.apply (program.context n) s with
  | error why =>
    rw [applied] at plays
    cases plays.2
  | ok answers =>
    rw [applied] at plays
    obtain ⟨k, plays⟩ := plays
    have tells := Goal.tells_of_apply told g applied (plays.tells told.interp rfl)
    rwa [program.program_context] at tells

end Goal

end ConstraintLogic
