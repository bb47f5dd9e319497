import ConstraintLogic.Proofs.Goal.Yields
import ConstraintLogic.Proofs.Unification.Aliases

/-!
# Substitutions that goals produce

Goals over terms and constraints with integers of 64 bits lead from substitutions
that are in order to substitutions that are in order. A constraint that is stated
with an identity has to be known by the substitution: its identity is reserved for
it, and no other constraint has it.

Results:
* `Goal.Fair`: the goals that can be stated.
* `Goal.Yields.orderly`: they lead to substitutions in order.
* `Subst.Produced`: the substitutions that goals produce.
* `Subst.Produced.orderly`: they are in order.
-/

namespace ConstraintLogic

/-! ## Goals that can be stated -/

namespace Goal

/-- The integers of the goal have 64 bits, its domains are in their one form, and its
    tables have rows as long as their lists of variables. Constraints that have an
    identity are known, be it that the goal reserves the identity itself. -/
def Fair : (Propagator → Prop) → Goal → Prop
  | _, eq a b => a.Sized ∧ b.Sized
  | known, conj g h => g.Fair known ∧ h.Fair known
  | known, disj g h => g.Fair known ∧ h.Fair known
  | known, par _ g h => g.Fair known ∧ h.Fair known
  | known, suspend g => g.Fair known
  | known, not g => g.Fair known
  | known, once g => g.Fair known
  | known, ifte cond yes no => cond.Fair known ∧ yes.Fair known ∧ no.Fair known
  | known, fresh _ body => ∀ vs, (body vs).Fair known
  | _, call _ args => ∀ a ∈ args, a.Sized
  | _, post r => r.Proper
  | known, posted p => known p
  | _, narrow _ d => d.Canonical
  | known, reserve n body => ∀ k, ∃ own : Propagator → Prop,
      (∀ p, own p → p.val.Proper ∧ k ≤ p.stamp ∧ p.stamp < k + n) ∧
      (∀ p q, own p → own q → p.stamp = q.stamp → p = q) ∧
      (body k).Fair fun p => known p ∨ own p
  | _, _ => True

theorem Fair.mono {g : Goal} : ∀ {known more : Propagator → Prop}, g.Fair known →
    (∀ p, known p → more p) → g.Fair more := by
  induction g with
  | conj g h ihg ihh => exact fun fair sub => ⟨ihg fair.1 sub, ihh fair.2 sub⟩
  | disj g h ihg ihh => exact fun fair sub => ⟨ihg fair.1 sub, ihh fair.2 sub⟩
  | par workers g h ihg ihh => exact fun fair sub => ⟨ihg fair.1 sub, ihh fair.2 sub⟩
  | suspend g ih => exact fun fair sub => ih fair sub
  | not g ih => exact fun fair sub => ih fair sub
  | once g ih => exact fun fair sub => ih fair sub
  | ifte cond yes no ihc ihy ihn =>
    exact fun fair sub => ⟨ihc fair.1 sub, ihy fair.2.1 sub, ihn fair.2.2 sub⟩
  | fresh n body ih => exact fun fair sub vs => ih vs (fair vs) sub
  | posted p => exact fun fair sub => sub p fair
  | reserve n body ih =>
    intro known more fair sub k
    obtain ⟨own, ranges, coherent, holds⟩ := fair k
    exact ⟨own, ranges, coherent, ih k holds fun p => Or.imp_left (sub p)⟩
  | _ => exact fun fair _ => fair

theorem fair_conjAll {known : Propagator → Prop} {gs : List Goal} (h : ∀ g ∈ gs, g.Fair known) :
    (conjAll gs).Fair known :=
  conjAll_of_forall (Q := Fair known) trivial (fun first second => ⟨first, second⟩) h

theorem fair_disjAll {known : Propagator → Prop} {gs : List Goal} (h : ∀ g ∈ gs, g.Fair known) :
    (disjAll gs).Fair known :=
  disjAll_of_forall (Q := Fair known) trivial (fun first second => ⟨first, second⟩) h

theorem fair_conde {known : Propagator → Prop} {clauses : List (List Goal)}
    (h : ∀ clause ∈ clauses, ∀ g ∈ clause, g.Fair known) : (conde clauses).Fair known :=
  conde_of_forall (Q := Fair known) fair_conjAll fair_disjAll h

theorem fair_appendBody {known : Propagator → Prop} {l s out : Term} (sized_l : l.Sized)
    (sized_s : s.Sized) (sized_out : out.Sized) : (appendBody l s out).Fair known := by
  refine fair_conde ?_
  simp only [List.forall_mem_cons]
  refine ⟨⟨⟨sized_l, trivial⟩, ⟨sized_s, sized_out⟩, by simp⟩, ⟨fun vs => ?_, by simp⟩, by simp⟩
  dsimp only
  split
  · refine fair_conjAll ?_
    simp only [List.forall_mem_cons]
    refine ⟨⟨⟨trivial, trivial⟩, sized_l⟩, ⟨⟨trivial, trivial⟩, sized_out⟩, ?_, by simp⟩
    show ∀ a ∈ [_, s, _], a.Sized
    simp only [List.forall_mem_cons]
    exact ⟨trivial, sized_s, trivial, by simp⟩
  · trivial

theorem fair_memberBody {known : Propagator → Prop} {x l : Term} (sized_x : x.Sized)
    (sized_l : l.Sized) : (memberBody x l).Fair known := by
  refine fair_conde ?_
  simp only [List.forall_mem_cons]
  refine ⟨⟨fun vs => ?_, by simp⟩, ⟨fun vs => ?_, by simp⟩, by simp⟩
  · dsimp only
    split
    · exact ⟨⟨sized_x, trivial⟩, sized_l⟩
    · trivial
  · dsimp only
    split
    · rename_i tail
      refine ⟨fun vs => ?_, ?_⟩
      · dsimp only
        split
        · exact ⟨⟨trivial, trivial⟩, sized_l⟩
        · trivial
      · show ∀ a ∈ [x, .var tail], a.Sized
        simp only [List.forall_mem_cons]
        exact ⟨sized_x, trivial, by simp⟩
    · trivial

end Goal

/-- The relations of a program mean goals that can be stated. -/
def Program.Fair (program : Program) : Prop :=
  ∀ name args, (∀ a ∈ args, a.Sized) → (program name args).Fair fun _ => False

/-- What a called relation means can be stated. -/
theorem RelName.fair_body {program : Program} (fair : program.Fair) (r : RelName) {args : List Term}
    (sized : ∀ a ∈ args, a.Sized) : (r.body program args).Fair fun _ => False := by
  unfold RelName.body
  split
  · rename_i l s out
    exact Goal.fair_appendBody (sized l (by simp)) (sized s (by simp)) (sized out (by simp))
  · rename_i x l
    exact Goal.fair_memberBody (sized x (by simp)) (sized l (by simp))
  · exact fair _ _ sized
  · trivial

/-! ## Order is kept -/

/-- The scope in which only readings of all variables as integers count. -/
def Scope.ints (known : Propagator → Prop) : Scope := ⟨fun θ => ∀ v, (θ v).IsValue, known⟩

namespace Subst

variable {known : Propagator → Prop} {s t : Subst}

theorem integral_ints (v : Var) : s.Integral (.ints known) v := fun _ reading _ => reading v

/-- Constraints with identities that are reserved for them become known. -/
theorem Orderly.reserve (h : s.Orderly (.ints known)) {n : Nat} {own : Propagator → Prop}
    (ranges : ∀ p, own p → p.val.Proper ∧ s.supply ≤ p.stamp ∧ p.stamp < s.supply + n)
    (coherent : ∀ p q, own p → own q → p.stamp = q.stamp → p = q) :
    Orderly (.ints fun p => known p ∨ own p) { s with supply := s.supply + n } := by
  have later := h.raise (Nat.le_add_right s.supply n)
  refine later.rescope ?_ (fun p _ v _ => integral_ints v) ?_ ?_
  · rintro p (known | own)
    · exact h.proper p (.inl known)
    · exact (ranges p own).1
  · rintro p (known | own)
    · exact Nat.lt_add_right n (h.stamped p (.inl known))
    · exact (ranges p own).2.2
  · rintro p q (known | own) ((known' | own') | stored) same
    · exact h.coherent p q (.inl known) (.inl known') same
    · have := h.stamped p (.inl known)
      have := (ranges q own').2.1
      omega
    · exact h.coherent p q (.inl known) (.inr stored) same
    · have := h.stamped q (.inl known')
      have := (ranges p own).2.1
      omega
    · exact coherent p q own own' same
    · have := h.stamped q (.inr stored)
      have := (ranges p own).2.1
      omega

/-- The leaves of a tree of splits are in order. -/
theorem orderly_of_leaf {K : Scope} {vs : List Var} {solver : Solver} (leaf : solver.Leaf vs t) :
    solver.Poised K vs → t.Orderly K := by
  induction leaf with
  | here chosen written =>
    intro poised
    obtain ⟨rfl, _⟩ := poised.of_not_chosen chosen
    obtain ⟨u, written', _, good, _⟩ := poised.steady.toSubst? poised.quiet
    cases written.symm.trans written'
    exact good
  | deeper chosen halved either narrowed _ ih =>
    exact fun poised => ih (poised.of_narrowed chosen halved either narrowed)

/-- What an attempt that solves an equation answers. -/
theorem good_of_solves {P : Subst → Prop} {D : Subst → (Var → Term) → Prop} {F : Fault → Prop}
    {E : (Var → Term) → Prop} {r : Attempt Subst} (h : Solves P D F s E r) (run : r = .ok t) : P t := by
  rw [run] at h
  exact h.1

/-- A solver on a substitution in order is ready for labeling. -/
theorem Orderly.poised (h : s.Orderly (.ints known)) {vs : List Var} {solver : Solver}
    (started : (do Solver.requireNonempty vs; modify Solver.wakeAll; Narrow.fixpoint : Narrow Unit)
      (Solver.new s) = .ok () solver) : solver.Poised (.ints known) vs := by
  have spec := h.starts fun v (_ : v ∈ vs) => integral_ints v
  unfold Narrow.Ensures at spec
  rw [started] at spec
  exact spec.1

end Subst

/-- A goal that can be stated leads from a substitution in order to one in order, in
    which the known constraints still count. -/
theorem Goal.Yields.orderly {program : Program} (fair : program.Fair) {g : Goal} {s t : Subst}
    (h : g.Yields program s t) : ∀ {known : Propagator → Prop}, g.Fair known →
      s.Orderly (.ints known) → t.Orderly (.ints known) := by
  induction h with
  | succeed => exact fun _ good => good
  | eq unified => exact fun stated good => Subst.good_of_solves (good.unify stated.1 stated.2) unified
  | conj _ _ ih ih' => exact fun stated good => ih' stated.2 (ih stated.1 good)
  | disjLeft _ ih => exact fun stated good => ih stated.1 good
  | disjRight _ ih => exact fun stated good => ih stated.2 good
  | suspend _ ih => exact fun stated good => ih stated good
  | fresh _ ih => exact fun stated good => ih (stated _) (good.congr rfl rfl (Nat.le_refl _))
  | call _ ih =>
    exact fun stated good => ih ((RelName.fair_body fair _ stated).mono fun _ => False.elim) good
  | not => exact fun _ good => good
  | ifteYes _ _ ih ih' => exact fun stated good => ih' stated.2.1 (ih stated.1 good)
  | ifteNo _ ih => exact fun stated good => ih stated.2.2 good
  | once _ ih => exact fun stated good => ih stated good
  | parLeft _ ih => exact fun stated good => ih stated.1 good
  | parRight _ ih => exact fun stated good => ih stated.2 good
  | always => exact fun _ good => good
  | post solved =>
    intro known stated good
    have stamped := good.stamp stated fun v _ => Subst.integral_ints v
    have run := stamped.inAll.solveWith (fun _ _ => trivial) (List.forall_mem_singleton.mpr (.inr rfl))
    exact (Subst.good_of_solves run solved).orderly.mono rfl fun p known => .inl (.inl known)
  | posted solved =>
    intro known stated good
    have run := good.inAll.solveWith (fun _ _ => trivial) (List.forall_mem_singleton.mpr stated)
    exact (Subst.good_of_solves run solved).orderly
  | @narrow v d s t solved =>
    intro known stated good
    have run := good.inAll.solveReduced (fun _ _ => trivial) stated fun _ => Subst.integral_ints v
    exact (Subst.good_of_solves run solved).orderly
  | label started leaf => exact fun _ good => Subst.orderly_of_leaf leaf (good.poised started)
  | unlabeled _ => exact fun _ good => good
  | labelAll _ ih => exact fun _ good => ih trivial good
  | reserve _ ih =>
    intro known stated good
    obtain ⟨own, ranges, coherent, holds⟩ := stated _
    exact (ih holds (good.reserve ranges coherent)).mono rfl fun p known => .inl (.inl known)

/-! ## Substitutions that are produced -/

/-- The substitution is reached by a search for a goal that can be stated, on variables
    that have been allocated for it. -/
def Subst.Produced (t : Subst) : Prop :=
  ∃ (program : Program) (g : Goal) (n allowance : Nat) (answers : Answers), program.Fair ∧
    g.Fair (fun _ => False) ∧
    g.apply (program.context allowance) (Subst.empty.freshMany n).2 = .ok answers ∧
    answers.Reaches (program.context allowance).interp t

theorem Subst.orderly_empty {K : Scope} (none : ∀ p, ¬K.known p) : Subst.empty.Orderly K := by
  have unstored (v : Var) : Subst.empty.storedWatchers v = [] := by simp [Subst.storedWatchers]
  have absent (p : Propagator) : ¬Subst.empty.Carries K p := by
    rintro (known | ⟨v, mem⟩)
    · exact none p known
    · rw [unstored] at mem
      cases mem
  exact
    { acyclic := Subst.acyclic_empty
      sized := fun v t bound => by simp at bound
      simple := fun v => by simp
      unbound := fun v _ => by simp
      domain := fun v a found => by simp at found
      watched := fun v a found => by simp at found
      mentions := fun v p mem => by
        rw [unstored] at mem
        cases mem
      proper := fun p carries => (absent p carries).elim
      integral := fun p carries => (absent p carries).elim
      stamped := fun p carries => (absent p carries).elim
      coherent := fun p q carries => (absent p carries).elim }

/-- Substitutions that goals produce are in order. -/
theorem Subst.Produced.orderly {s : Subst} (h : s.Produced) :
    s.Orderly (.ints fun _ => False) := by
  obtain ⟨program, g, n, allowance, answers, fair, stated, applied, reached⟩ := h
  refine (Goal.yields_of_reaches applied reached).orderly fair stated ?_
  exact (Subst.orderly_empty fun _ => id).congr rfl rfl (Nat.le_refl _)

end ConstraintLogic
