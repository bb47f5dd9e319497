import ConstraintLogic.Proofs.Goal.Produced

/-!
# What goals pass on, and where they break

A search applies the parts of a goal, and what the relations mean that it calls, to the
substitutions that come up on the way. It breaks where a part that unifies, posts a constraint,
narrows or labels comes to a fault. Where the goal can be stated and the substitution is in
order, all that is passed on is in order as well, and a part breaks for an overflow only: no
domain without two values is split, and no unbounded domain is enumerated.

Results:
* `Goal.Passes`: the substitutions that goals inside of a goal are applied to.
* `Goal.Passes.orderly`: they are in order.
* `Solver.Breaks`, `Goal.Breaks`: where a tree of splits and a goal break.
* `Goal.Breaks.overflow`: they break for an overflow.
-/

namespace ConstraintLogic

variable {program : Program} {f g h : Goal} {s t u : Subst} {known : Propagator → Prop} {why : Stop}

/-! ## What subgoals are applied to -/

/-- The goal `h` may be applied to the substitution `t`, at once or later, where a goal that it is
    a part of is applied to a substitution. A goal that is applied to the answers of another one
    may be applied to all that the other yields. -/
inductive Goal.Passes (program : Program) (h : Goal) (t : Subst) : Goal → Subst → Prop
  | here : Passes program h t h t
  | conjLeft {g g' : Goal} {s : Subst} (part : Passes program h t g s) : Passes program h t (.conj g g') s
  | conjRight {g g' : Goal} {s m : Subst} (first : g.Yields program s m) (part : Passes program h t g' m) :
      Passes program h t (.conj g g') s
  | disjLeft {g g' : Goal} {s : Subst} (part : Passes program h t g s) : Passes program h t (.disj g g') s
  | disjRight {g g' : Goal} {s : Subst} (part : Passes program h t g' s) : Passes program h t (.disj g g') s
  | suspend {g : Goal} {s : Subst} (part : Passes program h t g s) : Passes program h t (.suspend g) s
  | fresh {n : Nat} {body : List Var → Goal} {s : Subst}
      (part : Passes program h t (body (s.freshMany n).1) (s.freshMany n).2) : Passes program h t (.fresh n body) s
  | call {r : RelName} {args : List Term} {s : Subst} (part : Passes program h t (r.body program args) s) :
      Passes program h t (.call r args) s
  | not {g : Goal} {s : Subst} (part : Passes program h t g s) : Passes program h t (.not g) s
  | ifteCond {cond yes no : Goal} {s : Subst} (part : Passes program h t cond s) :
      Passes program h t (.ifte cond yes no) s
  | ifteYes {cond yes no : Goal} {s m : Subst} (found : cond.Yields program s m) (part : Passes program h t yes m) :
      Passes program h t (.ifte cond yes no) s
  | ifteNo {cond yes no : Goal} {s : Subst} (part : Passes program h t no s) : Passes program h t (.ifte cond yes no) s
  | once {g : Goal} {s : Subst} (part : Passes program h t g s) : Passes program h t (.once g) s
  | parLeft {workers : Nat} {g g' : Goal} {s : Subst} (part : Passes program h t g s) :
      Passes program h t (.par workers g g') s
  | parRight {workers : Nat} {g g' : Goal} {s : Subst} (part : Passes program h t g' s) :
      Passes program h t (.par workers g g') s
  | reserve {n : Nat} {body : Nat → Goal} {s : Subst}
      (part : Passes program h t (body s.supply) { s with supply := s.supply + n }) :
      Passes program h t (.reserve n body) s

namespace Goal

/-- What a goal passes on is passed on by any goal that the goal itself is passed on by. -/
theorem Passes.trans (inner : Passes program f t h u) (outer : Passes program h u g s) : Passes program f t g s := by
  induction outer with
  | here => exact inner
  | conjLeft _ ih => exact .conjLeft ih
  | conjRight first _ ih => exact .conjRight first ih
  | disjLeft _ ih => exact .disjLeft ih
  | disjRight _ ih => exact .disjRight ih
  | suspend _ ih => exact .suspend ih
  | fresh _ ih => exact .fresh ih
  | call _ ih => exact .call ih
  | not _ ih => exact .not ih
  | ifteCond _ ih => exact .ifteCond ih
  | ifteYes found _ ih => exact .ifteYes found ih
  | ifteNo _ ih => exact .ifteNo ih
  | once _ ih => exact .once ih
  | parLeft _ ih => exact .parLeft ih
  | parRight _ ih => exact .parRight ih
  | reserve _ ih => exact .reserve ih

/-- A goal that can be stated passes on goals that can be stated, and substitutions in order. -/
theorem Passes.orderly (fair : program.Fair) (passes : Passes program h t g s) :
    ∀ {known}, g.Fair known → s.Orderly (.ints known) → ∃ more, h.Fair more ∧ t.Orderly (.ints more) := by
  induction passes with
  | here => exact fun stated good => ⟨_, stated, good⟩
  | conjLeft _ ih => exact fun stated => ih stated.1
  | conjRight first _ ih => exact fun stated good => ih stated.2 (first.orderly fair stated.1 good)
  | disjLeft _ ih => exact fun stated => ih stated.1
  | disjRight _ ih => exact fun stated => ih stated.2
  | suspend _ ih => exact fun stated => ih stated
  | fresh _ ih => exact fun stated good => ih (stated _) (good.congr rfl rfl (Nat.le_refl _))
  | call _ ih => exact fun stated => ih ((RelName.fair_body fair _ stated).mono fun _ => False.elim)
  | not _ ih => exact fun stated => ih stated
  | ifteCond _ ih => exact fun stated => ih stated.1
  | ifteYes found _ ih => exact fun stated good => ih stated.2.1 (found.orderly fair stated.1 good)
  | ifteNo _ ih => exact fun stated => ih stated.2.2
  | once _ ih => exact fun stated => ih stated
  | parLeft _ ih => exact fun stated => ih stated.1
  | parRight _ ih => exact fun stated => ih stated.2
  | reserve _ ih =>
    intro known stated good
    obtain ⟨own, ranges, coherent, holds⟩ := stated _
    exact ih holds (good.reserve ranges coherent)

end Goal

/-! ## Where goals break -/

/-- Below the solver the tree of splits breaks: at a leaf that is not written back, at a domain that
    is not split, or where a half is propagated. -/
inductive Solver.Breaks (vs : List Var) : Solver → Stop → Prop
  | written {s s' : Solver} {why : Stop} (chosen : s.choose vs = (none, s'))
      (failed : s'.toSubst? = .error (.stop why)) : Breaks vs s why
  | halved {s s' : Solver} {w : Var} {f : Fault} (chosen : s.choose vs = (some w, s'))
      (failed : (s'.domain w).1.bisect = .error f) : Breaks vs s (.fault f)
  | narrowed {s s' u : Solver} {w : Var} {left right half : Domain} {why : Stop}
      (chosen : s.choose vs = (some w, s')) (halved : (s'.domain w).1.bisect = .ok (left, right))
      (either : half = left ∨ half = right)
      (failed : (do Narrow.reduce w half; Narrow.fixpoint : Narrow Unit) (s'.domain w).2 = .error (.stop why) u) :
      Breaks vs s why
  | deeper {s s' u : Solver} {w : Var} {left right half : Domain} {why : Stop}
      (chosen : s.choose vs = (some w, s')) (halved : (s'.domain w).1.bisect = .ok (left, right))
      (either : half = left ∨ half = right)
      (narrowed : (do Narrow.reduce w half; Narrow.fixpoint : Narrow Unit) (s'.domain w).2 = .ok () u)
      (below : Breaks vs u why) : Breaks vs s why

/-- The goal itself, and none that it is made of, breaks when it is applied to the substitution, be
    it at once or at one of the splits that it puts off. -/
inductive Goal.Breaks : Goal → Subst → Stop → Prop
  | eq {a b : Term} {s : Subst} {why : Stop} (failed : s.unify a b = .error (.stop why)) : Breaks (.eq a b) s why
  | post {r : Relation} {s : Subst} {why : Stop}
      (failed : (s.stamped r).2.solveWith [(s.stamped r).1] = .error (.stop why)) : Breaks (.post r) s why
  | posted {p : Propagator} {s : Subst} {why : Stop} (failed : s.solveWith [p] = .error (.stop why)) :
      Breaks (.posted p) s why
  | narrow {v : Var} {d : Domain} {s : Subst} {why : Stop} (failed : s.solveReduced v d = .error (.stop why)) :
      Breaks (.narrow v d) s why
  | start {vs : List Var} {s : Subst} {u : Solver} {why : Stop}
      (failed : (do Solver.requireNonempty vs; modify Solver.wakeAll; Narrow.fixpoint : Narrow Unit)
        (Solver.new s) = .error (.stop why) u) : Breaks (.label vs) s why
  | split {vs : List Var} {s : Subst} {solver : Solver} {why : Stop}
      (started : (do Solver.requireNonempty vs; modify Solver.wakeAll; Narrow.fixpoint : Narrow Unit)
        (Solver.new s) = .ok () solver)
      (below : solver.Breaks vs why) : Breaks (.label vs) s why
  | labelAll {s : Subst} {why : Stop} (some_finite : s.finiteVars ≠ []) (labeled : Breaks (.label s.finiteVars) s why) :
      Breaks .labelAll s why

/-- A tree of splits breaks for an overflow only. -/
theorem Solver.Breaks.overflow {K : Scope} {vs : List Var} {solver : Solver} (breaks : solver.Breaks vs why) :
    solver.Poised K vs → why.IsOverflow := by
  induction breaks with
  | written chosen failed =>
    intro poised
    obtain ⟨rfl, _⟩ := poised.of_not_chosen chosen
    obtain ⟨t, written, _⟩ := poised.steady.toSubst? poised.quiet
    cases written.symm.trans failed
  | halved chosen failed =>
    intro poised
    obtain ⟨rfl, _, _, domain, left, right, halved, _⟩ := poised.of_chosen chosen
    rw [domain] at failed
    cases halved.symm.trans failed
  | @narrowed s s' u w left right half why chosen halved either failed =>
    intro poised
    obtain ⟨same, canonical, finite⟩ := poised.half chosen halved either
    rw [same] at failed
    exact (poised.narrow w canonical finite).overflow failed
  | deeper chosen halved either narrowed _ ih =>
    exact fun poised => ih (poised.of_narrowed chosen halved either narrowed)

theorem Subst.overflow_of_solves {P : Subst → Prop} {D : Subst → (Var → Term) → Prop} {E : (Var → Term) → Prop}
    {r : Attempt Subst} (h : Solves P D Fault.IsOverflow s E r) (stopped : r = .error (.stop why)) : why.IsOverflow := by
  rw [stopped] at h
  match why, h with
  | .fault f, overflow => exact overflow

/-- A goal that can be stated breaks on a substitution in order for an overflow only. -/
theorem Goal.Breaks.overflow (breaks : g.Breaks s why) (stated : g.Fair known) (good : s.Orderly (.ints known)) :
    why.IsOverflow := by
  have label {vs : List Var} (breaks : (Goal.label vs).Breaks s why) : why.IsOverflow := by
    cases breaks with
    | start failed => exact (good.starts fun v _ => Subst.integral_ints v).overflow failed
    | split started below => exact below.overflow (good.poised started)
  cases breaks with
  | eq failed => exact Subst.overflow_of_solves (good.unify stated.1 stated.2) failed
  | post failed =>
    have stamped := good.stamp stated fun v _ => Subst.integral_ints v
    exact Subst.overflow_of_solves
      (stamped.inAll.solveWith (fun _ _ => trivial) (List.forall_mem_singleton.mpr (.inr rfl))) failed
  | posted failed =>
    exact Subst.overflow_of_solves
      (good.inAll.solveWith (fun _ _ => trivial) (List.forall_mem_singleton.mpr stated)) failed
  | @narrow v d _ _ failed =>
    exact Subst.overflow_of_solves (good.inAll.solveReduced (fun _ _ => trivial) stated fun _ => Subst.integral_ints v) failed
  | start failed => exact label (.start failed)
  | split started below => exact label (.split started below)
  | labelAll _ labeled => exact label labeled

end ConstraintLogic
