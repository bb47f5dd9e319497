import ConstraintLogic.Proofs.Goal.Legibility
import ConstraintLogic.Proofs.Goal.Passes
import ConstraintLogic.Proofs.Unification.Safety

/-!
# Goals without overflows

Where the stored constraints are safe with the domains, and each constraint that a goal posts is
safe with the domains that there are when it is posted, nothing that the goal passes on comes to
an overflow: constraints stay safe while values are lost, while variables are bound and while
domains are split.

Results:
* `Goal.SafeFrom`: a goal posts safe constraints only.
* `Goal.SafeFrom.of_posts`: it does if they are safe with all values.
* `Goal.Yields.safe`, `Goal.Passes.safe`: what it leads to and what it passes on is safe.
* `Goal.Breaks.not_overflow`: it does not break for an overflow.
-/

namespace ConstraintLogic

/-! ## Labeling -/

namespace Solver

variable {K : Scope} {vs : List Var} {s₀ s : Solver} {t : Subst} {why : Stop}

/-- Exploring a half of a domain does not come to an overflow. -/
theorem Guarded.explore {w : Var} {half : Domain} (guarded : s₀.Guarded s) (canonical : half.Canonical) :
    (Narrow.Leaves s (do Narrow.reduce w half; Narrow.fixpoint) fun _ u => s₀.Guarded u) ∧
      ∀ why u, (do Narrow.reduce w half; Narrow.fixpoint : Narrow Unit) s = .error why u → ¬why.IsOverflow :=
  ((Narrow.spares_reduce w canonical).bind fun _ _ => Narrow.spares_fixpoint).of_guarded guarded

theorem Guarded.of_narrowed (guarded : s₀.Guarded s) (poised : s.Poised K vs) {s' u : Solver} {w : Var}
    {left right half : Domain} (chosen : s.choose vs = (some w, s')) (halved : (s'.domain w).1.bisect = .ok (left, right))
    (either : half = left ∨ half = right)
    (narrowed : (do Narrow.reduce w half; Narrow.fixpoint : Narrow Unit) (s'.domain w).2 = .ok () u) : s₀.Guarded u := by
  obtain ⟨same, canonical, _⟩ := poised.half chosen halved either
  rw [same] at narrowed
  exact (guarded.explore canonical).1 () u narrowed

/-- What is written back at the leaves of a tree of splits is safe. -/
theorem Leaf.safe (leaf : s.Leaf vs t) : s.Poised K vs → s₀.Guarded s → t.Safe := by
  induction leaf with
  | here chosen written =>
    intro poised guarded
    obtain ⟨rfl, _⟩ := poised.of_not_chosen chosen
    exact Subst.safe_of_toSubst? guarded poised.steady written
  | deeper chosen halved either narrowed _ ih =>
    exact fun poised guarded => ih (poised.of_narrowed chosen halved either narrowed)
      (guarded.of_narrowed poised chosen halved either narrowed)

/-- A tree of splits does not break for an overflow. -/
theorem Breaks.not_overflow (breaks : s.Breaks vs why) : s.Poised K vs → s₀.Guarded s → ¬why.IsOverflow := by
  induction breaks with
  | written chosen failed =>
    intro poised _
    obtain ⟨rfl, _⟩ := poised.of_not_chosen chosen
    obtain ⟨t, written, _⟩ := toSubst?_spec poised.steady
    cases written.symm.trans failed
  | halved chosen failed =>
    intro poised _
    obtain ⟨rfl, _, _, domain, left, right, halved, _⟩ := poised.of_chosen chosen
    rw [domain] at failed
    cases halved.symm.trans failed
  | @narrowed s s' u w left right half why chosen halved either failed =>
    intro poised guarded
    obtain ⟨same, canonical, _⟩ := poised.half chosen halved either
    rw [same] at failed
    exact (guarded.explore canonical).2 _ u failed
  | deeper chosen halved either narrowed _ ih =>
    exact fun poised guarded => ih (poised.of_narrowed chosen halved either narrowed)
      (guarded.of_narrowed poised chosen halved either narrowed)

theorem spares_requireNonempty : ∀ vs : List Var, Narrow.Spares s₀ (requireNonempty vs) fun _ => True
  | [] => fun _ guarded => ⟨guarded, trivial⟩
  | v :: vs => by
    refine Narrow.Spares.bind (m := do Narrow.require !(← Narrow.domain v).isEmpty) (Q := fun _ => True) ?_ fun _ _ =>
      spares_requireNonempty vs
    refine (Narrow.spares_domain v).bind fun d _ => ?_
    cases d.isEmpty with
    | true => exact fun _ _ => not_false
    | false => exact fun _ guarded => ⟨guarded, trivial⟩

end Solver

namespace Subst

variable {K : Scope} {s t : Subst}

/-- Labeling starts without an overflow. -/
theorem Orderly.guarded_of_start (h : s.Orderly K) (safe : s.Safe) (vs : List Var) :
    (Narrow.Leaves (Solver.new s) (do Solver.requireNonempty vs; modify Solver.wakeAll; Narrow.fixpoint)
      fun _ u => (Solver.new s).Guarded u) ∧
    ∀ why u, (do Solver.requireNonempty vs; modify Solver.wakeAll; Narrow.fixpoint : Narrow Unit) (Solver.new s) =
      .error why u → ¬why.IsOverflow := by
  have wakes : Narrow.Spares (Solver.new s) (modify Solver.wakeAll : Narrow Unit) fun _ => True :=
    Narrow.spares_modify fun u guarded => by
      obtain ⟨a, eq, _⟩ := u.wakeAll_eq
      rw [eq]
      exact guarded.grow (.of_props rfl rfl) (Solver.matched_of_eq rfl rfl rfl)
  exact ((Solver.spares_requireNonempty vs).bind fun _ _ => wakes.bind fun _ _ => Narrow.spares_fixpoint).of_guarded
    (h.guarded_new safe)

theorem safe_empty : Subst.empty.Safe := fun v p mem => by simp [storedWatchers] at mem

end Subst

/-! ## Goals -/

namespace Goal

variable {program : Program} {g h : Goal} {s t : Subst} {known : Propagator → Prop} {why : Stop}

/-- The stored constraints are safe from an overflow, and so is each constraint that the goal posts,
    with the domains that there are where it is posted. -/
structure SafeFrom (program : Program) (g : Goal) (s : Subst) : Prop where
  stored : s.Safe
  post : ∀ r t, Passes program (.post r) t g s → r.Safe fun v n => n ∈ t.leaves v
  posted : ∀ p t, Passes program (.posted p) t g s → p.val.Safe fun v n => n ∈ t.leaves v

theorem SafeFrom.part (safe : g.SafeFrom program s) (passes : Passes program h t g s) (stored : t.Safe) :
    h.SafeFrom program t where
  stored := stored
  post r u inner := safe.post r u (inner.trans passes)
  posted p u inner := safe.posted p u (inner.trans passes)

/-- A goal that posts relations of a kind only passes on such goals. -/
theorem Passes.posts {W : Relation → Prop} (all : program.Posts W) (passes : Passes program h t g s) : g.Posts W → h.Posts W := by
  induction passes with
  | here => exact fun posts => posts
  | conjLeft _ ih => exact fun posts => ih posts.1
  | conjRight _ _ ih => exact fun posts => ih posts.2
  | disjLeft _ ih => exact fun posts => ih posts.1
  | disjRight _ ih => exact fun posts => ih posts.2
  | suspend _ ih => exact fun posts => ih posts
  | fresh _ ih => exact fun posts => ih (posts _)
  | call _ ih => exact fun _ => ih (RelName.posts_body all _ _)
  | not _ ih => exact fun posts => ih posts
  | ifteCond _ ih => exact fun posts => ih posts.1
  | ifteYes _ _ ih => exact fun posts => ih posts.2.1
  | ifteNo _ ih => exact fun posts => ih posts.2.2
  | once _ ih => exact fun posts => ih posts
  | parLeft _ ih => exact fun posts => ih posts.1
  | parRight _ ih => exact fun posts => ih posts.2
  | reserve _ ih => exact fun posts => ih (posts _)

/-- Constraints that are safe with all values are safe wherever they are posted. -/
theorem SafeFrom.of_posts (all : program.Posts (Relation.Safe fun _ _ => True)) (posts : g.Posts (Relation.Safe fun _ _ => True))
    (stored : s.Safe) : g.SafeFrom program s where
  stored := stored
  post _ _ passes := Relation.Safe.mono (passes.posts all posts) fun _ _ _ => trivial
  posted _ _ passes := Relation.Safe.mono (passes.posts all posts) fun _ _ _ => trivial

section Attempts

variable {a b : Term} {r : Relation} {p : Propagator} {v : Var} {d : Domain}

theorem SafeFrom.spared_eq (safe : (Goal.eq a b).SafeFrom program s) (stated : (Goal.eq a b).Fair known)
    (good : s.Orderly (.ints known)) : Subst.Spared (s.unify a b) :=
  good.spared_unify safe.stored stated.1 stated.2

theorem SafeFrom.spared_post (safe : (Goal.post r).SafeFrom program s) (stated : (Goal.post r).Fair known)
    (good : s.Orderly (.ints known)) : Subst.Spared ((s.stamped r).2.solveWith [(s.stamped r).1]) := by
  have stamped := good.stamp stated fun v _ => Subst.integral_ints v
  refine stamped.spared_solveWith (safe.stored.congr rfl rfl) (List.forall_mem_singleton.mpr (.inr rfl))
    (List.forall_mem_singleton.mpr ?_)
  have same : (s.stamped r).2.leaves = s.leaves := funext fun _ => Subst.leaves_congr rfl rfl
  rw [same]
  exact safe.post r s .here

theorem SafeFrom.spared_posted (safe : (Goal.posted p).SafeFrom program s) (stated : (Goal.posted p).Fair known)
    (good : s.Orderly (.ints known)) : Subst.Spared (s.solveWith [p]) :=
  good.spared_solveWith safe.stored (List.forall_mem_singleton.mpr stated)
    (List.forall_mem_singleton.mpr (safe.posted p s .here))

theorem SafeFrom.spared_narrow (safe : (Goal.narrow v d).SafeFrom program s) (stated : (Goal.narrow v d).Fair known)
    (good : s.Orderly (.ints known)) : Subst.Spared (s.solveReduced v d) :=
  good.spared_solveReduced stated (fun _ => Subst.integral_ints v) safe.stored fun _ _ mem _ => mem

end Attempts

/-- Where a goal posts safe constraints only, what it yields is safe. -/
theorem Yields.safe (fair : program.Fair) (yields : g.Yields program s t) :
    ∀ {known}, g.Fair known → s.Orderly (.ints known) → g.SafeFrom program s → t.Safe := by
  induction yields with
  | succeed => exact fun _ _ safe => safe.stored
  | eq unified => exact fun stated good safe => (safe.spared_eq stated good).safe unified
  | conj first _ ih ih' =>
    intro known stated good safe
    have stored := ih stated.1 good (safe.part (.conjLeft .here) safe.stored)
    exact ih' stated.2 (first.orderly fair stated.1 good) (safe.part (.conjRight first .here) stored)
  | disjLeft _ ih => exact fun stated good safe => ih stated.1 good (safe.part (.disjLeft .here) safe.stored)
  | disjRight _ ih => exact fun stated good safe => ih stated.2 good (safe.part (.disjRight .here) safe.stored)
  | suspend _ ih => exact fun stated good safe => ih stated good (safe.part (.suspend .here) safe.stored)
  | fresh _ ih =>
    exact fun stated good safe => ih (stated _) (good.congr rfl rfl (Nat.le_refl _))
      (safe.part (.fresh .here) (safe.stored.congr rfl rfl))
  | call _ ih =>
    exact fun stated good safe => ih ((RelName.fair_body fair _ stated).mono fun _ => False.elim) good
      (safe.part (.call .here) safe.stored)
  | not => exact fun _ _ safe => safe.stored
  | ifteYes found _ ih ih' =>
    intro known stated good safe
    have stored := ih stated.1 good (safe.part (.ifteCond .here) safe.stored)
    exact ih' stated.2.1 (found.orderly fair stated.1 good) (safe.part (.ifteYes found .here) stored)
  | ifteNo _ ih => exact fun stated good safe => ih stated.2.2 good (safe.part (.ifteNo .here) safe.stored)
  | once _ ih => exact fun stated good safe => ih stated good (safe.part (.once .here) safe.stored)
  | parLeft _ ih => exact fun stated good safe => ih stated.1 good (safe.part (.parLeft .here) safe.stored)
  | parRight _ ih => exact fun stated good safe => ih stated.2 good (safe.part (.parRight .here) safe.stored)
  | always => exact fun _ _ safe => safe.stored
  | post solved => exact fun stated good safe => (safe.spared_post stated good).safe solved
  | posted solved => exact fun stated good safe => (safe.spared_posted stated good).safe solved
  | narrow solved => exact fun stated good safe => (safe.spared_narrow stated good).safe solved
  | label started leaf =>
    exact fun _ good safe => leaf.safe (good.poised started) ((good.guarded_of_start safe.stored _).1 _ _ started)
  | unlabeled _ => exact fun _ _ safe => safe.stored
  | labelAll _ ih => exact fun _ good safe => ih trivial good ⟨safe.stored, nofun, nofun⟩
  | reserve _ ih =>
    intro known stated good safe
    obtain ⟨own, ranges, coherent, holds⟩ := stated _
    exact ih holds (good.reserve ranges coherent) (safe.part (.reserve .here) (safe.stored.congr rfl rfl))

/-- Where a goal posts safe constraints only, so does what it passes on. -/
theorem Passes.safe (fair : program.Fair) (passes : Passes program h t g s) :
    ∀ {known}, g.Fair known → s.Orderly (.ints known) → g.SafeFrom program s → h.SafeFrom program t := by
  induction passes with
  | here => exact fun _ _ safe => safe
  | conjLeft _ ih => exact fun stated good safe => ih stated.1 good (safe.part (.conjLeft .here) safe.stored)
  | conjRight first _ ih =>
    intro known stated good safe
    have stored := first.safe fair stated.1 good (safe.part (.conjLeft .here) safe.stored)
    exact ih stated.2 (first.orderly fair stated.1 good) (safe.part (.conjRight first .here) stored)
  | disjLeft _ ih => exact fun stated good safe => ih stated.1 good (safe.part (.disjLeft .here) safe.stored)
  | disjRight _ ih => exact fun stated good safe => ih stated.2 good (safe.part (.disjRight .here) safe.stored)
  | suspend _ ih => exact fun stated good safe => ih stated good (safe.part (.suspend .here) safe.stored)
  | fresh _ ih =>
    exact fun stated good safe => ih (stated _) (good.congr rfl rfl (Nat.le_refl _))
      (safe.part (.fresh .here) (safe.stored.congr rfl rfl))
  | call _ ih =>
    exact fun stated good safe => ih ((RelName.fair_body fair _ stated).mono fun _ => False.elim) good
      (safe.part (.call .here) safe.stored)
  | not _ ih => exact fun stated good safe => ih stated good (safe.part (.not .here) safe.stored)
  | ifteCond _ ih => exact fun stated good safe => ih stated.1 good (safe.part (.ifteCond .here) safe.stored)
  | ifteYes found _ ih =>
    intro known stated good safe
    have stored := found.safe fair stated.1 good (safe.part (.ifteCond .here) safe.stored)
    exact ih stated.2.1 (found.orderly fair stated.1 good) (safe.part (.ifteYes found .here) stored)
  | ifteNo _ ih => exact fun stated good safe => ih stated.2.2 good (safe.part (.ifteNo .here) safe.stored)
  | once _ ih => exact fun stated good safe => ih stated good (safe.part (.once .here) safe.stored)
  | parLeft _ ih => exact fun stated good safe => ih stated.1 good (safe.part (.parLeft .here) safe.stored)
  | parRight _ ih => exact fun stated good safe => ih stated.2 good (safe.part (.parRight .here) safe.stored)
  | reserve _ ih =>
    intro known stated good safe
    obtain ⟨own, ranges, coherent, holds⟩ := stated _
    exact ih holds (good.reserve ranges coherent) (safe.part (.reserve .here) (safe.stored.congr rfl rfl))

/-- A goal that posts safe constraints only does not break for an overflow. -/
theorem Breaks.not_overflow (breaks : g.Breaks s why) (stated : g.Fair known) (good : s.Orderly (.ints known))
    (safe : g.SafeFrom program s) : ¬why.IsOverflow := by
  have label {vs : List Var} (breaks : (Goal.label vs).Breaks s why) : ¬why.IsOverflow := by
    have start := good.guarded_of_start safe.stored vs
    cases breaks with
    | start failed => exact start.2 _ _ failed
    | split started below => exact below.not_overflow (good.poised started) (start.1 _ _ started)
  cases breaks with
  | eq failed => exact (safe.spared_eq stated good).not_overflow failed
  | post failed => exact (safe.spared_post stated good).not_overflow failed
  | posted failed => exact (safe.spared_posted stated good).not_overflow failed
  | narrow failed => exact (safe.spared_narrow stated good).not_overflow failed
  | start failed => exact label (.start failed)
  | split started below => exact label (.split started below)
  | labelAll _ labeled => exact label labeled

end Goal

end ConstraintLogic
