import ConstraintLogic.Goal.FiniteDomain
import ConstraintLogic.Proofs.Goal.Passes
import ConstraintLogic.Proofs.Search.Allowance
import ConstraintLogic.Proofs.Search.Plain

/-!
# Why a search stops

When a search stops, something is to blame: a part of the goal that broke on a substitution
that the search applied it to, the allowance of an operator that looks at the answers of
another goal, or a branch that was lost because its job came to a fault, for which in turn
something is to blame. Of a goal that can be stated, on a substitution in order, a part breaks
for an overflow only; and without operators that look ahead nothing else stops the search.

Results:
* `Goal.Faults`, `Goal.Blamed`: what is to blame when a job or a search ends early.
* `Goal.blamed_of_stopsOut`: a search stops only where something is to blame.
* `Goal.passes_of_applies`, `Goal.AppliesAtOnce.passes`: a search applies goals to what is passed on
  to them.
* `Goal.Plain.overflow_of_stopsOut`: why a search for a plain goal stops.
* `exists_overflow_stop`: a sum and a difference at the edges of 64 bits do stop it.
-/

namespace ConstraintLogic

open Series

/-! ## What is to blame -/

variable {program : Program} {n : Nat} {looks : Prop} {root g h : Goal} {start s t : Subst} {P : Subst → Prop} {why : Stop}

/-- The job of a branch for the goal comes to a fault: a part of the goal has broken, or a branch
    inside of it is lost that has come to a fault in turn. -/
inductive Goal.Faults (program : Program) (n : Nat) : Goal → Subst → Prop
  | broken {g h : Goal} {s t : Subst} {f : Fault}
      (failed : g.apply (program.context n) s >>= (program.context n).forceReady = .error (.fault f))
      (passes : Goal.Passes program h t g s) (breaks : h.Breaks t (.fault f)) : Faults program n g s
  | lost {workers : Nat} {g h h' : Goal} {s t : Subst}
      (failed : g.apply (program.context n) s >>= (program.context n).forceReady = .error (.fault .lostBranch))
      (passes : Goal.Passes program (.par workers h h') t g s) (inner : Faults program n h' t) : Faults program n g s

/-- What is to blame when a search for the goal stops: the allowance for looking ahead, a part of
    the goal that broke, or a branch whose job came to a fault. -/
def Goal.Blamed (program : Program) (n : Nat) (looks : Prop) (g : Goal) (s : Subst) (why : Stop) : Prop :=
  looks ∧ why = .exhausted ∨ (∃ h t, Goal.Passes program h t g s ∧ h.Breaks t why) ∨
    looks ∧ why = .fault .lostBranch ∧
      ∃ workers h h' t, Goal.Passes program (.par workers h h') t g s ∧ h'.Faults program n t

/-- The promise of a search for the goal `root` from `start`: goals are applied to what is passed
    on to them, and for whatever stops it something is to blame. Without `looks` there are no
    operators that look ahead and no branches. -/
def blamePromise (program : Program) (n : Nat) (looks : Prop) (root : Goal) (start : Subst) : Promise Task Goal Subst where
  waits := looks
  task k P := (∀ t, k.Yields program t → P t) ∧
    match k with
    | .apply g s => (looks ∨ g.Plain) ∧ Goal.Passes program g s root start
    | .branch h t => looks ∧ ∃ workers g, Goal.Passes program (.par workers g h) t root start
    | .explore solver w half vs => ∀ why,
      (∃ u, (do Narrow.reduce w half; Narrow.fixpoint : Narrow Unit) solver = .error (.stop why) u ∨
        (do Narrow.reduce w half; Narrow.fixpoint : Narrow Unit) solver = .ok () u ∧ u.Breaks vs why) →
      ∃ h t, Goal.Passes program h t root start ∧ h.Breaks t why
  step g Q P := (looks ∨ g.Plain) ∧
    ∀ s, Q s → Goal.Passes program g s root start ∧ ∀ t, g.Yields program s t → P t
  stops := root.Blamed program n looks start

/-- Forcing in the context keeps the promise. -/
structure Context.Honest (p : Promise Task Goal Subst) (c : Context) : Prop where
  ready : p.waits → ∀ (P : Subst → Prop) answers, Series.Honors p P answers → p.HonoredBy P (c.forceReady answers)
  deep : p.waits → ∀ (P : Subst → Prop) answers, Series.Honors p P answers → p.HonoredBy P (c.forceDeep answers)

section Labels

variable {solver : Solver} {vs : List Var}

/-- For whatever stops a tree of splits a goal is to blame, if it is for what breaks the tree. -/
theorem Solver.blamed_search (good : ∀ t, solver.Leaf vs t → P t)
    (broken : ∀ why, solver.Breaks vs why → ∃ h t, Goal.Passes program h t root start ∧ h.Breaks t why) :
    (blamePromise program n looks root start).HonoredBy P (solver.search vs) := by
  unfold Solver.search
  split
  · rename_i s' chosen
    exact honoredBy_ofAttempt (fun t written => good t (.here chosen written)) fun why failed =>
      .inr (.inl (broken why (.written chosen failed)))
  · rename_i w s' chosen
    dsimp only
    split
    · rename_i f failed
      exact .inr (.inl (broken (.fault f) (.halved chosen failed)))
    · rename_i left right halved
      have half {d : Domain} (either : d = left ∨ d = right) : Series.Honors (blamePromise program n looks root start) P
          (.suspend (.start (.explore (s'.domain w).2 w d vs))) := by
        refine ⟨fun t yields => ?_, fun why => ?_⟩
        · obtain ⟨u, narrowed, leaf⟩ := yields
          exact good t (.deeper chosen halved either narrowed leaf)
        · rintro ⟨u, failed | ⟨narrowed, below⟩⟩
          · exact broken why (.narrowed chosen halved either failed)
          · exact broken why (.deeper chosen halved either narrowed below)
      exact (half (.inl rfl)).append (half (.inr rfl))

theorem Solver.blamed_explore {w : Var} {half : Domain}
    (promised : (blamePromise program n looks root start).task (.explore solver w half vs) P) :
    (blamePromise program n looks root start).HonoredBy P (solver.explore w half vs) := by
  obtain ⟨good, broken⟩ := promised
  rw [explore_eq]
  split
  · rename_i u narrowed
    exact blamed_search (fun t leaf => good t ⟨u, narrowed, leaf⟩) fun why below => broken why ⟨u, .inr ⟨narrowed, below⟩⟩
  · trivial
  · rename_i why u failed
    exact .inr (.inl (broken why ⟨u, .inl failed⟩))

theorem Subst.blamed_label (good : ∀ t, (Goal.label vs).Yields program s t → P t)
    (broken : ∀ why, (Goal.label vs).Breaks s why → ∃ h t, Goal.Passes program h t root start ∧ h.Breaks t why) :
    (blamePromise program n looks root start).HonoredBy P (s.label vs) := by
  rw [label_eq]
  split
  · rename_i solver started
    exact Solver.blamed_search (fun t leaf => good t (.label started leaf)) fun why below =>
      broken why (.split started below)
  · trivial
  · rename_i why u failed
    exact .inr (.inl (broken why (.start failed)))

theorem Subst.blamed_labelAll (passes : Goal.Passes program .labelAll s root start)
    (good : ∀ t, Goal.labelAll.Yields program s t → P t) :
    (blamePromise program n looks root start).HonoredBy P s.labelAll := by
  unfold labelAll
  split
  · rename_i none_finite
    exact ⟨good s (.unlabeled (List.isEmpty_iff.mp none_finite)), trivial⟩
  · rename_i some_finite
    have finite : s.finiteVars ≠ [] := fun none => some_finite (List.isEmpty_iff.mpr none)
    exact blamed_label (fun t labeled => good t (.labelAll labeled)) fun why labeled =>
      ⟨_, s, passes, .labelAll finite labeled⟩

end Labels

section Apply

variable {c : Context} (same : c.program = program) (plain : looks ∨ program.Plain)

include same plain

/-- For whatever stops a goal that is passed on something is to blame, and it leads to what it yields. -/
theorem Goal.blamed_apply (honest : c.Honest (blamePromise program n looks root start)) {g : Goal} :
    ∀ {s : Subst} {P : Subst → Prop}, looks ∨ g.Plain → Goal.Passes program g s root start →
      (∀ t, g.Yields program s t → P t) → (blamePromise program n looks root start).HonoredBy P (g.apply c s) := by
  have sub {g h : Goal} (whole : looks ∨ h.Plain) (part : h.Plain → g.Plain) : looks ∨ g.Plain := whole.imp_right part
  have attempt {P : Subst → Prop} {g : Goal} {s : Subst} {r : Attempt Subst} (passes : Goal.Passes program g s root start)
      (good : ∀ t, r = .ok t → P t) (breaks : ∀ why, r = .error (.stop why) → g.Breaks s why) :
      (blamePromise program n looks root start).HonoredBy P (Answers.ofAttempt r) :=
    honoredBy_ofAttempt good fun why failed => .inr (.inl ⟨g, s, passes, breaks why failed⟩)
  induction g with
  | succeed => exact fun _ _ good => ⟨good _ .succeed, trivial⟩
  | fail => exact fun _ _ _ => trivial
  | eq a b => exact fun _ passes good => attempt passes (fun t unified => good t (.eq unified)) fun why failed => .eq failed
  | conj g h ihg ihh =>
    intro s P plain_gh passes good
    refine (ihg (P := fun t => g.Yields program s t) (sub plain_gh And.left) (.trans (.conjLeft .here) passes)
      fun _ yields => yields).bind fun found honors => ?_
    have second (m : Subst) (first : g.Yields program s m) : Goal.Passes program h m root start :=
      .trans (.conjRight first .here) passes
    have both (m : Subst) (first : g.Yields program s m) (t : Subst) (yields : h.Yields program m t) : P t :=
      good t (.conj first yields)
    refine honors.bindWith (fun m first => ihh (sub plain_gh And.right) (second m first) (both m first)) ?_
    exact ⟨sub plain_gh And.right, fun m first => ⟨second m first, both m first⟩⟩
  | disj g h ihg ihh =>
    intro s P plain_gh passes good
    refine (ihg (sub plain_gh And.left) (.trans (.disjLeft .here) passes) fun t yields => good t (.disjLeft yields)).bind
      fun left honors => ?_
    refine (ihh (sub plain_gh And.right) (.trans (.disjRight .here) passes) fun t yields => good t (.disjRight yields)).bind
      fun right honors' => ?_
    exact honors.append honors'
  | suspend g _ =>
    exact fun plain_g passes good =>
      ⟨fun t yields => good t (.suspend yields), plain_g, .trans (.suspend .here) passes⟩
  | fresh k body ih =>
    exact fun plain_b passes good =>
      ih _ (sub plain_b fun all => all _) (.trans (.fresh .here) passes) fun t yields => good t (.fresh yields)
  | call r args =>
    intro s P _ passes good
    rw [apply, same]
    exact ⟨fun t yields => good t (.call yields), plain.imp_right fun plain => r.plain_body plain args,
      .trans (.call .here) passes⟩
  | not g ih =>
    intro s P plain_g passes good
    have looking : looks := plain_g.resolve_right id
    refine (ih (P := fun _ => True) (.inl looking) (.trans (.not .here) passes) fun _ _ => trivial).bind fun found honors => ?_
    refine (honest.deep looking _ found honors).bind fun forced _ => ?_
    split
    · exact ⟨good s .not, trivial⟩
    · trivial
  | ifte cond yes no ihc ihy ihn =>
    intro s P plain_g passes good
    have looking : looks := plain_g.resolve_right id
    refine (ihc (P := fun t => cond.Yields program s t) (.inl looking) (.trans (.ifteCond .here) passes)
      fun _ yields => yields).bind fun found honors => ?_
    have holds (m : Subst) (first : cond.Yields program s m) : Goal.Passes program yes m root start :=
      .trans (.ifteYes first .here) passes
    have both (m : Subst) (first : cond.Yields program s m) (t : Subst) (yields : yes.Yields program m t) : P t :=
      good t (.ifteYes first yields)
    refine (honest.deep looking _ found honors).bind fun forced honors' => ?_
    split
    · exact ihn (.inl looking) (.trans (.ifteNo .here) passes) fun t yields => good t (.ifteNo yields)
    · refine Series.Honors.bindWith (fun m first => ihy (.inl looking) (holds m first) (both m first)) ?_ honors'
      exact ⟨.inl looking, fun m first => ⟨holds m first, both m first⟩⟩
  | once g ih =>
    intro s P plain_g passes good
    have looking : looks := plain_g.resolve_right id
    refine (ih (.inl looking) (.trans (.once .here) passes) fun t yields => good t (.once yields)).bind fun found honors => ?_
    refine (honest.deep looking P found honors).bind fun forced honors' => ?_
    split
    · exact ⟨honors'.1, trivial⟩
    · trivial
  | par workers g h ihg ihh =>
    intro s P plain_gh passes good
    have looking : looks := plain_gh.resolve_right id
    have right (t : Subst) (yields : h.Yields program s t) : P t := good t (.parRight yields)
    have elsewhere : Series.Honors (blamePromise program n looks root start) P (.pending (.start (.branch h s))) :=
      ⟨looking, right, looking, workers, g, passes⟩
    have with_branch {branch : Work Task Goal Subst}
        (honors' : Series.Honors (blamePromise program n looks root start) P (.pending branch)) :=
      (ihg (.inl looking) (.trans (.parLeft .here) passes) fun t yields => good t (.parLeft yields)).bind fun left honors =>
        show (blamePromise program n looks root start).HonoredBy P (.ok (left.append (.pending branch))) from
          honors.append honors'
    rw [apply]
    split
    · exact with_branch elsewhere
    · have found := (ihh (.inl looking) (.trans (.parRight .here) passes) right).bind (honest.ready looking P)
      cases run : h.apply c s >>= c.forceReady with
      | ok ready =>
        rw [run] at found
        exact with_branch ⟨looking, found⟩
      | error why =>
        cases why with
        | fault f => exact with_branch elsewhere
        | exhausted => exact .inl ⟨looking, rfl⟩
  | never => exact fun _ passes good => ⟨good, .inr trivial, passes⟩
  | always => exact fun _ passes good => ⟨good _ .always, good, .inr trivial, passes⟩
  | post r =>
    exact fun _ passes good => attempt passes (fun t solved => good t (.post solved)) fun why failed => .post failed
  | posted p =>
    exact fun _ passes good => attempt passes (fun t solved => good t (.posted solved)) fun why failed => .posted failed
  | narrow v d =>
    exact fun _ passes good => attempt passes (fun t solved => good t (.narrow solved)) fun why failed => .narrow failed
  | label vs => exact fun _ passes good => Subst.blamed_label good fun why breaks => ⟨_, _, passes, breaks⟩
  | labelAll => exact fun _ passes good => Subst.blamed_labelAll passes good
  | reserve k body ih =>
    exact fun plain_b passes good =>
      ih _ (sub plain_b fun all => all _) (.trans (.reserve .here) passes) fun t yields => good t (.reserve yields)

/-- For a branch that is lost the fault of its job is to blame. -/
theorem Context.keeps_blame (honest : ∀ root start, c.Honest (blamePromise program n looks root start))
    (continues : c.Continues (program.context n)) (root : Goal) (start : Subst) :
    c.interp.Keeps (blamePromise program n looks root start) where
  task := by
    rintro (⟨g, s⟩ | ⟨h, t⟩ | ⟨solver, v, half, vs⟩) P promised
    · obtain ⟨good, plain_g, passes⟩ := promised
      exact Goal.blamed_apply same plain (honest root start) plain_g passes good
    · obtain ⟨good, looking, workers, g, passes⟩ := promised
      have found := (Goal.blamed_apply same plain (honest root start) (.inl looking) (.trans (.parRight .here) passes) good).bind
        ((honest root start).ready looking P)
      have job := (Goal.blamed_apply same plain (honest h t) (P := fun _ => True) (.inl looking) .here fun _ _ => trivial).bind
        ((honest h t).ready looking _)
      have later := (h.continues_apply continues t).bind continues.ready
      show (blamePromise program n looks root start).HonoredBy P (c.branch h t)
      unfold Context.branch
      split
      · rename_i f failed
        rw [failed] at job
        refine .inr (.inr ⟨looking, rfl, workers, g, h, t, passes, ?_⟩)
        obtain ⟨_, out⟩ | ⟨h', t', inner, breaks⟩ | ⟨_, lost, workers', g', h', t', inner, faults⟩ := job
        · cases out
        · exact .broken (later.fault failed) inner breaks
        · cases lost
          exact .lost (later.fault failed) inner faults
      · exact found
    · exact Solver.blamed_explore promised
  step g Q P s made holds := by
    obtain ⟨plain_g, each⟩ := made
    obtain ⟨passes, good⟩ := each s holds
    exact Goal.blamed_apply same plain (honest root start) plain_g passes good

end Apply

/-- Looking ahead within a smaller allowance keeps the promise. -/
theorem Program.honest_blame (plain : looks ∨ program.Plain) (m : Nat) :
    m ≤ n → ∀ root start, (program.context m).Honest (blamePromise program n looks root start) := by
  induction m with
  | zero => exact fun _ root start => ⟨fun looking _ _ _ => .inl ⟨looking, rfl⟩, fun looking _ _ _ => .inl ⟨looking, rfl⟩⟩
  | succ m ih =>
    intro le root start
    have keeps := Context.keeps_blame (program.program_context m) plain (ih (Nat.le_of_succ_le le))
      (program.continues_context (Nat.le_of_succ_le le)) root start
    refine ⟨fun looking P answers honors => ?_, fun looking P answers honors => ?_⟩
    · exact honors.forceReady keeps (.inl ⟨looking, rfl⟩) m
    · exact honors.forceDeep keeps (.inl ⟨looking, rfl⟩) m

section Searches

variable (plain : looks ∨ program.Plain) (plain_g : looks ∨ g.Plain)

include plain plain_g

/-- A search, and each search that looks ahead for it, keeps the promise for the goal. -/
theorem Goal.blamed (s : Subst) (n : Nat) :
    (∀ m, m ≤ n → (program.context m).interp.Keeps (blamePromise program n looks g s)) ∧
      (blamePromise program n looks g s).HonoredBy (g.Yields program s) (g.apply (program.context n) s) := by
  have honest (m : Nat) (le : m ≤ n) := program.honest_blame plain m le
  refine ⟨fun m le => ?_, ?_⟩
  · exact Context.keeps_blame (program.program_context m) plain (honest m le) (program.continues_context le) g s
  · exact Goal.blamed_apply (program.program_context n) plain (honest n (Nat.le_refl n) g s) plain_g .here
      fun _ yields => yields

/-- A search stops only where something is to blame. -/
theorem Goal.blamed_of_stopsOut
    (stopped : StopsOut (program.context n).interp (g.apply (program.context n) s) why) :
    g.Blamed program n looks s why := by
  obtain ⟨keeps, honored⟩ := Goal.blamed plain plain_g s n
  exact stopped.allowed (keeps n (Nat.le_refl n)) honored

end Searches

/-- Nothing but an overflow stops a search for a plain goal that can be stated, from a substitution
    in order. -/
theorem Goal.Plain.overflow_of_stopsOut {known : Propagator → Prop} (plain : program.Plain) (plain_g : g.Plain)
    (fair : program.Fair) (stated : g.Fair known) (good : s.Orderly (.ints known))
    (stopped : StopsOut (program.context n).interp (g.apply (program.context n) s) why) : why.IsOverflow := by
  have blamed := Goal.blamed_of_stopsOut (.inr plain : False ∨ program.Plain) (.inr plain_g) stopped
  obtain ⟨looking, _⟩ | ⟨h, t, passes, breaks⟩ | ⟨looking, _⟩ := blamed
  · exact looking.elim
  · obtain ⟨more, stated', good'⟩ := passes.orderly fair stated good
    exact breaks.overflow stated' good'
  · exact looking.elim

/-! ## What a search applies goals to -/

/-- Applying a goal to a substitution applies the goal `h` to `t` at once, without putting it off, if
    it gets so far. -/
inductive Goal.AppliesAtOnce (c : Context) (h : Goal) (t : Subst) : Goal → Subst → Prop
  | here : AppliesAtOnce c h t h t
  | conjLeft {g g' : Goal} {s : Subst} (part : AppliesAtOnce c h t g s) : AppliesAtOnce c h t (.conj g g') s
  | conjRight {g g' : Goal} {s m : Subst} {rest : Answers} (first : g.apply c s = .ok (.cons m rest))
      (part : AppliesAtOnce c h t g' m) : AppliesAtOnce c h t (.conj g g') s
  | disjLeft {g g' : Goal} {s : Subst} (part : AppliesAtOnce c h t g s) : AppliesAtOnce c h t (.disj g g') s
  | disjRight {g g' : Goal} {s : Subst} (part : AppliesAtOnce c h t g' s) : AppliesAtOnce c h t (.disj g g') s
  | fresh {n : Nat} {body : List Var → Goal} {s : Subst}
      (part : AppliesAtOnce c h t (body (s.freshMany n).1) (s.freshMany n).2) : AppliesAtOnce c h t (.fresh n body) s
  | not {g : Goal} {s : Subst} (part : AppliesAtOnce c h t g s) : AppliesAtOnce c h t (.not g) s
  | ifteCond {cond yes no : Goal} {s : Subst} (part : AppliesAtOnce c h t cond s) :
      AppliesAtOnce c h t (.ifte cond yes no) s
  | ifteYes {cond yes no : Goal} {s m : Subst} {rest : Answers}
      (found : cond.apply c s >>= c.forceDeep = .ok (.cons m rest)) (part : AppliesAtOnce c h t yes m) :
      AppliesAtOnce c h t (.ifte cond yes no) s
  | ifteNo {cond yes no : Goal} {s : Subst} (part : AppliesAtOnce c h t no s) : AppliesAtOnce c h t (.ifte cond yes no) s
  | once {g : Goal} {s : Subst} (part : AppliesAtOnce c h t g s) : AppliesAtOnce c h t (.once g) s
  | parLeft {workers : Nat} {g g' : Goal} {s : Subst} (part : AppliesAtOnce c h t g s) :
      AppliesAtOnce c h t (.par workers g g') s
  | parRight {g g' : Goal} {s : Subst} (part : AppliesAtOnce c h t g' s) : AppliesAtOnce c h t (.par 0 g g') s
  | reserve {n : Nat} {body : Nat → Goal} {s : Subst}
      (part : AppliesAtOnce c h t (body s.supply) { s with supply := s.supply + n }) :
      AppliesAtOnce c h t (.reserve n body) s

/-- Whatever a goal is applied to at once is passed on to it. -/
theorem Goal.AppliesAtOnce.passes (applies : Goal.AppliesAtOnce (program.context n) h t g s) : Goal.Passes program h t g s := by
  have within := program.within_context n
  have yields {g : Goal} {s m : Subst} {rest : Answers} (run : g.apply (program.context n) s = .ok rest)
      (leads : rest.Leads (program.context n).program m) : g.Yields program s m := by
    rw [← program.program_context n]
    exact Goal.yields_of_apply within g run leads
  induction applies with
  | here => exact .here
  | conjLeft _ ih => exact .conjLeft ih
  | conjRight first _ ih => exact .conjRight (yields first (.inl rfl)) ih
  | disjLeft _ ih => exact .disjLeft ih
  | disjRight _ ih => exact .disjRight ih
  | fresh _ ih => exact .fresh ih
  | not _ ih => exact .not ih
  | ifteCond _ ih => exact .ifteCond ih
  | @ifteYes cond yes no s m rest found _ ih =>
    obtain ⟨answers, applied, forced⟩ := exists_of_bind_ok found
    exact .ifteYes (yields applied (within.deep answers _ m forced (.inl rfl))) ih
  | ifteNo _ ih => exact .ifteNo ih
  | once _ ih => exact .once ih
  | parLeft _ ih => exact .parLeft ih
  | parRight _ ih => exact .parRight ih
  | reserve _ ih => exact .reserve ih

/-- Doing the work applies the goal to the substitution: the goal was put off or is that of a branch,
    or it is applied to the first of the answers that the work comes to. -/
def Work.Applies (I : Interp Task Goal Subst) (h : Goal) (t : Subst) : Work Task Goal Subst → Prop
  | .done _ => False
  | .start k => k = .apply h t ∨ k = .branch h t
  | .thenAppend w _ => w.Applies I h t
  | .ontoAppend _ w => w.Applies I h t
  | .thenBind w f => w.Applies I h t ∨ f = h ∧ ∃ rest, w.run I = .ok (.cons t rest)

/-- Reading the series applies the goal to the substitution. -/
inductive Answers.Applies (I : Interp Task Goal Subst) (h : Goal) (t : Subst) : Answers → Prop
  | forced {w : Work Task Goal Subst} (work : w.Applies I h t) : Applies I h t (.suspend w)
  | awaited {w : Work Task Goal Subst} (work : w.Applies I h t) : Applies I h t (.pending w)
  | behind {a : Subst} {rest : Answers} (later : Applies I h t rest) : Applies I h t (.cons a rest)
  | afterForced {w : Work Task Goal Subst} {answers : Answers} (run : w.run I = .ok answers)
      (later : Applies I h t answers) : Applies I h t (.suspend w)
  | afterAwaited {w : Work Task Goal Subst} {answers : Answers} (run : w.run I = .ok answers)
      (later : Applies I h t answers) : Applies I h t (.pending w)

theorem Work.passes_of_applies {I : Interp Task Goal Subst} (keeps : I.Keeps (blamePromise program n looks root start)) :
    ∀ {w : Work Task Goal Subst} {P : Subst → Prop}, w.Applies I h t → w.Honors (blamePromise program n looks root start) P →
      Goal.Passes program h t root start
  | .start _, _, .inl rfl, ⟨_, _, passes⟩ => passes
  | .start _, _, .inr rfl, ⟨_, _, _, _, passes⟩ => .trans (.parRight .here) passes
  | .thenAppend w _, _, applies, honors => Work.passes_of_applies (w := w) keeps applies honors.1
  | .ontoAppend _ w, _, applies, honors => Work.passes_of_applies (w := w) keeps applies honors.2
  | .thenBind _ _, _, .inl applies, ⟨_, honors, _⟩ => Work.passes_of_applies keeps applies honors
  | .thenBind _ _, _, .inr ⟨rfl, _, run⟩, ⟨_, honors, _, each⟩ => (each t (Work.honors_of_run keeps honors run).1).1

theorem Answers.passes_of_applies {I : Interp Task Goal Subst} (keeps : I.Keeps (blamePromise program n looks root start))
    {answers : Answers} (applies : answers.Applies I h t) :
    ∀ {P : Subst → Prop}, Series.Honors (blamePromise program n looks root start) P answers →
      Goal.Passes program h t root start := by
  induction applies with
  | forced work => exact fun honors => Work.passes_of_applies keeps work honors
  | awaited work => exact fun honors => Work.passes_of_applies keeps work honors.2
  | behind _ ih => exact fun honors => ih honors.2
  | afterForced run _ ih => exact fun honors => ih (Work.honors_of_run keeps honors run)
  | afterAwaited run _ ih => exact fun honors => ih (Work.honors_of_run keeps honors.2 run)

/-- Whatever a search for a goal, or one that looks ahead for it, applies a goal to has been passed
    on. -/
theorem Goal.passes_of_applies {m : Nat} {answers : Answers} (le : m ≤ n)
    (applied : g.apply (program.context n) s = .ok answers)
    (applies : answers.Applies (program.context m).interp h t) : Goal.Passes program h t g s := by
  obtain ⟨keeps, honored⟩ := Goal.blamed (.inl trivial : True ∨ program.Plain) (.inl trivial : True ∨ g.Plain) s n
  rw [applied] at honored
  exact Answers.passes_of_applies (keeps m le) applies honored

/-! ## The edges of 64 bits -/

/-- Why an attempt stops. -/
def stopOf {α : Type} : Except Stop α → Option Stop
  | .ok _ => none
  | .error why => some why

theorem eq_error_of_stopOf {α : Type} {r : Except Stop α} {why : Stop} (h : stopOf r = some why) :
    r = .error why := by
  cases r with
  | ok a => cases h
  | error why' =>
    cases h
    rfl

/-- The least integer is added to `_0`: it is negated to narrow `_0`. -/
theorem apply_plus_minimum :
    (Goal.plus (.var ⟨0⟩) (.const minValue) (.var ⟨1⟩)).apply (Program.context (fun _ _ => .fail) 0)
      (Subst.empty.freshMany 2).2 = .error (.fault .negateOverflow) :=
  eq_error_of_stopOf (by decide +kernel)

/-- The greatest two integers are taken away from `_0`, which has no others: after the
    first only the greatest is left, and its successor is the next bound. -/
theorem apply_distinct_maximum :
    (Goal.conj (.inRange (.var ⟨0⟩) (maxValue - 1) maxValue)
      (.distinct [.var ⟨0⟩, .const (maxValue - 1), .const maxValue])).apply
        (Program.context (fun _ _ => .fail) 0) (Subst.empty.freshMany 1).2 = .error (.fault .addOverflow) :=
  eq_error_of_stopOf (by decide +kernel)

theorem Subst.produced_freshMany (n : Nat) : (Subst.empty.freshMany n).2.Produced :=
  ⟨fun _ _ => .fail, .succeed, n, 0, .unit (Subst.empty.freshMany n).2, fun _ _ _ => trivial, trivial, rfl, .here⟩

theorem Goal.fair_plus_minimum :
    (Goal.plus (.var ⟨0⟩) (.const minValue) (.var ⟨1⟩)).Fair fun _ => False := by
  show (Relation.plusConst ⟨0⟩ minValue ⟨1⟩).Proper
  simp [Relation.Proper, isValue, minValue, maxValue]

/-- Goals with integers of 64 bits do stop a search: a sum with a negation that leaves the
    64 bits, and a difference with a sum that does. -/
theorem exists_overflow_stop :
    (∃ s : Subst, ∃ g : Goal, s.Produced ∧ g.Fair (fun _ => False) ∧
      g.apply (Program.context (fun _ _ => .fail) 0) s = .error (.fault .negateOverflow)) ∧
    ∃ s : Subst, ∃ g : Goal, s.Produced ∧ g.Fair (fun _ => False) ∧
      g.apply (Program.context (fun _ _ => .fail) 0) s = .error (.fault .addOverflow) := by
  refine ⟨⟨_, _, Subst.produced_freshMany 2, Goal.fair_plus_minimum, apply_plus_minimum⟩,
    _, _, Subst.produced_freshMany 1, ?_, apply_distinct_maximum⟩
  refine And.intro ?_ ?_
  · show (Domain.range (maxValue - 1) maxValue).Canonical
    exact Domain.canonical_range (by decide) (by decide)
  · show (Relation.allDifferent [⟨0⟩] [maxValue - 1, maxValue]).Proper
    simp [Relation.Proper, isValue, minValue, maxValue]

end ConstraintLogic
