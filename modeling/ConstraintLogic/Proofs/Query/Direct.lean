import ConstraintLogic.Proofs.Labeling.Tree
import ConstraintLogic.Proofs.Search.Adequacy

/-!
# Answering queries

A direct goal looks at nothing but the substitution that it is applied to: it calls no
relation, puts nothing off and does not look at the answers of other goals. So a query
for such a goal comes to the same with any allowance of steps that is large enough.

Where the goal before has at most one answer, the next goal has all answers of the
conjunction.

Results:
* `Goal.Direct`: the direct goals.
* `Goal.Direct.plays_congr`: what they show does not depend on the context.
* `Query.Ends`, `Query.ends_of_plays`: what a query comes to.
* `Goal.Attempts`: a goal with at most one answer that adds `E` to a substitution.
* `Goal.Attempts.conj`: the conjunction of two such goals.
-/

namespace ConstraintLogic

open Series

/-! ## Direct goals -/

namespace Goal

/-- The goal looks at its substitution alone. -/
def Direct : Goal → Prop
  | succeed | fail | eq _ _ | post _ | posted _ | narrow _ _ | label _ | labelAll => True
  | conj g h | disj g h => g.Direct ∧ h.Direct
  | fresh _ body => ∀ vs, (body vs).Direct
  | reserve _ body => ∀ k, (body k).Direct
  | suspend _ | call _ _ | not _ | ifte _ _ _ | once _ | par _ _ _ | never | always => False

theorem direct_conjAll {gs : List Goal} (h : ∀ g ∈ gs, g.Direct) : (conjAll gs).Direct :=
  conjAll_of_forall (Q := Direct) trivial (fun first second => ⟨first, second⟩) h

/-- A direct goal has the same answers in any context. -/
theorem Direct.apply_congr {g : Goal} (direct : g.Direct) (c c' : Context) : g.apply c = g.apply c' := by
  induction g with
  | conj g h ihg ihh =>
    funext s
    rw [apply, apply, ihg direct.1, ihh direct.2]
  | disj g h ihg ihh =>
    funext s
    rw [apply, apply, ihg direct.1, ihh direct.2]
  | fresh n body ih =>
    funext s
    exact congrFun (ih _ (direct _)) _
  | reserve n body ih =>
    funext s
    exact congrFun (ih _ (direct _)) _
  | _ => first
    | exact direct.elim
    | rfl

end Goal

/-- The promise of a search for direct goals: nothing is put off but exploring. -/
def directPromise : Promise Task Goal Subst where
  waits := False
  task k P := (∃ solver v half vs, k = .explore solver v half vs) ∧ ∀ t, P t
  step g _ P := g.Direct ∧ ∀ t, P t
  stops _ := True

theorem directPromise_task {P : Subst → Prop} (all : ∀ t, P t) (solver : Solver) (v : Var) (half : Domain)
    (vs : List Var) : directPromise.task (.explore solver v half vs) P :=
  ⟨⟨solver, v, half, vs, rfl⟩, all⟩

/-- The answers of a direct goal keep the promise. -/
theorem Goal.Direct.honored {c : Context} {g : Goal} : ∀ {s : Subst} {P : Subst → Prop}, g.Direct →
    (∀ t, P t) → directPromise.HonoredBy P (g.apply c s) := by
  have attempt {P : Subst → Prop} (r : Attempt Subst) (all : ∀ t, P t) :
      directPromise.HonoredBy P (Answers.ofAttempt r) := by
    unfold Answers.ofAttempt
    split
    · exact ⟨all _, trivial⟩
    · trivial
    · trivial
  induction g with
  | succeed => exact fun _ all => ⟨all _, trivial⟩
  | fail => exact fun _ _ => trivial
  | eq a b => exact fun _ all => attempt _ all
  | conj g h ihg ihh =>
    intro s P direct all
    refine (ihg (P := fun _ => True) direct.1 fun _ => trivial).bind fun found honors => ?_
    exact honors.bindWith (fun _ _ => ihh direct.2 all) ⟨direct.2, all⟩
  | disj g h ihg ihh =>
    intro s P direct all
    refine (ihg direct.1 all).bind fun left honors => ?_
    exact (ihh direct.2 all).bind fun right honors' => honors.append honors'
  | fresh n body ih => exact fun direct all => ih _ (direct _) all
  | post r => exact fun _ all => attempt _ all
  | posted p => exact fun _ all => attempt _ all
  | narrow v d => exact fun _ all => attempt _ all
  | label vs => exact fun _ all => Subst.honoredBy_label (directPromise_task all) all (fun _ => trivial) _ vs
  | labelAll => exact fun _ all => Subst.honoredBy_labelAll (directPromise_task all) all (fun _ => trivial) _
  | reserve n body ih => exact fun direct all => ih _ (direct _) all
  | _ => exact fun direct => direct.elim

theorem Context.keeps_direct (c : Context) : c.interp.Keeps directPromise where
  task := by
    rintro k P ⟨⟨solver, v, half, vs, rfl⟩, all⟩
    exact Solver.honoredBy_explore (directPromise_task all) all (fun _ => trivial) solver v half vs
  step _ _ _ _ made _ := made.1.honored made.2

/-- Codes that two meanings give the same show the same. -/
theorem Series.Plays.congr {κ β α : Type} {p : Promise κ β α} {P : α → Prop} {I J : Interp κ β α}
    (keeps : I.Keeps p) (task : ∀ k P, p.task k P → J.start k = I.start k)
    (step : ∀ f Q P, p.step f Q P → J.bind f = I.bind f) {n : Nat} {s : Series κ β α} {as : List α}
    {out : Option Stop} (h : Plays I n s as out) : s.Honors p P → Plays J n s as out := by
  induction h with
  | ended => exact fun _ => .ended
  | element _ ih => exact fun honors => .element (ih honors.2)
  | forced run _ ih =>
    exact fun honors => .forced ((Work.run_congr task step honors).trans run) (ih (Work.honors_of_run keeps honors run))
  | awaited run _ ih =>
    exact fun honors => .awaited ((Work.run_congr task step honors.2).trans run) (ih (Work.honors_of_run keeps honors.2 run))
  | failed run => exact fun honors => .failed ((Work.run_congr task step honors).trans run)
  | lost run => exact fun honors => .lost ((Work.run_congr task step honors.2).trans run)

/-- What the answers of a direct goal show does not depend on the context. -/
theorem Goal.Direct.plays_congr {g : Goal} (direct : g.Direct) {c c' : Context} {s : Subst} {answers : Answers}
    (applied : g.apply c s = .ok answers) {n : Nat} {ts : List Subst} {out : Option Stop}
    (plays : Plays c.interp n answers ts out) : Plays c'.interp n answers ts out := by
  have honored := direct.honored (c := c) (s := s) (P := fun _ => True) fun _ => trivial
  rw [applied] at honored
  refine plays.congr c.keeps_direct ?_ (fun g _ _ made => made.1.apply_congr c' c) honored
  rintro k P ⟨⟨solver, v, half, vs, rfl⟩, _⟩
  rfl

/-! ## Queries -/

namespace Query

/-- With any allowance that is large enough, the query for all answers comes to the result. -/
def Ends (program : Program) (goal : Var → Goal) (r : Except Stop (List Term)) : Prop :=
  ∃ enough, ∀ allowance, enough ≤ allowance → Query.run program allowance none goal = r

variable {program : Program} {goal : Var → Goal}

theorem Ends.unique {r r' : Except Stop (List Term)} (h : Ends program goal r) (h' : Ends program goal r') :
    r = r' := by
  obtain ⟨n, ends⟩ := h
  obtain ⟨m, ends'⟩ := h'
  rw [← ends (max n m) (Nat.le_max_left n m), ends' (max n m) (Nat.le_max_right n m)]

/-- A query for a direct goal comes to what the search shows. -/
theorem ends_of_plays (direct : ∀ q, (goal q).Direct) {ts : List Subst} {out : Option Stop}
    (plays : PlaysOut (program.context 0).interp
      ((Goal.conj (goal ⟨0⟩) .labelAll).apply (program.context 0) Subst.empty.fresh.2) ts out) :
    Ends program goal (out.elim (.ok (ts.map fun t => t.walkDeep (.var ⟨0⟩))) .error) := by
  have direct' : (Goal.conj (goal ⟨0⟩) .labelAll).Direct := ⟨direct _, trivial⟩
  have start (n : Nat) : Engine.start program n {} goal = (do
      let stream ← (Goal.conj (goal ⟨0⟩) .labelAll).apply (program.context 0) Subst.empty.fresh.2
      return { interp := (program.context n).interp, allowance := n, stream, query := ⟨0⟩, limit := none }) := by
    rw [direct'.apply_congr (program.context 0) (program.context n)]
    rfl
  cases applied : (Goal.conj (goal ⟨0⟩) .labelAll).apply (program.context 0) Subst.empty.fresh.2 with
  | error why =>
    rw [applied] at plays
    obtain ⟨rfl, rfl⟩ := plays
    refine ⟨0, fun n _ => ?_⟩
    rw [Query.run, start, applied]
    rfl
  | ok answers =>
    rw [applied] at plays
    obtain ⟨k, plays⟩ := plays
    refine ⟨k + 1, fun n enough => ?_⟩
    rw [Query.run, start, applied]
    exact Engine.collect_of_plays (direct'.plays_congr applied plays) rfl enough

end Query

/-! ## Goals with at most one answer -/

section Short

variable {κ β α : Type} {I : Interp κ β α} {f : β} {r : Except Stop (Series κ β α)} {a : α} {as : List α}
  {out : Option Stop}

/-- Where there is no element, nothing is made of the elements. -/
theorem Series.PlaysOut.bind_nil (h : PlaysOut I r [] out) :
    PlaysOut I (r >>= Series.bindWith (I.bind f) f) [] out := by
  cases r with
  | error why => exact h
  | ok s =>
    obtain ⟨n, plays⟩ := h
    have each (b : α) (mem : b ∈ ([] : List α)) : PlaysOut I (I.bind f b) [] none := absurd mem List.not_mem_nil
    obtain ⟨cs, d, shown, subset, ends, stops⟩ := plays.bindWith each
    have none_made : cs = [] := List.eq_nil_iff_forall_not_mem.mpr fun c mem => by
      obtain ⟨b, none, _⟩ := subset c mem
      cases none
    have same : d = out := by
      cases d with
      | none => exact (ends rfl).1.symm
      | some why => exact ((stops why rfl).resolve_right (by simp)).symm
    rw [none_made, same] at shown
    exact shown

/-- What is made of a single element is all there is, if perhaps in another order. -/
theorem Series.PlaysOut.bind_singleton (h : PlaysOut I r [a] none) (next : PlaysOut I (I.bind f a) as out) :
    ∃ bs, PlaysOut I (r >>= Series.bindWith (I.bind f) f) bs out ∧ (∀ b ∈ bs, b ∈ as) ∧
      (out = none → bs.Perm as) := by
  cases r with
  | error why => cases h.1
  | ok s =>
    obtain ⟨n, plays⟩ := h
    have each (b : α) (mem : b ∈ [a]) : PlaysOut I (I.bind f b) as out := List.mem_singleton.mp mem ▸ next
    obtain ⟨cs, d, shown, subset, ends, stops⟩ := plays.bindWith each
    have same : d = out := by
      cases d with
      | none => exact ((ends rfl).2.1 a (by simp)).symm
      | some why =>
        obtain ⟨_, _, stopped⟩ := (stops why rfl).resolve_left (by simp)
        exact stopped.symm
    subst same
    refine ⟨cs, shown, fun b mem => ?_, fun ended => ?_⟩
    · obtain ⟨_, _, mem⟩ := subset b mem
      exact mem
    · simpa using (ends ended).2.2

end Short

/-- The answers that are shown are those of an attempt. -/
def Answers.Amounts (I : Interp Task Goal Subst) (answers : Except Stop Answers) : Attempt Subst → Prop
  | .ok t => PlaysOut I answers [t] none
  | .error .conflict => PlaysOut I answers [] none
  | .error (.stop why) => PlaysOut I answers [] (some why)

theorem Answers.amounts_ofAttempt (I : Interp Task Goal Subst) (r : Attempt Subst) :
    Amounts I (ofAttempt r) r := by
  match r with
  | .ok t => exact ⟨1, .element .ended⟩
  | .error .conflict => exact ⟨0, .ended⟩
  | .error (.stop why) => exact ⟨rfl, rfl⟩

/-- A conjunction whose first goal is an attempt goes on from its result. -/
theorem Answers.Amounts.conj {c : Context} {g h : Goal} {s : Subst} {r : Attempt Subst} {f : Subst → Attempt Subst}
    (first : Amounts c.interp (g.apply c s) r) (next : ∀ t, r = .ok t → Amounts c.interp (h.apply c t) (f t)) :
    Amounts c.interp ((Goal.conj g h).apply c s) (r >>= f) := by
  match r, first with
  | .ok t, first =>
    show Amounts c.interp _ (f t)
    match f t, next t rfl with
    | .ok u, second =>
      obtain ⟨us, shown, _, perm⟩ := PlaysOut.bind_singleton (I := c.interp) (f := h) first second
      rw [List.perm_singleton.mp (perm rfl)] at shown
      exact shown
    | .error .conflict, second =>
      obtain ⟨us, shown, _, perm⟩ := PlaysOut.bind_singleton (I := c.interp) (f := h) first second
      rw [List.perm_nil.mp (perm rfl)] at shown
      exact shown
    | .error (.stop why), second =>
      obtain ⟨us, shown, subset, _⟩ := PlaysOut.bind_singleton (I := c.interp) (f := h) first second
      rw [List.eq_nil_iff_forall_not_mem.mpr fun u mem => List.not_mem_nil (subset u mem)] at shown
      exact shown
  | .error .conflict, first => exact PlaysOut.bind_nil (I := c.interp) (f := h) first
  | .error (.stop why), first => exact PlaysOut.bind_nil (I := c.interp) (f := h) first

namespace Goal

/-- The goal has at most one answer under the substitution. The answer is `P` and adds
    just `E` to what the substitution says to the readings that count. Nothing but an
    overflow stops the search for it. -/
def Attempts (c : Context) (K : Scope) (P : Subst → Prop) (s : Subst) (E : (Var → Term) → Prop)
    (g : Goal) : Prop :=
  ∃ r, Answers.Amounts c.interp (g.apply c s) r ∧
    s.Solves P (fun t θ => K.readings θ ∧ t.Admits θ) Fault.IsOverflow E r

variable {c : Context} {K : Scope} {P Q : Subst → Prop} {s : Subst} {E G : (Var → Term) → Prop} {g h : Goal}

theorem Attempts.congr (attempts : g.Attempts c K P s E)
    (same : ∀ θ, K.readings θ → s.Admits θ → (E θ ↔ G θ)) : g.Attempts c K P s G := by
  obtain ⟨r, amounts, solves⟩ := attempts
  exact ⟨r, amounts, solves.congr fun θ admitted => same θ admitted.1 admitted.2⟩

theorem Attempts.mono (attempts : g.Attempts c K P s E) (weaker : ∀ t, P t → Q t) : g.Attempts c K Q s E := by
  obtain ⟨r, amounts, solves⟩ := attempts
  exact ⟨r, amounts, solves.mono weaker⟩

theorem attempts_of_solves {r : Attempt Subst} (applied : g.apply c s = Answers.ofAttempt r)
    (solves : s.Solves P (fun t θ => K.readings θ ∧ t.Admits θ) Fault.IsOverflow E r) :
    g.Attempts c K P s E :=
  ⟨r, applied ▸ Answers.amounts_ofAttempt c.interp r, solves⟩

/-- A goal of new variables. -/
theorem Attempts.fresh {n : Nat} {body : List Var → Goal}
    (attempts : (body (s.freshMany n).1).Attempts c K P (s.freshMany n).2 E) : (fresh n body).Attempts c K P s E := by
  obtain ⟨r, amounts, solves⟩ := attempts
  refine ⟨r, amounts, solves.rebase (fun _ _ => id) fun θ => ?_⟩
  rw [Subst.admits_congr (s := s) (t := (s.freshMany n).2) rfl rfl]

/-- Both goals of a conjunction have at most one answer. -/
theorem Attempts.conj (first : g.Attempts c K P s E) (next : ∀ t, P t → h.Attempts c K Q t G) :
    (conj g h).Attempts c K Q s fun θ => E θ ∧ G θ := by
  obtain ⟨r, amounts, solves⟩ := first
  match r, amounts, solves with
  | .ok t, amounts, ⟨good, ext, exact_⟩ =>
    obtain ⟨r', amounts', solves'⟩ := next t good
    refine ⟨r', amounts.conj (f := fun _ => r') fun u same => ?_, solves'.rebase ext fun θ => ?_⟩
    · cases same
      exact amounts'
    · exact (and_congr_left' (exact_ θ)).trans and_assoc
  | .error .conflict, amounts, refuted =>
    refine ⟨.error .conflict, amounts.conj (f := .ok) (by simp), fun θ admitted holds => ?_⟩
    exact refuted θ admitted holds.1
  | .error (.stop (.fault f)), amounts, overflow =>
    exact ⟨.error (.stop (.fault f)), amounts.conj (f := .ok) (by simp), overflow⟩

end Goal

end ConstraintLogic
