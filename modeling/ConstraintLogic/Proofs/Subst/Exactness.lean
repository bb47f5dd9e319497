import ConstraintLogic.Proofs.Goal.Produced

/-!
# Exact propagation

The models of a substitution are its readings without variables. A run of a solver
and a unification neither lose nor gain one: what they answer has just the models
of the given substitution that satisfy what is asked.

A propagator that the domains entail is forgotten, and an unbounded domain is not
written down. So the answer does not say any more that their variables are
integers, and its models are compared among the readings that give them integers.

Results:
* `Subst.Exact`: an attempt neither loses nor gains a model.
* `Subst.Produced.solveAll_exact`: a run of a solver is exact.
* `Subst.Produced.unify_exact`: unification is exact.
-/

namespace ConstraintLogic

/-- The readings without variables that give integers to certain variables. -/
def Scope.ground (ints : Var → Prop) (known : Propagator → Prop) : Scope :=
  ⟨fun θ => (∀ v, (θ v).vars = []) ∧ ∀ v, ints v → (θ v).IsValue, known⟩

/-- The request mentions the variable, and is no domain to be written down. -/
def Request.Mentions (v : Var) : Request → Prop
  | post p => v ∈ p.val.vars
  | reduce w d => v = w ∧ d = .unbounded

namespace Subst

/-- The variable has a domain, or a stored propagator mentions it. -/
def Mentions (s : Subst) (v : Var) : Prop :=
  (s.attributes v).domain ≠ none ∨ ∃ w, ∃ p ∈ s.storedWatchers w, v ∈ p.val.vars

/-- The attempt that is to add `E` neither loses nor gains a model among the readings
    that give integers to certain variables: the models of its answer are the models
    of `s` of which `E` holds, and a conflict means that there are none. Only an
    overflow may stop it. -/
def Exact (s : Subst) (ints : Var → Prop) (E : (Var → Term) → Prop) : Attempt Subst → Prop
  | .ok t => ∀ θ, t.Models θ ∧ (∀ v, ints v → (θ v).IsValue) ↔ s.Models θ ∧ E θ
  | .error .conflict => ∀ θ, s.Models θ → ¬E θ
  | .error (.stop (.fault f)) => f.IsOverflow
  | .error (.stop .exhausted) => False

variable {s : Subst} {θ : Var → Term}

theorem Models.isValue (h : s.Models θ) {v : Var} (mentioned : s.Mentions v) : (θ v).IsValue := by
  rcases mentioned with domain | ⟨w, p, mem, in_vars⟩
  · obtain ⟨a, found⟩ := Option.ne_none_iff_exists'.mp domain
    exact (Domain.holds_iff.mp (h.domain v a found)).1
  · obtain ⟨a, found, stored⟩ := mem_storedWatchers_iff.mp mem
    exact (Relation.holdsOf_iff.mp (h.watchers w a found p stored)).1 v in_vars

/-- The models that count are the readings that count and are admitted. -/
theorem models_and_ints_iff {t : Subst} {ints : Var → Prop} {known : Propagator → Prop} :
    t.Models θ ∧ (∀ v, ints v → (θ v).IsValue) ↔ (Scope.ground ints known).readings θ ∧ t.Admits θ :=
  ⟨fun ⟨model, values⟩ => ⟨⟨model.ground, values⟩, model.toAdmits⟩,
    fun ⟨⟨ground, values⟩, admits⟩ => ⟨⟨admits, ground⟩, values⟩⟩

/-- Where there are no attributes, a reading of all variables as one atom agrees with
    bindings that it reads so. -/
theorem models_const {a : Atom} (bare : ∀ v, s.attributes v = {})
    (bindings : ∀ v t, s.get? v = some t → t.expand (fun _ => .atom a) = .atom a) :
    s.Models fun _ => .atom a where
  ground _ := rfl
  binding v t bound := (bindings v t bound).symm
  domain v b found := by
    rw [bare v] at found
    cases found
  watchers v b found := by
    rw [bare v] at found
    cases found

/-- An attempt that adds `E` to the readings that count is exact, if `E` forces the
    integers. -/
theorem Solves.exact {P : Subst → Prop} {ints : Var → Prop} {known : Propagator → Prop}
    {E : (Var → Term) → Prop} {r : Attempt Subst}
    (h : Solves P (fun t θ => (Scope.ground ints known).readings θ ∧ t.Admits θ) Fault.IsOverflow s E r)
    (forced : ∀ θ, s.Models θ → E θ → ∀ v, ints v → (θ v).IsValue) : s.Exact ints E r := by
  have counts (θ : Var → Term) (model : s.Models θ) (holds : E θ) :
      (Scope.ground ints known).readings θ ∧ s.Admits θ :=
    models_and_ints_iff.mp ⟨model, forced θ model holds⟩
  match r, h with
  | .ok t, ⟨_, _, exact_⟩ =>
    intro θ
    refine models_and_ints_iff.trans ((exact_ θ).trans ?_)
    constructor
    · exact fun ⟨counted, holds⟩ => ⟨(models_and_ints_iff.mpr counted).1, holds⟩
    · exact fun ⟨model, holds⟩ => ⟨counts θ model holds, holds⟩
  | .error .conflict, empty =>
    intro θ model holds
    exact empty θ (counts θ model holds) holds
  | .error (.stop (.fault f)), overflow => exact overflow

/-! ## Runs of a solver -/

/-- The requests can be made: the domains are in their one form, the propagators are
    proper and have identities that have been given out, and two of them with one
    identity, be they stored or posted, are one propagator. -/
structure Takes (s : Subst) (requests : List Request) : Prop where
  canonical : ∀ v d, .reduce v d ∈ requests → d.Canonical
  proper : ∀ p, .post p ∈ requests → p.val.Proper
  stamped : ∀ p, .post p ∈ requests → p.stamp < s.supply
  coherent : ∀ p q, .post p ∈ requests → (.post q ∈ requests ∨ ∃ v, q ∈ s.storedWatchers v) →
    p.stamp = q.stamp → p = q

/-- What is mentioned is an integer where the requests are satisfied. -/
theorem Models.isValue_of_requests (h : s.Models θ) {requests : List Request}
    (holds : ∀ r ∈ requests, r.HoldsOf θ) {v : Var}
    (mentioned : s.Mentions v ∨ ∃ r ∈ requests, r.Mentions v) : (θ v).IsValue := by
  rcases mentioned with mentioned | ⟨r, mem, mentioned⟩
  · exact h.isValue mentioned
  · have satisfied := holds r mem
    cases r with
    | post p => exact (Relation.holdsOf_iff.mp satisfied).1 v mentioned
    | reduce w d =>
      obtain ⟨rfl, _⟩ := mentioned
      exact (Domain.holds_iff.mp satisfied).1

/-- A run of a solver on a substitution that goals produce neither loses nor gains a
    model: the models of its answer are the models that satisfy all requests. -/
theorem Produced.solveAll_exact (h : s.Produced) {requests : List Request} (takes : s.Takes requests) :
    s.Exact (fun v => s.Mentions v ∨ ∃ r ∈ requests, r.Mentions v)
      (fun θ => ∀ r ∈ requests, r.HoldsOf θ) (s.solveAll requests) := by
  let K := Scope.ground (fun v => s.Mentions v ∨ ∃ r ∈ requests, r.Mentions v) fun p => .post p ∈ requests
  have orderly : s.Orderly K := by
    refine h.orderly.rescope takes.proper ?_ takes.stamped takes.coherent
    rintro p (posted | ⟨w, stored⟩) v mem θ reading _
    · exact reading.2 v (.inr ⟨.post p, posted, mem⟩)
    · exact reading.2 v (.inl (.inr ⟨w, p, stored, mem⟩))
  have solved := orderly.inAll.solveAll (fun _ _ => trivial) requests fun r mem => by
    cases r with
    | post p => exact mem
    | reduce v d =>
      exact ⟨takes.canonical v d mem, fun full θ reading _ =>
        reading.2 v (.inr ⟨.reduce v d, mem, rfl, full⟩)⟩
  exact solved.exact fun θ model holds v => model.isValue_of_requests holds

/-- A run that posts `_0 + 1 = _1` and leaves `_0` with a value from 1 to 3. -/
theorem solveAll_exact_successor :
    let s : Subst := { (empty.freshMany 2).2 with supply := 1 }
    let requests := [.post ⟨0, .plusConst ⟨0⟩ 1 ⟨1⟩⟩, .reduce ⟨0⟩ (.range 1 3)]
    s.Produced ∧ s.Takes requests ∧
      s.Exact (fun v => s.Mentions v ∨ ∃ r ∈ requests, r.Mentions v)
        (fun θ => ∀ r ∈ requests, r.HoldsOf θ) (s.solveAll requests) := by
  intro s requests
  have produced : s.Produced := by
    refine ⟨fun _ _ => .fail, .reserve 1 fun _ => .succeed, 2, 0, .unit s, fun _ _ _ => trivial,
      fun _ => ⟨fun _ => False, ?_, ?_, trivial⟩, rfl, .here⟩
    · exact fun _ => False.elim
    · exact fun _ _ => False.elim
  have takes : s.Takes requests :=
    { canonical := by
        simp only [requests, List.mem_cons, List.not_mem_nil, or_false, reduceCtorEq, false_or]
        rintro v d ⟨⟩
        exact Domain.canonical_range (by decide) (by decide)
      proper := by simp [requests, Relation.Proper, isValue, minValue, maxValue]
      stamped := by simp [requests, s]
      coherent := by
        rintro p q posted (posted' | ⟨v, stored⟩) _
        · simp only [requests, List.mem_cons, List.not_mem_nil, or_false, reduceCtorEq,
            Request.post.injEq] at posted posted'
          rw [posted, posted']
        · have unstored : s.storedWatchers v = [] := rfl
          rw [unstored] at stored
          cases stored }
  -- What the run answers does not matter here.
  clear_value s requests
  exact ⟨produced, takes, produced.solveAll_exact takes⟩

/-- A run that leaves `_0` with the values of the unbounded domain answers a
    substitution of which a text for `_0` is a model. Where a text is bound already,
    the run ends in a conflict. -/
theorem solveAll_unbounded_not_exact :
    let s : Subst := (empty.freshMany 1).2
    let requests := [.reduce ⟨0⟩ .unbounded]
    let text : Subst := s.bind ⟨0⟩ (.str "foo")
    s.Produced ∧ s.Takes requests ∧
      ¬s.Exact (fun v => s.Mentions v ∨ ∃ p, .post p ∈ requests ∧ v ∈ p.val.vars)
        (fun θ => ∀ r ∈ requests, r.HoldsOf θ) (s.solveAll requests) ∧
      text.Produced ∧ (text.Models fun _ => .str "foo") ∧ text.solveAll requests = .error .conflict := by
  intro s requests text
  have run : s.solveAll requests = .ok s := rfl
  have model : s.Models fun _ => .str "foo" := models_const (fun _ => rfl) fun v t bound => by
    simp [s, freshMany, get?, empty] at bound
  have model_text : text.Models fun _ => .str "foo" := models_const (fun _ => rfl) fun v t bound => by
    rw [get?_bind] at bound
    split at bound
    · cases bound
      rfl
    · exact model.binding v t bound ▸ rfl
  have produced : s.Produced :=
    ⟨fun _ _ => .fail, .succeed, 1, 0, .unit s, fun _ _ _ => trivial, trivial, rfl, .here⟩
  have produced_text : text.Produced :=
    ⟨fun _ _ => .fail, .eq (.var ⟨0⟩) (.str "foo"), 1, 0, .unit text, fun _ _ _ => trivial,
      ⟨trivial, trivial⟩, rfl, .here⟩
  have unposted (p : Propagator) : Request.post p ∉ requests := by simp [requests]
  have takes : s.Takes requests :=
    { canonical := fun v d mem => by
        cases List.mem_singleton.mp mem
        trivial
      proper := fun p posted => (unposted p posted).elim
      stamped := fun p posted => (unposted p posted).elim
      coherent := fun p q posted => (unposted p posted).elim }
  refine ⟨produced, takes, ?_, produced_text, model_text, rfl⟩
  rw [run]
  intro exact_
  have free (v : Var) : ¬(s.Mentions v ∨ ∃ p, Request.post p ∈ requests ∧ v ∈ p.val.vars) := by
    rintro (mentioned | ⟨p, posted, _⟩)
    · obtain ⟨n, same, _⟩ := model.isValue mentioned
      cases same
    · exact unposted p posted
  have holds := ((exact_ _).mp ⟨model, fun v mentioned => (free v mentioned).elim⟩).2
  obtain ⟨n, same, _⟩ := holds (.reduce ⟨0⟩ .unbounded) (List.mem_singleton.mpr rfl)
  cases same

/-! ## Unification -/

/-- Unification on a substitution that goals produce neither loses nor gains a model:
    the models of its answer are the models that make the terms equal. -/
theorem Produced.unify_exact (h : s.Produced) {a b : Term} (sized_a : a.Sized) (sized_b : b.Sized) :
    s.Exact s.Mentions (fun θ => a.expand θ = b.expand θ) (s.unify a b) := by
  have orderly : s.Orderly (.ground s.Mentions fun _ => False) := by
    refine h.orderly.rescope (fun _ => False.elim) ?_ (fun _ => False.elim) fun _ _ => False.elim
    rintro p (known | ⟨w, stored⟩) v mem θ reading _
    · exact known.elim
    · exact reading.2 v (.inr ⟨w, p, stored, mem⟩)
  exact (orderly.unify sized_a sized_b).exact fun θ model _ v => model.isValue

theorem eq_ok_of_isSome {ε α : Type} {r : Except ε α} {a : α} (h : r.toOption.isSome = true) :
    r = .ok (r.toOption.getD a) := by
  cases r with
  | ok t => rfl
  | error why => cases h

/-- The goal `_0 + 0 = _1` stores its propagator, and nothing is stored any more when
    `_0` and `_1` become one. -/
theorem exists_entailed : ∃ s t : Subst,
    (Goal.post (.plusConst ⟨0⟩ 0 ⟨1⟩)).apply (Program.context (fun _ _ => .fail) 0)
      (empty.freshMany 2).2 = .ok (.unit s) ∧
    s.storedWatchers ⟨0⟩ = [⟨0, .plusConst ⟨0⟩ 0 ⟨1⟩⟩] ∧
    s.unify (.var ⟨0⟩) (.var ⟨1⟩) = .ok t ∧
    t.bindings.toList = [(⟨1⟩, .var ⟨0⟩)] ∧ t.attrs.isEmpty = true := by
  let stamped := (empty.freshMany 2).2.stamped (Relation.plusConst ⟨0⟩ 0 ⟨1⟩)
  let s := (stamped.2.solveWith [stamped.1]).toOption.getD empty
  have solved : stamped.2.solveWith [stamped.1] = .ok s := eq_ok_of_isSome (by decide +kernel)
  refine ⟨s, (s.unify (.var ⟨0⟩) (.var ⟨1⟩)).toOption.getD empty, ?_, by decide +kernel,
    eq_ok_of_isSome (by decide +kernel), by decide +kernel, by decide +kernel⟩
  show Answers.ofAttempt (stamped.2.solveWith [stamped.1]) = _
  rw [solved]
  rfl

theorem produced_of_post {r : Relation} (proper : r.Proper) {n : Nat}
    (applied : (Goal.post r).apply (Program.context (fun _ _ => .fail) 0) (empty.freshMany n).2 =
      .ok (.unit s)) : s.Produced :=
  ⟨fun _ _ => .fail, .post r, n, 0, .unit s, fun _ _ _ => trivial, proper, applied, .here⟩

/-- `_0` and `_1` become one where `_0 + 0 = _1` is posted. -/
theorem unify_exact_entailed : ∃ s : Subst,
    (Goal.post (.plusConst ⟨0⟩ 0 ⟨1⟩)).apply (Program.context (fun _ _ => .fail) 0)
      (empty.freshMany 2).2 = .ok (.unit s) ∧
    s.Produced ∧ (Term.var ⟨0⟩).Sized ∧ (Term.var ⟨1⟩).Sized ∧
    s.Exact s.Mentions (fun θ => (Term.var ⟨0⟩).expand θ = (Term.var ⟨1⟩).expand θ)
      (s.unify (.var ⟨0⟩) (.var ⟨1⟩)) := by
  obtain ⟨s, t, applied, _⟩ := exists_entailed
  have produced : s.Produced := produced_of_post (by simp [Relation.Proper, isValue, minValue, maxValue]) applied
  exact ⟨s, applied, produced, trivial, trivial, produced.unify_exact trivial trivial⟩

/-- The propagator `_0 + 0 = _1` is forgotten when `_0` and `_1` become one, and then
    a text for both is a model. -/
theorem unify_entailed_not_exact : ∃ s : Subst,
    (Goal.post (.plusConst ⟨0⟩ 0 ⟨1⟩)).apply (Program.context (fun _ _ => .fail) 0)
      (empty.freshMany 2).2 = .ok (.unit s) ∧
    s.Produced ∧
    ¬s.Exact (fun _ => False) (fun θ => (Term.var ⟨0⟩).expand θ = (Term.var ⟨1⟩).expand θ)
      (s.unify (.var ⟨0⟩) (.var ⟨1⟩)) := by
  obtain ⟨s, t, applied, stored, unified, bindings, attrs⟩ := exists_entailed
  refine ⟨s, applied, produced_of_post (by simp [Relation.Proper, isValue, minValue, maxValue]) applied, ?_⟩
  rw [unified]
  intro exact_
  have model : t.Models fun _ => .str "foo" := models_const (fun v => ?_) fun v u bound => ?_
  · have before := ((exact_ _).mp ⟨model, fun v => False.elim⟩).1
    have mentioned : s.Mentions ⟨0⟩ := .inr ⟨⟨0⟩, ⟨0, .plusConst ⟨0⟩ 0 ⟨1⟩⟩, by simp [stored], by
      simp [Relation.vars]⟩
    obtain ⟨n, same, _⟩ := before.isValue mentioned
    cases same
  · rw [attributes, Std.ExtTreeMap.isEmpty_iff.mp attrs]
    simp
  · rw [get?, ← Std.ExtTreeMap.mem_toList_iff_getElem?_eq_some, bindings] at bound
    cases List.mem_singleton.mp bound
    rfl

end Subst

end ConstraintLogic
