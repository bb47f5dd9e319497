import ConstraintLogic.Proofs.Constraint.Attempts
import ConstraintLogic.Proofs.Labeling.Partition

/-!
# Exact queries

A query for the values of some unknowns states constraints on them one after another,
makes the query variable the list of the unknowns and labels. If the constraints give
every unknown a finite domain, the query answers with every solution of the constraints,
and with nothing else.

Propagation alone is not complete. What makes the answers right is that at the end every
unknown has a value: then no propagator is left, for it would mention an unbound
variable, and the answer has a reading.

Results:
* `Subst.Posed`: the substitution that is left when the question is posed.
* `Subst.Posed.pinned`: in an answer of labeling every unknown has a value.
* `Subst.Orderly.exists_admits`: such an answer has a reading.
* `Query.run_exact`: what a query answers.
-/

namespace ConstraintLogic

/-! ## Lists of terms -/

namespace Term

@[simp] theorem expand_ofList (θ : Var → Term) (ts : List Term) :
    (ofList ts).expand θ = ofList (ts.map fun t => t.expand θ) := by
  induction ts with
  | nil => rfl
  | cons t ts ih =>
    show pair (t.expand θ) ((ofList ts).expand θ) = _
    rw [ih]
    rfl

theorem sized_ofList {ts : List Term} (h : ∀ t ∈ ts, t.Sized) : (ofList ts).Sized := by
  induction ts with
  | nil => trivial
  | cons t ts ih => exact ⟨h t (by simp), ih fun u mem => h u (by simp [mem])⟩

theorem ofList_injective : Function.Injective ofList := by
  intro ts us same
  have lists := congrArg toList? same
  simpa using lists

end Term

/-! ## Equating a variable with a list -/

namespace Subst

variable {K : Scope} {s t u : Subst}

/-- A variable that stands for no pair needs one binding at most. -/
theorem unify_var_eq {v : Var} {b : Term} (not_pair : ∀ h t, s.walk (.var v) ≠ .pair h t) :
    s.unify (.var v) b = s.unifyEnds (s.walk (.var v)) (s.walk b) := by
  unfold Subst.unify
  rw [unifyBelow, BindingLaws.unifyWith_of_not_pair (by simp)]
  split
  · rename_i leads _
    exact absurd leads (not_pair _ _)
  · rfl

/-- An unbound variable is bound to a term that is no variable. -/
theorem unifyEnds_var {w : Var} {b : Term} (not_var : ∀ u, b ≠ .var u) :
    s.unifyEnds (.var w) b = s.instantiate w b := by
  unfold Subst.unifyEnds
  rw [if_neg (not_var w).symm]
  cases b with
  | var u => exact absurd rfl (not_var u)
  | _ => rfl

/-- Of two terms that are no variables nothing is bound. -/
theorem unifyEnds_of_settled {a b : Term} (not_var : ∀ u, a ≠ .var u) (not_var' : ∀ u, b ≠ .var u) :
    s.unifyEnds a b = if a = b then .ok s else .error .conflict := by
  unfold Subst.unifyEnds
  cases a with
  | var u => exact absurd rfl (not_var u)
  | _ =>
    cases b with
    | var u => exact absurd rfl (not_var' u)
    | _ => rfl

/-- A domain and propagators refuse a term that is no integer. -/
theorem Orderly.instantiate_eq (h : s.Orderly K) {q : Var} {a : Term} (no_int : a.asInt? = none) :
    s.instantiate q a = .error .conflict ∨ s.attributes q = {} ∧ s.instantiate q a = .ok (s.bindBare q a) := by
  unfold Subst.instantiate
  split
  · exact .inl rfl
  · obtain ⟨allowed, tag, zero⟩ := h.simple q
    have refused (b : Attribute) (mem : b ∈ (s.attributes q).toList) (r : Subst) :
        r.validate q a b = .error .conflict := by
      have found := Attributes.mem_toList.mp mem
      cases b with
      | domain b => simp only [validate, no_int]
      | watchers b => simp only [validate, no_int]
      | allowed b => simp [Attribute.name, Attributes.get?, allowed] at found
      | tag b => simp [Attribute.name, Attributes.get?, tag] at found
      | zero b => simp [Attribute.name, Attributes.get?, zero] at found
    dsimp only
    split
    · rename_i b found
      exact .inl (refused b (List.mem_of_find?_eq_some found) s)
    · cases attached : (s.attributes q).toList with
      | nil =>
        refine .inr ⟨Attributes.ext_get? fun name => ?_, rfl⟩
        cases found : (s.attributes q).get? name with
        | none => cases name <;> rfl
        | some b =>
          have mem : b ∈ (s.attributes q).toList :=
            Attributes.mem_toList.mpr (by rw [Attributes.name_of_get? found, found])
          rw [attached] at mem
          cases mem
      | cons b attrs =>
        left
        rw [List.foldlM_cons, refused b (by simp [attached])]
        rfl

/-- Where variables stand for integers only, a variable that becomes another term was
    unbound and had no attributes. -/
theorem Orderly.unify_var (h : s.Orderly K) {q : Var} {a : Term} (ints : ∀ b, s.get? q = some b → ∃ n, b = .int n)
    (not_var : ∀ w, a ≠ .var w) (no_int : a.asInt? = none) :
    s.unify (.var q) a = .error .conflict ∨
      s.get? q = none ∧ s.attributes q = {} ∧ s.unify (.var q) a = .ok (s.bindBare q a) := by
  cases bound : s.get? q with
  | some b =>
    obtain ⟨n, rfl⟩ := ints b bound
    have leads : s.walk (.var q) = .int n :=
      (h.acyclic.walk_of_bound bound).trans (walk_of_not_var (by simp [Term.int]))
    left
    rw [unify_var_eq (by simp [leads, Term.int]), leads, walk_of_not_var not_var,
      unifyEnds_of_settled (by simp [Term.int]) not_var, if_neg (by rintro rfl; cases no_int)]
  | none =>
    have leads : s.walk (.var q) = .var q := walk_var_of_unbound bound
    have ends : s.unify (.var q) a = s.instantiate q a := by
      rw [unify_var_eq (by simp [leads]), leads, walk_of_not_var not_var, unifyEnds_var not_var]
    rw [ends]
    exact (h.instantiate_eq no_int).imp_right fun clear => ⟨rfl, clear⟩

/-! ## Readings of answers -/

/-- The unbound variables may be read as anything. -/
theorem Acyclic.agrees_expand_image (h : s.Acyclic) (θ : Var → Term) :
    s.Agrees fun v => (s.image s.size v).expand θ := by
  intro v b bound
  show (s.image s.size v).expand θ = _
  rw [h.agrees_image v b bound, Term.expand_expand]

/-- Where every reading that agrees with the bindings counts, some reading is admitted: no
    variable of a propagator is unbound, so that no propagator is stored, and a variable
    with a domain can be read as any value of it. -/
theorem Orderly.exists_admits (h : s.Orderly K) (counts : ∀ θ, s.Agrees θ → K.readings θ) :
    ∃ θ, K.readings θ ∧ s.Admits θ := by
  have unstored (v : Var) (p : Propagator) : p ∉ s.storedWatchers v := by
    intro stored
    obtain ⟨w, in_vars, leads⟩ := h.mentions v p stored
    have agrees := h.acyclic.agrees_expand_image fun _ => Term.nil
    obtain ⟨n, read, _⟩ := h.integral p (.inr ⟨v, stored⟩) w in_vars _ (counts _ agrees) agrees
    have read_v := agrees.expand_walk (.var w)
    rw [leads] at read_v
    change (s.image s.size v).expand _ = (s.image s.size w).expand _ at read_v
    rw [read, image_of_unbound (h.acyclic.get?_of_walk leads)] at read_v
    cases read_v
  have inhabited (v : Var) : ∃ b : Term, ∀ a, (s.attributes v).domain = some a → a.val.domain.Holds b := by
    cases found : (s.attributes v).domain with
    | none => exact ⟨.nil, by simp⟩
    | some a =>
      have undecided := h.domain v a found
      obtain ⟨n, mem⟩ := undecided.canonical.exists_mem undecided.nonempty
      refine ⟨.int n, fun b same => ?_⟩
      cases same
      exact ⟨n, rfl, undecided.canonical.isValue_of_mem undecided.finite mem, mem⟩
  choose reading holds using inhabited
  have agrees := h.acyclic.agrees_expand_image reading
  refine ⟨_, counts _ agrees, agrees, fun v a found => ?_, fun v a found p mem => ?_⟩
  · rw [image_of_unbound (h.unbound_of_get? (getAttr_domain_iff.mpr found))]
    exact holds v a found
  · exact absurd (mem_storedWatchers_iff.mpr ⟨a, found, mem⟩) (unstored v p)

end Subst

/-! ## Questions -/

section Questions

variable {k : Nat}

/-- The constraint between constants and unknowns, of values of the unknowns. -/
def Constraint.HoldsOf (σ : Fin k → Int) (c : Constraint (Int ⊕ Fin k)) : Prop := (c.map (Sum.elim id σ)).Holds

/-- Values of 64 bits of which all of the constraints hold. -/
structure IsSolution (cs : List (Constraint (Int ⊕ Fin k))) (σ : Fin k → Int) : Prop where
  value : ∀ i, isValue (σ i) = true
  holds : ∀ c ∈ cs, c.HoldsOf σ

/-- The list of the values. -/
def valueList (σ : Fin k → Int) : Term := .ofList (List.ofFn fun i => .int (σ i))

/-- The list of the variables that stand for the unknowns. -/
def placeList (place : Fin k → Var) : Term := .ofList (List.ofFn fun i => .var (place i))

theorem valueList_injective : Function.Injective (valueList (k := k)) := by
  intro σ τ same
  have alike := List.ofFn_injective (Term.ofList_injective same)
  funext i
  have := congrFun alike i
  simpa [Term.int] using this

theorem expand_placeList {place : Fin k → Var} {θ : Var → Term} {σ : Fin k → Int}
    (read : ∀ i, θ (place i) = .int (σ i)) : (placeList place).expand θ = valueList σ := by
  unfold placeList valueList
  rw [Term.expand_ofList, List.map_ofFn]
  congr 2
  funext i
  exact read i

/-- A reading of the unknowns as given values, of one more variable as their list, and of
    any other variable as an integer. -/
theorem exists_reading {place : Fin k → Var} {q : Var} (injective : Function.Injective place)
    (apart : ∀ i, place i ≠ q) {σ : Fin k → Int} (values : ∀ i, isValue (σ i) = true) :
    ∃ θ : Var → Term, (∀ i, θ (place i) = .int (σ i)) ∧ θ q = valueList σ ∧ ∀ v, v ≠ q → (θ v).IsValue := by
  let ints : Var → Term := Function.extend place (fun i => .int (σ i)) fun _ => .int 0
  have read (i : Fin k) : Function.update ints q (valueList σ) (place i) = .int (σ i) :=
    (Function.update_of_ne (apart i) _ _).trans (injective.extend_apply _ _ i)
  refine ⟨Function.update ints q (valueList σ), read, Function.update_self q _ _, fun v other => ?_⟩
  by_cases unknown : ∃ i, place i = v
  · obtain ⟨i, rfl⟩ := unknown
    exact ⟨σ i, read i, values i⟩
  · exact ⟨0, (Function.update_of_ne other _ _).trans (Function.extend_apply' _ _ _ unknown), by decide⟩

end Questions

/-- The readings that give integers to the variables of a kind. -/
def Scope.integral (ints : Var → Prop) : Scope := ⟨fun θ => ∀ v, ints v → (θ v).IsValue, fun _ => False⟩

namespace Subst

variable {k : Nat} {cs : List (Constraint (Int ⊕ Fin k))} {place : Fin k → Var} {q : Var} {u t : Subst}

/-- The query variable is bound to the list of the unknowns, and any other variable to an
    integer if to anything; every unknown has a value or a finite domain. -/
structure Asked (place : Fin k → Var) (q : Var) (u : Subst) : Prop where
  orderly : u.Orderly (.integral fun v => ∃ i, place i = v)
  query : u.get? q = some (placeList place)
  ints : ∀ v, v ≠ q → ∀ a, u.get? v = some a → ∃ n, a = .int n
  finite : ∀ i, u.get? (place i) = none → u.storedDomain (place i) ≠ .unbounded

/-- The substitution poses the question for the unknowns of constraints: of the readings
    that give integers to the unknowns those are admitted that satisfy the constraints. -/
structure Posed (cs : List (Constraint (Int ⊕ Fin k))) (place : Fin k → Var) (q : Var) (u : Subst) : Prop
    extends u.Asked place q where
  injective : Function.Injective place
  apart : ∀ i, place i ≠ q
  admits : ∀ θ, (∀ i, (θ (place i)).IsValue) →
    (u.Admits θ ↔ (∀ c ∈ cs, c.HoldsOf fun i => (θ (place i)).number) ∧ θ q = (placeList place).expand θ)

/-- The unknowns and the variables with a finite domain. -/
def Pinned (place : Fin k → Var) (u : Subst) (v : Var) : Prop := (∃ i, place i = v) ∨ u.storedDomain v ≠ .unbounded

namespace Posed

variable (h : u.Posed cs place q)

include h

theorem storedDomain_query : u.storedDomain q = .unbounded := by
  unfold storedDomain
  rw [h.orderly.unbound q (by simp [h.query])]

theorem ne_of_finite {v : Var} (finite : u.storedDomain v ≠ .unbounded) : v ≠ q := by
  rintro rfl
  exact finite h.storedDomain_query

/-- Labeling counts with integers for the variables with a finite domain too. -/
theorem orderly_pinned : u.Orderly (.integral (u.Pinned place)) := by
  refine h.orderly.rescope (fun _ => False.elim) ?_ (fun _ => False.elim) fun _ _ => False.elim
  exact fun p carries v mem θ reading agrees =>
    h.orderly.integral p carries v mem θ (fun w here => reading w (.inl here)) agrees

variable (labeled : u.Labeled (.integral (u.Pinned place)) (fun _ => True) u.finiteVars t)

include labeled

/-- In an answer of labeling every unknown has a value, and so has every variable that had
    a finite domain. -/
theorem pinned {v : Var} (pinned : u.Pinned place v) : ∃ n, t.get? v = some (.int n) := by
  have other : v ≠ q := by
    rcases pinned with ⟨i, rfl⟩ | finite
    · exact h.apart i
    · exact h.ne_of_finite finite
  cases bound : t.get? v with
  | some a =>
    obtain ⟨n, rfl⟩ := (labeled.gains v a bound).elim (h.ints v other a) id
    exact ⟨n, rfl⟩
  | none =>
    have before : u.get? v = none := by
      cases bound' : u.get? v with
      | none => rfl
      | some a => cases bound.symm.trans (labeled.extends_ v a bound')
    have finite : u.storedDomain v ≠ .unbounded := by
      rcases pinned with ⟨i, rfl⟩ | finite
      · exact h.finite i before
      · exact finite
    -- Labeling leaves no finite domain to the variable, but no more values than it had.
    have leads : t.walk (.var v) = .var v := walk_var_of_unbound bound
    have leads' : u.walk (.var v) = .var v := walk_var_of_unbound before
    obtain ⟨n, out⟩ := (h.orderly.canonical_storedDomain v).1.not_all finite
    refine absurd ?_ out
    rw [← leaves_of_walk leads']
    refine labeled.tightens v n ?_
    rw [leaves_of_walk leads, labeled.settled v (mem_finiteVars.mpr finite) v leads]
    exact Domain.mem_unbounded n

/-- An answer of labeling gives values to the unknowns, the query variable is the list of
    these, and there is a reading to it. -/
theorem exists_values : ∃ σ : Fin k → Int, (∀ i, t.get? (place i) = some (.int (σ i))) ∧
    t.walkDeep (.var q) = valueList σ ∧
    ∃ θ, (Scope.integral (u.Pinned place)).readings θ ∧ t.Admits θ ∧ ∀ i, θ (place i) = .int (σ i) := by
  have values (i : Fin k) : ∃ n, t.get? (place i) = some (.int n) := h.pinned labeled (.inl ⟨i, rfl⟩)
  choose σ bound using values
  have good := labeled.good.orderly
  have read {θ : Var → Term} (agrees : t.Agrees θ) (i : Fin k) : θ (place i) = .int (σ i) :=
    agrees _ _ (bound i)
  refine ⟨σ, bound, ?_, ?_⟩
  · have agrees := good.acyclic.agrees_image
    show t.image t.size q = _
    rw [agrees q _ (labeled.extends_ q _ h.query), expand_placeList (read agrees)]
  · obtain ⟨θ, reading, admits⟩ := good.exists_admits fun θ agrees v pinned => by
      obtain ⟨n, at_v⟩ := h.pinned labeled pinned
      exact ⟨n, agrees v _ at_v, good.sized v _ at_v⟩
    exact ⟨θ, reading, admits, read admits.binding⟩

omit labeled

/-- Where the constraints can be satisfied, only unknowns have a finite domain: what the
    substitution says of another variable could not be read off the constraints. -/
theorem exists_place {θ : Var → Term} (ints : ∀ i, (θ (place i)).IsValue) (admits : u.Admits θ) {v : Var}
    (finite : u.storedDomain v ≠ .unbounded) : ∃ i, place i = v := by
  by_contra other
  have apart (i : Fin k) : place i ≠ v := fun same => other ⟨i, same⟩
  have same (i : Fin k) : Function.update θ v Term.nil (place i) = θ (place i) := Function.update_of_ne (apart i) _ _
  obtain ⟨holds, query⟩ := (h.admits θ ints).mp admits
  have admits' : u.Admits (Function.update θ v Term.nil) := by
    refine (h.admits _ fun i => by rw [same]; exact ints i).mpr ⟨?_, ?_⟩
    · simpa only [same] using holds
    · have read (i : Fin k) : θ (place i) = .int (θ (place i)).number := (ints i).eq
      rw [Function.update_of_ne (h.ne_of_finite finite).symm, query, expand_placeList read,
        expand_placeList fun i => (same i).trans (read i)]
  unfold storedDomain at finite
  split at finite
  · rename_i a found
    obtain ⟨n, read, _⟩ := admits'.domain v a found
    rw [Function.update_self] at read
    cases read
  · exact finite rfl

variable {ts : List Subst}
  (parts : Answers.Parts (u.Labeled (.integral (u.Pinned place)) (fun _ => True) u.finiteVars)
    (fun t θ => (Scope.integral (u.Pinned place)).readings θ ∧ t.Admits θ)
    (fun θ => (Scope.integral (u.Pinned place)).readings θ ∧ u.Admits θ) ts)

include parts

/-- Each answer of labeling makes the query variable a solution. -/
theorem sound (mem : t ∈ ts) : ∃ σ, IsSolution cs σ ∧ t.walkDeep (.var q) = valueList σ := by
  obtain ⟨σ, bound, answer, θ, reading, admits, read⟩ := h.exists_values (parts.good t mem)
  obtain ⟨_, admits'⟩ := (parts.covers θ).mpr ⟨t, mem, reading, admits⟩
  have holds := ((h.admits θ fun i => reading _ (.inl ⟨i, rfl⟩)).mp admits').1
  simp only [read, Term.number_int] at holds
  exact ⟨σ, ⟨fun i => (parts.good t mem).good.orderly.sized _ _ (bound i), holds⟩, answer⟩

/-- Each solution is what one of the answers makes the query variable. -/
theorem complete {σ : Fin k → Int} (solves : IsSolution cs σ) : ∃ t ∈ ts, t.walkDeep (.var q) = valueList σ := by
  obtain ⟨θ, read, query, ints⟩ := exists_reading h.injective h.apart solves.value
  have reading : (Scope.integral (u.Pinned place)).readings θ := by
    rintro v (⟨i, rfl⟩ | finite)
    · exact ints _ (h.apart i)
    · exact ints v (h.ne_of_finite finite)
  have admits : u.Admits θ := by
    refine (h.admits θ fun i => ints _ (h.apart i)).mpr ⟨?_, ?_⟩
    · simpa only [read, Term.number_int] using solves.holds
    · rw [expand_placeList read, query]
  obtain ⟨t, mem, _, admits'⟩ := (parts.covers θ).mp ⟨reading, admits⟩
  obtain ⟨τ, bound, answer, _⟩ := h.exists_values (parts.good t mem)
  refine ⟨t, mem, ?_⟩
  have same : σ = τ := by
    funext i
    have alike : Term.int (σ i) = .int (τ i) := (read i).symm.trans (admits'.binding _ _ (bound i))
    simpa [Term.int] using alike
  rw [answer, same]

/-- Answers of labeling that differ make the query variable different lists. -/
theorem apart_of_differ (mem : t ∈ ts) {t' : Subst} (mem' : t' ∈ ts) (differ : DifferOn u.finiteVars t t') :
    t.walkDeep (.var q) ≠ t'.walkDeep (.var q) := by
  obtain ⟨σ, bound, answer, θ, reading, admits, _⟩ := h.exists_values (parts.good t mem)
  obtain ⟨σ', bound', answer', _⟩ := h.exists_values (parts.good t' mem')
  obtain ⟨_, admits'⟩ := (parts.covers θ).mpr ⟨t, mem, reading, admits⟩
  obtain ⟨v, in_vars, m, n, at_v, at_v', other⟩ := differ
  obtain ⟨i, rfl⟩ := h.exists_place (fun i => reading _ (.inl ⟨i, rfl⟩)) admits' (mem_finiteVars.mp in_vars)
  have value {t : Subst} (acyclic : t.Acyclic) {τ : Fin k → Int} {m : Int}
      (bound : t.get? (place i) = some (.int (τ i))) (at_v : t.walk (.var (place i)) = .int m) : τ i = m := by
    rw [acyclic.walk_of_bound bound, walk_of_not_var (by simp [Term.int])] at at_v
    simpa [Term.int] using at_v
  rw [answer, answer']
  intro same
  refine other ?_
  rw [← value (parts.good t mem).good.orderly.acyclic (bound i) at_v,
    ← value (parts.good t' mem').good.orderly.acyclic (bound' i) at_v', valueList_injective same]

end Posed

end Subst

/-! ## Goals of questions -/

/-- The operand, with a variable for each unknown. -/
def Operand.at {k : Nat} (place : Fin k → Var) : Int ⊕ Fin k → Operand := Sum.elim .const fun i => .var (place i)

/-- The goal for the list of the values of unknowns under constraints. -/
def Goal.solutions {k : Nat} (cs : List (Constraint (Int ⊕ Fin k))) (q : Var) : Goal :=
  .fresh k fun vs =>
    .conj (.conjAll (cs.map fun c => (c.map (Operand.at fun i => vs.getD i ⟨0⟩)).goal))
      (.eq (.var q) (.ofList (vs.map .var)))

namespace Goal

theorem direct_check (b : Bool) : (check b).Direct := by
  cases b <;> trivial

theorem direct_fix (v : Var) (n : Option Int) : (fix v n).Direct := by
  cases n <;> trivial

theorem direct_dom (x : Operand) (d : Domain) : (dom x d).Direct := by
  cases x with
  | const n => exact direct_check _
  | var v =>
    show (if d.isEmpty then fail else narrow v d).Direct
    split <;> trivial

theorem direct_plus (x y z : Operand) : (plus x y z).Direct := by
  cases x <;> cases y <;> cases z <;> first | trivial | exact direct_check _ | exact direct_fix _ _

theorem direct_times (m : Int) (x z : Operand) : (times m x z).Direct := by
  cases x with
  | const a => cases z <;> first | exact direct_check _ | exact direct_fix _ _
  | var x =>
    cases z with
    | const b =>
      show (if m = 0 then check (b = 0) else if Int.tmod b m = 0 then fix x (value? (Int.tdiv b m)) else fail).Direct
      split
      · exact direct_check _
      · split
        · exact direct_fix _ _
        · trivial
    | var z => trivial

theorem direct_distinct (xs : List Operand) : (distinct xs).Direct := by
  show (if (operandVars xs).isEmpty then check (allDistinct (operandConsts xs))
    else post (.allDifferent (operandVars xs) (operandConsts xs))).Direct
  split
  · exact direct_check _
  · trivial

end Goal

theorem Constraint.direct_goal (c : Constraint Operand) : c.goal.Direct := by
  cases c with
  | dom x d => exact Goal.direct_dom x d
  | inRange x lb ub => exact Goal.direct_dom x _
  | inSet x ns => exact Goal.direct_dom x _
  | plus x y z => exact Goal.direct_plus x y z
  | minus x y z => exact Goal.direct_plus y z x
  | times m x z => exact Goal.direct_times m x z
  | neq x y => exact Goal.direct_distinct [x, y]
  | distinct xs => exact Goal.direct_distinct xs

theorem Goal.direct_solutions {k : Nat} (cs : List (Constraint (Int ⊕ Fin k))) (q : Var) :
    (solutions cs q).Direct := by
  refine fun vs => ⟨direct_conjAll fun g mem => ?_, trivial⟩
  obtain ⟨c, _, rfl⟩ := List.mem_map.mp mem
  exact Constraint.direct_goal _

/-! ## Queries -/

section Queries

variable {k : Nat} {cs cs' : List (Constraint (Int ⊕ Fin k))} {place : Fin k → Var} {q : Var} {u : Subst} {c : Context}

/-- The constraints can be asked about: their integers have 64 bits, and each unknown is
    given a finite domain. -/
structure Askable (cs : List (Constraint (Int ⊕ Fin k))) : Prop where
  proper : ∀ c ∈ cs, c.Proper
  sized : ∀ c ∈ cs, ∀ n, .inl n ∈ c.operands → isValue n = true
  limited : ∀ i, ∃ c ∈ cs, c.Limits (.inr i)

/-- The answers are the solutions of the constraints, each of them once. -/
structure Solved (cs : List (Constraint (Int ⊕ Fin k))) (answers : List Term) : Prop where
  nodup : answers.Nodup
  mem_iff : ∀ a, a ∈ answers ↔ ∃ σ, IsSolution cs σ ∧ a = valueList σ

theorem Askable.perm (h : Askable cs) (perm : cs'.Perm cs) : Askable cs' where
  proper c mem := h.proper c (perm.mem_iff.mp mem)
  sized c mem := h.sized c (perm.mem_iff.mp mem)
  limited i := by
    obtain ⟨c, mem, limits⟩ := h.limited i
    exact ⟨c, perm.mem_iff.mpr mem, limits⟩

/-- The order of the constraints does not matter to the solutions. -/
theorem Solved.perm {answers answers' : List Term} (h : Solved cs answers) (h' : Solved cs' answers')
    (perm : cs'.Perm cs) : answers'.Perm answers := by
  refine (List.perm_ext_iff_of_nodup h'.nodup h.nodup).mpr fun a => ?_
  rw [h'.mem_iff, h.mem_iff]
  refine exists_congr fun σ => and_congr_left fun _ => ⟨fun solves => ?_, fun solves => ?_⟩
  · exact ⟨solves.value, fun c mem => solves.holds c (perm.mem_iff.mpr mem)⟩
  · exact ⟨solves.value, fun c mem => solves.holds c (perm.mem_iff.mp mem)⟩

/-- Labeling the substitution that poses a question gives the solutions. -/
theorem Subst.Posed.solved (h : u.Posed cs place q) {I : Interp Task Goal Subst}
    (explores : ∀ s v half us, I.start (.explore s v half us) = s.explore v half us) :
    ∃ ts out, Series.PlaysOut I u.labelAll ts out ∧
      (out = none ∧ Solved cs (ts.map fun t => t.walkDeep (.var q)) ∨ ∃ f, out = some (.fault f) ∧ f.IsOverflow) := by
  have integral (v : Var) (finite : u.storedDomain v ≠ .unbounded) :
      u.Integral (.integral (u.Pinned place)) v := fun θ reading _ => reading v (.inr finite)
  obtain ⟨ts, out, plays, _, divided⟩ :=
    h.orderly_pinned.inAll.labelAll (fun _ _ => trivial) explores integral
  refine ⟨ts, out, plays, ?_⟩
  match out, divided with
  | some (.fault f), overflow => exact .inr ⟨f, rfl, overflow⟩
  | none, parts =>
    refine .inl ⟨rfl, ?_, fun a => ?_⟩
    · have differ : ts.Pairwise (DifferOn u.finiteVars) := by
        unfold labelAll at plays
        split at plays
        · have shown : Series.PlaysOut I (.ok (.unit u)) [u] none := ⟨1, .element .ended⟩
          obtain ⟨rfl, _⟩ := plays.unique shown
          exact List.pairwise_singleton _ _
        · exact h.orderly_pinned.differ_of_label (fun v mem => integral v (mem_finiteVars.mp mem)) explores plays
      refine List.pairwise_map.mpr (differ.imp_of_mem fun mem mem' differ => ?_)
      exact h.apart_of_differ parts mem mem' differ
    · rw [List.mem_map]
      constructor
      · rintro ⟨t, mem, rfl⟩
        exact h.sound parts mem
      · rintro ⟨σ, solves, rfl⟩
        exact h.complete parts solves

/-- The variables for the unknowns, behind the query variable. -/
def placeOf (i : Fin k) : Var := ⟨1 + i⟩

theorem placeOf_injective : Function.Injective (placeOf (k := k)) := by
  intro i j same
  have indices : 1 + i.val = 1 + j.val := congrArg Var.index same
  omega

theorem placeOf_ne_query (i : Fin k) : placeOf i ≠ ⟨0⟩ := by
  intro same
  have indices : 1 + i.val = 0 := congrArg Var.index same
  omega

/-- What is known where the query variable has been made the list of the unknowns. -/
theorem Subst.Orderly.asked {K : Scope} {t : Subst} (same : K = .integral fun v => ∃ i, place i = v) (h : t.Orderly K)
    (ints : ∀ v a, t.get? v = some a → ∃ n, a = .int n) (limited : ∀ i, t.Limited (place i))
    (apart : ∀ i, place i ≠ q) :
    (Goal.eq (.var q) (placeList place)).Attempts c K (Asked place q) t
      fun θ => θ q = (placeList place).expand θ := by
  have not_var (w : Var) : placeList place ≠ .var w := by
    unfold placeList Term.ofList
    cases List.ofFn fun i => Term.var (place i) <;> simp [Term.listOnto]
  have no_int : (placeList place).asInt? = none := by
    unfold placeList Term.ofList
    cases List.ofFn fun i => Term.var (place i) <;> rfl
  have sized : (placeList place).Sized := by
    refine Term.sized_ofList fun t mem => ?_
    obtain ⟨i, rfl⟩ := List.mem_ofFn.mp mem
    trivial
  have solves := h.unify (a := .var q) trivial sized
  refine Goal.attempts_of_solves (r := t.unify (.var q) (placeList place)) rfl ?_
  rcases h.unify_var (ints q) not_var no_int with conflict | ⟨unbound, bare, bound⟩
  · rw [conflict] at solves ⊢
    exact solves
  · rw [bound] at solves ⊢
    obtain ⟨good, ext, exact_⟩ := solves
    refine ⟨⟨same ▸ good, ?_, fun v other a found => ?_, fun i unbound => ?_⟩, ext, exact_⟩
    · rw [get?_bindBare, if_pos rfl]
    · rw [get?_bindBare, if_neg other.symm] at found
      exact ints v a found
    · rw [get?_bindBare, if_neg (apart i).symm] at unbound
      have leads : t.walk (.var (place i)) = .var (place i) :=
        walk_var_of_unbound unbound
      have stored : (t.bindBare q (placeList place)).storedDomain (place i) = t.storedDomain (place i) := by
        unfold storedDomain
        rw [attributes_bindBare, if_neg (apart i).symm]
      rw [stored]
      intro full
      obtain ⟨n, out⟩ := limited i
      rw [leaves_of_walk leads, full] at out
      exact out (Domain.mem_unbounded n)

/-- The unknowns as new variables. -/
theorem freshMany_query (k : Nat) :
    (Subst.empty.fresh.2.freshMany k).1 = List.ofFn fun i : Fin k => placeOf i := by
  refine List.ext_getElem (by simp [Subst.freshMany]) fun i _ less => ?_
  simp [Subst.freshMany, Subst.fresh, Subst.empty, placeOf]

theorem read_at (θ : Var → Term) (c : Constraint (Int ⊕ Fin k)) :
    (((c.map (Operand.at place)).map (Operand.read θ)).Holds ↔ c.HoldsOf fun i => (θ (place i)).number) := by
  have same : Operand.read θ ∘ Operand.at place = Sum.elim id fun i => (θ (place i)).number := by
    funext x
    cases x <;> rfl
  rw [Constraint.map_map, same]
  rfl

/-- The goal for the solutions poses the question. -/
theorem Askable.attempts (h : Askable cs) :
    (Goal.solutions cs ⟨0⟩).Attempts c (.integral fun v => ∃ i : Fin k, placeOf i = v)
      (Subst.Asked (k := k) placeOf ⟨0⟩) Subst.empty.fresh.2
      fun θ => (∀ c ∈ cs, c.HoldsOf fun i => (θ (placeOf i)).number) ∧ θ ⟨0⟩ = (placeList (k := k) placeOf).expand θ := by
  have vars : ((List.ofFn fun i : Fin k => placeOf i).map .var : List Term) = List.ofFn fun i : Fin k => .var (placeOf i) :=
    List.map_ofFn
  have places : (fun i : Fin k => (List.ofFn fun i : Fin k => placeOf i).getD i ⟨0⟩) = placeOf := by
    funext i
    simp [List.getD]
  refine Goal.Attempts.fresh ?_
  rw [freshMany_query, vars, places]
  generalize start : (Subst.empty.fresh.2.freshMany k).2 = s
  have good : s.Orderly (.integral fun v => ∃ i : Fin k, placeOf i = v) := by
    rw [← start]
    exact (Subst.orderly_empty fun _ => id).congr rfl rfl (Nat.le_refl _)
  have unbound (v : Var) : s.get? v = none := by
    rw [← start]
    exact Subst.get?_empty v
  have stated := Constraint.attempts_conjAll (c := c) (cs.map fun c => c.map (Operand.at placeOf)) s good ?_
  · rw [List.map_map] at stated
    have both := stated.conj fun t refined => refined.1.good.orderly.asked (q := ⟨0⟩) rfl
      (fun v a bound => (refined.1.gains v a bound).resolve_left (by simp [unbound]))
      (fun i => by
        obtain ⟨c, mem, limits⟩ := h.limited i
        exact refined.2 _ (List.mem_map_of_mem mem) _ (limits.map (Operand.at placeOf)))
      placeOf_ne_query
    refine both.congr fun θ _ _ => and_congr_left' ?_
    simp only [List.forall_mem_map, read_at]
  · intro k' mem
    obtain ⟨c, in_cs, rfl⟩ := List.mem_map.mp mem
    refine ⟨(Constraint.proper_map _ c).mpr (h.proper c in_cs), fun x in_operands => ?_⟩
    rw [Constraint.operands_map] at in_operands
    obtain ⟨y, in_c, rfl⟩ := List.mem_map.mp in_operands
    cases y with
    | inl n => exact h.sized c in_cs n in_c
    | inr i => exact fun θ reading => reading _ ⟨i, rfl⟩

/-- What the query for the solutions comes to. -/
theorem Askable.ends (h : Askable cs) (program : Program) :
    (∃ f : Fault, f.IsOverflow ∧ Query.Ends program (Goal.solutions cs) (.error (.fault f))) ∨
      ∃ answers, Query.Ends program (Goal.solutions cs) (.ok answers) ∧ Solved cs answers := by
  have empty (θ : Var → Term) : Subst.empty.fresh.2.Admits θ := by
    have same : Subst.empty.fresh.2.Admits θ ↔ Subst.empty.Admits θ := Subst.admits_congr rfl rfl
    refine same.mpr ⟨fun v a bound => ?_, fun v a found => ?_, fun v a found => ?_⟩
    · simp at bound
    · simp at found
    · simp at found
  have direct := Goal.direct_solutions cs
  obtain ⟨r, amounts, solves⟩ := h.attempts (c := program.context 0)
  match r, amounts, solves with
  | .ok u, amounts, ⟨asked, _, exact_⟩ =>
    have posed : u.Posed cs placeOf ⟨0⟩ := by
      refine ⟨asked, placeOf_injective, placeOf_ne_query, fun θ ints => ?_⟩
      have reading : (Scope.integral fun v => ∃ i : Fin k, placeOf i = v).readings θ := by
        rintro v ⟨i, rfl⟩
        exact ints i
      exact (and_iff_right reading).symm.trans ((exact_ θ).trans (and_iff_right ⟨reading, empty θ⟩))
    obtain ⟨ts, out, plays, result⟩ := posed.solved (I := (program.context 0).interp) fun _ _ _ _ => rfl
    obtain ⟨us, shown, _, perm⟩ :=
      Series.PlaysOut.bind_singleton (I := (program.context 0).interp) (f := .labelAll) amounts plays
    have ends := Query.ends_of_plays direct shown
    rcases result with ⟨rfl, solved⟩ | ⟨f, rfl, overflow⟩
    · refine .inr ⟨_, ends, ?_⟩
      have same := (perm rfl).map fun t => t.walkDeep (.var ⟨0⟩)
      exact ⟨same.nodup_iff.mpr solved.nodup, fun a => same.mem_iff.trans (solved.mem_iff a)⟩
    · exact .inl ⟨f, overflow, ends⟩
  | .error .conflict, amounts, refuted =>
    refine .inr ⟨[], Query.ends_of_plays direct (Series.PlaysOut.bind_nil (f := .labelAll) amounts), .nil, fun a => ?_⟩
    simp only [List.not_mem_nil, false_iff]
    rintro ⟨σ, solves, rfl⟩
    obtain ⟨θ, read, query, ints⟩ := exists_reading placeOf_injective (q := ⟨0⟩) placeOf_ne_query solves.value
    refine refuted θ ⟨?_, empty θ⟩ ⟨?_, ?_⟩
    · rintro v ⟨i, rfl⟩
      exact ints _ (placeOf_ne_query i)
    · simpa only [read, Term.number_int] using solves.holds
    · rw [expand_placeList read, query]
  | .error (.stop (.fault f)), amounts, overflow =>
    exact .inl ⟨f, overflow, Query.ends_of_plays direct (Series.PlaysOut.bind_nil (f := .labelAll) amounts)⟩

/-- A query for the values of unknowns that are given finite domains hits an overflow, or
    it answers with a list of the solutions of the constraints, each of them once. The
    order of the constraints does not matter to what is answered. -/
theorem Query.run_exact (h : Askable cs) (program : Program) :
    (∃ f : Fault, f.IsOverflow ∧ Query.Ends program (Goal.solutions cs) (.error (.fault f))) ∨
      ∃ answers, Query.Ends program (Goal.solutions cs) (.ok answers) ∧ answers.Nodup ∧
        (∀ a, a ∈ answers ↔ ∃ σ, IsSolution cs σ ∧ a = valueList σ) ∧
        ∀ cs' answers', cs'.Perm cs → Query.Ends program (Goal.solutions cs') (.ok answers') →
          answers'.Perm answers := by
  refine (h.ends program).imp_right fun ⟨answers, ends, solved⟩ => ?_
  refine ⟨answers, ends, solved.nodup, solved.mem_iff, fun cs' answers' perm ends' => ?_⟩
  rcases (h.perm perm).ends program with ⟨f, _, ends''⟩ | ⟨answers'', ends'', solved'⟩
  · cases ends'.unique ends''
  · cases ends'.unique ends''
    exact solved.perm solved' perm

end Queries

/-- The query for `x` and `y` where `x + y = 14`, `x + 4 = y` and both are from 0 to 10. -/
theorem Query.run_exact_sum :
    let cs : List (Constraint (Int ⊕ Fin 2)) :=
      [.plus (.inr 0) (.inr 1) (.inl 14), .plus (.inr 0) (.inl 4) (.inr 1), .inRange (.inr 0) 0 10,
        .inRange (.inr 1) 0 10]
    let program : Program := fun _ _ => .fail
    Askable cs ∧
      ((∃ f : Fault, f.IsOverflow ∧ Query.Ends program (Goal.solutions cs) (.error (.fault f))) ∨
        ∃ answers, Query.Ends program (Goal.solutions cs) (.ok answers) ∧ answers.Nodup ∧
          (∀ a, a ∈ answers ↔ ∃ σ, IsSolution cs σ ∧ a = valueList σ) ∧
          ∀ cs' answers', cs'.Perm cs → Query.Ends program (Goal.solutions cs') (.ok answers') →
            answers'.Perm answers) := by
  intro cs program
  have askable : Askable cs := by
    refine ⟨?_, ?_, Fin.forall_fin_two.mpr ⟨?_, ?_⟩⟩
    · simp only [cs, List.forall_mem_cons]
      exact ⟨trivial, trivial, ⟨rfl, rfl⟩, ⟨rfl, rfl⟩, by simp⟩
    · simp [cs, Constraint.operands, isValue, minValue, maxValue]
    · exact ⟨.inRange (.inr 0) 0 10, by simp [cs], rfl⟩
    · exact ⟨.inRange (.inr 1) 0 10, by simp [cs], rfl⟩
  exact ⟨askable, run_exact askable program⟩

end ConstraintLogic
