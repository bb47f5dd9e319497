import ConstraintLogic.Proofs.Goal.Legibility
import ConstraintLogic.Proofs.Labeling.Groundness
import ConstraintLogic.Proofs.Query.Exactness
import ConstraintLogic.Proofs.Report.Contents

/-!
# What a report means

The constraints that are reported beside an answer are terms. Read literally, as
comparisons, sums, products and differences of integers, they say of the variables that
the answer leads to just what is stored with these variables: their domains, and their
propagators, also where a propagator is a table or has become another relation.

Results:
* `Term.Asserts`: what a reported term says.
* `Subst.asserts_statement`, `Subst.asserts_domainStatement`: statements of relations and
  domains say what they are statements of.
* `Subst.Orderly.residual_iff`: a report says what is stored.
* `Query.answers_account`: reports beside answers.
-/

namespace ConstraintLogic

/-! ## Reading reported terms -/

namespace Term

variable {σ : Assignment} {a b c : Term} {n : Int}

/-- The integer that a term is if its variables are given integers. -/
def integer? (σ : Assignment) : Term → Option Int
  | .atom (.int n) => some n
  | .var v => some (σ v)
  | _ => none

/-- The term, read literally, holds of the integers: bounds and values of an operand, a
    sum, a product, or different operands. -/
inductive Asserts (σ : Assignment) : Term → Prop
  | between {a : Term} {n lb ub : Int} (at_a : a.integer? σ = some n) (lower : lb ≤ n) (upper : n ≤ ub) :
      Asserts σ (ofList [str "in", a, int lb, int ub])
  | among {a : Term} {n : Int} {ns : List Int} (at_a : a.integer? σ = some n) (mem : n ∈ ns) :
      Asserts σ (ofList [str "in", a, ofList (ns.map int)])
  | sum {a b c : Term} {k m n : Int} (at_a : a.integer? σ = some k) (at_b : b.integer? σ = some m)
      (at_c : c.integer? σ = some n) (equal : k + m = n) : Asserts σ (ofList [str "+", a, b, c])
  | product {a b c : Term} {k m n : Int} (at_a : a.integer? σ = some k) (at_b : b.integer? σ = some m)
      (at_c : c.integer? σ = some n) (equal : k * m = n) : Asserts σ (ofList [str "*", a, b, c])
  | distinct {ts : List Term} {ns : List Int} (at_ts : ts.map (integer? σ) = ns.map some) (differ : ns.Nodup) :
      Asserts σ (ofList [str "distinct", ofList ts])

@[simp] theorem integer?_int : (int n).integer? σ = some n := rfl

/-- An operand is the integer that the integers of its variables make of it. -/
theorem integer?_eq_some : a.integer? σ = some n ↔ a.expand (fun v => int (σ v)) = int n := by
  unfold integer?
  split
  · simp [expand, int]
  · simp [expand, int]
  · rename_i not_int not_var
    refine iff_of_false (by simp) fun same => ?_
    cases a with
    | nil => cases same
    | atom x => exact not_int n same
    | var v => exact not_var v rfl
    | pair h t => cases same

theorem asserts_between {lb ub : Int} : (ofList [str "in", a, int lb, int ub]).Asserts σ ↔
    ∃ n, a.integer? σ = some n ∧ lb ≤ n ∧ n ≤ ub := by
  refine ⟨fun h => ?_, fun ⟨n, at_a, lower, upper⟩ => .between at_a lower upper⟩
  generalize same : ofList [str "in", a, int lb, int ub] = t at h
  cases h <;> have lists := ofList_injective same <;> simp [str, int] at lists
  obtain ⟨rfl, rfl, rfl⟩ := lists
  exact ⟨_, ‹_›, ‹_›, ‹_›⟩

theorem asserts_among {ns : List Int} : (ofList [str "in", a, ofList (ns.map int)]).Asserts σ ↔
    ∃ n, a.integer? σ = some n ∧ n ∈ ns := by
  refine ⟨fun h => ?_, fun ⟨n, at_a, mem⟩ => .among at_a mem⟩
  generalize same : ofList [str "in", a, ofList (ns.map int)] = t at h
  cases h <;> have lists := ofList_injective same <;> simp [str] at lists
  obtain ⟨rfl, values⟩ := lists
  have values := List.map_injective_iff.mpr (fun a b (same : int a = int b) => by simpa [int] using same)
    (ofList_injective values)
  subst values
  exact ⟨_, ‹_›, ‹_›⟩

theorem asserts_sum : (ofList [str "+", a, b, c]).Asserts σ ↔
    ∃ k, a.integer? σ = some k ∧ ∃ m, b.integer? σ = some m ∧ ∃ n, c.integer? σ = some n ∧ k + m = n := by
  refine ⟨fun h => ?_, fun ⟨k, at_a, m, at_b, n, at_c, equal⟩ => .sum at_a at_b at_c equal⟩
  generalize same : ofList [str "+", a, b, c] = t at h
  cases h <;> have lists := ofList_injective same <;> simp [str] at lists
  obtain ⟨rfl, rfl, rfl⟩ := lists
  exact ⟨_, ‹_›, _, ‹_›, _, ‹_›, ‹_›⟩

theorem asserts_product : (ofList [str "*", a, b, c]).Asserts σ ↔
    ∃ k, a.integer? σ = some k ∧ ∃ m, b.integer? σ = some m ∧ ∃ n, c.integer? σ = some n ∧ k * m = n := by
  refine ⟨fun h => ?_, fun ⟨k, at_a, m, at_b, n, at_c, equal⟩ => .product at_a at_b at_c equal⟩
  generalize same : ofList [str "*", a, b, c] = t at h
  cases h <;> have lists := ofList_injective same <;> simp [str] at lists
  obtain ⟨rfl, rfl, rfl⟩ := lists
  exact ⟨_, ‹_›, _, ‹_›, _, ‹_›, ‹_›⟩

theorem asserts_distinct {ts : List Term} : (ofList [str "distinct", ofList ts]).Asserts σ ↔
    ∃ ns : List Int, ts.map (integer? σ) = ns.map some ∧ ns.Nodup := by
  refine ⟨fun h => ?_, fun ⟨ns, at_ts, differ⟩ => .distinct at_ts differ⟩
  generalize same : ofList [str "distinct", ofList ts] = t at h
  cases h <;> have lists := ofList_injective same <;> simp [str] at lists
  cases ofList_injective lists
  exact ⟨_, ‹_›, ‹_›⟩

end Term

/-! ## What variables are read as -/

namespace Subst

variable {s : Subst} {σ : Assignment} {v w : Var} {t : Term} {n : Int}

/-- What a variable is read as if the unbound variables are given integers. -/
def reading (s : Subst) (σ : Assignment) (v : Var) : Term := (s.walkDeep (.var v)).expand fun w => .int (σ w)

theorem Acyclic.agrees_reading (h : s.Acyclic) (σ : Assignment) : s.Agrees (s.reading σ) :=
  h.agrees_expand_image fun w => .int (σ w)

/-- An operand of a statement is the integer that it is read as. -/
theorem integer?_walkDeep : (s.walkDeep (.var v)).integer? σ = some n ↔ s.reading σ v = .int n :=
  Term.integer?_eq_some

theorem Acyclic.reading_of_walk (h : s.Acyclic) (leads : s.walk (.var v) = .var w) : s.reading σ v = .int (σ w) := by
  have read := (h.agrees_reading σ).expand_walk (.var v)
  rw [leads] at read
  have unbound : s.walkDeep (.var w) = .var w := image_of_unbound (h.get?_of_walk leads) s.size
  calc s.reading σ v = s.reading σ w := read.symm
    _ = .int (σ w) := by rw [reading, unbound, Term.expand]

/-- A variable that is read as an integer has it as its value, or stands for an unbound
    variable with that integer. -/
theorem Acyclic.of_reading (h : s.Acyclic) (read : s.reading σ v = .int n) :
    s.walk (.var v) = .int n ∨ ∃ w, s.walk (.var v) = .var w ∧ σ w = n := by
  have agrees : (Solver.new s).subst.Agrees (s.reading σ) := h.agrees_reading σ
  cases found : (Solver.new s).resolve v with
  | free w =>
    have leads : s.walk (.var v) = .var w := Solver.resolve_eq_free_iff.mp found
    have same : Term.int (σ w) = Term.int n := (h.reading_of_walk leads).symm.trans read
    simp only [Term.int, Term.atom.injEq, Atom.int.injEq] at same
    exact .inr ⟨w, leads, same⟩
  | value m =>
    have same := (Solver.reading_of_value agrees found).symm.trans read
    simp only [Term.int, Term.atom.injEq, Atom.int.injEq] at same
    exact .inl (same ▸ Solver.resolve_eq_value_iff.mp found)
  | other => exact absurd read (Solver.reading_ne_int_of_other agrees found n)

/-! ## Statements -/

@[simp] theorem walkDeep_int (s : Subst) (n : Int) : s.walkDeep (.int n) = .int n := rfl

@[simp] theorem walkDeep_str (s : Subst) (name : String) : s.walkDeep (.str name) = .str name := rfl

theorem walkDeep_ofList (s : Subst) (ts : List Term) : s.walkDeep (.ofList ts) = .ofList (ts.map s.walkDeep) :=
  Term.expand_ofList _ ts

/-- The statement of a domain says of the variable that its integer lies in the domain. -/
theorem asserts_domainStatement {fact : DomainFact} (undecided : fact.domain.Undecided)
    (read : s.reading σ fact.anchor = .int n) :
    (s.walkDeep (Attribute.domainStatement fact)).Asserts σ ↔ n ∈ fact.domain := by
  have at_anchor := integer?_walkDeep.mpr read
  obtain ⟨canonical, finite, nonempty, _⟩ := undecided
  unfold Attribute.domainStatement
  cases at_fact : fact.domain with
  | unbounded => exact absurd at_fact finite
  | empty =>
    rw [at_fact] at nonempty
    cases nonempty
  | interval lb ub =>
    simp only [walkDeep_ofList, List.map_cons, List.map_nil, walkDeep_str, walkDeep_int, Term.asserts_between, at_anchor,
      Option.some.injEq, exists_eq_left', Domain.mem_interval]
  | enumerated ns =>
    have values : (ns.map Term.int).map s.walkDeep = ns.map Term.int := by simp
    simp only [walkDeep_ofList, List.map_cons, List.map_nil, walkDeep_str, values, Term.asserts_among, at_anchor,
      Option.some.injEq, exists_eq_left', Domain.mem_enumerated]

/-- The statement of a relation that is no table says what the relation demands. -/
theorem asserts_statement {q : Relation} (primary : q.Primary)
    (values : ∀ v ∈ q.vars, ∀ n, s.reading σ v = .int n → isValue n = true) :
    (s.walkDeep q.statement).Asserts σ ↔ q.HoldsOf (s.reading σ) := by
  have value {v : Var} {n : Int} (mem : v ∈ q.vars) (read : s.reading σ v = .int n) : (s.reading σ v).IsValue :=
    ⟨n, read, values v mem n read⟩
  have operand {v : Var} (mem : v ∈ q.vars) (P : Int → Prop) :
      (∃ n, (s.walkDeep (.var v)).integer? σ = some n ∧ P n) ↔
        (s.reading σ v).IsValue ∧ P (integers (s.reading σ) v) := by
    constructor
    · rintro ⟨n, at_v, holds⟩
      have read := integer?_walkDeep.mp at_v
      refine ⟨value mem read, ?_⟩
      rwa [integers, read, Term.number_int]
    · rintro ⟨is_value, holds⟩
      exact ⟨_, integer?_walkDeep.mpr is_value.eq, holds⟩
  rw [Relation.holdsOf_iff]
  cases q with
  | plusConst x c z =>
    have in_x : x ∈ (Relation.plusConst x c z).vars := by simp [Relation.vars]
    have in_z : z ∈ (Relation.plusConst x c z).vars := by simp [Relation.vars]
    simp only [Relation.statement, walkDeep_ofList, List.map_cons, List.map_nil, walkDeep_str, walkDeep_int,
      Term.asserts_sum, Term.integer?_int, Option.some.injEq, exists_eq_left', operand in_x, operand in_z]
    simp [Relation.vars, Relation.Holds, and_assoc]
  | sumConst x y c =>
    have in_x : x ∈ (Relation.sumConst x y c).vars := by simp [Relation.vars]
    have in_y : y ∈ (Relation.sumConst x y c).vars := by simp [Relation.vars]
    simp only [Relation.statement, walkDeep_ofList, List.map_cons, List.map_nil, walkDeep_str, walkDeep_int,
      Term.asserts_sum, Term.integer?_int, Option.some.injEq, exists_eq_left', operand in_x, operand in_y]
    simp [Relation.vars, Relation.Holds, and_assoc]
  | sum x y z =>
    have in_x : x ∈ (Relation.sum x y z).vars := by simp [Relation.vars]
    have in_y : y ∈ (Relation.sum x y z).vars := by simp [Relation.vars]
    have in_z : z ∈ (Relation.sum x y z).vars := by simp [Relation.vars]
    simp only [Relation.statement, walkDeep_ofList, List.map_cons, List.map_nil, walkDeep_str, Term.asserts_sum,
      operand in_x, operand in_y, operand in_z]
    simp [Relation.vars, Relation.Holds, and_assoc]
  | scale c x z =>
    have in_x : x ∈ (Relation.scale c x z).vars := by simp [Relation.vars]
    have in_z : z ∈ (Relation.scale c x z).vars := by simp [Relation.vars]
    simp only [Relation.statement, walkDeep_ofList, List.map_cons, List.map_nil, walkDeep_str, walkDeep_int,
      Term.asserts_product, Term.integer?_int, Option.some.injEq, exists_eq_left', operand in_x, operand in_z]
    simp [Relation.vars, Relation.Holds, and_assoc]
  | allDifferent vs cs =>
    simp only [Relation.statement, walkDeep_ofList, List.map_cons, List.map_nil, walkDeep_str, Term.asserts_distinct,
      List.map_append, List.map_map]
    have consts : cs.map (Term.integer? σ ∘ s.walkDeep ∘ Term.int) = cs.map some := rfl
    have all (read : ∀ v ∈ vs, (s.reading σ v).IsValue) :
        vs.map (Term.integer? σ ∘ s.walkDeep ∘ Term.var) ++ cs.map (Term.integer? σ ∘ s.walkDeep ∘ Term.int) =
          (vs.map (integers (s.reading σ)) ++ cs).map some := by
      rw [List.map_append, List.map_map, consts]
      exact congrArg (· ++ cs.map some) (List.map_congr_left fun v mem => integer?_walkDeep.mpr (read v mem).eq)
    constructor
    · rintro ⟨ns, same, differ⟩
      have read (v : Var) (mem : v ∈ vs) : (s.reading σ v).IsValue := by
        have at_v : (s.walkDeep (.var v)).integer? σ ∈ ns.map some := by
          rw [← same]
          exact List.mem_append_left _ (List.mem_map_of_mem mem)
        obtain ⟨n, _, found⟩ := List.mem_map.mp at_v
        exact value mem (integer?_walkDeep.mp found.symm)
      have same : vs.map (integers (s.reading σ)) ++ cs = ns :=
        List.map_injective_iff.mpr (Option.some_injective _) ((all read).symm.trans same)
      exact ⟨read, by rwa [Relation.Holds, same]⟩
    · rintro ⟨read, differ⟩
      exact ⟨_, all read, differ⟩
  | table => exact primary.elim

/-! ## Reports -/

/-- The integers that variables are read as fit the domains, if those of the unbound
    variables that they stand for do. -/
theorem Acyclic.fits_reading (h : s.Acyclic) {vs : List Var} (values : ∀ v ∈ vs, (s.reading σ v).IsValue)
    (domains : ∀ v ∈ vs, ∀ w, s.walk (.var v) = .var w → σ w ∈ s.storedDomain w) :
    (Solver.new s).Fits vs (integers (s.reading σ)) where
  value v mem := (values v mem).isValue_number
  alike v mem w _ same := congrArg Term.number
    (Solver.reading_of_alike (s := Solver.new s) (h.agrees_reading σ) (values v mem) same)
  mem v mem := by
    have read := (values v mem).eq
    show integers (s.reading σ) v ∈ s.leaves v
    rcases h.of_reading read with value | ⟨w, leads, same⟩
    · rw [leaves_of_value value]
      exact Domain.mem_singleton.mpr rfl
    · rw [leaves_of_walk leads]
      have in_w := domains v mem w leads
      rwa [same] at in_w

/-- The statement of a relation that means what it shows, be it a table, says what the
    relation demands of integers that keep to the domains. -/
theorem Acyclic.asserts_candid (h : s.Acyclic) {r : Relation} (candid : r.Candid (Solver.new s).Fits)
    (values : ∀ v ∈ r.vars, ∀ n, s.reading σ v = .int n → isValue n = true)
    (domains : ∀ v ∈ r.vars, ∀ w, s.walk (.var v) = .var w → σ w ∈ s.storedDomain w) :
    (s.walkDeep r.statement).Asserts σ ↔ r.HoldsOf (s.reading σ) := by
  obtain ⟨q, displays⟩ := candid
  rw [displays.statement, asserts_statement displays.primary (by rwa [← displays.vars]), Relation.holdsOf_iff,
    Relation.holdsOf_iff, ← displays.vars]
  exact and_congr_right fun read => ⟨displays.complete _ (h.fits_reading read domains), displays.sound _⟩

/-- The constraints of a variable are its domain and its propagators. -/
theorem Orderly.mem_constraintsOn {K : Scope} (h : s.Orderly K) {c : Term × List Var} : c ∈ s.constraintsOn v ↔
    (∃ a, (s.attributes v).domain = some a ∧ c = (Attribute.domainStatement a.val, [a.val.anchor])) ∨
      ∃ p ∈ s.storedWatchers v, c = (p.val.statement, p.val.vars) := by
  rw [constraintsOn, h.toList_attributes, List.flatMap_append, List.mem_append]
  refine or_congr ?_ ?_
  · cases (s.attributes v).domain <;> simp [Attribute.constraints]
  · unfold storedWatchers
    cases (s.attributes v).watchers <;> simp [Attribute.constraints, eq_comm]

/-- A report says what is stored with the variables that the term leads to: if these are
    given integers of 64 bits, the reported terms hold of the integers just if the integers
    lie in the domains and the propagators hold. -/
theorem Orderly.residual_iff {K : Scope} (h : s.Orderly K) (legible : s.Legible)
    (values : ∀ v, s.Concerns t v → isValue (σ v) = true) :
    (∀ u, (s.residual t).Lists u → u.Asserts σ) ↔
      ∀ v, s.Concerns t v → σ v ∈ s.storedDomain v ∧ ∀ p ∈ s.storedWatchers v, p.val.HoldsOf (s.reading σ) := by
  have acyclic := h.acyclic
  have shared {v w x : Var} {p : Propagator} (concerned : s.Concerns t v) (mem : p ∈ s.storedWatchers v)
      (named : w ∈ p.val.vars) (leads : s.walk (.var w) = .var x) : s.Concerns t x :=
    .shared concerned (h.mem_constraintsOn.mpr (.inr ⟨p, mem, rfl⟩)) named leads
  have valued {v : Var} {p : Propagator} (concerned : s.Concerns t v) (mem : p ∈ s.storedWatchers v) (w : Var)
      (named : w ∈ p.val.vars) (n : Int) (read : s.reading σ w = .int n) : isValue n = true := by
    rcases acyclic.of_reading read with value | ⟨x, leads, same⟩
    · rcases s.walk_eq_or_bound (.var w) with stays | ⟨y, bound⟩
      · cases value.symm.trans stays
      · exact h.sized y _ (value ▸ bound)
    · rw [← same]
      exact values x (shared concerned mem named leads)
  have reported (v : Var) (concerned : s.Concerns t v) (c : Term × List Var) (stated : c ∈ s.constraintsOn v) :
      (s.residual t).Lists (s.walkDeep c.1) := residual_lists.mpr ⟨v, concerned, c, stated, rfl⟩
  have at_domain {v : Var} {a : Stamped DomainFact} (found : (s.attributes v).domain = some a) :
      (s.walkDeep (Attribute.domainStatement a.val)).Asserts σ ↔ σ v ∈ s.storedDomain v := by
    rw [asserts_domainStatement (h.domain v a found) (acyclic.reading_of_walk (legible.anchored v a found)),
      storedDomain, found]
  constructor
  · intro asserted
    have domain (v : Var) (concerned : s.Concerns t v) : σ v ∈ s.storedDomain v := by
      cases found : (s.attributes v).domain with
      | none =>
        rw [storedDomain, found]
        exact Domain.mem_unbounded _
      | some a =>
        exact (at_domain found).mp
          (asserted _ (reported v concerned _ (h.mem_constraintsOn.mpr (.inl ⟨a, found, rfl⟩))))
    refine fun v concerned => ⟨domain v concerned, fun p mem => ?_⟩
    refine (acyclic.asserts_candid (legible.candid v p mem) (valued concerned mem) fun w named x leads =>
      domain x (shared concerned mem named leads)).mp ?_
    exact asserted _ (reported v concerned _ (h.mem_constraintsOn.mpr (.inr ⟨p, mem, rfl⟩)))
  · intro satisfied u listed
    obtain ⟨v, concerned, c, stated, rfl⟩ := residual_lists.mp listed
    obtain ⟨domain, watchers⟩ := satisfied v concerned
    rcases h.mem_constraintsOn.mp stated with ⟨a, found, rfl⟩ | ⟨p, mem, rfl⟩
    · exact (at_domain found).mpr domain
    · exact (acyclic.asserts_candid (legible.candid v p mem) (valued concerned mem) fun w named x leads =>
        (satisfied x (shared concerned mem named leads)).1).mpr (watchers p mem)

end Subst

/-! ## Answers -/

namespace Engine

variable {e e' : Engine} {n : Nat}

theorem query_step {r : Except Stop StepResult} (run : e.step = (r, e')) : e'.query = e.query := by
  unfold step at run
  split at run
  · cases run
    rfl
  · split at run
    · cases run
      rfl
    · cases run
      rfl
    · split at run <;> cases run <;> rfl
    · split at run <;> cases run <;> rfl

theorem query_nextWithin (n : Nat) : ∀ {e : Engine} {r : Except Stop (Option Subst)}, e.nextWithin n = (r, e') →
    e'.query = e.query := by
  induction n with
  | zero =>
    intro e r run
    cases run
    rfl
  | succ n ih =>
    intro e r run
    unfold nextWithin at run
    split at run
    · rename_i step
      cases run
      exact query_step step
    · rename_i step
      cases run
      exact query_step step
    · rename_i step
      exact (ih run).trans (query_step step)
    · rename_i step
      cases run
      exact query_step step

/-- The answers that are collected are those of substitutions that the engine gives. -/
theorem gives_of_collectWith (n : Nat) : ∀ {e : Engine} {taken as : List Answer},
    collectWith nextAnswer n e taken = (.ok as, e') → ∀ a ∈ as, a ∈ taken ∨
      ∃ s, e.Gives s ∧ a.term = s.walkDeep (.var e.query) ∧ a.constraints = s.residual a.term := by
  induction n with
  | zero =>
    intro e taken as run
    cases run
  | succ n ih =>
    intro e taken as run a mem
    cases next : e.nextSubst with
    | mk r u =>
      have query := query_nextWithin e.allowance next
      have gives {s : Subst} := gives_of_nextWithin (t := s) e.allowance next
      cases r with
      | error why => simp [collectWith, nextAnswer, next, Except.map] at run
      | ok found =>
        cases found with
        | none =>
          simp only [collectWith, nextAnswer, next, Except.map, Option.map_none, Prod.mk.injEq, Except.ok.injEq] at run
          rw [← run.1, List.mem_reverse] at mem
          exact .inl mem
        | some s =>
          simp only [collectWith, nextAnswer, next, Except.map, Option.map_some] at run
          rcases ih run a mem with taken | ⟨t, given, term, constraints⟩
          · rcases List.mem_cons.mp taken with rfl | taken
            · exact .inr ⟨s, gives.1 rfl, rfl, rfl⟩
            · exact .inl taken
          · exact .inr ⟨t, gives.2 given, by rw [term, query], constraints⟩

/-- What an engine gives the goal yields. -/
theorem Gives.exists_yields {program : Program} {allowance : Nat} {config : QueryConfig} {goal : Var → Goal} {s : Subst}
    (started : Engine.start program allowance config goal = .ok e) (given : e.Gives s) :
    (if config.labelAnswers then .conj (goal e.query) .labelAll else goal e.query).Yields program Subst.empty.fresh.2 s := by
  unfold Engine.start at started
  obtain ⟨stream, applied, same⟩ := exists_of_bind_ok started
  cases same
  exact Goal.yields_of_reaches applied given.reaches

end Engine

namespace Subst

/-- The groups, read literally, say of the variables that the term leads to what is stored
    with them: of integers of 64 bits for these variables all terms in the groups hold just
    if the integers lie in the domains and the propagators hold. -/
def AccountsFor (s : Subst) (t : Term) (g : Groups) : Prop :=
  ∀ σ : Assignment, (∀ v, s.Concerns t v → isValue (σ v) = true) →
    ((∀ u, g.Lists u → u.Asserts σ) ↔
      ∀ v, s.Concerns t v → σ v ∈ s.storedDomain v ∧ ∀ p ∈ s.storedWatchers v, p.val.HoldsOf (s.reading σ))

end Subst

/-- Reports mean what remains. For a goal and a program that post no tables of their own,
    whatever an engine gives accounts for what is stored, and so do the answers of a query. -/
theorem Query.answers_account {program : Program} (fair : program.Fair) (primary : program.Posts Relation.Primary)
    {goal : Var → Goal} (stated : ∀ q, (goal q).Fair fun _ => False) (posts : ∀ q, (goal q).Posts Relation.Primary)
    (allowance : Nat) :
    (∀ config e s, Engine.start program allowance config goal = .ok e → e.Gives s →
      ∀ t, s.AccountsFor t (s.residual t)) ∧
    ∀ limit as, Query.answers program allowance limit goal = .ok as → ∀ a ∈ as,
      ∃ e s, Engine.start program allowance { labelAnswers := false, limit := some limit } goal = .ok e ∧ e.Gives s ∧
        a.term = s.walkDeep (.var e.query) ∧ s.AccountsFor a.term a.constraints := by
  have accounts (config : QueryConfig) (e : Engine) (s : Subst)
      (started : Engine.start program allowance config goal = .ok e) (given : e.Gives s) (t : Term) :
      s.AccountsFor t (s.residual t) := by
    have start : (Subst.empty.fresh).2.Orderly (.ints fun _ => False) :=
      (Subst.orderly_empty fun _ => id).congr rfl rfl (Nat.le_refl _)
    have complete : (Subst.empty.fresh).2.Complete := Subst.complete_empty.congr rfl rfl
    have legible : (Subst.empty.fresh).2.Legible := Subst.legible_empty.congr rfl rfl
    have yields := Engine.Gives.exists_yields started given
    have whole : s.Orderly (.ints fun _ => False) ∧ s.Legible := by
      split at yields
      · have stated : (Goal.conj (goal e.query) .labelAll).Fair fun _ => False := ⟨stated _, trivial⟩
        exact ⟨yields.orderly fair stated start,
          yields.legible fair primary stated ⟨posts _, trivial⟩ start complete legible⟩
      · exact ⟨yields.orderly fair (stated _) start,
          yields.legible fair primary (stated _) (posts _) start complete legible⟩
    exact fun σ => whole.1.residual_iff whole.2
  refine ⟨accounts, fun limit as answered a mem => ?_⟩
  unfold Query.answers at answered
  obtain ⟨e, started, collected⟩ := exists_of_bind_ok answered
  have collected : (Engine.collectWith Engine.nextAnswer e.allowance e []).1 = .ok as := collected
  rcases Engine.gives_of_collectWith e.allowance (Prod.ext collected rfl) a mem with none | ⟨s, given, term, constraints⟩
  · cases none
  · exact ⟨e, s, started, given, term, constraints ▸ accounts _ e s started given a.term⟩

/-- The sum of two variables from 1 to 3 that turn out to be the same: a table is left,
    which has lost rows and is reported as the sum of the variable with itself. -/
theorem Query.answers_account_doubled :
    let program : Program := fun _ _ => .fail
    let x : Operand := .var ⟨1⟩
    let y : Operand := .var ⟨2⟩
    let goal (q : Var) : Goal := .fresh 2 fun _ => .conjAll [.inRange x 1 3, .inRange y 1 3, .inRange (.var q) 1 6,
      .plus x y (.var q), .eq (.var ⟨1⟩) (.var ⟨2⟩)]
    let rows := [[1, 1, 2], [2, 2, 4], [3, 3, 6]]
    let config : QueryConfig := { labelAnswers := false, limit := some 5 }
    program.Fair ∧ program.Posts Relation.Primary ∧ (∀ q, (goal q).Fair fun _ => False) ∧
      (∀ q, (goal q).Posts Relation.Primary) ∧
      (∃ e s, Engine.start program 9 config goal = .ok e ∧ e.Gives s ∧
        (s.storedWatchers ⟨0⟩).map (·.val) = [.table [⟨1⟩, ⟨2⟩, ⟨0⟩] rows (Relation.sum ⟨1⟩ ⟨2⟩ ⟨0⟩).statement] ∧
        s.walkDeep (Relation.sum ⟨1⟩ ⟨2⟩ ⟨0⟩).statement = (Relation.sum ⟨1⟩ ⟨1⟩ ⟨0⟩).statement ∧
        s.AccountsFor (.var ⟨0⟩) (s.residual (.var ⟨0⟩))) ∧
      ∃ as, Query.answers program 9 5 goal = .ok as ∧ as.length = 1 ∧
        ∀ a ∈ as, ∃ s : Subst, a.term = s.walkDeep (.var ⟨0⟩) ∧ s.AccountsFor a.term a.constraints := by
  intro program x y goal rows config
  have fair : program.Fair := fun _ _ _ => trivial
  have primary : program.Posts Relation.Primary := fun _ _ => trivial
  have range (ub : Int) (upper : ub ≤ maxValue) : (Domain.range 1 ub).Canonical :=
    Domain.canonical_range (by decide) upper
  have stated (q : Var) : (goal q).Fair fun _ => False := fun _ =>
    ⟨range 3 (by decide), range 3 (by decide), range 6 (by decide), trivial, trivial, trivial⟩
  have posts (q : Var) : (goal q).Posts Relation.Primary := fun _ => ⟨trivial, trivial, trivial, trivial, trivial⟩
  have account := Query.answers_account fair primary stated posts 9
  let e := (Engine.start program 9 config goal).toOption.getD ⟨(program.context 9).interp, 9, .empty, ⟨0⟩, none, 0⟩
  have started : Engine.start program 9 config goal = .ok e := Subst.eq_ok_of_isSome (by decide +kernel)
  have given := Engine.gives_nextSubst (e := e) (by decide +kernel)
  have query : e.query = ⟨0⟩ := by decide +kernel
  let as := (Query.answers program 9 5 goal).toOption.getD []
  have answered : Query.answers program 9 5 goal = .ok as := Subst.eq_ok_of_isSome (by decide +kernel)
  refine ⟨fair, primary, stated, posts, ⟨e, _, started, given, by decide +kernel, by decide +kernel,
    account.1 config e _ started given _⟩, as, answered, by decide +kernel, fun a mem => ?_⟩
  obtain ⟨e', s, started', _, term, accounts⟩ := account.2 5 as answered a mem
  have same : e' = e := Except.ok.inj (started'.symm.trans started)
  rw [same, query] at term
  exact ⟨s, term, accounts⟩

end ConstraintLogic
