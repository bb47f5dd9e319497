import ConstraintLogic.Proofs.Agenda.Coherence
import ConstraintLogic.Proofs.Domain.Arithmetic
import ConstraintLogic.Proofs.Subst.Acyclic
import ConstraintLogic.Solver.Fixpoint

/-!
# States of a solver

What a solver knows describes a set of readings, and what it may forget about a
propagator is said here: a propagator waits, or it subscribes to a variable that
has no value yet, or the domains entail it.

Results:
* `Scope`: the readings that count, and the propagators that are known outside.
* `Subst.Orderly`: the attributes of a substitution are in order.
* `Solver.Sound`: the invariant of a solver's state.
* `Solver.Admits`: the readings that a solver's state describes.
* `Solver.Admits.mem_peek`: an admitted reading takes its values from the domains.
-/

namespace ConstraintLogic

/-! ## Integers in readings -/

namespace Term

/-- The term is an integer of 64 bits. -/
def IsValue (t : Term) : Prop := ∃ n, t = .int n ∧ isValue n = true

/-- The integer that the term is, and zero for any other term. -/
def number (t : Term) : Int := t.asInt?.getD 0

/-- All integers in the term have 64 bits. -/
def Sized : Term → Prop
  | .atom (.int n) => isValue n = true
  | .pair h t => h.Sized ∧ t.Sized
  | _ => True

@[simp] theorem number_int (n : Int) : (Term.int n).number = n := rfl

theorem IsValue.eq {t : Term} (h : t.IsValue) : t = .int t.number := by
  obtain ⟨n, rfl, _⟩ := h
  rfl

theorem IsValue.isValue_number {t : Term} (h : t.IsValue) : isValue t.number = true := by
  obtain ⟨n, rfl, value⟩ := h
  exact value

end Term

/-- The integers that a reading gives to the variables. -/
def integers (θ : Var → Term) : Assignment := fun v => (θ v).number

namespace Domain

theorem holds_iff {d : Domain} {t : Term} : d.Holds t ↔ t.IsValue ∧ t.number ∈ d := by
  constructor
  · rintro ⟨n, rfl, value, mem⟩
    exact ⟨⟨n, rfl, value⟩, mem⟩
  · rintro ⟨⟨n, rfl, value⟩, mem⟩
    exact ⟨n, rfl, value, mem⟩

/-- The domain does not exclude the term; the unbounded domain excludes none. -/
def Allows (d : Domain) (t : Term) : Prop := d = unbounded ∨ d.Holds t

/-- The domain is finite and has at least two values. -/
structure Undecided (d : Domain) : Prop where
  canonical : d.Canonical
  finite : d ≠ unbounded
  nonempty : d.isEmpty = false
  open_ : d.solution = none

end Domain

namespace Relation

/-- The constants of the relation have 64 bits, and the rows of a table are as long
    as its list of variables. -/
def Proper : Relation → Prop
  | plusConst _ c _ => isValue c = true
  | sumConst _ _ c => isValue c = true
  | sum _ _ _ => True
  | scale c _ _ => isValue c = true
  | allDifferent _ cs => ∀ c ∈ cs, isValue c = true
  | table vs rows _ => ∀ row ∈ rows, row.length = vs.length ∧ ∀ n ∈ row, isValue n = true

theorem holdsOf_iff {θ : Var → Term} {r : Relation} :
    r.HoldsOf θ ↔ (∀ v ∈ r.vars, (θ v).IsValue) ∧ r.Holds (integers θ) := by
  constructor
  · rintro ⟨σ, values, holds⟩
    have same : ∀ v ∈ r.vars, integers θ v = σ v := fun v mem => by
      rw [integers, (values v mem).1, Term.number_int]
    exact ⟨fun v mem => ⟨σ v, values v mem⟩, (holds_congr same).mpr holds⟩
  · rintro ⟨values, holds⟩
    exact ⟨integers θ, fun v mem => ⟨(values v mem).eq, (values v mem).isValue_number⟩, holds⟩

end Relation

/-! ## Orderly substitutions -/

/-- What a run is judged by: the readings that count, and the propagators that are
    known besides those that the substitution stores. -/
structure Scope where
  /-- The readings that count. -/
  readings : (Var → Term) → Prop
  /-- The propagators that are known outside. -/
  known : Propagator → Prop

namespace Subst

/-- The readings that count give the variable an integer. -/
def Integral (K : Scope) (s : Subst) (v : Var) : Prop :=
  ∀ θ, K.readings θ → s.Agrees θ → (θ v).IsValue

/-- The propagator is stored with a variable or known outside. -/
def Carries (K : Scope) (s : Subst) (p : Propagator) : Prop :=
  K.known p ∨ ∃ v, p ∈ s.storedWatchers v

/-- The bindings are acyclic and their integers have 64 bits. Only unbound variables
    have attributes: finite domains of at least two values, and one propagator or more
    that mention the variable. Every propagator has variables that are read as integers,
    and propagators with one stamp are one propagator. -/
structure Orderly (K : Scope) (s : Subst) : Prop where
  acyclic : s.Acyclic
  sized : ∀ v t, s.get? v = some t → t.Sized
  simple : ∀ v, (s.attributes v).allowed = none ∧ (s.attributes v).tag = none ∧
    (s.attributes v).zero = none
  unbound : ∀ v, s.get? v ≠ none → s.attributes v = {}
  domain : ∀ v a, (s.attributes v).domain = some a → a.val.domain.Undecided
  watched : ∀ v a, (s.attributes v).watchers = some a → a.val ≠ []
  mentions : ∀ v, ∀ p ∈ s.storedWatchers v, ∃ w ∈ p.val.vars, s.walk (.var w) = .var v
  proper : ∀ p, s.Carries K p → p.val.Proper
  integral : ∀ p, s.Carries K p → ∀ v ∈ p.val.vars, s.Integral K v
  stamped : ∀ p, s.Carries K p → p.stamp < s.supply
  coherent : ∀ p q, s.Carries K p → s.Carries K q → p.stamp = q.stamp → p = q

theorem Orderly.canonical_storedDomain {K : Scope} {s : Subst} (h : s.Orderly K) (v : Var) :
    (s.storedDomain v).Canonical ∧ (s.storedDomain v).isEmpty = false ∧
      (s.storedDomain v).solution = none := by
  unfold storedDomain
  split
  · rename_i a found
    have undecided := h.domain v a found
    exact ⟨undecided.canonical, undecided.nonempty, undecided.open_⟩
  · exact ⟨trivial, rfl, rfl⟩

/-- The substitution is in order in another scope if the propagators known there are
    proper ones with stamps that were given to them. -/
theorem Orderly.rescope {K L : Scope} {s : Subst} (h : s.Orderly K)
    (proper : ∀ p, L.known p → p.val.Proper)
    (integral : ∀ p, s.Carries L p → ∀ v ∈ p.val.vars, s.Integral L v)
    (stamped : ∀ p, L.known p → p.stamp < s.supply)
    (coherent : ∀ p q, L.known p → s.Carries L q → p.stamp = q.stamp → p = q) : s.Orderly L := by
  refine { h with proper := ?_, integral := integral, stamped := ?_, coherent := ?_ }
  · rintro p (known | stored)
    · exact proper p known
    · exact h.proper p (.inr stored)
  · rintro p (known | stored)
    · exact stamped p known
    · exact h.stamped p (.inr stored)
  · rintro p q (known | stored) carries same
    · exact coherent p q known carries same
    · rcases carries with known | stored'
      · exact (coherent q p known (.inr stored) same.symm).symm
      · exact h.coherent p q (.inr stored) (.inr stored') same

/-- Of fewer known propagators there is less to be in order. -/
theorem Orderly.mono {K L : Scope} {s : Subst} (h : s.Orderly K) (same : K.readings = L.readings)
    (fewer : ∀ p, L.known p → s.Carries K p) : s.Orderly L := by
  have carried (p : Propagator) (carries : s.Carries L p) : s.Carries K p := by
    rcases carries with known | stored
    · exact fewer p known
    · exact .inr stored
  refine h.rescope (fun p known => h.proper p (fewer p known)) (fun p carries v mem θ reading => ?_)
    (fun p known => h.stamped p (fewer p known))
    fun p q known carries => h.coherent p q (fewer p known) (carried q carries)
  rw [← same] at reading
  exact h.integral p (carried p carries) v mem θ reading

/-- A later supply of stamps changes nothing that is in order. -/
theorem Orderly.raise {K : Scope} {s : Subst} (h : s.Orderly K) {n : Nat} (later : s.supply ≤ n) :
    Orderly K { s with supply := n } :=
  { h with
    mentions := fun v p mem => by
      rw [walk_congr (s := s) (t := { s with supply := n }) rfl]
      exact h.mentions v p mem
    stamped := fun p carries => Nat.lt_of_lt_of_le (h.stamped p carries) later }

/-- A new stamp makes a new propagator. -/
theorem Orderly.stamp {K : Scope} {s : Subst} (h : s.Orderly K) {r : Relation} (proper : r.Proper)
    (integral : ∀ v ∈ r.vars, s.Integral K v) :
    (s.stamped r).2.Orderly { K with known := fun p => K.known p ∨ p = (s.stamped r).1 } := by
  have later := h.raise (Nat.le_succ s.supply)
  refine later.rescope ?_ ?_ ?_ ?_
  · rintro p (known | rfl)
    · exact h.proper p (.inl known)
    · exact proper
  · rintro p ((known | rfl) | stored)
    · exact h.integral p (.inl known)
    · exact integral
    · exact h.integral p (.inr stored)
  · rintro p (known | rfl)
    · exact Nat.lt_succ_of_lt (h.stamped p (.inl known))
    · exact Nat.lt_succ_self _
  · rintro p q (known | rfl) ((known' | rfl) | stored) same
    · exact h.coherent p q (.inl known) (.inl known') same
    · exact absurd same (Nat.ne_of_lt (h.stamped p (.inl known)))
    · exact h.coherent p q (.inl known) (.inr stored) same
    · exact absurd same.symm (Nat.ne_of_lt (h.stamped q (.inl known')))
    · rfl
    · exact absurd same.symm (Nat.ne_of_lt (h.stamped q (.inr stored)))

end Subst

/-! ## States -/

namespace Solver

/-- The propagator has a number at the solver. -/
def AtWork (s : Solver) (p : Propagator) : Prop := ∃ id, s.prop? id = some p

/-- The domain of the unbound variable `w`, loaded or not. -/
def current (s : Solver) (w : Var) : Domain := s.domains[w]?.getD (s.subst.storedDomain w)

/-- The domain of what `v` stands for, loaded or not. -/
def peek (s : Solver) (v : Var) : Domain :=
  match s.resolve v with
  | .free w => s.current w
  | .value n => .singleton n
  | .other => .empty

/-- The integers come from the domains of the variables, and variables that stand
    for the same have the same one. -/
structure Fits (s : Solver) (vs : List Var) (σ : Assignment) : Prop where
  mem : ∀ v ∈ vs, σ v ∈ s.peek v
  value : ∀ v ∈ vs, isValue (σ v) = true
  alike : ∀ v ∈ vs, ∀ w ∈ vs, s.resolve v = s.resolve w → σ v = σ w

/-- The relation holds of all integers from the domains of its variables. -/
def Entails (s : Solver) (r : Relation) : Prop := ∀ σ, s.Fits r.vars σ → r.Holds σ

/-- The loaded variable has no value yet. -/
def Unsolved (s : Solver) (w : Var) : Prop := ∃ d, s.domains[w]? = some d ∧ d.solution = none

/-- The propagator waits, or subscribes to a variable without value, or is entailed. -/
def Live (s : Solver) (id : PropId) (r : Relation) : Prop :=
  s.agenda.Waits id ∨ (∃ w, s.Unsolved w ∧ id ∈ s.subscribersOf w) ∨ s.Entails r

/-- The propagators at work are known besides those that are known anyway. -/
def scope (K : Scope) (s : Solver) : Scope := { K with known := fun p => K.known p ∨ s.AtWork p }

/-- The state of a solver is in order, except that nothing is said about the liveness
    of the propagators in `E`, and that the variables in `P` are still to be loaded. -/
structure Sound (K : Scope) (E : PropId → Prop) (P : Var → Prop) (s : Solver) : Prop where
  base : s.subst.Orderly (s.scope K)
  loaded : ∀ w d, s.domains[w]? = some d →
    s.subst.get? w = none ∧ d.Canonical ∧ d.isEmpty = false
  closed : ∀ p, s.AtWork p → ∀ v ∈ p.val.vars, ∀ w, s.resolve v = .free w → w ∈ s.domains ∨ P w
  subscribed : ∀ w, ∀ id ∈ s.subscribersOf w, ∃ p, s.prop? id = some p ∧
    ∃ v ∈ p.val.vars, s.resolve v = .free w
  distinct : ∀ w, (s.subscribersOf w).Nodup
  interned : ∀ (n : Nat) (id : PropId), s.interned[n]? = some id ↔
    ∃ p, s.prop? id = some p ∧ p.stamp = n
  agenda : s.agenda.Coherent
  live : ∀ id p, s.prop? id = some p → ¬E id → s.Live id p.val

/-- The reading counts, agrees with the bindings, and satisfies the domains and the
    propagators, those at work and those that are not loaded. -/
structure Admits (K : Scope) (s : Solver) (θ : Var → Term) : Prop where
  reading : K.readings θ
  binding : s.subst.Agrees θ
  domain : ∀ w, s.subst.get? w = none → (s.current w).Allows (θ w)
  props : ∀ p, s.AtWork p → p.val.HoldsOf θ
  stored : ∀ w, w ∉ s.domains → ∀ p ∈ s.subst.storedWatchers w, p.val.HoldsOf θ

/-! ## Resolving -/

theorem resolve_eq_free_iff {s : Solver} {v w : Var} :
    s.resolve v = .free w ↔ s.subst.walk (.var v) = .var w := by
  unfold resolve
  split
  · rename_i u found
    simp [found]
  · rename_i n found
    simp [found]
  · rename_i not_var _
    simp only [reduceCtorEq, false_iff]
    exact not_var w

theorem resolve_eq_value_iff {s : Solver} {v : Var} {n : Int} :
    s.resolve v = .value n ↔ s.subst.walk (.var v) = .int n := by
  unfold resolve Term.int
  split
  · rename_i u found
    simp [found]
  · rename_i m found
    simp [found]
  · rename_i _ not_int
    simp only [reduceCtorEq, false_iff]
    exact not_int n

/-- Resolving depends on the bindings only. -/
theorem resolve_congr {s t : Solver} (same : t.subst.walk = s.subst.walk) :
    t.resolve = s.resolve := by
  funext v
  unfold resolve
  rw [same]

theorem sameVar_iff {s : Solver} {v w : Var} :
    s.sameVar v w = true ↔ ∃ u, s.resolve v = .free u ∧ s.resolve w = .free u := by
  unfold sameVar
  split
  · rename_i a b found_v found_w
    simp [found_v, found_w]
    exact eq_comm
  · rename_i not_free
    simp only [Bool.false_eq_true, false_iff]
    rintro ⟨u, found_v, found_w⟩
    exact not_free u u found_v found_w

theorem resolve_of_unbound {s : Solver} {w : Var} (h : s.subst.get? w = none) :
    s.resolve w = .free w := by
  rw [resolve_eq_free_iff]
  exact Subst.walk_var_of_unbound h

/-- What a variable stands for, when more is bound. -/
theorem resolve_of_extends {s t : Solver} (acyclic : t.subst.Acyclic) (ext : s.subst.Extends t.subst)
    (v : Var) : t.resolve v =
      match s.resolve v with
      | .free w => t.resolve w
      | r => r := by
  have walks := acyclic.walk_walk ext (.var v)
  cases found : s.resolve v with
  | free w =>
    rw [resolve_eq_free_iff.mp found] at walks
    dsimp only
    unfold resolve
    rw [walks]
  | _ =>
    have not_var (w : Var) : s.subst.walk (.var v) ≠ .var w := fun same => by
      rw [resolve_eq_free_iff.mpr same] at found
      cases found
    rw [Subst.walk_of_not_var not_var] at walks
    dsimp only
    rw [← found]
    unfold resolve
    rw [walks]

theorem Sound.unbound_of_free {K : Scope} {E : PropId → Prop} {P : Var → Prop} {s : Solver}
    (h : s.Sound K E P) {v w : Var} (found : s.resolve v = .free w) : s.subst.get? w = none :=
  h.base.acyclic.get?_of_walk (resolve_eq_free_iff.mp found)

section Readings

variable {s : Solver} {θ : Var → Term} {v w : Var}

theorem reading_of_free (h : s.subst.Agrees θ) (found : s.resolve v = .free w) : θ v = θ w := by
  have := h.expand_walk (.var v)
  rw [resolve_eq_free_iff.mp found] at this
  exact this.symm

theorem reading_of_value (h : s.subst.Agrees θ) {n : Int} (found : s.resolve v = .value n) :
    θ v = .int n := by
  have := h.expand_walk (.var v)
  rw [resolve_eq_value_iff.mp found] at this
  exact this.symm

/-- A variable that stands for a term other than an integer is not read as one. -/
theorem reading_ne_int_of_other (h : s.subst.Agrees θ) (found : s.resolve v = .other) (n : Int) : θ v ≠ .int n := by
  have read := h.expand_walk (.var v)
  intro int
  change (s.subst.walk (.var v)).expand θ = θ v at read
  rw [int] at read
  unfold resolve at found
  split at found
  · cases found
  · cases found
  · rename_i not_var not_int
    cases walked : s.subst.walk (.var v) with
    | var u => exact not_var u walked
    | atom a =>
      rw [walked, Term.expand] at read
      · cases read
        exact not_int n walked
      · simp
      · simp
    | nil => rw [walked] at read; cases read
    | pair a b => rw [walked] at read; cases read

theorem not_isValue_of_other (h : s.subst.Agrees θ) (found : s.resolve v = .other) :
    ¬(θ v).IsValue := fun ⟨n, int, _⟩ => reading_ne_int_of_other h found n int

theorem reading_of_alike (h : s.subst.Agrees θ) (value : (θ v).IsValue)
    (same : s.resolve v = s.resolve w) : θ v = θ w := by
  cases found_v : s.resolve v with
  | free u => rw [reading_of_free h found_v, reading_of_free h (same.symm.trans found_v)]
  | value n => rw [reading_of_value h found_v, reading_of_value h (same.symm.trans found_v)]
  | other => exact absurd value (not_isValue_of_other h found_v)

end Readings

/-! ## Domains -/

theorem current_of_loaded {s : Solver} {w : Var} {d : Domain} (h : s.domains[w]? = some d) :
    s.current w = d := by simp [current, h]

theorem peek_of_free {s : Solver} {v w : Var} (h : s.resolve v = .free w) :
    s.peek v = s.current w := by simp [peek, h]

/-- What is smaller for the unbound variables is smaller for all variables. -/
theorem mem_peek_of_current {s t : Solver} (resolve : t.resolve = s.resolve)
    (smaller : ∀ w n, n ∈ t.current w → n ∈ s.current w) {v : Var} {n : Int} (mem : n ∈ t.peek v) :
    n ∈ s.peek v := by
  unfold peek at *
  rw [resolve] at mem
  split
  · rename_i w found
    rw [found] at mem
    exact smaller w n mem
  · rename_i m found
    rwa [found] at mem
  · rename_i found
    rwa [found] at mem

theorem Fits.of_peek {s t : Solver} {vs : List Var} {σ : Assignment} (h : t.Fits vs σ)
    (resolve : t.resolve = s.resolve) (smaller : ∀ v n, n ∈ t.peek v → n ∈ s.peek v) :
    s.Fits vs σ where
  mem v mem := smaller v _ (h.mem v mem)
  value := h.value
  alike v mem w mem' same := h.alike v mem w mem' (by rw [resolve, same])

theorem Fits.mono {s : Solver} {vs ws : List Var} {σ : Assignment} (h : s.Fits vs σ)
    (sub : ws ⊆ vs) : s.Fits ws σ where
  mem v mem := h.mem v (sub mem)
  value v mem := h.value v (sub mem)
  alike v mem w mem' := h.alike v (sub mem) w (sub mem')

/-- Integers that fit can be continued to variables that stand for the same. -/
theorem Fits.extend {s : Solver} {vs ws : List Var} {σ : Assignment} (h : s.Fits vs σ)
    (named : ∀ w ∈ ws, ∃ v ∈ vs, s.resolve v = s.resolve w) :
    ∃ τ, s.Fits (vs ++ ws) τ ∧ ∀ v ∈ vs, τ v = σ v := by
  let τ : Assignment := fun w => ((vs.find? fun v => s.resolve v = s.resolve w).map σ).getD (σ w)
  have source (w : Var) (mem : w ∈ vs ++ ws) : ∃ v ∈ vs, s.resolve v = s.resolve w ∧ τ w = σ v := by
    have some_v : ∃ v ∈ vs, s.resolve v = s.resolve w := by
      rcases List.mem_append.mp mem with mem | mem
      · exact ⟨w, mem, rfl⟩
      · exact named w mem
    cases found : vs.find? fun v => s.resolve v = s.resolve w with
    | none =>
      obtain ⟨v, mem, same⟩ := some_v
      exact absurd same (by simpa using List.find?_eq_none.mp found v mem)
    | some v =>
      refine ⟨v, List.mem_of_find?_eq_some found, by simpa using List.find?_some found, ?_⟩
      simp [τ, found]
  refine ⟨τ, ⟨fun w mem => ?_, fun w mem => ?_, fun u mem w mem' same => ?_⟩, fun v mem => ?_⟩
  · obtain ⟨v, mem, same, value⟩ := source w mem
    rw [value, peek, ← same]
    exact h.mem v mem
  · obtain ⟨v, mem, _, value⟩ := source w mem
    rw [value]
    exact h.value v mem
  · obtain ⟨v, mem_v, same_v, value⟩ := source u mem
    obtain ⟨v', mem_v', same_v', value'⟩ := source w mem'
    rw [value, value']
    exact h.alike v mem_v v' mem_v' (same_v.trans (same.trans same_v'.symm))
  · obtain ⟨v', mem', same, value⟩ := source v (List.mem_append.mpr (.inl mem))
    rw [value]
    exact h.alike v' mem' v mem same

theorem Sound.canonical_current {K : Scope} {E : PropId → Prop} {P : Var → Prop} {s : Solver}
    (h : s.Sound K E P) (w : Var) :
    (s.current w).Canonical ∧ (s.current w).isEmpty = false := by
  unfold current
  cases found : s.domains[w]? with
  | some d => exact (h.loaded w d found).2
  | none =>
    have stored := h.base.canonical_storedDomain w
    exact ⟨stored.1, stored.2.1⟩

/-- The integers that variables stand for have 64 bits. -/
theorem Sound.isValue_of_value {K : Scope} {E : PropId → Prop} {P : Var → Prop} {s : Solver}
    (h : s.Sound K E P) {v : Var} {n : Int} (found : s.resolve v = .value n) :
    isValue n = true := by
  rw [resolve_eq_value_iff] at found
  rcases s.subst.walk_eq_or_bound (.var v) with same | ⟨u, bound⟩
  · rw [same] at found
    cases found
  · rw [found] at bound
    exact h.base.sized u _ bound

theorem canonical_singleton {n : Int} (h : isValue n = true) : (Domain.singleton n).Canonical := by
  have := (isValue_iff n).mp h
  exact ⟨this.1, Int.le_refl n, this.2⟩

theorem Sound.canonical_peek {K : Scope} {E : PropId → Prop} {P : Var → Prop} {s : Solver}
    (h : s.Sound K E P) (v : Var) : (s.peek v).Canonical := by
  unfold peek
  split
  · exact (h.canonical_current _).1
  · rename_i n found
    exact canonical_singleton (h.isValue_of_value found)
  · trivial

/-! ## Admitted readings -/

variable {K : Scope} {s : Solver} {θ : Var → Term}

/-- A reading that agrees with the bindings and the domains of the unbound variables
    takes its values from the domains. -/
theorem mem_peek_of_reading (binding : s.subst.Agrees θ)
    (domain : ∀ w, s.subst.get? w = none → (s.current w).Allows (θ w)) (acyclic : s.subst.Acyclic)
    {v : Var} (value : (θ v).IsValue) : integers θ v ∈ s.peek v := by
  unfold peek integers
  split
  · rename_i w found
    rw [reading_of_free binding found] at *
    have unbound := acyclic.get?_of_walk (resolve_eq_free_iff.mp found)
    rcases domain w unbound with full | holds
    · rw [full]
      exact Domain.mem_unbounded _
    · exact (Domain.holds_iff.mp holds).2
  · rename_i n found
    rw [reading_of_value binding found]
    exact Domain.mem_singleton.mpr rfl
  · rename_i found
    exact absurd value (not_isValue_of_other binding found)

theorem fits_of_reading (binding : s.subst.Agrees θ)
    (domain : ∀ w, s.subst.get? w = none → (s.current w).Allows (θ w)) (acyclic : s.subst.Acyclic)
    {vs : List Var} (values : ∀ v ∈ vs, (θ v).IsValue) : s.Fits vs (integers θ) where
  mem v mem := mem_peek_of_reading binding domain acyclic (values v mem)
  value v mem := (values v mem).isValue_number
  alike v mem _ _ same := congrArg Term.number (reading_of_alike binding (values v mem) same)

/-- An admitted reading takes its values from the domains. -/
theorem Admits.mem_peek (h : s.Admits K θ) (acyclic : s.subst.Acyclic) {v : Var}
    (value : (θ v).IsValue) : integers θ v ∈ s.peek v :=
  mem_peek_of_reading h.binding h.domain acyclic value

/-- The integers of an admitted reading fit the domains. -/
theorem Admits.fits (h : s.Admits K θ) (acyclic : s.subst.Acyclic) {vs : List Var}
    (values : ∀ v ∈ vs, (θ v).IsValue) : s.Fits vs (integers θ) :=
  fits_of_reading h.binding h.domain acyclic values

end Solver

end ConstraintLogic
