import ConstraintLogic.Proofs.Report.Contents
import ConstraintLogic.Proofs.Subst.NormalForm
import ConstraintLogic.Proofs.Unification.Attachment
import Mathlib.Order.Bounds.Basic

/-!
# Connected constraints

The constraints reported of a term are those of a connected component: of the variables that
the term leads to, where a constraint leads from each variable that it is stored with to the
variables that it names. The queue that collects them works on a graph with cycles, whose edges
cross bindings; it visits no variable twice, and each statement is listed once, as it is read
after all bindings.

Results:
* `Groups.Reports`: the group of one kind.
* `Subst.residualWithin`: collecting in rounds, with the walks and the deep readings in rounds.
* `Subst.Acyclic.finishes_residual`: it comes to an end.
* `Subst.Connected`: what is closed under the ways that a term leads.
* `Subst.Acyclic.residual_component`: the report is that of the least connected set.
-/

namespace ConstraintLogic

/-! ## Groups -/

namespace Groups

variable {g : Groups} {name other : AttrName} {met : Prop} {told : Term → Prop} {t : Term}

/-- There is a group of that kind just if the kind was met, and it lists just what was told,
    each term once. -/
structure Reports (g : Groups) (name : AttrName) (met : Prop) (told : Term → Prop) : Prop where
  isSome_iff : (g name).isSome ↔ met
  nodup : ((g name).getD []).Nodup
  mem_iff : ∀ u, u ∈ (g name).getD [] ↔ told u

theorem reports_none : none.Reports name False fun _ => False := ⟨by simp [none], by simp [none], by simp [none]⟩

theorem Reports.congr {met' : Prop} {told' : Term → Prop} (h : g.Reports name met told) (same : met ↔ met')
    (same' : ∀ u, told u ↔ told' u) : g.Reports name met' told' :=
  ⟨h.isSome_iff.trans same, h.nodup, fun u => (h.mem_iff u).trans (same' u)⟩

theorem Reports.meet (h : g.Reports name met told) : (g.meet other).Reports name (met ∨ other = name) told := by
  by_cases same : name = other
  · subst same
    have found : (g.meet name) name = some ((g name).getD []) := if_pos rfl
    exact ⟨by simp [found], by simpa [found] using h.nodup, by simpa [found] using h.mem_iff⟩
  · have found : (g.meet other) name = g name := if_neg same
    exact ⟨by rw [found, or_iff_left (Ne.symm same)]; exact h.isSome_iff, found ▸ h.nodup, found ▸ h.mem_iff⟩

/-- A term is added to the group that has been met, unless it is there. -/
theorem Reports.insert (h : g.Reports name met told) (known : other = name → met) :
    (g.insert other t).Reports name met fun u => told u ∨ other = name ∧ u = t := by
  by_cases same : name = other
  · subst same
    have present : ((g name).getD []).any t.agree = true ↔ told t := by
      simp [List.any_eq_true, Term.agree_iff, ← h.mem_iff]
    by_cases there : told t
    · have found : (g.insert name t) name = some ((g name).getD []) := by simp [Groups.insert, present.mpr there]
      refine ⟨by simp [found, known], by simpa [found] using h.nodup, fun u => ?_⟩
      simp only [found, Option.getD_some, h.mem_iff, true_and]
      exact ⟨.inl, fun holds => holds.elim id fun new => new ▸ there⟩
    · have found : (g.insert name t) name = some ((g name).getD [] ++ [t]) := by
        simp [Groups.insert, mt present.mp there]
      refine ⟨by simp [found, known], ?_, fun u => ?_⟩
      · simp only [found, Option.getD_some]
        exact List.nodup_append.mpr ⟨h.nodup, List.nodup_singleton t, fun u mem w here => by
          rintro rfl
          exact there (List.mem_singleton.mp here ▸ (h.mem_iff u).mp mem)⟩
      · simp [found, h.mem_iff]
  · have found : (g.insert other t) name = g name := if_neg same
    exact ⟨found ▸ h.isSome_iff, found ▸ h.nodup, fun u => by simp [found, h.mem_iff, Ne.symm same]⟩

end Groups

namespace Subst

variable {ι : Type} {s : Subst} {t : Term} {v : Var} {groups : Groups} {name : AttrName} {met : Prop}
variable {told : Term → Prop}

/-! ## Reporting by kind -/

/-- The attribute of that kind on the variable states a constraint that is read as the term. -/
def States (s : Subst) (v : Var) (name : AttrName) (u : Term) : Prop :=
  ∃ a, (s.attributes v).get? name = some a ∧ ∃ c ∈ a.constraints, u = s.walkDeep c.1

/-- An attribute meets its kind and adds its statements there. -/
theorem reports_report (h : groups.Reports name met told) (named : List Var) (a : Attribute) :
    (s.report (groups, named) a).1.Reports name (met ∨ a.name = name)
      fun u => told u ∨ a.name = name ∧ ∃ c ∈ a.constraints, u = s.walkDeep c.1 := by
  have collect (cs : List (Term × List Var)) : ∀ (state : Groups × List Var) {told : Term → Prop},
      state.1.Reports name (met ∨ a.name = name) told →
      (cs.foldl (fun state c => (state.1.insert a.name (s.walkDeep c.1), state.2 ++ c.2)) state).1.Reports name
        (met ∨ a.name = name) fun u => told u ∨ a.name = name ∧ ∃ c ∈ cs, u = s.walkDeep c.1 := by
    induction cs with
    | nil => exact fun state told h => h.congr Iff.rfl (by simp)
    | cons c cs ih =>
      intro state told h
      refine (ih _ (h.insert .inr)).congr Iff.rfl fun u => ?_
      simp only [List.mem_cons, exists_eq_or_imp]
      tauto
  exact collect a.constraints (groups.meet a.name, named) h.meet

/-- A visit meets the kinds of the attributes on the variable and adds what they state. -/
theorem reports_visit (h : groups.Reports name met told) (v : Var) :
    (s.visit groups v).Reports name (met ∨ ((s.attributes v).get? name).isSome)
      fun u => told u ∨ s.States v name u := by
  have collect (attrs : List Attribute) : ∀ (state : Groups × List Var) {met : Prop} {told : Term → Prop},
      state.1.Reports name met told → (attrs.foldl s.report state).1.Reports name (met ∨ ∃ a ∈ attrs, a.name = name)
        fun u => told u ∨ ∃ a ∈ attrs, a.name = name ∧ ∃ c ∈ a.constraints, u = s.walkDeep c.1 := by
    induction attrs with
    | nil => exact fun state met told h => h.congr (by simp) (by simp)
    | cons a attrs ih =>
      intro state met told h
      refine (ih _ (reports_report h state.2 a)).congr ?_ fun u => ?_
      · simp only [List.mem_cons, exists_eq_or_imp, or_assoc]
      · simp only [List.mem_cons, exists_eq_or_imp, or_assoc]
  have at_name (a : Attribute) :
      (a ∈ (s.attributes v).toList ∧ a.name = name) ↔ (s.attributes v).get? name = some a := by
    rw [Attributes.mem_toList]
    constructor
    · rintro ⟨found, rfl⟩
      exact found
    · intro found
      have same := Attributes.name_of_get? found
      exact ⟨same ▸ found, same⟩
  refine (collect (s.attributes v).toList (groups, []) h).congr (or_congr_right ?_) fun u => or_congr_right ?_
  · rw [Option.isSome_iff_exists]
    exact exists_congr at_name
  · exact exists_congr fun a => by rw [← and_assoc, at_name]

/-- A report has a group for each kind of attribute on the variables that the term leads to,
    and in it what the attributes of that kind state, each term once. -/
theorem residual_reports (s : Subst) (t : Term) (name : AttrName) : (s.residual t).Reports name
    (∃ v, s.Concerns t v ∧ ((s.attributes v).get? name).isSome) fun u => ∃ v, s.Concerns t v ∧ s.States v name u := by
  have visits (visited : List Var) : ∀ {groups : Groups} {met : Prop} {told : Term → Prop},
      groups.Reports name met told → (visited.foldl s.visit groups).Reports name
        (met ∨ ∃ v ∈ visited, ((s.attributes v).get? name).isSome)
        fun u => told u ∨ ∃ v ∈ visited, s.States v name u := by
    induction visited with
    | nil => exact fun h => h.congr (by simp) (by simp)
    | cons v visited ih =>
      intro groups met told h
      refine (ih (reports_visit h v)).congr ?_ fun u => ?_
      · simp only [List.mem_cons, exists_eq_or_imp, or_assoc]
      · simp only [List.mem_cons, exists_eq_or_imp, or_assoc]
  obtain ⟨visited, all, same⟩ := s.residual_visits t
  rw [same]
  exact (visits visited Groups.reports_none).congr (by simp [all]) (by simp [all])

/-! ## Collecting ends -/

/-- Adds the constraints of an attribute to the groups, with each deep reading in rounds. -/
def reportWithin (s : Subst) (n : Nat) (state : Groups × List Var) (a : Attribute) : Attempt (Groups × List Var) :=
  a.constraints.foldlM (fun (groups, named) (statement, vs) => do
    let told ← s.walkDeepWithin n {} statement
    return (groups.insert a.name told, named ++ vs)) (state.1.meet a.name, state.2)

/-- Collects the constraints of the variables of the queue and of those they lead to, in less
    than `n` rounds for the queue, for each walk and for each deep reading. -/
def residualWithin (s : Subst) : Nat → List Var → List Var → Groups → Attempt Groups
  | 0, _, _, _ => .error .exhausted
  | _ + 1, [], _, groups => .ok groups
  | n + 1, v :: queue, seen, groups => do
    match ← s.walkWithin n (.var v) with
    | .var v =>
      if seen.contains v then s.residualWithin n queue seen groups
      else do
        let (groups, named) ← (s.attributes v).toList.foldlM (s.reportWithin n) (groups, [])
        s.residualWithin n (queue ++ named) (v :: seen) groups
    | _ => s.residualWithin n queue seen groups

open Attempt (Finishes)

/-- A loop whose steps end comes to what the steps come to. -/
theorem finishes_foldlM {α γ : Type} {g : ι → Nat → α → γ → Attempt α} {f : α → γ → α} (l : List γ)
    (step : ∀ a c, Finishes (· = f a c) (fun i n => g i n a c) (.ok (f a c))) (a : α) :
    Finishes (· = l.foldl f a) (fun i n => l.foldlM (g i n) a) (.ok (l.foldl f a)) := by
  induction l generalizing a with
  | nil => exact .ok rfl
  | cons c l ih =>
    simp only [List.foldlM_cons, List.foldl_cons]
    exact Finishes.bind (k := fun _ => _) (step a c) fun _ same => same ▸ ih (f a c)

theorem Acyclic.finishes_report (h : s.Acyclic) (state : Groups × List Var) (a : Attribute) :
    Finishes (· = s.report state a) (fun (_ : ι) n => s.reportWithin n state a) (.ok (s.report state a)) := by
  refine finishes_foldlM a.constraints (fun state c => ?_) (state.1.meet a.name, state.2)
  exact Finishes.bind (k := fun _ => _) (h.walkDeepWithin c.1) fun _ same => same ▸ .ok rfl

/-- The queue gets empty: as many rounds as are left to the queue and to the variables that
    have not been visited are enough for it. -/
theorem Acyclic.finishes_residualFrom (h : s.Acyclic) (m : Nat) : ∀ (queue seen : List Var) (groups : Groups),
    queue.length + s.unseenCost seen ≤ m → Finishes (fun _ => True)
      (fun (_ : ι) n => s.residualWithin n queue seen groups) (.ok (s.residualFrom m queue seen groups)) := by
  have done (m : Nat) (seen : List Var) (groups : Groups) : Finishes (fun _ => True)
      (fun (_ : ι) n => s.residualWithin n [] seen groups) (.ok (s.residualFrom m [] seen groups)) := by
    have empty : s.residualFrom m [] seen groups = groups := by cases m <;> rfl
    rw [empty]
    exact Finishes.succ (.ok trivial) fun _ _ => rfl
  induction m with
  | zero =>
    intro queue seen groups enough
    cases queue with
    | nil => exact done 0 seen groups
    | cons w queue =>
      rw [List.length_cons] at enough
      omega
  | succ m ih =>
    intro queue seen groups enough
    cases queue with
    | nil => exact done (m + 1) seen groups
    | cons w queue =>
      rw [List.length_cons] at enough
      refine Finishes.succ (h.finishes_walk ?_) fun _ _ => rfl
      rw [residualFrom, walkVar]
      cases leads : s.walk (.var w) with
      | var v =>
        simp only [Term.asVar?]
        split
        · exact ih queue seen groups (by omega)
        · rename_i new
          replace new : v ∉ seen := by simpa using new
          have fall := s.unseenCost_visit new
          refine Finishes.bind (k := fun _ => _)
            (finishes_foldlM (s.attributes v).toList (fun state a => h.finishes_report state a) (groups, []))
            fun _ same => ?_
          rw [same]
          refine ih _ (v :: seen) _ ?_
          rw [List.length_append, (s.foldl_report v groups).1, length_mentions]
          omega
      | _ => exact ih queue seen groups (by omega)

/-- Collecting the constraints of a term comes to its end. -/
theorem Acyclic.finishes_residual (h : s.Acyclic) (t : Term) : Finishes (fun _ => True)
    (fun (_ : ι) n => s.residualWithin n t.vars [] Groups.none) (.ok (s.residual t)) :=
  h.finishes_residualFrom _ t.vars [] Groups.none (Nat.add_le_add_left (s.unseenCost_le []) _)

/-! ## The component -/

/-- The set has what the variables of the term stand for; and with each of its variables, what
    the variables stand for that a constraint of an attribute on it names. -/
structure Connected (s : Subst) (t : Term) (R : Set Var) : Prop where
  start : ∀ w ∈ t.vars, ∀ v, s.walkVar w = some v → v ∈ R
  next : ∀ u ∈ R, ∀ a ∈ (s.attributes u).toList, ∀ c ∈ a.constraints, ∀ w ∈ c.2, ∀ v, s.walkVar w = some v → v ∈ R

/-- What a term leads to is the least connected set. -/
theorem isLeast_concerns (s : Subst) (t : Term) : IsLeast {R | s.Connected t R} {v | s.Concerns t v} := by
  refine ⟨⟨fun w mem v leads => .named mem (walkVar_eq_some.mp leads),
      fun u before a stored c stated w named v leads => ?_⟩,
    fun R connected v concerned => ?_⟩
  · exact .shared before (List.mem_flatMap.mpr ⟨a, stored, stated⟩) named (walkVar_eq_some.mp leads)
  · induction concerned with
    | named mem leads => exact connected.start _ mem _ (walkVar_eq_some.mpr leads)
    | shared _ stated named leads ih =>
      obtain ⟨a, stored, stated⟩ := List.mem_flatMap.mp stated
      exact connected.next _ ih a stored _ stated _ named _ (walkVar_eq_some.mpr leads)

/-- The constraints reported of a term are those of its connected component. Collecting them
    ends. There is a least set of variables that has what the variables of the term stand for,
    and what the constraints on its own variables lead to; its variables are unbound. There is
    a group for a kind of attributes just if a variable of the set carries one, and it lists,
    each once, the statements of the attributes of that kind on the variables of the set, as
    they are read deeply. -/
theorem Acyclic.residual_component (h : s.Acyclic) (t : Term) :
    (∃ n₀, ∀ n, n₀ ≤ n → s.residualWithin n t.vars [] Groups.none = .ok (s.residual t)) ∧
    ∃ R : Set Var, IsLeast {R | s.Connected t R} R ∧ (∀ v ∈ R, s.isBound v = false) ∧
      ∀ name, ((s.residual t name).isSome ↔ ∃ v ∈ R, ((s.attributes v).get? name).isSome) ∧
        ∀ group, s.residual t name = some group → group.Nodup ∧ ∀ u, u ∈ group ↔
          ∃ v ∈ R, ∃ a, (s.attributes v).get? name = some a ∧ ∃ c ∈ a.constraints, u = s.walkDeep c.1 := by
  refine ⟨?_, {v | s.Concerns t v}, s.isLeast_concerns t, fun v concerned => ?_, fun name => ?_⟩
  · obtain ⟨n₀, comes⟩ := (h.finishes_residual (ι := Unit) t).comes
    exact ⟨n₀, comes ()⟩
  · simp [isBound, h.get?_of_walk (concerned.walk h)]
  · have reports := s.residual_reports t name
    refine ⟨reports.isSome_iff, fun group found => ?_⟩
    have nodup := reports.nodup
    have mem_iff := reports.mem_iff
    simp only [found, Option.getD_some] at nodup mem_iff
    exact ⟨nodup, mem_iff⟩

/-- A sum on `_0` names `_2`, which stands for `_1`, and there two propagators state the same of
    `_4` once they are read. The domain of `_4` belongs to the component of `_0`. -/
theorem residual_component_alias :
    let total : Relation := .sum ⟨0⟩ ⟨2⟩ ⟨3⟩
    let offset (v : Var) : Relation := .plusConst v 3 ⟨4⟩
    let s := (((empty.bind ⟨2⟩ (.var ⟨1⟩)).setAttr ⟨0⟩ (.watchers ⟨0, [⟨1, total⟩]⟩)).setAttr ⟨1⟩
      (.watchers ⟨2, [⟨3, offset ⟨1⟩⟩, ⟨4, offset ⟨2⟩⟩]⟩)).setAttr ⟨4⟩ (.domain ⟨5, ⟨4⟩, .range 0 5⟩)
    let told := (offset ⟨1⟩).statement
    s.Acyclic ∧ s.walkDeep (offset ⟨2⟩).statement = told ∧
      (∃ n₀, ∀ n, n₀ ≤ n → s.residualWithin n [⟨0⟩] [] Groups.none = .ok (s.residual (.var ⟨0⟩))) ∧
      ∃ R : Set Var, IsLeast {R | s.Connected (.var ⟨0⟩) R} R ∧ ⟨4⟩ ∈ R ∧ ⟨2⟩ ∉ R ∧
        (s.residual (.var ⟨0⟩) .domain).isSome ∧
        ∃ group, s.residual (.var ⟨0⟩) .watchers = some group ∧ group.Nodup ∧ told ∈ group := by
  intro total offset s told
  have acyclic : s.Acyclic := acyclic_empty.bind (by decide) (by decide +kernel)
  have read : s.walkDeep (offset ⟨2⟩).statement = told := by decide +kernel
  obtain ⟨ends, R, least, unbound, groups⟩ := acyclic.residual_component (.var ⟨0⟩)
  have first : ⟨0⟩ ∈ R := least.1.start ⟨0⟩ (by decide) _ (by decide +kernel)
  have second : ⟨1⟩ ∈ R := least.1.next _ first (.watchers ⟨0, [⟨1, total⟩]⟩) (by decide +kernel)
    (total.statement, total.vars) (by decide +kernel) ⟨2⟩ (by decide +kernel) _ (by decide +kernel)
  have third : ⟨4⟩ ∈ R := least.1.next _ second (.watchers ⟨2, [⟨3, offset ⟨1⟩⟩, ⟨4, offset ⟨2⟩⟩]⟩) (by decide +kernel)
    (told, (offset ⟨1⟩).vars) (by decide +kernel) ⟨4⟩ (by decide +kernel) _ (by decide +kernel)
  have carried : (s.residual (.var ⟨0⟩) .domain).isSome := (groups .domain).1.mpr ⟨_, third, by decide +kernel⟩
  obtain ⟨exists_iff, lists⟩ := groups .watchers
  obtain ⟨group, found⟩ := Option.isSome_iff_exists.mp (exists_iff.mpr ⟨_, second, by decide +kernel⟩)
  obtain ⟨nodup, mem_iff⟩ := lists group found
  refine ⟨acyclic, read, ends, R, least, third, fun mem => ?_, carried, group, found, nodup, (mem_iff told).mpr ?_⟩
  · exact absurd (unbound _ mem) (by decide)
  · exact ⟨_, second, .watchers ⟨2, [⟨3, offset ⟨1⟩⟩, ⟨4, offset ⟨2⟩⟩]⟩, by decide +kernel,
      ((offset ⟨2⟩).statement, (offset ⟨2⟩).vars), by decide +kernel, read.symm⟩

end Subst

end ConstraintLogic
