import ConstraintLogic.Engine
import ConstraintLogic.Proofs.Solver.LoadAndPost

/-!
# What an answer reports

Beside the term of an answer stand the constraints of its variables, and of all variables
that these constraints name, and so on. They are collected with a queue and an allowance
of rounds. A round takes one variable off the queue, and the variables that it puts there
were counted for the variable that it visits: the allowance is never used up.

Results:
* `Subst.Concerns`: the variables that a term leads to through shared constraints.
* `Groups.Lists`: what is reported.
* `Subst.constraintCount_eq`: the allowance is the cost of all variables.
* `Subst.residual_lists`: the report lists the statements of the variables that the term
  leads to, and nothing else.
-/

namespace ConstraintLogic

/-! ## Comparing terms -/

namespace Term

theorem eq_of_same {a b : Term} (h : same false a b = true) : a = b := by
  cases a <;> cases b <;> simp_all [same]

theorem same_self {a : Term} (atomic : ∀ h t, a ≠ .pair h t) : same false a a = true := by
  cases a with
  | pair h t => exact absurd rfl (atomic h t)
  | _ => simp [same]

theorem agreeAll_iff (work : List (Term × Term)) : agreeAll work = true ↔ ∀ p ∈ work, p.1 = p.2 := by
  fun_induction agreeAll work with
  | case1 => simp
  | case2 h t h' t' rest ih => simp [ih, and_assoc]
  | case3 a b rest apart ih =>
    rw [Bool.and_eq_true, ih, List.forall_mem_cons]
    refine and_congr_left fun _ => ⟨eq_of_same, fun equal => ?_⟩
    have equal : a = b := equal
    subst equal
    exact same_self fun h t cell => apart h t h t cell cell

/-- Terms agree just if they are equal. -/
theorem agree_iff {a b : Term} : a.agree b = true ↔ a = b := by
  simp [agree, agreeAll_iff]

end Term

/-! ## Groups -/

namespace Groups

variable {g : Groups} {name : AttrName} {t u : Term}

/-- The term is in one of the groups. -/
def Lists (g : Groups) (t : Term) : Prop := ∃ name ts, g name = some ts ∧ t ∈ ts

theorem not_lists_none : ¬none.Lists t := by
  rintro ⟨_, _, found, _⟩
  cases found

theorem lists_meet : (g.meet name).Lists t ↔ g.Lists t := by
  constructor
  · rintro ⟨other, ts, found, mem⟩
    unfold meet at found
    split at found
    · cases found
      cases at_name : g name with
      | none => simp [at_name] at mem
      | some ts => exact ⟨name, ts, at_name, by simpa [at_name] using mem⟩
    · exact ⟨other, ts, found, mem⟩
  · rintro ⟨other, ts, found, mem⟩
    refine ⟨other, ts, ?_, mem⟩
    unfold meet
    split
    · rename_i same
      rw [← same, found]
      rfl
    · exact found

/-- What is listed stays so, and the term is listed as well, once. -/
theorem lists_insert : (g.insert name t).Lists u ↔ g.Lists u ∨ u = t := by
  have at_name : (g.insert name t) name =
      some (if t ∈ (g name).getD [] then (g name).getD [] else (g name).getD [] ++ [t]) := by
    have present : (((g name).getD []).any t.agree = true) ↔ t ∈ (g name).getD [] := by
      simp [List.any_eq_true, Term.agree_iff]
    simp [insert, present]
  have elsewhere {other : AttrName} (differ : other ≠ name) : (g.insert name t) other = g other := by
    rw [insert, if_neg differ]
  constructor
  · rintro ⟨other, ts, found, mem⟩
    by_cases same : other = name
    · subst same
      cases at_name.symm.trans found
      have old (mem : u ∈ (g other).getD []) : g.Lists u := by
        cases before : g other with
        | none => simp [before] at mem
        | some ts => exact ⟨other, ts, before, by simpa [before] using mem⟩
      split at mem
      · exact .inl (old mem)
      · exact (List.mem_append.mp mem).imp old List.mem_singleton.mp
    · exact .inl ⟨other, ts, (elsewhere same).symm.trans found, mem⟩
  · rintro (⟨other, ts, found, mem⟩ | rfl)
    · by_cases same : other = name
      · subst same
        refine ⟨other, _, at_name, ?_⟩
        rw [found, Option.getD_some]
        split
        · exact mem
        · exact List.mem_append_left _ mem
      · exact ⟨other, ts, (elsewhere same).trans found, mem⟩
    · refine ⟨name, _, at_name, ?_⟩
      split
      · assumption
      · simp

end Groups

/-! ## Shared constraints -/

namespace Subst

variable {s : Subst} {t u : Term} {v w : Var} {groups : Groups} {queue seen : List Var}

/-- The statements of the attributes of the variable, each with the variables it names. -/
def constraintsOn (s : Subst) (v : Var) : List (Term × List Var) :=
  (s.attributes v).toList.flatMap Attribute.constraints

/-- The term leads to the variable, which has no value: the variable is what a variable of
    the term stands for, or what one stands for that a constraint of such a variable names. -/
inductive Concerns (s : Subst) (t : Term) : Var → Prop
  | named {v w : Var} (mem : w ∈ t.vars) (leads : s.walk (.var w) = .var v) : Concerns s t v
  | shared {u v w : Var} {c : Term × List Var} (before : Concerns s t u) (stated : c ∈ s.constraintsOn u)
      (mem : w ∈ c.2) (leads : s.walk (.var w) = .var v) : Concerns s t v

theorem Concerns.walk (h : s.Concerns t v) (acyclic : s.Acyclic) : s.walk (.var v) = .var v := by
  have stays {w : Var} (leads : s.walk (.var w) = .var v) : s.walk (.var v) = .var v :=
    walk_var_of_unbound (acyclic.get?_of_walk leads)
  cases h with
  | named _ leads => exact stays leads
  | shared _ _ _ leads => exact stays leads

/-! ## Reporting an attribute -/

/-- An attribute adds its statements, and names its variables. -/
theorem report_spec (s : Subst) (state : Groups × List Var) (a : Attribute) :
    (s.report state a).2 = state.2 ++ a.constraints.flatMap (·.2) ∧
      ∀ u, (s.report state a).1.Lists u ↔ state.1.Lists u ∨ ∃ c ∈ a.constraints, u = s.walkDeep c.1 := by
  have collect (cs : List (Term × List Var)) : ∀ state : Groups × List Var,
      let r := cs.foldl (fun state c => (state.1.insert a.name (s.walkDeep c.1), state.2 ++ c.2)) state
      r.2 = state.2 ++ cs.flatMap (·.2) ∧
        ∀ u, r.1.Lists u ↔ state.1.Lists u ∨ ∃ c ∈ cs, u = s.walkDeep c.1 := by
    induction cs with
    | nil => simp
    | cons c cs ih =>
      intro state
      obtain ⟨named, lists⟩ := ih (state.1.insert a.name (s.walkDeep c.1), state.2 ++ c.2)
      refine ⟨by rw [List.foldl_cons, named]; simp, fun u => ?_⟩
      rw [List.foldl_cons, lists, Groups.lists_insert, or_assoc]
      simp
  obtain ⟨named, lists⟩ := collect a.constraints (state.1.meet a.name, state.2)
  exact ⟨named, fun u => (lists u).trans (or_congr_left Groups.lists_meet)⟩

/-- A visit adds the statements of the variable, and names their variables. -/
theorem foldl_report (s : Subst) (v : Var) (groups : Groups) :
    let r := (s.attributes v).toList.foldl s.report (groups, [])
    r.2 = (s.constraintsOn v).flatMap (·.2) ∧
      ∀ u, r.1.Lists u ↔ groups.Lists u ∨ ∃ c ∈ s.constraintsOn v, u = s.walkDeep c.1 := by
  have collect (attrs : List Attribute) : ∀ state : Groups × List Var,
      (attrs.foldl s.report state).2 = state.2 ++ (attrs.flatMap Attribute.constraints).flatMap (·.2) ∧
        ∀ u, (attrs.foldl s.report state).1.Lists u ↔
          state.1.Lists u ∨ ∃ c ∈ attrs.flatMap Attribute.constraints, u = s.walkDeep c.1 := by
    induction attrs with
    | nil => simp
    | cons a attrs ih =>
      intro state
      obtain ⟨named, lists⟩ := ih (s.report state a)
      obtain ⟨named', lists'⟩ := s.report_spec state a
      refine ⟨by rw [List.foldl_cons, named, named']; simp, fun u => ?_⟩
      rw [List.foldl_cons, lists, lists', or_assoc, List.flatMap_cons]
      simp only [List.mem_append, or_and_right, exists_or]
  simpa [constraintsOn] using collect (s.attributes v).toList (groups, [])

/-! ## The allowance -/

/-- How often the constraints of the variable name one. -/
def mentionCost (s : Subst) (v : Var) : Nat := ((s.constraintsOn v).map fun c => c.2.length).sum

theorem length_mentions (s : Subst) (v : Var) : ((s.constraintsOn v).flatMap (·.2)).length = s.mentionCost v := by
  rw [List.length_flatMap]
  rfl

theorem mentionCost_of_not_attributed (h : v ∉ s.attributedVars) : s.mentionCost v = 0 := by
  rw [attributedVars, Std.ExtTreeMap.mem_keys] at h
  have bare : s.attributes v = {} := by simp [attributes, Std.ExtTreeMap.getElem?_eq_none h]
  rw [mentionCost, constraintsOn, bare]
  rfl

/-- The count of mentions is the sum over the variables with attributes. -/
theorem constraintCount_eq (s : Subst) : s.constraintCount = (s.attributedVars.map s.mentionCost).sum := by
  have attrs (m : Attributes) (n : Nat) : m.toList.foldl (fun n a => a.constraints.foldl (fun n c => n + c.2.length) n) n =
      n + ((m.toList.flatMap Attribute.constraints).map fun c => c.2.length).sum := by
    generalize m.toList = l
    induction l generalizing n with
    | nil => rfl
    | cons a l ih =>
      rw [List.foldl_cons, ih, foldl_add_eq, List.flatMap_cons, List.map_append, List.sum_append, Nat.add_assoc]
  unfold constraintCount attributedVars
  simp only [attrs]
  rw [Std.ExtTreeMap.foldl_eq_foldl_toList, ← Std.ExtTreeMap.map_fst_toList_eq_keys, List.map_map,
    foldl_add_eq (fun e : Var × Attributes => ((e.2.toList.flatMap Attribute.constraints).map fun c => c.2.length).sum),
    Nat.zero_add]
  refine congrArg List.sum (List.map_congr_left fun e mem => ?_)
  have found : s.attrs[e.1]? = some e.2 := Std.ExtTreeMap.mem_toList_iff_getElem?_eq_some.mp mem
  simp [mentionCost, constraintsOn, attributes, found]

/-- What the variables that have not been visited can still put on the queue. -/
def unseenCost (s : Subst) (seen : List Var) : Nat :=
  (s.attributedVars.map fun v => if v ∈ seen then 0 else s.mentionCost v).sum

theorem unseenCost_le (s : Subst) (seen : List Var) : s.unseenCost seen ≤ s.constraintCount := by
  rw [constraintCount_eq]
  refine Solver.sum_map_le _ fun w => ?_
  split
  · exact Nat.zero_le _
  · exact Nat.le_refl _

/-- A visit takes the cost of the variable off what is left. -/
theorem unseenCost_visit (new : v ∉ seen) : s.unseenCost (v :: seen) + s.mentionCost v ≤ s.unseenCost seen := by
  have le (w : Var) : (if w ∈ v :: seen then 0 else s.mentionCost w) ≤ if w ∈ seen then 0 else s.mentionCost w := by
    split
    · exact Nat.zero_le _
    · rename_i out
      rw [if_neg fun mem => out (List.mem_cons_of_mem v mem)]
  by_cases attributed : v ∈ s.attributedVars
  · exact Solver.sum_map_add_le _ le attributed (by simp [new])
  · rw [mentionCost_of_not_attributed attributed]
    exact Solver.sum_map_le _ le

/-! ## Collecting -/

/-- What a visit of the variable adds to the groups. -/
def visit (s : Subst) (groups : Groups) (v : Var) : Groups :=
  ((s.attributes v).toList.foldl s.report (groups, [])).1

/-- What the variable stands for has been visited or is on the queue. -/
def Met (s : Subst) (queue seen : List Var) (w : Var) : Prop :=
  ∀ v, s.walk (.var w) = .var v → v ∈ seen ∨ ∃ x ∈ queue, s.walk (.var x) = .var v

/-- What a term leads to has been visited or is behind the queue. -/
structure Collected (s : Subst) (t : Term) (queue seen : List Var) : Prop where
  start : ∀ w ∈ t.vars, s.Met queue seen w
  next : ∀ v ∈ seen, ∀ c ∈ s.constraintsOn v, ∀ w ∈ c.2, s.Met queue seen w
  queued : ∀ w ∈ queue, ∀ v, s.walk (.var w) = .var v → s.Concerns t v
  visited : ∀ v ∈ seen, s.Concerns t v

/-- A variable that stands for no other one, or for one that has been visited, is done. -/
theorem Collected.skip (h : s.Collected t (w :: queue) seen)
    (done : ∀ v, s.walk (.var w) = .var v → v ∈ seen) : s.Collected t queue seen := by
  have met (x : Var) (met : s.Met (w :: queue) seen x) : s.Met queue seen x := by
    intro v leads
    rcases met v leads with visited | ⟨y, mem, leads'⟩
    · exact .inl visited
    · rcases List.mem_cons.mp mem with rfl | mem
      · exact .inl (done v leads')
      · exact .inr ⟨y, mem, leads'⟩
  exact { h with
    start := fun x mem => met x (h.start x mem)
    next := fun v mem c stated x named => met x (h.next v mem c stated x named)
    queued := fun x mem => h.queued x (List.mem_cons_of_mem w mem) }

/-- A visit puts what the variable leads to on the queue. -/
theorem Collected.visit (h : s.Collected t (w :: queue) seen) (groups : Groups) (leads : s.walk (.var w) = .var v) :
    s.Collected t (queue ++ ((s.attributes v).toList.foldl s.report (groups, [])).2) (v :: seen) := by
  rw [(s.foldl_report v groups).1]
  have concerned := h.queued w (by simp) v leads
  have met (x : Var) (met : s.Met (w :: queue) seen x) :
      s.Met (queue ++ (s.constraintsOn v).flatMap (·.2)) (v :: seen) x := by
    intro u leads'
    rcases met u leads' with visited | ⟨y, mem, at_y⟩
    · exact .inl (List.mem_cons_of_mem v visited)
    · rcases List.mem_cons.mp mem with rfl | mem
      · cases leads.symm.trans at_y
        exact .inl (by simp)
      · exact .inr ⟨y, List.mem_append_left _ mem, at_y⟩
  refine ⟨fun x mem => met x (h.start x mem), fun u mem c stated x named => ?_, fun x mem u leads' => ?_,
    fun u mem => ?_⟩
  · rcases List.mem_cons.mp mem with rfl | mem
    · intro y leads'
      exact .inr ⟨x, List.mem_append_right _ (List.mem_flatMap.mpr ⟨c, stated, named⟩), leads'⟩
    · exact met x (h.next u mem c stated x named)
  · rcases List.mem_append.mp mem with mem | mem
    · exact h.queued x (List.mem_cons_of_mem w mem) u leads'
    · obtain ⟨c, stated, named⟩ := List.mem_flatMap.mp mem
      exact .shared concerned stated named leads'
  · rcases List.mem_cons.mp mem with rfl | mem
    · exact concerned
    · exact h.visited u mem

/-- Where the queue is empty, all has been visited. -/
theorem Collected.complete (h : s.Collected t [] seen) : v ∈ seen ↔ s.Concerns t v := by
  refine ⟨h.visited v, fun concerned => ?_⟩
  induction concerned with
  | named mem leads => simpa using h.start _ mem _ leads
  | shared _ stated mem leads ih => simpa using h.next _ ih _ stated _ mem _ leads

/-- Enough rounds visit all that the term leads to. -/
theorem residualFrom_visits (n : Nat) : ∀ (queue seen : List Var) (groups : Groups),
    s.Collected t queue seen → queue.length + s.unseenCost seen ≤ n →
    ∃ rest : List Var, (∀ v, s.Concerns t v ↔ v ∈ seen ∨ v ∈ rest) ∧
      s.residualFrom n queue seen groups = rest.foldl s.visit groups := by
  induction n with
  | zero =>
    intro queue seen groups h enough
    cases queue with
    | nil => exact ⟨[], fun v => by simp [h.complete], rfl⟩
    | cons w queue =>
      rw [List.length_cons] at enough
      omega
  | succ n ih =>
    intro queue seen groups h enough
    cases queue with
    | nil => exact ⟨[], fun v => by simp [h.complete], rfl⟩
    | cons w queue =>
      rw [List.length_cons] at enough
      unfold residualFrom
      split
      · rename_i stays
        refine ih queue seen groups (h.skip fun v leads => ?_) (by omega)
        cases stays.symm.trans (walkVar_eq_some.mpr leads)
      · rename_i v found
        have leads := walkVar_eq_some.mp found
        split
        · rename_i visited
          refine ih queue seen groups (h.skip fun u leads' => ?_) (by omega)
          cases leads.symm.trans leads'
          simpa using visited
        · rename_i new
          replace new : v ∉ seen := by simpa using new
          have fall := s.unseenCost_visit new
          obtain ⟨rest, all, same⟩ := ih _ (v :: seen) _ (h.visit groups leads) (by
            rw [List.length_append, (s.foldl_report v groups).1, length_mentions]
            omega)
          refine ⟨v :: rest, fun u => ?_, same⟩
          rw [all, List.mem_cons, List.mem_cons]
          tauto

/-- A report visits the variables that the term leads to, and no others. -/
theorem residual_visits (s : Subst) (t : Term) :
    ∃ visited : List Var, (∀ v, s.Concerns t v ↔ v ∈ visited) ∧ s.residual t = visited.foldl s.visit Groups.none := by
  have start : s.Collected t t.vars [] :=
    ⟨fun w mem v leads => .inr ⟨w, mem, leads⟩, by simp, fun w mem v leads => .named mem leads, by simp⟩
  obtain ⟨visited, all, same⟩ :=
    residualFrom_visits _ t.vars [] Groups.none start (Nat.add_le_add_left (s.unseenCost_le []) _)
  exact ⟨visited, fun v => by simp [all], same⟩

/-- What is reported of a term are the statements of the variables that it leads to. -/
theorem residual_lists : (s.residual t).Lists u ↔
    ∃ v, s.Concerns t v ∧ ∃ c ∈ s.constraintsOn v, u = s.walkDeep c.1 := by
  have visits (visited : List Var) : ∀ groups : Groups, (visited.foldl s.visit groups).Lists u ↔
      groups.Lists u ∨ ∃ v ∈ visited, ∃ c ∈ s.constraintsOn v, u = s.walkDeep c.1 := by
    induction visited with
    | nil => simp
    | cons v visited ih =>
      intro groups
      rw [List.foldl_cons, ih, visit, (s.foldl_report v groups).2, or_assoc]
      simp only [List.mem_cons, exists_eq_or_imp]
  obtain ⟨visited, all, same⟩ := s.residual_visits t
  rw [same, visits, or_iff_right Groups.not_lists_none]
  exact exists_congr fun v => and_congr_left fun _ => (all v).symm

end Subst

end ConstraintLogic
