import ConstraintLogic.Proofs.Constraint.FilledVariables
import ConstraintLogic.Proofs.Goal.Freshness

/-!
# Constants that are spelled out

A constant among the operands of a constraint is folded into the goal: the goal is decided at
once, gives its one variable a value, or posts a relation with the constant in it. It may
also be spelled out as a new variable that is made the integer first. Then the relation
between variables is posted, and it is the first run that looks at the integers. Both ways
come to the same.

Results:
* `Constraint.spelled`: the goal that states a constraint of variables only.
* `Subst.Names.agree_plus`, `Subst.Names.agree_times`, `Subst.Names.agree_dom`: the attempts
  of both goals, where variables that are integers take the places of the constants.
* `Subst.Produced.spell_constants`: searches for both goals.
-/

namespace ConstraintLogic

/-- The goal is stated of the variable. A constant is spelled out as a new variable, which is
    made the integer first. -/
def Operand.named : Operand → (Var → Goal) → Goal
  | .var v, g => g v
  | .const n, g => .fresh 1 fun ws => .conjAll (ws.map fun w => .conj (.eq (.var w) (.int n)) (g w))

/-- The goal that states the constraint of variables only. Differences keep their constants,
    which are not folded. -/
def Constraint.spelled : Constraint Operand → Goal
  | dom x d => x.named fun v => .dom (.var v) d
  | inRange x lb ub => x.named fun v => .inRange (.var v) lb ub
  | inSet x ns => x.named fun v => .inSet (.var v) ns
  | plus x y z => x.named fun u => y.named fun v => z.named fun w => .plus (.var u) (.var v) (.var w)
  | minus x y z => x.named fun u => y.named fun v => z.named fun w => .minus (.var u) (.var v) (.var w)
  | times c x z => x.named fun v => z.named fun w => .times c (.var v) (.var w)
  | neq x y => .neq x y
  | distinct xs => .distinct xs

/-! ## Attempts that agree -/

theorem Subst.AgreeOff.mono {H G : Var → Prop} {s t : Subst} (h : s.AgreeOff H t) (le : ∀ v, H v → G v) :
    s.AgreeOff G t := fun v shown => h v fun hid => shown (le v hid)

namespace Attempt

variable {H G : Var → Prop} {r r' r'' : Attempt Subst}

/-- One of the attempts is stopped, or both end in a conflict, or both succeed, and then hidden
    variables apart the results are the same. -/
def Agree (H : Var → Prop) (r r' : Attempt Subst) : Prop :=
  (∃ why, r = .error (.stop why)) ∨ (∃ why, r' = .error (.stop why)) ∨
    (r = .error .conflict ∧ r' = .error .conflict) ∨ ∃ t u, r = .ok t ∧ r' = .ok u ∧ t.AgreeOff H u

theorem Echoes.refl (r : Attempt Subst) : Echoes H r r := by
  cases r with
  | ok a => exact .inr (.inr ⟨a, a, rfl, rfl, fun _ _ => ⟨rfl, rfl⟩⟩)
  | error why => exact .inr (.inl ⟨why, rfl, rfl⟩)

theorem Echoes.mono (h : Echoes H r r') (le : ∀ v, H v → G v) : Echoes G r r' :=
  h.imp_right (Or.imp_right fun ⟨a, b, first, second, agree⟩ => ⟨a, b, first, second, agree.mono le⟩)

/-- Attempts agree that echo the same one. -/
theorem Echoes.agree (h : Echoes H r r') (h' : Echoes H r r'') : Agree H r' r'' := by
  rcases h with ⟨why, stopped⟩ | ⟨why, first, second⟩ | ⟨a, b, first, second, agree⟩
  · exact .inl ⟨why, stopped⟩
  · rcases h' with ⟨why', stopped⟩ | ⟨why', first', second'⟩ | ⟨a, b, first', _⟩
    · exact .inr (.inl ⟨why', stopped⟩)
    · cases first.symm.trans first'
      cases why with
      | stop why => exact .inl ⟨why, second⟩
      | conflict => exact .inr (.inr (.inl ⟨second, second'⟩))
    · cases first.symm.trans first'
  · rcases h' with ⟨why', stopped⟩ | ⟨why', first', _⟩ | ⟨a', b', first', second', agree'⟩
    · exact .inr (.inl ⟨why', stopped⟩)
    · cases first.symm.trans first'
    · cases first.symm.trans first'
      refine .inr (.inr (.inr ⟨b, b', second, second', fun v shown => ?_⟩))
      obtain ⟨bound, domain⟩ := agree v shown
      obtain ⟨bound', domain'⟩ := agree' v shown
      exact ⟨bound'.trans bound.symm, domain'.trans domain.symm⟩

theorem Echoes.to_agree (h : Echoes H r r') : Agree H r r' := (Echoes.refl r).agree h

end Attempt

namespace Subst

open Narrow (EndsAs Fixes)

variable {hs vs : List Var} {s t : Subst} {r q : Relation} {v w x y z : Var} {K : Scope}
variable {known known' : Propagator → Prop} {o : Option Int} {n a b c : Int} {H : Var → Prop}

/-! ## Goals that are decided at once -/

/-- Asking for domains leaves nothing to be written back. -/
theorem Orderly.asked_spec (h : s.Orderly K) (vs : List Var) :
    ∃ a, ((Solver.new s).asked vs).toSubst? = .ok a ∧ s.AgreeOff (fun _ => False) a := by
  obtain ⟨opens, _⟩ := h.opens_asked vs
  obtain ⟨a, written, back⟩ := Solver.toSubst?_spec opens.steady
  refine ⟨a, written, fun v _ => ?_⟩
  have same : ((Solver.new s).asked vs).subst = s := opens.loads.subst
  have current (w : Var) : ((Solver.new s).asked vs).current w = s.storedDomain w :=
    (opens.loads.current w).trans (by simp [Solver.current, Solver.new])
  cases bound : a.get? v with
  | some b =>
    have before : s.get? v = some b := by
      rcases back.bound v b bound with before | ⟨d, n, at_v, only, _⟩
      · rwa [same] at before
      · -- The domain is the one that was stored, which has more than one value.
        have open_ := (h.canonical_storedDomain v).2.2
        rw [← current v, Solver.current_of_loaded at_v, only] at open_
        cases open_
    refine ⟨before.symm, ?_⟩
    rw [storedDomain, storedDomain, h.unbound v (by simp [before]), (back.orderly opens.steady).unbound v (by simp [bound])]
  | none =>
    refine ⟨?_, (back.storedDomain_eq bound).trans (current v)⟩
    cases before : s.get? v with
    | none => rfl
    | some b =>
      have kept := back.extends_ v b (by rwa [same])
      cases bound.symm.trans kept

/-- A condition is decided at once. -/
theorem Orderly.echoes_check (h : s.Orderly K) (b : Bool) (vs : List Var) :
    Attempt.Echoes H (((Solver.new s).asked vs).runToSubst (do Narrow.require b; Narrow.fixpoint))
      ((Goal.check b).attempt s) := by
  obtain ⟨a, written, agree⟩ := h.asked_spec vs
  have idle : ((Solver.new s).asked vs).agenda = {} :=
    List.foldlRecOn (motive := fun u : Solver => u.agenda = {}) vs _ rfl fun u same v _ =>
      (Solver.agenda_domain u v).trans same
  obtain ⟨opens, _⟩ := h.opens_asked vs
  generalize (Solver.new s).asked vs = base at *
  cases b with
  | false => exact .inr (.inl ⟨.conflict, Solver.runToSubst_of_error (u := base) rfl, rfl⟩)
  | true =>
    have ran : (do Narrow.require true; Narrow.fixpoint : Narrow Unit) base = .ok () base := by
      have first : Narrow.require true base = .ok () base := rfl
      have rest : Narrow.fixpoint base = .ok () base :=
        (opens.steady.fixpoint_eq_runWaiting (Nat.le_succ _)).trans (Solver.runWaiting_of_none base.runBudget (by rw [idle]; rfl))
      exact (Narrow.bind_of_ok first).trans rest
    exact .inr (.inr ⟨a, s, (Solver.runToSubst_of_ok ran).trans written, rfl, fun v _ => by
      obtain ⟨bound, domain⟩ := agree v id
      exact ⟨bound.symm, domain.symm⟩⟩)

/-- A variable is given its value, if there is one. -/
theorem Orderly.echoes_fix (h : s.Orderly K) (v : Var) (o : Option Int) :
    Attempt.Echoes H (((Solver.new s).asked [v]).runToSubst (do Narrow.reduce v (.ofValue o); Narrow.fixpoint))
      ((Goal.fix v o).attempt s) := by
  cases o with
  | some n =>
    have same : (Goal.fix v (some n)).attempt s = ((Solver.new s).asked [v]).runToSubst (do
        Narrow.reduce v (.singleton n)
        Narrow.fixpoint) := h.solveReduced_loading v (.singleton n)
    rw [same]
    exact .refl _
  | none =>
    obtain ⟨opens, _⟩ := h.opens_asked [v]
    have tidy := opens.loads.matched.tidy (.new h.acyclic h.sized fun w => (h.canonical_storedDomain w).1)
    obtain ⟨u, refused⟩ := Solver.reduce_of_apart (v := v) (d := .empty) tidy trivial fun n _ => Domain.not_mem_empty n
    exact .inr (.inl ⟨.conflict, Solver.runToSubst_of_error (Narrow.bind_of_error refused), rfl⟩)

/-! ## Variables in the places of constants -/

/-- The variables are integers to the second substitution, and new to the first one. -/
structure Names (known : Propagator → Prop) (s : Subst) (hs : List Var) (t : Subst) : Prop where
  fills : s.Fills (· ∈ hs) t
  orderly : t.Orderly (.ints known)
  new : ∀ w ∈ hs, s.next ≤ w.index ∧ w.index < t.next
  more : s.next ≤ t.next

/-- The variable takes the place of the constant. -/
structure Stands (hs : List Var) (t : Subst) (n : Int) (w : Var) : Prop where
  mem : w ∈ hs
  sized : isValue n = true
  bound : t.get? w = some (.int n)

/-- The variable takes the place of the operand. -/
def Spells (s : Subst) (hs : List Var) (t : Subst) : Operand → Var → Prop
  | .const n, w => Stands hs t n w
  | .var u, w => w = u ∧ u.index < s.next

/-- The constant has 64 bits, and the variable has been allocated. -/
def Provides (s : Subst) : Operand → Prop
  | .const n => isValue n = true
  | .var u => u.index < s.next

theorem Provides.fair {x : Operand} (h : s.Provides x) : x.Fair (.ints known) := by
  cases x with
  | const n => exact h
  | var u => exact fun θ reading => reading u

theorem Spells.grow {hs' : List Var} {u : Subst} {x : Operand} (h : s.Spells hs t x w) (sub : hs ⊆ hs')
    (ext : t.Extends u) : s.Spells hs' u x w := by
  cases x with
  | const n => exact ⟨sub h.mem, h.sized, ext w _ h.bound⟩
  | var v => exact h

theorem Spells.given {x : Operand} (h : s.Spells hs t x w) (out : w ∉ hs) : w.index < s.next := by
  cases x with
  | const n => exact absurd h.mem out
  | var v => exact h.1 ▸ h.2

theorem Fills.none (s : Subst) : s.Fills (· ∈ ([] : List Var)) s :=
  ⟨fun _ _ => rfl, fun _ => nofun, fun _ => nofun, rfl⟩

theorem Fills.agreeOff (h : s.Fills H t) : s.AgreeOff H t := fun v shown =>
  ⟨h.bindings v shown, by simp only [storedDomain, attributes, h.attrs]⟩

namespace Names

theorem refl (h : s.Orderly (.ints known)) : Names known s [] s := ⟨.none s, h, fun _ => nofun, Nat.le_refl _⟩

/-- One more new variable is made an integer. -/
theorem bind (h : Names known s hs t) (complete : s.Complete) (allocated : s.Allocated) (sized : isValue n = true) :
    ∃ u, t.fresh.2.unify (.var t.fresh.1) (.int n) = .ok u ∧ Names known s (t.fresh.1 :: hs) u ∧ t.Extends u ∧
      Stands (t.fresh.1 :: hs) u n t.fresh.1 := by
  have new : ¬s.Occurs t.fresh.1 := fun occurs => Nat.not_lt_of_le h.more (allocated.occurs _ occurs)
  have out : t.fresh.1 ∉ hs := fun mem => Nat.lt_irrefl _ (h.new _ mem).2
  have unbound : s.get? t.fresh.1 = none := by
    cases bound : s.get? t.fresh.1 with
    | none => rfl
    | some a => exact absurd (.bound bound) new
  have bare : s.attributes t.fresh.1 = {} := by
    unfold attributes
    cases has : s.attrs[t.fresh.1]? with
    | none => rfl
    | some m => exact absurd (.attributed (by rw [hasAttrs, has]; rfl)) new
  have unbound' : t.fresh.2.get? t.fresh.1 = none := (h.fills.bindings _ out).trans unbound
  have bare' : t.fresh.2.attributes t.fresh.1 = {} := by
    rw [← bare, attributes, attributes, show t.fresh.2.attrs = s.attrs from h.fills.attrs]
  have recorded : t.fresh.2.Recorded := by
    intro v m
    rw [show t.fresh.2.attrs = s.attrs from h.fills.attrs]
    exact complete.recorded v m
  have leads : t.fresh.2.walk (.var t.fresh.1) = .var t.fresh.1 :=
    walk_var_of_unbound unbound'
  have not_var (v : Var) : Term.int n ≠ .var v := Term.noConfusion
  have unified : t.fresh.2.unify (.var t.fresh.1) (.int n) = .ok (t.fresh.2.bindBare t.fresh.1 (.int n)) := by
    rw [unify_bare leads bare' not_var, if_neg (by rw [Solver.occurs_int]; exact Bool.false_ne_true)]
  have ext : t.Extends (t.fresh.2.bindBare t.fresh.1 (.int n)) := Extends.bindBare unbound' (.int n)
  have bound : (t.fresh.2.bindBare t.fresh.1 (.int n)).get? t.fresh.1 = some (.int n) := by
    rw [get?_bindBare, if_pos rfl]
  have orderly : t.fresh.2.Orderly (.ints known) := h.orderly.congr rfl rfl (Nat.le_refl _)
  refine ⟨_, unified, ⟨⟨fun v shown => ?_, fun v mem => ?_, fun v mem => ?_, ?_⟩, ?_, fun v mem => ?_, ?_⟩, ext,
    ⟨by simp, sized, bound⟩⟩
  · rw [List.mem_cons, not_or] at shown
    rw [get?_bindBare, if_neg (Ne.symm shown.1)]
    exact h.fills.bindings v shown.2
  · rcases List.mem_cons.mp mem with rfl | mem
    · exact ⟨unbound, bare⟩
    · exact h.fills.bare v mem
  · rcases List.mem_cons.mp mem with rfl | mem
    · exact ⟨.int n, not_var, bound⟩
    · obtain ⟨a, term, found⟩ := h.fills.bound v mem
      exact ⟨a, term, ext v a found⟩
  · rw [bindBare_eq recorded bare']
    exact h.fills.attrs
  · exact good_of_solves (orderly.unify (a := .var t.fresh.1) (b := .int n) trivial sized) unified
  · rcases List.mem_cons.mp mem with rfl | mem
    · exact ⟨h.more, Nat.lt_succ_self _⟩
    · exact ⟨(h.new v mem).1, Nat.lt_succ_of_lt (h.new v mem).2⟩
  · exact Nat.le_succ_of_le h.more

/-- An operand is named before the goal is attempted. -/
theorem named (h : Names known s hs t) (complete : s.Complete) (allocated : s.Allocated) (c : Context) (x : Operand)
    (provided : s.Provides x) :
    ∃ hs' u v, Names known s hs' u ∧ hs ⊆ hs' ∧ t.Extends u ∧ s.Spells hs' u x v ∧
      ∀ (g : Var → Goal) (r : Attempt Subst), Answers.Amounts c.interp ((g v).apply c u) r →
        Answers.Amounts c.interp ((x.named g).apply c t) r := by
  cases x with
  | var v => exact ⟨hs, t, v, h, List.Subset.refl _, .refl t, ⟨rfl, provided⟩, fun _ _ => id⟩
  | const n =>
    obtain ⟨u, unified, names, ext, stands⟩ := h.bind complete allocated provided
    refine ⟨t.fresh.1 :: hs, u, t.fresh.1, names, List.subset_cons_self _ _, ext, stands, fun g r amounts => ?_⟩
    have first : Answers.Amounts c.interp ((Goal.eq (.var t.fresh.1) (.int n)).apply c t.fresh.2) (.ok u) :=
      unified ▸ Answers.amounts_ofAttempt c.interp _
    exact first.conj (f := fun _ => r) fun v same => by cases same; exact amounts

/-! ## Both ways -/

section Both

variable (h : Names known s hs t) (orderly : s.Orderly (.ints known)) (complete : s.Complete) (allocated : s.Allocated)

include h

theorem out (given : v.index < s.next) : v ∉ hs := fun mem => Nat.not_lt_of_le (h.new v mem).1 given

theorem resolve_turned (stands : Stands hs t n w) : (t.turned r).resolve w = .value n := by
  rw [(t.matches_turned r).resolve]
  refine Solver.resolve_eq_value_iff.mpr ((h.orderly.acyclic.walk_of_bound stands.bound).trans ?_)
  exact walk_of_not_var (by simp [Term.int])

omit h in
/-- Given variables do not lead to variables that take the place of a constant. -/
theorem shown (h : Names known s hs t) (allocated : s.Allocated) (given : ∀ v ∈ r.vars, v ∉ hs → v.index < s.next) :
    ∀ v ∈ r.vars, v ∉ hs → ∀ u, s.walk (.var v) = .var u → u ∉ hs :=
  fun v mem out _ ends => h.out (allocated.walk_var (given v mem out) ends)

include orderly allocated

/-- An allocated variable stands for the same in both substitutions. -/
theorem resolve_given (given : v.index < s.next) : (t.turned r).resolve v = (s.turned q).resolve v := by
  rw [(t.matches_turned r).resolve, (s.matches_turned q).resolve]
  have same := h.fills.walk orderly.acyclic h.orderly.acyclic fun u ends => h.out (allocated.walk_var given ends)
  simp only [Solver.resolve, Solver.new, same]

theorem sameVar_given (first : v.index < s.next) (second : w.index < s.next) :
    (t.turned r).sameVar v w = (s.turned q).sameVar v w := by
  simp only [Solver.sameVar, h.resolve_given orderly allocated (r := r) (q := q) first,
    h.resolve_given orderly allocated (r := r) (q := q) second]

include complete

variable (proper : r.Proper) (given : ∀ v ∈ r.vars, v ∉ hs → v.index < s.next) (vars : r.vars.filter (· ∉ hs) = vs)

include proper given vars

/-- The goal is decided at once, and the first run comes to the same condition. -/
theorem agree_check {p : Bool} (ends : EndsAs ⟨0⟩ (t.turned r) (Narrow.propagate ⟨0⟩ r) (Narrow.require p)) :
    Attempt.Agree (· ∈ hs) ((Goal.check p).attempt s) (t.posting r).solve? :=
  (orderly.echoes_check p vs).agree
    (h.fills.echoes_of_required orderly complete h.orderly proper (h.shown allocated given) vars ends)

/-- The goal gives a variable its value, and so does the first run. -/
theorem agree_fix {o : Option Int} (only : vs = [v]) (values : ∀ n, o = some n → isValue n = true)
    (fixes : Fixes ⟨0⟩ (t.turned r) (Narrow.propagate ⟨0⟩ r) v (.ofValue o)) :
    Attempt.Agree (· ∈ hs) ((Goal.fix v o).attempt s) (t.posting r).solve? := by
  subst only
  refine (orderly.echoes_fix v o).agree ?_
  refine h.fills.echoes_of_fixes orderly complete h.orderly proper (h.shown allocated given) vars (by simp)
    (Domain.canonical_ofValue values) ?_ fixes
  cases o <;> exact Domain.noConfusion

/-- The goal posts a relation of the variables that are not integers. The first runs of both
    come to the same condition. -/
theorem agree_required {p : Bool} (proper' : q.Proper) (only : q.vars = vs)
    (ends : EndsAs ⟨0⟩ (s.turned q) (Narrow.propagate ⟨0⟩ q) (Narrow.require p))
    (ends' : EndsAs ⟨0⟩ (t.turned r) (Narrow.propagate ⟨0⟩ r) (Narrow.require p)) :
    Attempt.Agree (· ∈ hs) (s.posting q).solve? (t.posting r).solve? := by
  have whole : q.vars.filter (· ∉ ([] : List Var)) = vs := by simpa using only
  have own := (Fills.none s).echoes_of_required orderly complete orderly proper'
    (fun _ _ _ _ _ => List.not_mem_nil) whole ends
  refine (own.mono fun v mem => absurd mem List.not_mem_nil).agree ?_
  exact h.fills.echoes_of_required orderly complete h.orderly proper (h.shown allocated given) vars ends'

/-- The goal posts a relation of the variables that are not integers. The first runs of both
    give a variable its value. -/
theorem agree_fixes {o : Option Int} (proper' : q.Proper) (only : q.vars = vs) (mem : v ∈ vs)
    (values : ∀ n, o = some n → isValue n = true)
    (fixes : Fixes ⟨0⟩ (s.turned q) (Narrow.propagate ⟨0⟩ q) v (.ofValue o))
    (fixes' : Fixes ⟨0⟩ (t.turned r) (Narrow.propagate ⟨0⟩ r) v (.ofValue o)) :
    Attempt.Agree (· ∈ hs) (s.posting q).solve? (t.posting r).solve? := by
  have canonical := Domain.canonical_ofValue values
  have finite : Domain.ofValue o ≠ .unbounded := by cases o <;> exact Domain.noConfusion
  have own := (Fills.none s).echoes_of_fixes orderly complete orderly proper' (fun _ _ _ _ _ => List.not_mem_nil)
    (by simpa using only) mem canonical finite fixes
  refine (own.mono fun v mem => absurd mem List.not_mem_nil).agree ?_
  exact h.fills.echoes_of_fixes orderly complete h.orderly proper (h.shown allocated given) vars mem canonical finite
    fixes'

/-- The goal posts the relation that the first run goes on with. -/
theorem agree_replaced (proper' : q.Proper) (only : q.vars = vs)
    (looks : Narrow.propagate ⟨0⟩ r (t.turned r) = (do
      Narrow.replaceWith ⟨0⟩ q
      Narrow.propagate ⟨0⟩ q : Narrow Unit) (t.turned r)) :
    Attempt.Agree (· ∈ hs) (s.posting q).solve? (t.posting r).solve? :=
  (h.fills.echoes_of_replaced orderly complete h.orderly proper (h.shown allocated given) (only.trans vars.symm) proper'
    looks).to_agree

end Both

section Sums

variable (h : Names known s hs t) (orderly : s.Orderly (.ints known)) (complete : s.Complete) (allocated : s.Allocated)

include h orderly complete allocated

/-- An integer is added to a variable. -/
theorem agree_add {b : Int} (stands : Stands hs t b y) (given_x : x.index < s.next) (given_z : z.index < s.next) :
    Attempt.Agree (· ∈ hs) (s.posting (.plusConst x b z)).solve? (t.posting (.sum x y z)).solve? := by
  have sized : (Relation.plusConst x b z).Proper := stands.sized
  have given : ∀ v ∈ (Relation.sum x y z).vars, v ∉ hs → v.index < s.next := by
    simp [Relation.vars, stands.mem, given_x, given_z]
  have vars : (Relation.sum x y z).vars.filter (· ∉ hs) = [x, z] := by
    simp [Relation.vars, stands.mem, h.out given_x, h.out given_z]
  have tidy := h.orderly.tidy_turned (.sum x y z)
  have at_y := h.resolve_turned (r := .sum x y z) stands
  have loaded {v : Var} (mem : v ∈ [x, y, z]) := h.orderly.loaded_turned (r := .sum x y z) trivial mem
  by_cases same : (t.turned (.sum x y z)).sameVar x z = true
  · have same' := same
    rw [h.sameVar_given orderly allocated (q := .plusConst x b z) given_x given_z] at same'
    refine h.agree_required orderly complete allocated trivial given vars (p := b = 0) sized rfl
      (.of_eq (Narrow.runPlusConst_alias same')) (.of_eq ?_)
    refine (Narrow.runSum_alias_first at_y same).trans ((Narrow.reduce_of_value at_y _).trans ?_)
    rw [Domain.contains_singleton]
  by_cases known : ∃ n, (t.turned (.sum x y z)).resolve x = .value n
  · obtain ⟨n, value⟩ := known
    have value' := value
    rw [h.resolve_given orderly allocated (q := .plusConst x b z) given_x] at value'
    have values (k : Int) (found : value? (n + b) = some k) : isValue k = true := Domain.isValue_of_value? found
    refine h.agree_fixes orderly complete allocated trivial given vars sized rfl (v := z) (by simp) values ?_ ?_
    · exact Narrow.fixes_plusConst (orderly.tidy_turned _) value' (tidy.isValue_of_value value)
        (orderly.loaded_turned sized (by simp [Relation.vars]))
    · exact Narrow.fixes_sum tidy value at_y stands.sized (loaded (by simp))
  · push Not at known
    refine h.agree_replaced orderly complete allocated trivial given vars sized rfl ?_
    exact Narrow.runSum_second at_y (loaded (by simp)) (loaded (by simp))
      (Narrow.solution_of_open (h.orderly.open_turned _ x) known) (Bool.eq_false_iff.mpr same)

/-- A variable is added to an integer. -/
theorem agree_add_to {a : Int} (stands : Stands hs t a x) (given_y : y.index < s.next) (given_z : z.index < s.next) :
    Attempt.Agree (· ∈ hs) (s.posting (.plusConst y a z)).solve? (t.posting (.sum x y z)).solve? := by
  have sized : (Relation.plusConst y a z).Proper := stands.sized
  have given : ∀ v ∈ (Relation.sum x y z).vars, v ∉ hs → v.index < s.next := by
    simp [Relation.vars, stands.mem, given_y, given_z]
  have vars : (Relation.sum x y z).vars.filter (· ∉ hs) = [y, z] := by
    simp [Relation.vars, stands.mem, h.out given_y, h.out given_z]
  have at_x := h.resolve_turned (r := .sum x y z) stands
  have loaded {v : Var} (mem : v ∈ [x, y, z]) := h.orderly.loaded_turned (r := .sum x y z) trivial mem
  by_cases same : (t.turned (.sum x y z)).sameVar y z = true
  · have same' := same
    rw [h.sameVar_given orderly allocated (q := .plusConst y a z) given_y given_z] at same'
    refine h.agree_required orderly complete allocated trivial given vars (p := a = 0) sized rfl
      (.of_eq (Narrow.runPlusConst_alias same')) (.of_eq ?_)
    refine (Narrow.runSum_alias_second at_x same).trans ((Narrow.reduce_of_value at_x _).trans ?_)
    rw [Domain.contains_singleton]
  · refine h.agree_replaced orderly complete allocated trivial given vars sized rfl ?_
    exact Narrow.runSum_first at_x (loaded (by simp)) (loaded (by simp)) (Bool.eq_false_iff.mpr same)

/-- Two variables add up to an integer. -/
theorem agree_split {n : Int} (stands : Stands hs t n z) (given_x : x.index < s.next) (given_y : y.index < s.next) :
    Attempt.Agree (· ∈ hs) (s.posting (.sumConst x y n)).solve? (t.posting (.sum x y z)).solve? := by
  have sized : (Relation.sumConst x y n).Proper := stands.sized
  have given : ∀ v ∈ (Relation.sum x y z).vars, v ∉ hs → v.index < s.next := by
    simp [Relation.vars, stands.mem, given_x, given_y]
  have vars : (Relation.sum x y z).vars.filter (· ∉ hs) = [x, y] := by
    simp [Relation.vars, stands.mem, h.out given_x, h.out given_y]
  have tidy := h.orderly.tidy_turned (.sum x y z)
  have tidy' := orderly.tidy_turned (.sumConst x y n)
  have at_z := h.resolve_turned (r := .sum x y z) stands
  have loaded {v : Var} (mem : v ∈ [x, y, z]) := h.orderly.loaded_turned (r := .sum x y z) trivial mem
  have loaded' {v : Var} (mem : v ∈ [x, y]) := orderly.loaded_turned (r := .sumConst x y n) sized mem
  have fixes {v : Var} {o : Option Int} (mem : v ∈ [x, y]) (values : ∀ k, o = some k → isValue k = true)
      (first : Fixes ⟨0⟩ (s.turned (.sumConst x y n)) (Narrow.runSumConst ⟨0⟩ x y n) v (.ofValue o))
      (second : Fixes ⟨0⟩ (t.turned (.sum x y z)) (Narrow.runSum ⟨0⟩ x y z) v (.ofValue o)) :=
    h.agree_fixes orderly complete allocated (r := .sum x y z) trivial given vars sized rfl mem values first second
  by_cases same : (t.turned (.sum x y z)).sameVar x y = true
  · have same' := same
    rw [h.sameVar_given orderly allocated (q := .sumConst x y n) given_x given_y] at same'
    refine fixes (v := x) (o := Domain.quotient? n 2) (by simp)
      (fun k found => ((Domain.quotient?_eq_some_iff (by decide)).mp found).1) ?_ ?_
    · exact Narrow.fixes_sumConst_alias tidy' same' stands.sized
    · exact Narrow.fixes_sum_both tidy at_z stands.sized (loaded (by simp)) same
  have quantities (a k : Int) (found : value? (n - a) = some k) : isValue k = true := Domain.isValue_of_value? found
  by_cases known : ∃ a, (t.turned (.sum x y z)).resolve x = .value a
  · obtain ⟨a, value⟩ := known
    have value' := value
    rw [h.resolve_given orderly allocated (q := .sumConst x y n) given_x] at value'
    refine fixes (v := y) (by simp) (quantities a) ?_ ?_
    · exact Narrow.fixes_sumConst tidy' value' (tidy.isValue_of_value value) (loaded' (by simp))
    · exact Narrow.fixes_sum_second tidy value at_z stands.sized (loaded (by simp))
  by_cases known' : ∃ b, (t.turned (.sum x y z)).resolve y = .value b
  · obtain ⟨b, value⟩ := known'
    have value' := value
    rw [h.resolve_given orderly allocated (q := .sumConst x y n) given_y] at value'
    refine fixes (v := x) (by simp) (quantities b) ?_ ?_
    · exact Narrow.fixes_sumConst_back tidy' value' (tidy.isValue_of_value value) (loaded' (by simp))
    · exact Narrow.fixes_sum_first tidy value at_z stands.sized (loaded (by simp)) (h.orderly.open_turned _ x)
        (fun a value => tidy.isValue_of_value value) (tidy.isValue_of_value value)
  push Not at known known'
  refine h.agree_replaced orderly complete allocated trivial given vars sized rfl ?_
  exact Narrow.runSum_result at_z (loaded (by simp)) (loaded (by simp))
    (Narrow.solution_of_open (h.orderly.open_turned _ x) known)
    (Narrow.solution_of_open (h.orderly.open_turned _ y) known') (Bool.eq_false_iff.mpr same)

/-- Sums. -/
theorem agree_plus {x' y' z' : Operand} (folds : ∃ n, .const n ∈ [x', y', z']) (first : s.Spells hs t x' x)
    (second : s.Spells hs t y' y) (third : s.Spells hs t z' z) :
    Attempt.Agree (· ∈ hs) ((Goal.plus x' y' z').attempt s) (t.posting (.sum x y z)).solve? := by
  have proper : (Relation.sum x y z).Proper := trivial
  have tidy := h.orderly.tidy_turned (.sum x y z)
  have loaded {v : Var} (mem : v ∈ [x, y, z]) := h.orderly.loaded_turned proper mem
  have quantities (m k : Int) (found : value? m = some k) : isValue k = true := Domain.isValue_of_value? found
  have given : ∀ v ∈ (Relation.sum x y z).vars, v ∉ hs → v.index < s.next := by
    simpa [Relation.vars] using ⟨first.given, second.given, third.given⟩
  have stands {v : Var} {n : Int} (at_v : Stands hs t n v) := h.resolve_turned (r := .sum x y z) at_v
  cases x' with
  | const a =>
    cases y' with
    | const b =>
      have fixes : Fixes ⟨0⟩ (t.turned (.sum x y z)) (Narrow.runSum ⟨0⟩ x y z) z (.ofValue (value? (a + b))) :=
        Narrow.fixes_sum tidy (stands first) (stands second) second.sized (loaded (by simp))
      cases z' with
      | const c =>
        have vars : (Relation.sum x y z).vars.filter (· ∉ hs) = [] := by
          simp [Relation.vars, first.mem, second.mem, third.mem]
        refine h.agree_check orderly complete allocated proper given vars (fixes.of_alike fun u retouched => ?_)
        rw [Narrow.reduce_of_value (retouched.matched.resolve ▸ stands third), Domain.contains_ofValue]
      | var v =>
        obtain ⟨rfl, in_s⟩ := third
        have vars : (Relation.sum x y z).vars.filter (· ∉ hs) = [z] := by
          simp [Relation.vars, first.mem, second.mem, h.out in_s]
        exact h.agree_fix orderly complete allocated proper given vars rfl (quantities _) fixes
    | var v =>
      obtain ⟨rfl, in_s⟩ := second
      cases z' with
      | const c =>
        have vars : (Relation.sum x y z).vars.filter (· ∉ hs) = [y] := by
          simp [Relation.vars, first.mem, third.mem, h.out in_s]
        refine h.agree_fix orderly complete allocated proper given vars rfl (quantities _) ?_
        exact Narrow.fixes_sum_second tidy (stands first) (stands third) third.sized (loaded (by simp))
      | var v =>
        obtain ⟨rfl, in_s'⟩ := third
        exact h.agree_add_to orderly complete allocated first in_s in_s'
  | var v =>
    obtain ⟨rfl, in_s⟩ := first
    cases y' with
    | const b =>
      cases z' with
      | const c =>
        have vars : (Relation.sum x y z).vars.filter (· ∉ hs) = [x] := by
          simp [Relation.vars, second.mem, third.mem, h.out in_s]
        refine h.agree_fix orderly complete allocated proper given vars rfl (quantities _) ?_
        exact Narrow.fixes_sum_first tidy (stands second) (stands third) third.sized (loaded (by simp))
          (h.orderly.open_turned _ x) (fun a value => tidy.isValue_of_value value) second.sized
      | var v =>
        obtain ⟨rfl, in_s'⟩ := third
        exact h.agree_add orderly complete allocated second in_s in_s'
    | var v =>
      obtain ⟨rfl, in_s'⟩ := second
      cases z' with
      | const c => exact h.agree_split orderly complete allocated third in_s in_s'
      | var v => simp at folds

/-- Multiples. -/
theorem agree_times {x' z' : Operand} (sized : isValue c = true) (folds : ∃ n, .const n ∈ [x', z'])
    (first : s.Spells hs t x' x) (second : s.Spells hs t z' z) :
    Attempt.Agree (· ∈ hs) ((Goal.times c x' z').attempt s) (t.posting (.scale c x z)).solve? := by
  have proper : (Relation.scale c x z).Proper := sized
  have tidy := h.orderly.tidy_turned (.scale c x z)
  have loaded {v : Var} (mem : v ∈ [x, z]) := h.orderly.loaded_turned proper mem
  have given : ∀ v ∈ (Relation.scale c x z).vars, v ∉ hs → v.index < s.next := by
    simpa [Relation.vars] using ⟨first.given, second.given⟩
  have stands {v : Var} {n : Int} (at_v : Stands hs t n v) := h.resolve_turned (r := .scale c x z) at_v
  cases x' with
  | const a =>
    have fixes : Fixes ⟨0⟩ (t.turned (.scale c x z)) (Narrow.runScale ⟨0⟩ c x z) z (.ofValue (value? (c * a))) :=
      Narrow.fixes_scale tidy (stands first) first.sized (loaded (by simp))
    cases z' with
    | const b =>
      have vars : (Relation.scale c x z).vars.filter (· ∉ hs) = [] := by simp [Relation.vars, first.mem, second.mem]
      refine h.agree_check orderly complete allocated proper given vars (fixes.of_alike fun u retouched => ?_)
      rw [Narrow.reduce_of_value (retouched.matched.resolve ▸ stands second), Domain.contains_ofValue]
    | var v =>
      obtain ⟨rfl, in_s⟩ := second
      have vars : (Relation.scale c x z).vars.filter (· ∉ hs) = [z] := by simp [Relation.vars, first.mem, h.out in_s]
      exact h.agree_fix orderly complete allocated proper given vars rfl (fun _ => Domain.isValue_of_value?) fixes
  | var v =>
    obtain ⟨rfl, in_s⟩ := first
    cases z' with
    | const b =>
      have vars : (Relation.scale c x z).vars.filter (· ∉ hs) = [x] := by simp [Relation.vars, second.mem, h.out in_s]
      by_cases zero : c = 0
      · subst zero
        refine h.agree_check orderly complete allocated proper given vars (.of_eq ?_)
        have looks : Narrow.runScale ⟨0⟩ 0 x z = Narrow.reduce z (.singleton 0) := rfl
        refine (congrFun looks _).trans ((Narrow.reduce_of_value (stands second) _).trans ?_)
        rw [Domain.contains_singleton]
      have stated : Goal.times c (.var x) (.const b) = Goal.fix x (Domain.quotient? b c) := by
        rw [Goal.times, if_neg zero, Domain.quotient?]
        split <;> rfl
      rw [stated]
      refine h.agree_fix orderly complete allocated proper given vars rfl
        (fun k found => ((Domain.quotient?_eq_some_iff zero).mp found).1) ?_
      exact Narrow.fixes_scale_back tidy (stands second) second.sized zero (loaded (by simp))
    | var v => simp at folds

end Sums

/-- A value of a domain. -/
theorem agree_dom (h : Names known s hs t) {d : Domain} (stands : Stands hs t n w) :
    Attempt.Agree (· ∈ hs) ((Goal.dom (.const n) d).attempt s) ((Goal.dom (.var w) d).attempt t) := by
  have value : (Solver.new t).resolve w = .value n := by
    refine Solver.resolve_eq_value_iff.mpr ((h.orderly.acyclic.walk_of_bound stands.bound).trans ?_)
    exact walk_of_not_var (by simp [Term.int])
  by_cases none : d.isEmpty = true
  · obtain rfl := Domain.isEmpty_iff.mp none
    exact .inr (.inr (.inl ⟨rfl, rfl⟩))
  have stated : (Goal.dom (.var w) d).attempt t = ((Solver.new t).asked [w]).runToSubst (do
      Narrow.require (d.contains n)
      Narrow.fixpoint) := by
    have narrows : Goal.dom (.var w) d = .narrow w d := if_neg none
    have found : ((Solver.new t).asked [w]).resolve w = .value n := by
      rw [(h.orderly.opens_asked [w]).1.loads.resolve, value]
    rw [narrows]
    refine (h.orderly.solveReduced_loading w d).trans ?_
    exact Solver.runToSubst_congr (Narrow.bind_of_eq (Narrow.reduce_of_value found d))
  rw [stated]
  have echoes := h.orderly.echoes_check (H := (· ∈ hs)) (d.contains n) [w]
  have checks : Goal.dom (.const n) d = Goal.check (d.contains n) := rfl
  rw [checks]
  cases holds : d.contains n with
  | false =>
    rw [holds] at echoes
    rcases echoes with ⟨why, stopped⟩ | ⟨why, first, second⟩ | ⟨_, _, _, second, _⟩
    · cases stopped
    · cases second
      exact .inr (.inr (.inl ⟨rfl, first⟩))
    · cases second
  | true =>
    rw [holds] at echoes
    rcases echoes with ⟨why, stopped⟩ | ⟨_, _, second⟩ | ⟨u, _, first, second, agree⟩
    · cases stopped
    · cases second
    · cases second
      refine .inr (.inr (.inr ⟨s, u, rfl, first, fun v shown => ?_⟩))
      obtain ⟨bound, domain⟩ := h.fills.agreeOff v shown
      obtain ⟨bound', domain'⟩ := agree v shown
      exact ⟨bound'.symm.trans bound, domain'.symm.trans domain⟩

/-- Three operands are named before a goal is attempted. -/
theorem named_three (h : s.Orderly (.ints known)) (complete : s.Complete) (allocated : s.Allocated) (c : Context)
    {x y z : Operand} (provided : ∀ x' ∈ [x, y, z], s.Provides x') :
    ∃ hs t u v w, Names known s hs t ∧ s.Spells hs t x u ∧ s.Spells hs t y v ∧ s.Spells hs t z w ∧
      ∀ (g : Var → Var → Var → Goal) (r : Attempt Subst), Answers.Amounts c.interp ((g u v w).apply c t) r →
        Answers.Amounts c.interp ((x.named fun u => y.named fun v => z.named fun w => g u v w).apply c s) r := by
  simp only [List.mem_cons, List.not_mem_nil, or_false, forall_eq_or_imp, forall_eq] at provided
  obtain ⟨hs₁, t₁, u, names₁, _, _, first, amounts₁⟩ := (refl h).named complete allocated c x provided.1
  obtain ⟨hs₂, t₂, v, names₂, sub₂, ext₂, second, amounts₂⟩ := names₁.named complete allocated c y provided.2.1
  obtain ⟨hs₃, t₃, w, names₃, sub₃, ext₃, third, amounts₃⟩ := names₂.named complete allocated c z provided.2.2
  refine ⟨hs₃, t₃, u, v, w, names₃, (first.grow sub₂ ext₂).grow sub₃ ext₃, second.grow sub₃ ext₃, third, ?_⟩
  exact fun g r amounts => amounts₁ _ r (amounts₂ _ r (amounts₃ _ r amounts))

end Names

end Subst

/-! ## Searches -/

open Series (PlaysOut)

namespace Goal

/-- The search for the goal is one attempt. -/
def Single (g : Goal) : Prop := ∀ (c : Context) (s : Subst), g.apply c s = Answers.ofAttempt (g.attempt s)

theorem single_post (r : Relation) : (post r).Single := fun _ _ => rfl

theorem single_check (b : Bool) : (check b).Single := by
  cases b <;> exact fun _ _ => rfl

theorem single_fix (v : Var) (o : Option Int) : (fix v o).Single := by
  cases o <;> exact fun _ _ => rfl

theorem single_dom (x : Operand) (d : Domain) : (dom x d).Single := by
  cases x with
  | const n => exact single_check _
  | var v =>
    show (if d.isEmpty then fail else narrow v d).Single
    split <;> exact fun _ _ => rfl

theorem single_plus : ∀ x y z : Operand, (plus x y z).Single
  | .const _, .const _, .const _ => single_check _
  | .const _, .const _, .var z => single_fix z _
  | .const _, .var y, .const _ => single_fix y _
  | .var x, .const _, .const _ => single_fix x _
  | .var _, .const _, .var _ => single_post _
  | .const _, .var _, .var _ => single_post _
  | .var _, .var _, .const _ => single_post _
  | .var _, .var _, .var _ => single_post _

theorem single_times (c : Int) : ∀ x z : Operand, (times c x z).Single
  | .const _, .const _ => single_check _
  | .const _, .var z => single_fix z _
  | .var x, .const b => by
    show (if c = 0 then check (b = 0)
      else if Int.tmod b c = 0 then fix x (value? (Int.tdiv b c)) else fail).Single
    split
    · exact single_check _
    split
    · exact single_fix x _
    · exact fun _ _ => rfl
  | .var _, .var _ => single_post _

theorem single_distinct (xs : List Operand) : (distinct xs).Single := by
  show (if (operandVars xs).isEmpty then check (allDistinct (operandConsts xs))
    else post (.allDifferent (operandVars xs) (operandConsts xs))).Single
  split
  · exact single_check _
  · exact single_post _

/-- Searches for the goals agree: an overflow stops one of them, or none has an answer, or
    each of them has one, and these have the same bindings and the same domains for the
    variables that had been allocated. -/
def Agree (c : Context) (s : Subst) (g h : Goal) : Prop :=
  (∃ f : Fault, f.IsOverflow ∧ (PlaysOut c.interp (g.apply c s) [] (some (.fault f)) ∨
      PlaysOut c.interp (h.apply c s) [] (some (.fault f)))) ∨
    (PlaysOut c.interp (g.apply c s) [] none ∧ PlaysOut c.interp (h.apply c s) [] none) ∨
    ∃ t u, PlaysOut c.interp (g.apply c s) [t] none ∧ PlaysOut c.interp (h.apply c s) [u] none ∧
      ∀ v, v.index < s.next → u.get? v = t.get? v ∧ u.storedDomain v = t.storedDomain v

end Goal

namespace Constraint

/-- The search for the goal of a constraint is one attempt. -/
theorem single (k : Constraint Operand) : k.goal.Single := by
  cases k with
  | dom x d => exact Goal.single_dom x d
  | inRange x lb ub => exact Goal.single_dom x _
  | inSet x ns => exact Goal.single_dom x _
  | plus x y z => exact Goal.single_plus x y z
  | minus x y z => exact Goal.single_plus y z x
  | times c x z => exact Goal.single_times c x z
  | neq x y => exact Goal.single_distinct [x, y]
  | distinct xs => exact Goal.single_distinct xs

theorem spelled_of_vars {k : Constraint Operand} (vars : ∀ n, .const n ∉ k.operands) : k.spelled = k.goal := by
  have var {x : Operand} (mem : x ∈ k.operands) : ∃ v, x = .var v := by
    cases x with
    | const n => exact absurd mem (vars n)
    | var v => exact ⟨v, rfl⟩
  cases k with
  | dom x d =>
    obtain ⟨v, rfl⟩ := var (x := x) (by simp [operands])
    rfl
  | inRange x lb ub =>
    obtain ⟨v, rfl⟩ := var (x := x) (by simp [operands])
    rfl
  | inSet x ns =>
    obtain ⟨v, rfl⟩ := var (x := x) (by simp [operands])
    rfl
  | plus x y z =>
    obtain ⟨u, rfl⟩ := var (x := x) (by simp [operands])
    obtain ⟨v, rfl⟩ := var (x := y) (by simp [operands])
    obtain ⟨w, rfl⟩ := var (x := z) (by simp [operands])
    rfl
  | minus x y z =>
    obtain ⟨u, rfl⟩ := var (x := x) (by simp [operands])
    obtain ⟨v, rfl⟩ := var (x := y) (by simp [operands])
    obtain ⟨w, rfl⟩ := var (x := z) (by simp [operands])
    rfl
  | times c x z =>
    obtain ⟨v, rfl⟩ := var (x := x) (by simp [operands])
    obtain ⟨w, rfl⟩ := var (x := z) (by simp [operands])
    rfl
  | neq x y => rfl
  | distinct xs => rfl

end Constraint

namespace Subst

section Spelled

variable {s : Subst} {known : Propagator → Prop} {k : Constraint Operand}
variable (orderly : s.Orderly (.ints known)) (complete : s.Complete) (allocated : s.Allocated) (c : Context)

include orderly complete allocated

/-- The constant of a domain is named. -/
theorem Names.of_dom {n : Int} (sized : isValue n = true) : ∃ hs t w, Names known s hs t ∧
    (∀ d, Attempt.Agree (· ∈ hs) ((Goal.dom (.const n) d).attempt s) ((Goal.dom (.var w) d).attempt t)) ∧
      ∀ (g : Var → Goal) (r : Attempt Subst), Answers.Amounts c.interp ((g w).apply c t) r →
        Answers.Amounts c.interp (((Operand.const n).named g).apply c s) r := by
  obtain ⟨hs, t, w, names, _, _, stands, amounts⟩ := (refl orderly).named complete allocated c (.const n) sized
  exact ⟨hs, t, w, names, fun d => names.agree_dom stands, amounts⟩

/-- The goal that spells the constants out makes the attempt of a constraint of variables, on
    a substitution to which new variables are the constants. -/
theorem Names.of_constraint (proper : k.Proper) (provided : ∀ x ∈ k.operands, s.Provides x) :
    ∃ hs t, ∃ k' : Constraint Operand, Names known s hs t ∧ k'.Proper ∧ (∀ x ∈ k'.operands, x.Fair (.ints known)) ∧
      Attempt.Agree (· ∈ hs) (k.goal.attempt s) (k'.goal.attempt t) ∧
      ∀ r, Answers.Amounts c.interp (k'.goal.apply c t) r → Answers.Amounts c.interp (k.spelled.apply c s) r := by
  have kept (same : k.spelled = k.goal) : ∃ hs t, ∃ k' : Constraint Operand, Names known s hs t ∧ k'.Proper ∧
      (∀ x ∈ k'.operands, x.Fair (.ints known)) ∧ Attempt.Agree (· ∈ hs) (k.goal.attempt s) (k'.goal.attempt t) ∧
        ∀ r, Answers.Amounts c.interp (k'.goal.apply c t) r → Answers.Amounts c.interp (k.spelled.apply c s) r :=
    ⟨[], s, k, .refl orderly, proper, fun x mem => (provided x mem).fair, (Attempt.Echoes.refl _).to_agree,
      fun r amounts => by rwa [same]⟩
  by_cases vars : ∀ n, .const n ∉ k.operands
  · exact kept (Constraint.spelled_of_vars vars)
  push Not at vars
  have fair (v : Var) : (Operand.var v).Fair (.ints known) := fun θ reading => reading v
  cases k with
  | dom x d =>
    obtain ⟨n, rfl⟩ : ∃ n, .const n = x := by simpa [Constraint.operands] using vars
    obtain ⟨hs, t, w, names, agree, amounts⟩ :=
      Names.of_dom orderly complete allocated c (provided (.const n) (by simp [Constraint.operands]))
    exact ⟨hs, t, .dom (.var w) d, names, proper, by simp [Constraint.operands, fair], agree d,
      amounts fun v => .dom (.var v) d⟩
  | inRange x lb ub =>
    obtain ⟨n, rfl⟩ : ∃ n, .const n = x := by simpa [Constraint.operands] using vars
    obtain ⟨hs, t, w, names, agree, amounts⟩ :=
      Names.of_dom orderly complete allocated c (provided (.const n) (by simp [Constraint.operands]))
    exact ⟨hs, t, .inRange (.var w) lb ub, names, proper, by simp [Constraint.operands, fair], agree _,
      amounts fun v => .inRange (.var v) lb ub⟩
  | inSet x ns =>
    obtain ⟨n, rfl⟩ : ∃ n, .const n = x := by simpa [Constraint.operands] using vars
    obtain ⟨hs, t, w, names, agree, amounts⟩ :=
      Names.of_dom orderly complete allocated c (provided (.const n) (by simp [Constraint.operands]))
    exact ⟨hs, t, .inSet (.var w) ns, names, proper, by simp [Constraint.operands, fair], agree _,
      amounts fun v => .inSet (.var v) ns⟩
  | plus x y z =>
    obtain ⟨hs, t, u, v, w, names, first, second, third, amounts⟩ :=
      Names.named_three orderly complete allocated c provided
    exact ⟨hs, t, .plus (.var u) (.var v) (.var w), names, trivial, by simp [Constraint.operands, fair],
      names.agree_plus orderly complete allocated vars first second third,
      amounts fun u v w => .plus (.var u) (.var v) (.var w)⟩
  | minus x y z =>
    obtain ⟨hs, t, u, v, w, names, first, second, third, amounts⟩ :=
      Names.named_three orderly complete allocated c provided
    have folds : ∃ n, .const n ∈ [y, z, x] := vars.imp fun n mem => by
      simpa [Constraint.operands, or_comm, or_left_comm] using mem
    exact ⟨hs, t, .minus (.var u) (.var v) (.var w), names, trivial, by simp [Constraint.operands, fair],
      names.agree_plus orderly complete allocated folds second third first,
      amounts fun u v w => .minus (.var u) (.var v) (.var w)⟩
  | times m x z =>
    simp only [Constraint.operands, List.mem_cons, List.not_mem_nil, or_false, forall_eq_or_imp, forall_eq] at provided
    obtain ⟨hs₁, t₁, v, names₁, _, _, first, amounts₁⟩ := (refl orderly).named complete allocated c x provided.1
    obtain ⟨hs, t, w, names, sub, ext, second, amounts⟩ := names₁.named complete allocated c z provided.2
    exact ⟨hs, t, .times m (.var v) (.var w), names, proper, by simp [Constraint.operands, fair],
      names.agree_times orderly complete allocated proper vars (first.grow sub ext) second,
      fun r made => amounts₁ (fun v => z.named fun w => .times m (.var v) (.var w)) r
        (amounts (fun w => .times m (.var v) (.var w)) r made)⟩
  | neq x y => exact kept rfl
  | distinct xs => exact kept rfl

end Spelled

/-- On a substitution that goals of allocated variables produce, it comes to the same to fold
    the constants among the operands of a constraint into the goal, and to spell them out as
    new variables that are made the constants first. -/
theorem Produced.spell_constants {s : Subst} {k : Constraint Operand} (h : s.Produced) (allocated : s.Allocated)
    (c : Context) (proper : k.Proper) (provided : ∀ x ∈ k.operands, s.Provides x) :
    Goal.Agree c s k.goal k.spelled := by
  obtain ⟨hs, t, k', names, proper', fair, agree, amounts⟩ :=
    Names.of_constraint h.orderly h.complete allocated c proper provided
  have attempts := Constraint.attempts (c := c) h.orderly proper fun x mem => (provided x mem).fair
  have attempts' := Constraint.attempts (c := c) names.orderly proper' fair
  have first : Answers.Amounts c.interp (k.goal.apply c s) (k.goal.attempt s) :=
    k.single c s ▸ Answers.amounts_ofAttempt c.interp _
  have second : Answers.Amounts c.interp (k'.goal.apply c t) (k'.goal.attempt t) :=
    k'.single c t ▸ Answers.amounts_ofAttempt c.interp _
  rcases agree with ⟨why, stopped⟩ | ⟨why, stopped⟩ | ⟨none, none'⟩ | ⟨u, u', one, one', same⟩
  · rw [stopped] at first
    obtain ⟨f, rfl, overflow⟩ := attempts.overflow first
    exact .inl ⟨f, overflow, .inl first⟩
  · rw [stopped] at second
    obtain ⟨f, rfl, overflow⟩ := attempts'.overflow second
    exact .inl ⟨f, overflow, .inr (amounts _ second)⟩
  · rw [none] at first
    rw [none'] at second
    exact .inr (.inl ⟨first, amounts _ second⟩)
  · rw [one] at first
    rw [one'] at second
    exact .inr (.inr ⟨u, u', first, amounts _ second, fun v given => same v (names.out given)⟩)

/-- The sum of the greatest integer and `_0` is `_1`. -/
theorem spell_constants_greatest :
    let s : Subst := (empty.freshMany 2).2
    let c : Context := Program.context (fun _ _ => .fail) 0
    let k : Constraint Operand := .plus (.const maxValue) (.var ⟨0⟩) (.var ⟨1⟩)
    s.Produced ∧ s.Allocated ∧ k.Proper ∧ (∀ x ∈ k.operands, s.Provides x) ∧ k.spelled ≠ k.goal ∧
      Goal.Agree c s k.goal k.spelled := by
  intro s c k
  have produced : s.Produced := produced_freshMany 2
  have allocated : s.Allocated := allocated_empty.grow rfl rfl (Nat.zero_le _)
  have provided : ∀ x ∈ k.operands, s.Provides x := by
    simp only [k, Constraint.operands, List.mem_cons, List.not_mem_nil, or_false, forall_eq_or_imp, forall_eq]
    exact ⟨show isValue maxValue = true by decide, show 0 < 2 by decide, show 1 < 2 by decide⟩
  have differ : k.spelled ≠ k.goal := Goal.noConfusion
  exact ⟨produced, allocated, trivial, provided, differ, produced.spell_constants allocated c trivial provided⟩

end Subst

end ConstraintLogic
