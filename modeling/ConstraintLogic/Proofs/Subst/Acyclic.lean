import ConstraintLogic.Subst.Models
import ConstraintLogic.Term.Equality
import Mathlib.Data.List.Basic
import Mathlib.Logic.Relation

/-!
# Acyclic bindings

On acyclic bindings every path of variables comes to an end within as many steps
as there are bindings. Hence reading a term under the substitution, with that
number as its allowance, reads all the way.

Results:
* `Subst.Acyclic.exists_ranked`: ranks that no path exceeds and that the number of
  bindings bounds.
* `Subst.agrees_bind_iff`: a new binding is a new equation.
* `Subst.Acyclic.get?_of_walk`, `Subst.Acyclic.agrees_image`: walks end at unbound
  variables, and deep reading solves the bindings.
* `Subst.occurs_iff`: what the occurs check decides.
* `Subst.Acyclic.bind`: a binding that passes the occurs check makes no cycle.
-/

namespace ConstraintLogic

namespace Term

/-- A variable of a term is read as no larger a term than the whole. -/
theorem nodes_le_expand {θ : Var → Term} {v : Var} {t : Term} (h : v ∈ t.vars) :
    (θ v).nodes ≤ (t.expand θ).nodes := by
  induction t with
  | nil => simp at h
  | atom a => simp at h
  | var w =>
    have : v = w := by simpa using h
    rw [this]
    exact Nat.le_refl _
  | pair a b iha ihb =>
    rw [expand, nodes]
    rcases mem_vars_pair.mp h with h | h
    · have := iha h
      omega
    · have := ihb h
      omega

/-- No reading makes a variable equal to a pair that it occurs in. -/
theorem ne_expand_of_mem_pair {θ : Var → Term} {v : Var} {h t : Term}
    (occurs : v ∈ (pair h t).vars) : θ v ≠ (pair h t).expand θ := by
  intro same
  have size := congrArg nodes same
  rw [expand, nodes] at size
  rcases mem_vars_pair.mp occurs with mem | mem
  · have := nodes_le_expand (θ := θ) mem
    omega
  · have := nodes_le_expand (θ := θ) mem
    omega

theorem width_pair (h t : Term) : (pair h t).width = max h.width t.width := rfl

end Term

namespace Subst

/-- Every binding of `s` is one of `t`. -/
def Extends (s t : Subst) : Prop := ∀ v u, s.get? v = some u → t.get? v = some u

theorem Extends.refl (s : Subst) : s.Extends s := fun _ _ h => h

theorem Extends.trans {s t u : Subst} (h : s.Extends t) (h' : t.Extends u) : s.Extends u :=
  fun v a bound => h' v a (h v a bound)

theorem Extends.bind {s : Subst} {v : Var} (unbound : s.get? v = none) (t : Term) :
    s.Extends (s.bind v t) := by
  intro w u bound
  rw [get?_bind]
  split
  · rename_i same
    rw [← same, unbound] at bound
    cases bound
  · exact bound

theorem Extends.leads {s t : Subst} (h : s.Extends t) {v w : Var} (step : s.Leads v w) :
    t.Leads v w := by
  obtain ⟨u, bound, mem⟩ := step
  exact ⟨u, h v u bound, mem⟩

/-! ## Ranks -/

/-- The ranks fall along bindings, bound variables have a positive one, and none is
    above the number of bindings. -/
structure Ranked (s : Subst) (rank : Var → Nat) : Prop where
  le_size : ∀ v, rank v ≤ s.size
  pos : ∀ v t, s.get? v = some t → 0 < rank v
  lt : ∀ v t, s.get? v = some t → ∀ w ∈ t.vars, rank w < rank v

theorem mem_keys_iff {s : Subst} {v : Var} : v ∈ s.bindings.keys ↔ s.get? v ≠ none := by
  rw [Std.ExtTreeMap.mem_keys, get?, Std.ExtTreeMap.mem_iff_isSome_getElem?]
  cases s.bindings[v]? <;> simp

/-- Ranks can be compressed: the rank of a bound variable is taken to be the number
    of bound variables that do not rank above it. -/
theorem Acyclic.exists_ranked {s : Subst} (h : s.Acyclic) : ∃ rank, s.Ranked rank := by
  obtain ⟨rank, falls⟩ := h
  let below (v : Var) : List Var := s.bindings.keys.filter fun u => rank u ≤ rank v
  have self {v : Var} (bound : s.get? v ≠ none) : v ∈ below v := by
    simp [below, mem_keys_iff.mpr bound]
  refine ⟨fun v => if s.get? v = none then 0 else (below v).length, fun v => ?_, fun v t bound => ?_,
    fun v t bound w mem => ?_⟩
  · split
    · exact Nat.zero_le _
    · have : (below v).length ≤ s.bindings.keys.length := List.length_filter_le _ _
      rwa [Std.ExtTreeMap.length_keys] at this
  · have : v ∈ below v := self (by simp [bound])
    simpa [bound] using List.length_pos_of_mem this
  · have fall : rank w < rank v := falls v w ⟨t, bound, mem⟩
    have in_v : v ∈ below v := self (by simp [bound])
    simp only [bound, reduceCtorEq, if_false]
    split
    · exact List.length_pos_of_mem in_v
    · have sub : (below w).Sublist (below v) :=
        List.monotone_filter_right _ fun u hu => by simp only [decide_eq_true_eq] at hu ⊢; omega
      rcases Nat.lt_or_ge (below w).length (below v).length with less | more
      · exact less
      · have in_w : v ∈ below w := sub.eq_of_length_le more ▸ in_v
        simp only [below, List.mem_filter, decide_eq_true_eq] at in_w
        omega

/-- No variable leads back to itself in one step or more. -/
theorem Acyclic.not_transGen {s : Subst} (h : s.Acyclic) (v : Var) :
    ¬Relation.TransGen s.Leads v v := by
  obtain ⟨rank, falls⟩ := h
  have fall {a b : Var} (path : Relation.TransGen s.Leads a b) : rank b < rank a := by
    induction path with
    | single step => exact falls _ _ step
    | tail _ step ih => exact Nat.lt_trans (falls _ _ step) ih
  intro path
  exact Nat.lt_irrefl _ (fall path)

/-! ## Readings -/

theorem Agrees.of_extends {s t : Subst} {θ : Var → Term} (h : t.Agrees θ) (ext : s.Extends t) :
    s.Agrees θ := fun v u bound => h v u (ext v u bound)

theorem agrees_bind_iff {s : Subst} {v : Var} (unbound : s.get? v = none) {t : Term}
    {θ : Var → Term} : (s.bind v t).Agrees θ ↔ s.Agrees θ ∧ θ v = t.expand θ := by
  constructor
  · intro h
    exact ⟨h.of_extends (.bind unbound t), h v t (by simp)⟩
  · rintro ⟨h, new⟩ w u bound
    rw [get?_bind] at bound
    split at bound
    · rename_i same
      cases bound
      rw [← same]
      exact new
    · exact h w u bound

/-! ## Walking -/

theorem walkFor_congr {s t : Subst} (same : ∀ v, t.get? v = s.get? v) (n : Nat) (a : Term) :
    t.walkFor n a = s.walkFor n a := by
  induction n generalizing a with
  | zero => rfl
  | succ n ih =>
    cases a with
    | var v => simp only [walkFor, same, ih]
    | _ => rfl

/-- Walking depends on the bindings only. -/
theorem walk_congr {s t : Subst} (same : t.bindings = s.bindings) : t.walk = s.walk := by
  have found (v : Var) : t.get? v = s.get? v := by rw [get?, get?, same]
  funext a
  rw [walk, walk, size, size, same, walkFor_congr found]

theorem walkFor_of_not_var {s : Subst} {t : Term} (h : ∀ v, t ≠ .var v) (n : Nat) :
    s.walkFor n t = t := by
  cases t with
  | var v => exact absurd rfl (h v)
  | _ => cases n <;> rfl

theorem walk_of_not_var {s : Subst} {t : Term} (h : ∀ v, t ≠ .var v) : s.walk t = t :=
  walkFor_of_not_var h s.size

theorem Agrees.expand_walkFor {s : Subst} {θ : Var → Term} (h : s.Agrees θ) (n : Nat) (t : Term) :
    (s.walkFor n t).expand θ = t.expand θ := by
  induction n generalizing t with
  | zero => rw [walkFor]; simp
  | succ n ih =>
    cases t with
    | var v =>
      rw [walkFor]
      split
      · rename_i u bound
        rw [ih]
        exact (h v u bound).symm
      · rfl
    | _ => rfl

/-- A reading that agrees with the bindings does not see a walk. -/
theorem Agrees.expand_walk {s : Subst} {θ : Var → Term} (h : s.Agrees θ) (t : Term) :
    (s.walk t).expand θ = t.expand θ := h.expand_walkFor s.size t

theorem Ranked.get?_of_le_zero {s : Subst} {rank : Var → Nat} (ranked : s.Ranked rank) {v : Var} (le : rank v ≤ 0) :
    s.get? v = none := by
  cases bound : s.get? v with
  | none => rfl
  | some t =>
    have := ranked.pos v t bound
    omega

theorem walkFor_end {s : Subst} {rank : Var → Nat} (ranked : s.Ranked rank) (n : Nat) :
    ∀ v w, rank v ≤ n → s.walkFor n (.var v) = .var w → s.get? w = none := by
  induction n with
  | zero =>
    intro v w le same
    cases same
    exact ranked.get?_of_le_zero le
  | succ n ih =>
    intro v w le same
    rw [walkFor] at same
    split at same
    · rename_i t bound
      cases t with
      | var u =>
        have := ranked.lt v _ bound u (by simp)
        exact ih u w (by omega) same
      | _ => rw [walkFor_of_not_var (by simp)] at same; cases same
    · rename_i unbound
      cases same
      exact unbound

/-- A walk ends at an unbound variable, if at a variable at all. -/
theorem Acyclic.get?_of_walk {s : Subst} (h : s.Acyclic) {t : Term} {w : Var}
    (same : s.walk t = .var w) : s.get? w = none := by
  obtain ⟨rank, ranked⟩ := h.exists_ranked
  cases t with
  | var v => exact walkFor_end ranked s.size v w (ranked.le_size v) same
  | _ => rw [walk_of_not_var (by simp)] at same; cases same

theorem walkFor_eq_of_ranked {s : Subst} {rank : Var → Nat} (ranked : s.Ranked rank) (n : Nat) :
    ∀ v, rank v ≤ n → s.walkFor (n + 1) (.var v) = s.walkFor n (.var v) := by
  induction n with
  | zero =>
    intro v le
    rw [walkFor, ranked.get?_of_le_zero le]
    rfl
  | succ n ih =>
    intro v le
    rw [walkFor, walkFor]
    split
    · rename_i t bound
      cases t with
      | var u =>
        have := ranked.lt v _ bound u (by simp)
        exact ih u (by omega)
      | _ => rw [walkFor_of_not_var (by simp), walkFor_of_not_var (by simp)]
    · rfl

/-- A bound variable leads where its term leads. -/
theorem Acyclic.walk_of_bound {s : Subst} (h : s.Acyclic) {v : Var} {t : Term}
    (bound : s.get? v = some t) : s.walk (.var v) = s.walk t := by
  obtain ⟨rank, ranked⟩ := h.exists_ranked
  unfold walk
  obtain ⟨n, size⟩ : ∃ n, s.size = n + 1 :=
    Nat.exists_eq_succ_of_ne_zero fun none => by
      have := ranked.pos v t bound
      have := ranked.le_size v
      omega
  rw [size, walkFor, bound]
  show s.walkFor n t = s.walkFor (n + 1) t
  cases t with
  | var u =>
    have := ranked.lt v _ bound u (by simp)
    have := ranked.le_size v
    exact (walkFor_eq_of_ranked ranked n u (by omega)).symm
  | _ => rw [walkFor_of_not_var (by simp), walkFor_of_not_var (by simp)]

/-- More bindings lead on from where fewer bindings lead. -/
theorem Acyclic.walk_walk {s t : Subst} (h : t.Acyclic) (ext : s.Extends t) (a : Term) :
    t.walk (s.walk a) = t.walk a := by
  suffices ∀ n a, t.walk (s.walkFor n a) = t.walk a from this s.size a
  intro n
  induction n with
  | zero =>
    intro a
    rw [walkFor]
    simp
  | succ n ih =>
    intro a
    cases a with
    | var v =>
      rw [walkFor]
      split
      · rename_i u bound
        rw [ih u, h.walk_of_bound (ext v u bound)]
      · rfl
    | _ => rw [walkFor_of_not_var (by simp)]

/-- A walk from a bound variable follows at least one binding. -/
theorem walkFor_var_cases {s : Subst} (n : Nat) : ∀ v, s.walkFor n (.var v) = .var v ∨
    (∃ u, s.get? u = some (s.walkFor n (.var v))) ∧
      ∀ w ∈ (s.walkFor n (.var v)).vars, Relation.TransGen s.Leads v w := by
  induction n with
  | zero => exact fun v => .inl rfl
  | succ n ih =>
    intro v
    rw [walkFor]
    split
    · rename_i t bound
      right
      cases t with
      | var u =>
        have first : s.Leads v u := ⟨_, bound, by simp⟩
        rcases ih u with stays | ⟨source, paths⟩
        · rw [stays]
          exact ⟨⟨v, bound⟩, fun w mem => by
            cases List.mem_singleton.mp mem
            exact .single first⟩
        · exact ⟨source, fun w mem => .head first (paths w mem)⟩
      | _ =>
        rw [walkFor_of_not_var (by simp)]
        exact ⟨⟨v, bound⟩, fun w mem => .single ⟨_, bound, mem⟩⟩
    · exact .inl rfl

/-- The end of a walk is the term itself or the term of a binding. -/
theorem walk_eq_or_bound (s : Subst) (t : Term) :
    s.walk t = t ∨ ∃ u, s.get? u = some (s.walk t) := by
  cases t with
  | var v => exact (walkFor_var_cases s.size v).imp_right And.left
  | _ => exact .inl (walk_of_not_var (by simp))

theorem walkVar_eq_some {s : Subst} {v w : Var} : s.walkVar w = some v ↔ s.walk (.var w) = .var v := by
  unfold walkVar Term.asVar?
  split
  · rename_i x found
    rw [found, Option.some.injEq, Term.var.injEq]
  · rename_i other
    refine iff_of_false (by simp) fun found => other v found

/-- Where a walk leaves a variable, the variable leads to all that is found. -/
theorem transGen_of_mem_walk {s : Subst} {v : Var} (leaves : s.walk (.var v) ≠ .var v) {w : Var}
    (mem : w ∈ (s.walk (.var v)).vars) : Relation.TransGen s.Leads v w := by
  rcases walkFor_var_cases (s := s) s.size v with stays | ⟨_, paths⟩
  · exact absurd stays leaves
  · exact paths w mem

/-! ## Deep reading -/

theorem image_eq_of_ranked {s : Subst} {rank : Var → Nat} (ranked : s.Ranked rank) (n : Nat) :
    ∀ v, rank v ≤ n → s.image (n + 1) v = s.image n v := by
  induction n with
  | zero =>
    intro v le
    rw [image, image, ranked.get?_of_le_zero le]
  | succ n ih =>
    intro v le
    rw [image, image]
    split
    · rename_i t bound
      exact Term.expand_congr fun w mem => ih w (by have := ranked.lt v t bound w mem; omega)
    · rfl

/-- Reading deeply solves the bindings. -/
theorem Acyclic.agrees_image {s : Subst} (h : s.Acyclic) : s.Agrees (s.image s.size) := by
  obtain ⟨rank, ranked⟩ := h.exists_ranked
  intro v t bound
  rw [← image_eq_of_ranked ranked s.size v (ranked.le_size v), image, bound]

/-- What is read deeply has no bound variable. -/
theorem Acyclic.get?_of_mem_image {s : Subst} (h : s.Acyclic) {v w : Var}
    (mem : w ∈ (s.image s.size v).vars) : s.get? w = none := by
  obtain ⟨rank, ranked⟩ := h.exists_ranked
  suffices ∀ n v, rank v ≤ n → w ∈ (s.image n v).vars → s.get? w = none from
    this s.size v (ranked.le_size v) mem
  intro n
  induction n with
  | zero =>
    intro v le mem
    cases List.mem_singleton.mp mem
    cases bound : s.get? w with
    | none => rfl
    | some t =>
      have := ranked.pos w t bound
      omega
  | succ n ih =>
    intro v le mem
    rw [image] at mem
    split at mem
    · rename_i t bound
      obtain ⟨u, in_t, in_u⟩ := Term.mem_vars_expand.mp mem
      exact ih u (by have := ranked.lt v t bound u in_t; omega) in_u
    · rename_i unbound
      cases List.mem_singleton.mp mem
      exact unbound

/-! ## Occurrence -/

theorem reaches_iff (s : Subst) (x : Var) (n : Nat) (v : Var) :
    s.reaches x n v = true ↔ x ∈ (s.image n v).vars := by
  induction n generalizing v with
  | zero =>
    rw [reaches, image, decide_eq_true_eq, Term.vars_var, List.mem_singleton]
    exact eq_comm
  | succ n ih =>
    rw [reaches, image]
    split
    · rw [Term.anyVar_eq_true_iff, Term.mem_vars_expand]
      simp only [ih]
    · rw [decide_eq_true_eq, Term.vars_var, List.mem_singleton]
      exact eq_comm

/-- The occurs check looks for the variable in the term read deeply. -/
theorem occurs_iff (s : Subst) (x : Var) (t : Term) :
    s.occurs x t = true ↔ x ∈ (s.walkDeep t).vars := by
  rw [occurs, Term.anyVar_eq_true_iff, walkDeep, Term.mem_vars_expand]
  simp only [reaches_iff]

/-- No reading that agrees with the bindings makes a variable equal to a pair in
    which the occurs check finds it. -/
theorem Agrees.ne_expand_of_occurs {s : Subst} {θ : Var → Term} (h : s.Agrees θ) {x : Var}
    {t : Term} (occurs : s.occurs x t = true) (not_var : ∀ v, t ≠ .var v) : θ x ≠ t.expand θ := by
  rw [occurs_iff] at occurs
  rw [← h.expand_walkDeep t]
  cases t with
  | var v => exact absurd rfl (not_var v)
  | pair a b => exact Term.ne_expand_of_mem_pair occurs
  | _ => simp [walkDeep, Term.expand] at occurs

/-- Attributes have no part in the occurs check. -/
theorem occurs_dropAttrs (s : Subst) (v x : Var) (t : Term) :
    (s.dropAttrs v).occurs x t = s.occurs x t := by
  rw [Bool.eq_iff_iff, occurs_iff, occurs_iff]
  have same (n : Nat) : (s.dropAttrs v).image n = s.image n := by
    induction n with
    | zero => rfl
    | succ n ih =>
      funext w
      simp only [image, ih, get?_dropAttrs]
  rw [walkDeep, walkDeep, same]
  exact Iff.rfl

theorem occurs_var_of_ne {s : Subst} {v w : Var} (unbound : s.get? w = none) (differ : v ≠ w) :
    s.occurs v (.var w) = false := by
  rw [Bool.eq_false_iff]
  intro occurs
  rw [occurs_iff, walkDeep, Term.expand, image_of_unbound unbound] at occurs
  exact differ (List.mem_singleton.mp occurs)

theorem Acyclic.mem_image_of_reflTransGen {s : Subst} (h : s.Acyclic) {x v : Var}
    (unbound : s.get? x = none) (path : Relation.ReflTransGen s.Leads v x) :
    x ∈ (s.image s.size v).vars := by
  induction path using Relation.ReflTransGen.head_induction_on with
  | refl => simp [image_of_unbound unbound]
  | head step _ ih =>
    obtain ⟨t, bound, mem⟩ := step
    rw [h.agrees_image _ t bound]
    exact Term.mem_vars_expand.mpr ⟨_, mem, ih⟩

/-- A variable that passes the occurs check may be bound. The variables that lead to
    it are lifted above all others, and the variables of its term are not among
    them. -/
theorem Acyclic.bind {s : Subst} (h : s.Acyclic) {x : Var} {t : Term} (unbound : s.get? x = none)
    (fresh : s.occurs x t = false) : (s.bind x t).Acyclic := by
  classical
  obtain ⟨rank, ranked⟩ := h.exists_ranked
  let above (v : Var) : Prop := Relation.ReflTransGen s.Leads v x
  have outside {w : Var} (mem : w ∈ t.vars) : ¬above w := by
    intro path
    have found : s.occurs x t = true := (occurs_iff s x t).mpr
      (Term.mem_vars_expand.mpr ⟨w, mem, h.mem_image_of_reflTransGen unbound path⟩)
    simp [fresh] at found
  refine ⟨fun v => if above v then rank v + s.size + 1 else rank v, fun v w step => ?_⟩
  obtain ⟨u, bound, mem⟩ := step
  rw [get?_bind] at bound
  split at bound
  · rename_i same
    cases same
    cases bound
    have self : above x := .refl
    have := ranked.le_size w
    simp only [outside mem, self, if_false, if_true]
    omega
  · have fall := ranked.lt v u bound w mem
    by_cases lifted : above w
    · have : above v := .head ⟨u, bound, mem⟩ lifted
      simp only [lifted, this, if_true]
      omega
    · simp only [lifted, if_false]
      split <;> omega

end Subst

end ConstraintLogic
