import ConstraintLogic.Proofs.Goal.Freshness
import ConstraintLogic.Proofs.Query.Exactness
import ConstraintLogic.Proofs.Search.Parallel
import ConstraintLogic.Proofs.Unification.Symmetry

/-!
# Vacant variables

A variable that is unbound and has no attributes takes any term that it does not occur in:
no attribute is consulted and no solver is run. The variables that a goal allocates are
vacant, so what a search does with them can be told step by step, whatever attributes the
other variables have.

Results:
* `Subst.Vacant`: unbound and without attributes.
* `Subst.Neat`, `Subst.Neat.vacant`: variables that are not allocated yet are vacant.
* `Subst.Touches`: no other variables change.
* `Subst.unify_of_ends`, `Subst.Neat.fill`, `Subst.Neat.take_apart`: unification binds vacant
  variables.
* `Goal.Finite.eq_of_ok`, `Goal.Finite.conj_of_one`: goals with one answer at most.
-/

namespace ConstraintLogic

/-! ## Terms without variables -/

namespace Term

/-- A term without variables is not changed by replacing variables. -/
theorem expand_of_ground {a : Term} (ground : a.vars = []) (f : Var → Term) : a.expand f = a := by
  have same : a.expand f = a.expand .var := expand_congr fun v mem => by simp [ground] at mem
  rw [same, expand_var]

theorem ground_pair {h t : Term} : (pair h t).vars = [] ↔ h.vars = [] ∧ t.vars = [] := by
  simp only [List.eq_nil_iff_forall_not_mem, mem_vars_pair, not_or, forall_and]

end Term

namespace Subst

variable {s t u : Subst} {v w x y : Var} {a b c d l : Term} {vs ws : List Var}

@[simp] theorem walkDeep_nil : s.walkDeep .nil = .nil := rfl

@[simp] theorem walkDeep_pair : s.walkDeep (.pair a b) = .pair (s.walkDeep a) (s.walkDeep b) := rfl

@[simp] theorem walk_freshMany (n : Nat) (a : Term) : (s.freshMany n).2.walk a = s.walk a := by
  rw [walk_congr (show (s.freshMany n).2.bindings = s.bindings from rfl)]

/-- What is read without variables stays what it is. -/
theorem Acyclic.walkDeep_of_ground (acyclic : t.Acyclic) (ext : s.Extends t) (ground : (s.walkDeep a).vars = []) :
    t.walkDeep a = s.walkDeep a := by
  have agrees : s.Agrees (t.image t.size) := acyclic.agrees_image.of_extends ext
  rw [walkDeep, ← agrees.expand_walkDeep a, Term.expand_of_ground ground]

/-- What stands for a variable is read as it. -/
theorem Acyclic.mem_of_walk (acyclic : s.Acyclic) (leads : s.walk a = .var v) : v ∈ (s.walkDeep a).vars := by
  have unbound := acyclic.get?_of_walk leads
  rw [← acyclic.walkDeep_walk, leads, walkDeep_eq_of_unbound (by simpa using unbound)]
  simp

/-- What is read without variables stands for no variable. -/
theorem Acyclic.walk_ne_var (acyclic : s.Acyclic) (ground : (s.walkDeep a).vars = []) (v : Var) : s.walk a ≠ .var v := by
  intro leads
  have mem := acyclic.mem_of_walk leads
  rw [ground] at mem
  cases mem

/-- What is read as a pair stands for a pair. -/
theorem Acyclic.walk_of_pair (acyclic : s.Acyclic) (ground : (s.walkDeep a).vars = []) (read : s.walkDeep a = .pair b c) :
    ∃ h t, s.walk a = .pair h t ∧ s.walkDeep h = b ∧ s.walkDeep t = c := by
  have not_var := acyclic.walk_ne_var ground
  rw [← acyclic.walkDeep_walk] at read
  cases walked : s.walk a with
  | pair h t =>
    rw [walked] at read
    obtain ⟨head, tail⟩ := Term.pair.inj read
    exact ⟨h, t, rfl, head, tail⟩
  | var v => exact absurd walked (not_var v)
  | _ =>
    rw [walked] at read
    cases read

theorem Acyclic.walk_of_nil (acyclic : s.Acyclic) (read : s.walkDeep a = .nil) : s.walk a = .nil := by
  have not_var := acyclic.walk_ne_var (a := a) (by rw [read]; rfl)
  rw [← acyclic.walkDeep_walk] at read
  cases walked : s.walk a with
  | nil => rfl
  | var v => exact absurd walked (not_var v)
  | _ =>
    rw [walked] at read
    cases read

/-! ## Vacant variables -/

/-- The variable is unbound and has no attributes. -/
structure Vacant (s : Subst) (v : Var) : Prop where
  unbound : s.get? v = none
  bare : s.attributes v = {}

theorem Vacant.walk (h : s.Vacant v) : s.walk (.var v) = .var v :=
  walk_var_of_unbound h.unbound

theorem Vacant.walkDeep (h : s.Vacant v) : s.walkDeep (.var v) = .var v :=
  walkDeep_eq_of_unbound (by simpa using h.unbound)

/-- The bindings have no cycle, and all variables that occur have been allocated. -/
structure Neat (s : Subst) : Prop where
  acyclic : s.Acyclic
  allocated : s.Allocated

/-- The variables of the term have been allocated. -/
def Owns (s : Subst) (a : Term) : Prop := ∀ v ∈ a.vars, v.index < s.next

@[simp] theorem owns_var : s.Owns (.var v) ↔ v.index < s.next := by simp [Owns]

@[simp] theorem owns_pair : s.Owns (.pair a b) ↔ s.Owns a ∧ s.Owns b := by
  simp only [Owns, Term.mem_vars_pair, or_imp, forall_and]

namespace Neat

/-- A variable that is still to be allocated is vacant. -/
theorem vacant (h : s.Neat) (new : s.next ≤ v.index) : s.Vacant v := by
  have absent : ¬s.Occurs v := fun occurs => Nat.not_lt.mpr new (h.allocated.occurs v occurs)
  refine ⟨Option.eq_none_iff_forall_ne_some.mpr fun b found => absent (.bound found), ?_⟩
  have none : s.attrs[v]? = Option.none := by
    refine Option.not_isSome_iff_eq_none.mp fun has => absent (.attributed has)
  rw [attributes, none]
  rfl

theorem index_of_walk (h : s.Neat) (named : s.Owns a) (leads : s.walk a = .var v) : v.index < s.next := by
  have walked := h.allocated.walk named
  rw [leads] at walked
  exact walked v (by simp)

theorem owns_walkDeep (h : s.Neat) (named : s.Owns a) : s.Owns (s.walkDeep a) := by
  have image (n : Nat) : ∀ v, v.index < s.next → s.Owns (s.image n v) := by
    induction n with
    | zero =>
      intro v less w mem
      rwa [List.mem_singleton.mp mem]
    | succ n ih =>
      intro v less w mem
      rw [Subst.image] at mem
      split at mem
      · rename_i b found
        obtain ⟨u, in_b, in_u⟩ := Term.mem_vars_expand.mp mem
        exact ih u (h.allocated.of_bound found u in_b) w in_u
      · rwa [List.mem_singleton.mp mem]
  intro w mem
  obtain ⟨v, in_a, in_v⟩ := Term.mem_vars_expand.mp mem
  exact image s.size v (named v in_a) w in_v

/-- A variable that is still to be allocated is not read. -/
theorem not_mem_of_new (h : s.Neat) (owned : s.Owns a) (new : s.next ≤ v.index) : v ∉ (s.walkDeep a).vars :=
  fun mem => Nat.not_lt.mpr new (h.owns_walkDeep owned v mem)

/-- What is read without variables has bound variables only. -/
theorem owns_of_ground (h : s.Neat) (ground : (s.walkDeep a).vars = []) : s.Owns a := by
  intro v mem
  cases bound : s.get? v with
  | some b => exact h.allocated.occurs v (.bound bound)
  | none =>
    have read : v ∈ (s.walkDeep a).vars := Term.mem_vars_expand.mpr ⟨v, mem, by simp [image_of_unbound bound]⟩
    rw [ground] at read
    cases read

end Neat

/-! ## What is touched -/

/-- More is bound in the second substitution, and the variables outside of the list have the
    bindings and attributes that they had. -/
structure Touches (vs : List Var) (s t : Subst) : Prop extends t.Neat where
  extends_ : s.Extends t
  next : s.next ≤ t.next
  get? : ∀ v ∉ vs, t.get? v = s.get? v
  attributes : ∀ v ∉ vs, t.attributes v = s.attributes v

namespace Touches

theorem trans (h : s.Touches vs t) (h' : t.Touches ws u) : s.Touches (vs ++ ws) u where
  toNeat := h'.toNeat
  extends_ := h.extends_.trans h'.extends_
  next := Nat.le_trans h.next h'.next
  get? v outside := by
    rw [List.mem_append, not_or] at outside
    rw [h'.get? v outside.2, h.get? v outside.1]
  attributes v outside := by
    rw [List.mem_append, not_or] at outside
    rw [h'.attributes v outside.2, h.attributes v outside.1]

/-- Variables are allocated, and none is touched. -/
theorem allocate (h : s.Neat) (n : Nat) : s.Touches [] (s.freshMany n).2 :=
  ⟨⟨h.acyclic, h.allocated.grow rfl rfl (Nat.le_add_right _ _)⟩, .refl s, Nat.le_add_right _ _, fun _ _ => rfl,
    fun _ _ => rfl⟩

theorem owns (h : s.Touches vs t) (named : s.Owns a) : t.Owns a :=
  fun v mem => Nat.lt_of_lt_of_le (named v mem) h.next

theorem vacant (h : s.Touches vs t) (vacant : s.Vacant v) (outside : v ∉ vs) : t.Vacant v :=
  ⟨(h.get? v outside).trans vacant.unbound, (h.attributes v outside).trans vacant.bare⟩

/-- What leads to a vacant variable leads there as long as that one is not touched. -/
theorem walk (h : s.Touches vs t) (leads : s.walk a = .var v) (vacant : s.Vacant v) (outside : v ∉ vs) :
    t.walk a = .var v := by
  rw [← h.acyclic.walk_walk h.extends_, leads, (h.vacant vacant outside).walk]

/-- A term reads as it did if none of the variables that are read is touched. -/
theorem walkDeep (h : s.Touches vs t) (acyclic : s.Acyclic) (outside : ∀ v ∈ (s.walkDeep a).vars, v ∉ vs) :
    t.walkDeep a = s.walkDeep a := by
  have agrees : s.Agrees (t.image t.size) := h.acyclic.agrees_image.of_extends h.extends_
  rw [Subst.walkDeep, ← agrees.expand_walkDeep a, ← Subst.walkDeep]
  refine walkDeep_eq_of_unbound fun v mem => ?_
  obtain ⟨w, _, in_w⟩ := Term.mem_vars_expand.mp mem
  rw [h.get? v (outside v mem), acyclic.get?_of_mem_image in_w]

/-- What is read without variables is read so wherever more is bound. -/
theorem walkDeep_of_ground (h : s.Touches vs t) (ground : (s.walkDeep a).vars = []) : t.walkDeep a = s.walkDeep a :=
  h.acyclic.walkDeep_of_ground h.extends_ ground

end Touches

/-- The variables are different ones, and they have been allocated and are vacant. -/
structure Spare (s : Subst) (vs : List Var) : Prop where
  distinct : vs.Nodup
  vacant : ∀ v ∈ vs, s.Vacant v
  named : ∀ v ∈ vs, v.index < s.next

theorem Spare.sublist (h : s.Spare vs) (part : ws.Sublist vs) : s.Spare ws where
  distinct := h.distinct.sublist part
  vacant v mem := h.vacant v (part.subset mem)
  named v mem := h.named v (part.subset mem)

/-- Variables are spare as long as they are not touched. -/
theorem Spare.of_touches (h : s.Spare vs) (touches : s.Touches ws t) (outside : ∀ v ∈ vs, v ∉ ws) : t.Spare vs where
  distinct := h.distinct
  vacant v mem := touches.vacant (h.vacant v mem) (outside v mem)
  named v mem := Nat.lt_of_lt_of_le (h.named v mem) touches.next

/-- Variables that have just been allocated are spare. -/
theorem Neat.spare_freshMany (h : s.Neat) (spare : s.Spare vs) (n : Nat) :
    (s.freshMany n).2.Spare ((s.freshMany n).1 ++ vs) := by
  have fresh := Touches.allocate h n
  have new (v : Var) (mem : v ∈ (s.freshMany n).1) : s.next ≤ v.index ∧ v.index < s.next + n := by
    obtain ⟨i, less, rfl⟩ := List.mem_map.mp mem
    exact ⟨Nat.le_add_right _ _, Nat.add_lt_add_left (List.mem_range.mp less) s.next⟩
  refine ⟨List.nodup_append.mpr ⟨?_, spare.distinct, fun v mem w mem' same => ?_⟩, fun v mem => ?_, fun v mem => ?_⟩
  · exact List.nodup_range.map fun i j same => by simpa using same
  · exact absurd (spare.named w mem') (Nat.not_lt.mpr (same ▸ (new v mem).1))
  · rcases List.mem_append.mp mem with mem | mem
    · exact fresh.vacant (h.vacant (new v mem).1) (by simp)
    · exact fresh.vacant (spare.vacant v mem) (by simp)
  · rcases List.mem_append.mp mem with mem | mem
    · exact (new v mem).2
    · exact Nat.lt_of_lt_of_le (spare.named v mem) fresh.next

/-- A variable is bound to a term that it does not occur in. -/
theorem Neat.touches_bindBare (h : s.Neat) (unbound : s.get? v = none) (less : v.index < s.next)
    (fresh : s.occurs v b = false) (named : s.Owns b) : s.Touches [v] (s.bindBare v b) where
  acyclic := h.acyclic.bindBare unbound fresh
  allocated := (Enclosed.dropAttrs h.allocated v).bind less named
  extends_ := Extends.bindBare unbound b
  next := Nat.le_refl _
  get? w outside := by rw [get?_bindBare, if_neg fun same => outside (by simp [same])]
  attributes w outside := by rw [attributes_bindBare, if_neg fun same => outside (by simp [same])]

/-! ## Unification with vacant variables -/

theorem unifyBelow_of_ends (n : Nat) (ends : ∀ h t h' t', s.walk a = .pair h t → s.walk b ≠ .pair h' t') :
    unifyBelow (n + 1) a b s = s.unifyEnds (s.walk a) (s.walk b) := by
  rw [unifyBelow]
  cases a with
  | pair h t =>
    have walked : s.walk (.pair h t) = .pair h t := walk_of_not_var (by simp)
    rw [unifyWith, walked]
    by_cases same : Term.pair h t = s.walk b
    · unfold Subst.unifyEnds
      rw [if_pos same, ← same, if_pos rfl]
    · rw [if_neg same]
      split
      · rename_i h' t' at_b
        exact absurd at_b (ends h t h' t' walked)
      · rfl
  | _ =>
    rw [BindingLaws.unifyWith_of_not_pair (by simp)]
    split
    · rename_i h t h' t' at_a at_b
      exact absurd at_b (ends h t h' t' at_a)
    · rfl

/-- Terms that are not both pairs need one binding at most. -/
theorem unify_of_ends (ends : ∀ h t h' t', s.walk a = .pair h t → s.walk b ≠ .pair h' t') :
    s.unify a b = s.unifyEnds (s.walk a) (s.walk b) := unifyBelow_of_ends _ ends

/-- Of two pairs that differ the heads are unified, and then the tails. -/
theorem unify_of_pairs (walked : s.walk l = .pair c d) (differ : Term.pair a b ≠ .pair c d) :
    ∃ n, s.unify (.pair a b) l = unifyBelow (n + 1) a c s >>= unifyBelow (n + 1) b d := by
  refine ⟨max s.width (max (Term.pair a b).width l.width), ?_⟩
  rw [unify, unifyBelow, unifyWith, walked, if_neg differ]

/-- Two ends that are no variables are not made equal. -/
theorem unify_of_clash (not_var : ∀ v, s.walk a ≠ .var v) (not_var' : ∀ v, s.walk b ≠ .var v)
    (ends : ∀ h t h' t', s.walk a = .pair h t → s.walk b ≠ .pair h' t') (differ : s.walk a ≠ s.walk b) :
    s.unify a b = .error .conflict := by
  rw [unify_of_ends ends, unifyEnds_of_settled not_var not_var', if_neg differ]

/-- A pair is not made equal to the empty list. -/
theorem unify_pair_of_nil (walked : s.walk l = .nil) : s.unify (.pair a b) l = .error .conflict := by
  refine unify_of_clash ?_ ?_ ?_ ?_ <;> simp [walked, walk_of_not_var]

theorem unify_nil_of_pair (walked : s.walk l = .pair a b) : s.unify l .nil = .error .conflict := by
  refine unify_of_clash ?_ ?_ ?_ ?_ <;> simp [walked, walk_of_not_var]

theorem unify_nil_of_nil (walked : s.walk l = .nil) : s.unify l .nil = .ok s := by
  rw [unify_of_ends (by simp [walked]), walked, walk_of_not_var (by simp), unifyEnds_of_settled (by simp) (by simp),
    if_pos rfl]

/-- A vacant variable is bound to a term that is no variable. -/
theorem unifyEnds_vacant (vacant : s.Vacant v) (not_var : ∀ u, b ≠ .var u) (fresh : s.occurs v b = false) :
    s.unifyEnds (.var v) b = .ok (s.bindBare v b) := by
  have none : (s.attributes v).toList = [] := by rw [vacant.bare]; rfl
  rw [unifyEnds_var not_var, instantiate, if_neg (by simp [fresh])]
  simp only [none]
  rfl

namespace Neat

variable (h : s.Neat)

include h

/-- What leads to a vacant variable is made equal to a term that is no variable and in which
    the variable does not occur. -/
theorem fill (named : s.Owns a) (named' : s.Owns b) (leads : s.walk a = .var v) (vacant : s.Vacant v)
    (not_var : ∀ u, s.walk b ≠ .var u) (absent : v ∉ (s.walkDeep b).vars) :
    ∃ t, s.unify a b = .ok t ∧ s.unify b a = .ok t ∧ s.Touches [v] t ∧ t.walkDeep a = t.walkDeep b := by
  have fresh : s.occurs v (s.walk b) = false := by
    rw [Bool.eq_false_iff, Ne, occurs_iff, h.acyclic.walkDeep_walk]
    exact absent
  have touches := h.touches_bindBare vacant.unbound (h.index_of_walk named leads) fresh (h.allocated.walk named')
  have bound : (s.bindBare v (s.walk b)).get? v = some (s.walk b) := by rw [get?_bindBare, if_pos rfl]
  have agrees := touches.acyclic.agrees_image.of_extends touches.extends_
  refine ⟨s.bindBare v (s.walk b), ?_, ?_, touches, ?_⟩
  · rw [unify_of_ends (by simp [leads]), leads, unifyEnds_vacant vacant not_var fresh]
  · rw [unify_of_ends (by simp [leads]), leads, unifyEnds_comm, unifyEnds_vacant vacant not_var fresh]
  · calc (s.bindBare v (s.walk b)).walkDeep a = (s.bindBare v (s.walk b)).walkDeep (s.walk a) := (agrees.expand_walk a).symm
      _ = (s.bindBare v (s.walk b)).walkDeep (s.walk b) := by rw [leads, touches.acyclic.walkDeep_of_bound bound]
      _ = (s.bindBare v (s.walk b)).walkDeep b := agrees.expand_walk b

/-- A pair of spare variables takes the parts of what reads as a pair without variables. -/
theorem take_apart (spare : s.Spare [x, y]) (ground : (s.walkDeep l).vars = []) (read : s.walkDeep l = .pair b c) :
    ∃ t, s.unify (.pair (.var x) (.var y)) l = .ok t ∧ s.Touches [x, y] t ∧ t.walkDeep (.var x) = b ∧
      t.walkDeep (.var y) = c := by
  obtain ⟨head, tail, walked, rfl, rfl⟩ := h.acyclic.walk_of_pair ground read
  obtain ⟨ground_h, ground_t⟩ := Term.ground_pair.mp (read ▸ ground)
  have vacant_x := spare.vacant x (by simp)
  have other : Term.pair (.var x) (.var y) ≠ .pair head tail := by
    rintro ⟨⟩
    exact h.acyclic.walk_ne_var ground_h x vacant_x.walk
  -- Heads come first; the second variable is still spare then.
  obtain ⟨m, unified, -, touches, alike⟩ := h.fill (owns_var.mpr (spare.named x (by simp)))
    (h.owns_of_ground ground_h) vacant_x.walk vacant_x (h.acyclic.walk_ne_var ground_h) (by simp [ground_h])
  have read_h := touches.walkDeep_of_ground ground_h
  have read_t := touches.walkDeep_of_ground ground_t
  have ground_t' : (m.walkDeep tail).vars = [] := by rw [read_t, ground_t]
  have differ : x ≠ y := by simpa using spare.distinct
  have spare_y : m.Spare [y] := (spare.sublist (by simp)).of_touches touches (by simpa using differ.symm)
  have vacant_y := spare_y.vacant y (by simp)
  obtain ⟨t, unified', -, touches', alike'⟩ := touches.toNeat.fill (owns_var.mpr (spare_y.named y (by simp)))
    (touches.toNeat.owns_of_ground ground_t') vacant_y.walk vacant_y (touches.acyclic.walk_ne_var ground_t')
    (by simp [ground_t'])
  refine ⟨t, ?_, touches.trans touches', ?_, ?_⟩
  · rw [unify_of_ends (by simp [vacant_x.walk])] at unified
    rw [unify_of_ends (by simp [vacant_y.walk])] at unified'
    obtain ⟨n, both⟩ := unify_of_pairs walked other
    rw [both, unifyBelow_of_ends n (by simp [vacant_x.walk]), unified]
    show unifyBelow (n + 1) (.var y) tail m = _
    rw [unifyBelow_of_ends n (by simp [vacant_y.walk]), unified']
  · have ground_x : (m.walkDeep (.var x)).vars = [] := by rw [alike, read_h, ground_h]
    rw [touches'.walkDeep_of_ground ground_x, alike, read_h]
  · rw [alike', touches'.walkDeep_of_ground ground_t', read_t]

end Neat

end Subst

/-! ## Goals with one answer at most -/

namespace Goal

variable {program : Program} {g h : Goal} {a b : Term} {s t m : Subst} {as : Multiset Subst}

theorem Finite.eq_of_ok (unified : s.unify a b = .ok t) : (eq a b).Finite program s {t} :=
  .eq (by rw [unified]; exact .solved rfl)

theorem Finite.eq_of_conflict (unified : s.unify a b = .error .conflict) : (eq a b).Finite program s 0 :=
  .eq (by rw [unified]; exact .conflict)

/-- A conjunction goes on from the one answer of its first goal. -/
theorem Finite.conj_of_one (first : g.Finite program s {m}) (second : h.Finite program m as) :
    (conj g h).Finite program s as := by
  have both : (conj g h).Finite program s (({(m, as)} : Multiset (Subst × Multiset Subst)).bind Prod.snd) :=
    .conjAll (by simpa [Finite] using first) (by simpa [Finite] using second)
  simpa using both

/-- A conjunction ends where its first goal has no answer. -/
theorem Finite.conj_of_none (first : g.Finite program s 0) : (conj g h).Finite program s 0 := by
  have none : (conj g h).Finite program s ((0 : Multiset (Subst × Multiset Subst)).bind Prod.snd) :=
    .conjAll (by simpa [Finite] using first) (by simp)
  simpa using none

end Goal

end ConstraintLogic
