import ConstraintLogic.Proofs.Unification.Attachment

/-!
# Filed propagators

A propagator is filed with every unbound variable that it mentions, so that loading
any one of them brings the propagator and all of its other variables along. While a
variable hands its propagators over to another one, they are missing there for a
moment: the exceptions are part of what is said.

Results:
* `Subst.Alias`, `Subst.Regular`: relations that a run does not drop without a trace.
* `Subst.Filed`: bindings lead down, and propagators are filed, up to exceptions.
* `Subst.Filed.bindBare`: a variable may be bound to a term that is no variable.
* `Subst.Filed.alias`: a variable may be bound to a lower one, with exceptions.
* `Subst.Filed.attachDomain`, `Subst.Filed.attachWatchers`: attaching attributes to a variable.
-/

namespace ConstraintLogic.Subst

variable {s t : Subst} {O : Propagator → Var → Prop} {R : Propagator → Prop}

/-! ## Regular relations -/

/-- Both variables stand for one unbound variable. -/
def Alias (s : Subst) (v w : Var) : Prop :=
  ∃ u, s.walk (.var v) = .var u ∧ s.walk (.var w) = .var u

/-- The relation says something of each of its variables: when it is run and dropped,
    every variable is left with a value or a finite domain. Where the operands of a sum
    are aliased, or a multiple is that of zero, one of them may take every value. -/
def Regular (s : Subst) : Relation → Prop
  | .plusConst x _ z => ¬s.Alias x z
  | .sumConst .. => True
  | .sum x y z => ¬s.Alias x z ∧ ¬s.Alias y z
  | .scale c x z => c ≠ 0 ∧ ¬s.Alias x z
  | .allDifferent vs cs => 2 ≤ vs.length + cs.length
  | .table .. => True

/-- A relation stays regular where no more of its variables are aliased. -/
theorem Regular.of_alias {r : Relation} (h : s.Regular r)
    (fewer : ∀ v ∈ r.vars, ∀ w ∈ r.vars, t.Alias v w → s.Alias v w) : t.Regular r := by
  cases r with
  | plusConst x c z =>
    exact fun alike => h (fewer x (by simp [Relation.vars]) z (by simp [Relation.vars]) alike)
  | sum x y z =>
    refine ⟨fun alike => h.1 ?_, fun alike => h.2 ?_⟩
    · exact fewer x (by simp [Relation.vars]) z (by simp [Relation.vars]) alike
    · exact fewer y (by simp [Relation.vars]) z (by simp [Relation.vars]) alike
  | scale c x z =>
    exact ⟨h.1, fun alike =>
      h.2 (fewer x (by simp [Relation.vars]) z (by simp [Relation.vars]) alike)⟩
  | _ => exact h

theorem Regular.congr {r : Relation} (h : s.Regular r) (bindings : t.bindings = s.bindings) :
    t.Regular r := h.of_alias fun _ _ _ _ alike => by rwa [Alias, walk_congr bindings] at alike

/-! ## Records of attributes -/

/-- No variable has an empty record of attributes. -/
def Recorded (s : Subst) : Prop := ∀ (v : Var) (m : Attributes), s.attrs[v]? = some m → m ≠ {}

theorem set_ne_empty (m : Attributes) (a : Attribute) : m.set a ≠ {} := by
  intro none
  have found : (m.set a).get? a.name = some a := by simp
  rw [none, Attributes.get?_empty] at found
  cases found

theorem Recorded.setAttr (h : s.Recorded) (v : Var) (a : Attribute) : (s.setAttr v a).Recorded := by
  intro w m found
  simp only [Subst.setAttr, Std.ExtTreeMap.getElem?_insert, Std.compare_eq_iff_eq] at found
  split at found
  · cases found
    exact set_ne_empty _ a
  · exact h w m found

theorem Recorded.dropAttrs (h : s.Recorded) (v : Var) : (s.dropAttrs v).Recorded := by
  intro w m found
  simp only [Subst.dropAttrs, Std.ExtTreeMap.getElem?_erase, Std.compare_eq_iff_eq] at found
  split at found
  · cases found
  · exact h w m found

theorem Recorded.removeAttr (h : s.Recorded) (v : Var) (name : AttrName) :
    (s.removeAttr v name).Recorded := by
  unfold Subst.removeAttr
  split
  · exact h
  · dsimp only
    split
    · exact h.dropAttrs v
    · rename_i left
      intro w n found
      simp only [Std.ExtTreeMap.getElem?_insert, Std.compare_eq_iff_eq] at found
      split at found
      · cases found
        exact fun none => left (Attributes.isEmpty_iff.mpr none)
      · exact h w n found

/-! ## Filed propagators -/

/-- Bindings lead from variable to lower variable, no variable has an empty record of
    attributes, and no propagator is stored twice with one variable. A stored propagator
    is regular and is stored with every unbound variable that it mentions, except for
    those in `R` and for those that `O` lets a variable miss. -/
structure Filed (O : Propagator → Var → Prop) (R : Propagator → Prop) (s : Subst) : Prop where
  lower : ∀ v w, s.get? v = some (.var w) → w.index < v.index
  recorded : s.Recorded
  distinct : ∀ v, ((s.storedWatchers v).map Stamped.stamp).Nodup
  spread : ∀ w, ∀ p ∈ s.storedWatchers w, ∀ v ∈ p.val.vars, ∀ u, s.walk (.var v) = .var u →
    p ∈ s.storedWatchers u ∨ O p u
  regular : ∀ w, ∀ p ∈ s.storedWatchers w, s.Regular p.val ∨ R p

/-- No propagator is missing anywhere. -/
abbrev Complete (s : Subst) : Prop := s.Filed (fun _ _ => False) fun _ => False

theorem Filed.mono {O' : Propagator → Var → Prop} {R' : Propagator → Prop} (h : s.Filed O R)
    (more : ∀ p u, O p u → O' p u) (more' : ∀ p, R p → R' p) : s.Filed O' R' :=
  { h with
    spread := fun w p mem v in_vars u leads => (h.spread w p mem v in_vars u leads).imp_right (more p u)
    regular := fun w p mem => (h.regular w p mem).imp_right (more' p) }

theorem complete_empty : empty.Complete := by
  have unstored (v : Var) : empty.storedWatchers v = [] := by simp [storedWatchers]
  refine ⟨fun v w bound => by simp at bound, fun v m found => by simp [empty] at found,
    fun v => by simp [unstored], fun w p mem => ?_, fun w p mem => ?_⟩
  · simp [unstored] at mem
  · simp [unstored] at mem

/-- What is filed depends on the bindings and the attributes. -/
theorem Filed.congr (h : s.Filed O R) (bindings : t.bindings = s.bindings) (attrs : t.attrs = s.attrs) :
    t.Filed O R := by
  have stored : t.storedWatchers = s.storedWatchers := by
    funext v
    rw [storedWatchers, storedWatchers, attributes, attributes, attrs]
  have get (v : Var) : t.get? v = s.get? v := by rw [get?, get?, bindings]
  refine ⟨fun v w bound => h.lower v w (get v ▸ bound), ?_, stored ▸ h.distinct, ?_, ?_⟩
  · unfold Recorded
    rw [attrs]
    exact h.recorded
  · rw [stored, walk_congr bindings]
    exact h.spread
  · rw [stored]
    exact fun w p mem => (h.regular w p mem).imp_left fun regular => regular.congr bindings

/-! ## Attaching -/

theorem walk_setAttr (s : Subst) (v : Var) (a : Attribute) : (s.setAttr v a).walk = s.walk := walk_congr rfl

theorem storedWatchers_setAttr_domain (s : Subst) (v w : Var) (a : Stamped DomainFact) :
    (s.setAttr v (.domain a)).storedWatchers w = s.storedWatchers w := by
  unfold storedWatchers
  rw [attributes_setAttr]
  by_cases same : v = w
  · simp [same, Attributes.set]
  · simp [same]

theorem storedWatchers_setAttr_watchers (s : Subst) (v w : Var) (a : Stamped (List Propagator)) :
    (s.setAttr v (.watchers a)).storedWatchers w = if v = w then a.val else s.storedWatchers w := by
  unfold storedWatchers
  rw [attributes_setAttr]
  by_cases same : v = w
  · simp [same, Attributes.set]
  · simp [same]

/-- A domain has no part in what is filed. -/
theorem Filed.attachDomain (h : s.Filed O R) (v : Var) (a : Stamped DomainFact) :
    (s.setAttr v (.domain a)).Filed O R := by
  have stored (w : Var) := s.storedWatchers_setAttr_domain v w a
  have walks := s.walk_setAttr v (.domain a)
  refine ⟨h.lower, h.recorded.setAttr v _, fun w => ?_, fun w p mem x in_vars u leads => ?_,
    fun w p mem => ?_⟩
  · rw [stored]
    exact h.distinct w
  · rw [stored] at mem ⊢
    exact h.spread w p mem x in_vars u (walks ▸ leads)
  · rw [stored] at mem
    exact (h.regular w p mem).imp_left fun regular => regular.congr rfl

/-- A list of propagators may take the place of the propagators of a variable that it
    covers, where the exceptions allow for what it brings. -/
theorem Filed.attachWatchers {O' : Propagator → Var → Prop} {R' : Propagator → Prop}
    (h : s.Filed O R) {v : Var} {a : Stamped (List Propagator)}
    (distinct : (a.val.map Stamped.stamp).Nodup) (covers : ∀ p ∈ s.storedWatchers v, p ∈ a.val)
    (missing : ∀ p u, O p u → v = u ∧ p ∈ a.val ∨ O' p u)
    (spread : ∀ p ∈ a.val, ∀ x ∈ p.val.vars, ∀ u, v ≠ u → s.walk (.var x) = .var u →
      p ∈ s.storedWatchers u ∨ O' p u)
    (irregular : ∀ p, R p → R' p) (regular : ∀ p ∈ a.val, s.Regular p.val ∨ R' p) :
    (s.setAttr v (.watchers a)).Filed O' R' := by
  have stored (w : Var) := s.storedWatchers_setAttr_watchers v w a
  have walks := s.walk_setAttr v (.watchers a)
  refine ⟨h.lower, h.recorded.setAttr v _, fun w => ?_, fun w p mem x in_vars u leads => ?_,
    fun w p mem => ?_⟩
  · rw [stored]
    split
    · exact distinct
    · exact h.distinct w
  · rw [walks] at leads
    rw [stored] at mem ⊢
    split at mem
    · split
      · exact .inl mem
      · rename_i other
        exact spread p mem x in_vars u other leads
    · rcases h.spread w p mem x in_vars u leads with found | missed
      · split
        · rename_i same
          exact .inl (covers p (same ▸ found))
        · exact .inl found
      · rcases missing p u missed with ⟨same, found⟩ | missed
        · rw [if_pos same]
          exact .inl found
        · exact .inr missed
  · rw [stored] at mem
    split at mem
    · exact (regular p mem).imp_left fun regular => regular.congr rfl
    · exact (h.regular w p mem).imp (fun regular => regular.congr rfl) (irregular p)

/-! ## Binding -/

section Binding

variable {v keep : Var} {b : Term}

theorem storedWatchers_bindBare (s : Subst) (v w : Var) (b : Term) :
    (s.bindBare v b).storedWatchers w = if v = w then [] else s.storedWatchers w := by
  unfold storedWatchers
  rw [attributes_bindBare]
  by_cases same : v = w
  · simp [same]
  · simp [same]

/-- A propagator is left with the variables that are not bound. -/
theorem mem_storedWatchers_bindBare {w : Var} {p : Propagator} :
    p ∈ (s.bindBare v b).storedWatchers w ↔ v ≠ w ∧ p ∈ s.storedWatchers w := by
  rw [storedWatchers_bindBare]
  split
  · rename_i same
    simp [same]
  · rename_i other
    simp [other]

/-- Where a walk leads once the unbound variable `v` has been bound to `b`. -/
theorem walk_bindBare (acyclic : s.Acyclic) (unbound : s.get? v = none)
    (fresh : s.occurs v b = false) (w : Var) :
    (s.bindBare v b).walk (.var w) =
      if s.walk (.var w) = .var v then (s.bindBare v b).walk b else s.walk (.var w) := by
  have acyclic' := Acyclic.bindBare acyclic unbound fresh
  rw [← acyclic'.walk_walk (Extends.bindBare unbound b)]
  split
  · rename_i leads
    rw [leads]
    exact acyclic'.walk_of_bound (by rw [get?_bindBare, if_pos rfl])
  · rename_i other
    refine walk_of_unbound fun u leads => ?_
    rw [get?_bindBare, if_neg fun same => other (by rw [leads, same])]
    exact acyclic.get?_of_walk leads

/-- A variable may be bound to a term that is no variable. -/
theorem Filed.bindBare (h : s.Complete) (acyclic : s.Acyclic) (unbound : s.get? v = none)
    (fresh : s.occurs v b = false) (not_var : ∀ w, b ≠ .var w) : (s.bindBare v b).Complete := by
  have leads {x u : Var} (leads : (s.bindBare v b).walk (.var x) = .var u) :
      v ≠ u ∧ s.walk (.var x) = .var u := by
    rw [walk_bindBare acyclic unbound fresh, walk_of_not_var not_var] at leads
    split at leads
    · exact absurd leads (not_var u)
    · rename_i other
      exact ⟨fun same => other (by rw [leads, same]), leads⟩
  refine ⟨fun w u bound => ?_, h.recorded.dropAttrs v, fun w => ?_, fun w p mem x in_vars u walked => ?_,
    fun w p mem => .inl ?_⟩
  · rw [get?_bindBare] at bound
    split at bound
    · exact absurd (Option.some.inj bound) (not_var u)
    · exact h.lower w u bound
  · rw [storedWatchers_bindBare]
    split
    · exact List.nodup_nil
    · exact h.distinct w
  · rw [mem_storedWatchers_bindBare] at mem ⊢
    obtain ⟨other, walked⟩ := leads walked
    exact (h.spread w p mem.2 x in_vars u walked).imp_left fun found => ⟨other, found⟩
  · have regular := (h.regular w p (mem_storedWatchers_bindBare.mp mem).2).resolve_right fun none => none
    refine regular.of_alias fun x _ y _ ⟨u, leads_x, leads_y⟩ => ?_
    exact ⟨u, (leads leads_x).2, (leads leads_y).2⟩

section Alias

variable (h : s.Complete) (acyclic : s.Acyclic) (retires : s.Retires keep v)

include acyclic retires in
/-- What leads to an unbound variable after `v` has been bound to `keep` led there before,
    or it led to `v`. -/
theorem walk_alias {x u : Var} (leads : (s.bindBare v (.var keep)).walk (.var x) = .var u) :
    s.walk (.var x) = .var v ∧ u = keep ∨ v ≠ u ∧ s.walk (.var x) = .var u := by
  rw [walk_bindBare acyclic retires.unbound retires.fresh, retires.walk_keep] at leads
  split at leads
  · rename_i here
    cases leads
    exact .inl ⟨here, rfl⟩
  · rename_i other
    exact .inr ⟨fun same => other (by rw [leads, same]), leads⟩

include h in
theorem Filed.stored_of_walk {w x u : Var} {p : Propagator} (mem : p ∈ s.storedWatchers w)
    (in_vars : x ∈ p.val.vars) (walked : s.walk (.var x) = .var u) : p ∈ s.storedWatchers u :=
  (h.spread w p mem x in_vars u walked).resolve_right fun none => none

include h acyclic retires

/-- A propagator is left with all unbound variables that it mentions, except for `keep` if
    it mentioned `v`. -/
theorem Filed.spread_alias {w x u : Var} {p : Propagator} (mem : p ∈ s.storedWatchers w)
    (in_vars : x ∈ p.val.vars) (leads : (s.bindBare v (.var keep)).walk (.var x) = .var u) :
    p ∈ (s.bindBare v (.var keep)).storedWatchers u ∨ p ∈ s.storedWatchers v ∧ u = keep := by
  rcases walk_alias acyclic retires leads with ⟨before, same⟩ | ⟨other, before⟩
  · exact .inr ⟨h.stored_of_walk mem in_vars before, same⟩
  · exact .inl (mem_storedWatchers_bindBare.mpr ⟨other, h.stored_of_walk mem in_vars before⟩)

/-- No more variables are aliased for a propagator that did not mention both of the variables. -/
theorem Filed.alias_of_alias {w x y : Var} {p : Propagator} (mem : p ∈ s.storedWatchers w)
    (not_both : ¬(p ∈ s.storedWatchers v ∧ p ∈ s.storedWatchers keep)) (in_x : x ∈ p.val.vars)
    (in_y : y ∈ p.val.vars) (alike : (s.bindBare v (.var keep)).Alias x y) : s.Alias x y := by
  obtain ⟨u, leads_x, leads_y⟩ := alike
  rcases walk_alias acyclic retires leads_x with ⟨at_x, rfl⟩ | ⟨_, at_x⟩
  · rcases walk_alias acyclic retires leads_y with ⟨at_y, _⟩ | ⟨_, at_y⟩
    · exact ⟨v, at_x, at_y⟩
    · exact absurd ⟨h.stored_of_walk mem in_x at_x, h.stored_of_walk mem in_y at_y⟩ not_both
  · rcases walk_alias acyclic retires leads_y with ⟨at_y, rfl⟩ | ⟨_, at_y⟩
    · exact absurd ⟨h.stored_of_walk mem in_y at_y, h.stored_of_walk mem in_x at_x⟩ not_both
    · exact ⟨u, at_x, at_y⟩

/-- A propagator that did not mention both of the variables stays regular. -/
theorem Filed.regular_alias {w : Var} {p : Propagator} (mem : p ∈ s.storedWatchers w)
    (not_both : ¬(p ∈ s.storedWatchers v ∧ p ∈ s.storedWatchers keep)) :
    (s.bindBare v (.var keep)).Regular p.val :=
  ((h.regular w p mem).resolve_right fun none => none).of_alias fun _ in_x _ in_y =>
    h.alias_of_alias acyclic retires mem not_both in_x in_y

/-- A variable may be bound to a lower one. That one misses the propagators of the bound
    variable, and those that mention both of them need not be regular. -/
theorem Filed.alias : (s.bindBare v (.var keep)).Filed (fun p u => p ∈ s.storedWatchers v ∧ u = keep)
    fun p => p ∈ s.storedWatchers v ∧ p ∈ s.storedWatchers keep := by
  refine ⟨fun w u bound => ?_, h.recorded.dropAttrs v, fun w => ?_, fun w p mem x in_vars u leads => ?_,
    fun w p mem => ?_⟩
  · rw [get?_bindBare] at bound
    split at bound
    · rename_i same
      cases bound
      exact same ▸ retires.lower
    · exact h.lower w u bound
  · rw [storedWatchers_bindBare]
    split
    · exact List.nodup_nil
    · exact h.distinct w
  · exact h.spread_alias acyclic retires (mem_storedWatchers_bindBare.mp mem).2 in_vars leads
  · by_cases both : p ∈ s.storedWatchers v ∧ p ∈ s.storedWatchers keep
    · exact .inr both
    · exact .inl (h.regular_alias acyclic retires (mem_storedWatchers_bindBare.mp mem).2 both)

end Alias

end Binding

end ConstraintLogic.Subst
