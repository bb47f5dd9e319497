import ConstraintLogic.Subst.Basic
import ConstraintLogic.Term.Lemmas

/-!
# Reading substitutions

What the operations on a substitution do to its bindings and attributes, and what
it means that bindings have no cycle.

Results:
* `Attributes.get?_set`, `Attributes.get?_erase`: the attributes of one variable.
* `Subst.get?_bind`, `Subst.attributes_setAttr`, `Subst.attributes_dropAttrs`: a
  substitution after an operation.
* `Subst.Acyclic`: no variable leads back to itself.
* `Subst.walk_of_unbound`, `Subst.walkDeep_eq_of_unbound`: reading stops at unbound
  variables.
-/

namespace ConstraintLogic

namespace Attributes

@[simp] theorem get?_set (m : Attributes) (a : Attribute) (name : AttrName) :
    (m.set a).get? name = if a.name = name then some a else m.get? name := by
  cases a <;> cases name <;> rfl

@[simp] theorem get?_erase (m : Attributes) (name other : AttrName) :
    (m.erase name).get? other = if name = other then none else m.get? other := by
  cases name <;> cases other <;> rfl

@[simp] theorem get?_empty (name : AttrName) : ({} : Attributes).get? name = none := by
  cases name <;> rfl

/-- Attributes are known by those of each kind. -/
theorem ext_get? {m n : Attributes} (h : ∀ name, m.get? name = n.get? name) : m = n := by
  have allowed := h .allowed
  have domain := h .domain
  have watchers := h .watchers
  have tag := h .tag
  have zero := h .zero
  cases m
  cases n
  simp only [get?, Option.map_inj_right, Attribute.allowed.injEq, Attribute.domain.injEq,
    Attribute.watchers.injEq, Attribute.tag.injEq, Attribute.zero.injEq, imp_self,
    implies_true] at allowed domain watchers tag zero
  simp_all

theorem isEmpty_iff {m : Attributes} : m.isEmpty = true ↔ m = {} := by
  constructor
  · intro h
    refine ext_get? fun name => ?_
    have none : ∀ a ∈ AttrName.all, m.get? a = Option.none := by
      simpa [isEmpty, toList, List.isEmpty_iff, List.filterMap_eq_nil_iff] using h
    rw [get?_empty]
    exact none name (by cases name <;> decide)
  · rintro rfl
    rfl

end Attributes

namespace Subst

/-! ## Bindings -/

@[simp] theorem get?_empty (v : Var) : empty.get? v = none := by simp [empty, get?]

@[simp] theorem get?_bind (s : Subst) (v w : Var) (t : Term) :
    (s.bind v t).get? w = if v = w then some t else s.get? w := by
  simp [bind, get?, Std.ExtTreeMap.getElem?_insert]

@[simp] theorem get?_setAttr (s : Subst) (v w : Var) (a : Attribute) :
    (s.setAttr v a).get? w = s.get? w := rfl

@[simp] theorem get?_dropAttrs (s : Subst) (v w : Var) : (s.dropAttrs v).get? w = s.get? w := rfl

@[simp] theorem get?_removeAttr (s : Subst) (v w : Var) (name : AttrName) :
    (s.removeAttr v name).get? w = s.get? w := by
  rw [removeAttr]
  split
  · rfl
  · dsimp only
    split <;> rfl

/-! ## Attributes -/

@[simp] theorem attributes_empty (v : Var) : empty.attributes v = {} := by
  simp [empty, attributes]

@[simp] theorem attributes_bind (s : Subst) (v w : Var) (t : Term) :
    (s.bind v t).attributes w = s.attributes w := rfl

@[simp] theorem attributes_setAttr (s : Subst) (v w : Var) (a : Attribute) :
    (s.setAttr v a).attributes w =
      if v = w then (s.attributes w).set a else s.attributes w := by
  simp only [setAttr, attributes, Std.ExtTreeMap.getElem?_insert, Std.compare_eq_iff_eq]
  split <;> simp_all

@[simp] theorem attributes_dropAttrs (s : Subst) (v w : Var) :
    (s.dropAttrs v).attributes w = if v = w then {} else s.attributes w := by
  simp only [dropAttrs, attributes, Std.ExtTreeMap.getElem?_erase, Std.compare_eq_iff_eq]
  split <;> simp

@[simp] theorem attributes_removeAttr (s : Subst) (v w : Var) (name : AttrName) :
    (s.removeAttr v name).attributes w =
      if v = w then (s.attributes w).erase name else s.attributes w := by
  rw [removeAttr]
  split
  · rename_i missing
    split
    · rename_i same
      subst same
      refine Attributes.ext_get? fun other => ?_
      simp [attributes, missing]
    · rfl
  · rename_i m found
    dsimp only
    split
    · rename_i cleared
      simp only [attributes, Std.ExtTreeMap.getElem?_erase, Std.compare_eq_iff_eq]
      split
      · rename_i same
        subst same
        simp [found, Attributes.isEmpty_iff.mp cleared]
      · rfl
    · simp only [attributes, Std.ExtTreeMap.getElem?_insert, Std.compare_eq_iff_eq]
      split
      · rename_i same
        subst same
        simp [found]
      · rfl

@[simp] theorem val_stamped {α : Type} (s : Subst) (a : α) : (s.stamped a).1.val = a := rfl

@[simp] theorem get?_stamped {α : Type} (s : Subst) (a : α) (w : Var) :
    (s.stamped a).2.get? w = s.get? w := rfl

@[simp] theorem attributes_stamped {α : Type} (s : Subst) (a : α) (w : Var) :
    (s.stamped a).2.attributes w = s.attributes w := rfl

/-! ## Reading -/

/-- The variable `v` is bound to a term with the variable `w`. -/
def Leads (s : Subst) (v w : Var) : Prop := ∃ t, s.get? v = some t ∧ w ∈ t.vars

/-- No variable leads back to itself: variables have ranks that fall along
    bindings. -/
def Acyclic (s : Subst) : Prop := ∃ rank : Var → Nat, ∀ v w, s.Leads v w → rank w < rank v

theorem acyclic_empty : empty.Acyclic :=
  ⟨fun _ => 0, fun v w ⟨t, bound, _⟩ => by simp at bound⟩

/-- A term that is no bound variable is read as it is. -/
theorem walk_of_unbound {s : Subst} {t : Term} (h : ∀ v, t = .var v → s.get? v = none) :
    s.walk t = t := by
  rw [walk]
  cases t with
  | var v =>
    cases s.size with
    | zero => rfl
    | succ n => simp [walkFor, h v rfl]
  | _ => cases s.size <;> rfl

theorem walk_var_of_unbound {s : Subst} {v : Var} (h : s.get? v = none) : s.walk (.var v) = .var v :=
  walk_of_unbound fun w same => by
    cases same
    exact h

theorem image_of_unbound {s : Subst} {v : Var} (h : s.get? v = none) (n : Nat) :
    s.image n v = .var v := by
  cases n <;> simp [image, h]

/-- A term without bound variables is read as it is. -/
theorem walkDeep_eq_of_unbound {s : Subst} {t : Term} (h : ∀ v ∈ t.vars, s.get? v = none) :
    s.walkDeep t = t := by
  rw [walkDeep, Term.expand_congr fun v hv => image_of_unbound (h v hv) s.size]
  exact Term.expand_var t

end Subst

end ConstraintLogic
