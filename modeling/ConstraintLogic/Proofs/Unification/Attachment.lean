import ConstraintLogic.Proofs.Solver.Requests

/-!
# Attributes under bindings

When a variable is bound its attributes are taken off it and consulted elsewhere.
While they are detached the substitution says less by just what they say, and their
propagators are known outside of it.

Results:
* `Attribute.HoldsAt`: what an attribute says of a reading.
* `Subst.admits_iff`: a substitution says what its bindings and attributes say.
* `Subst.Suits`: an attribute that may be attached to a variable.
* `Subst.Orderly.attach`, `Subst.admits_setAttr`: attaching an attribute.
* `Subst.Orderly.bindBare`, `Subst.admits_bindBare`: binding a variable that
  loses its attributes.
* `Subst.Retires`: a variable that may become another one.
-/

namespace ConstraintLogic

/-! ## What attributes say -/

theorem Attributes.name_of_get? {m : Attributes} {name : AttrName} {a : Attribute}
    (h : m.get? name = some a) : a.name = name := by
  cases name <;> simp only [get?, Option.map_eq_some_iff] at h <;> obtain ⟨_, _, rfl⟩ := h <;> rfl

theorem Attributes.mem_toList {m : Attributes} {a : Attribute} :
    a ∈ m.toList ↔ m.get? a.name = some a := by
  rw [toList, List.mem_filterMap]
  constructor
  · rintro ⟨name, _, found⟩
    rw [name_of_get? found]
    exact found
  · intro found
    refine ⟨a.name, ?_, found⟩
    cases a.name <;> decide

/-- What the attribute says of a reading, on the variable `v`. -/
def Attribute.HoldsAt (θ : Var → Term) (v : Var) : Attribute → Prop
  | .domain a => a.val.domain.Holds (θ v)
  | .watchers a => ∀ p ∈ a.val, p.val.HoldsOf θ
  | _ => True

theorem Attribute.holdsAt_congr {θ : Var → Term} {v w : Var} (same : θ v = θ w) (a : Attribute) :
    a.HoldsAt θ v ↔ a.HoldsAt θ w := by
  cases a <;> simp [HoldsAt, same]

namespace Subst

variable {K : Scope} {s t : Subst} {θ : Var → Term}

/-- A substitution says what its bindings and its attributes say. -/
theorem admits_iff : s.Admits θ ↔ s.Agrees θ ∧
    ∀ v a, (s.attributes v).get? a.name = some a → a.HoldsAt θ v := by
  constructor
  · intro h
    refine ⟨h.binding, fun v a found => ?_⟩
    cases a with
    | domain a =>
      obtain ⟨b, at_v, same⟩ := Option.map_eq_some_iff.mp found
      cases same
      exact h.domain v a at_v
    | watchers a =>
      obtain ⟨b, at_v, same⟩ := Option.map_eq_some_iff.mp found
      cases same
      exact h.watchers v a at_v
    | _ => trivial
  · rintro ⟨binding, attributes⟩
    refine ⟨binding, fun v a found => ?_, fun v a found => ?_⟩
    · exact attributes v (.domain a) (by simp [Attribute.name, Attributes.get?, found])
    · exact attributes v (.watchers a) (by simp [Attribute.name, Attributes.get?, found])

/-! ## Attaching -/

/-- The attribute may be attached to what `v` stands for: a finite domain of at least
    two values, or propagators that are known and mention it. -/
def Suits (known : Propagator → Prop) (s : Subst) (v : Var) : Attribute → Prop
  | .domain a => a.val.domain.Undecided
  | .watchers a => a.val ≠ [] ∧
      ∀ p ∈ a.val, known p ∧ ∃ w ∈ p.val.vars, s.walk (.var w) = s.walk (.var v)
  | _ => False

theorem Suits.mono {C D : Propagator → Prop} {v : Var} {a : Attribute} (h : s.Suits C v a)
    (more : ∀ p, C p → D p) : s.Suits D v a := by
  cases a with
  | domain a => exact h
  | watchers a => exact ⟨h.1, fun p mem => ⟨more p (h.2 p mem).1, (h.2 p mem).2⟩⟩
  | _ => exact h

/-- What suits a variable suits all that stand for the same. -/
theorem Suits.congr {C : Propagator → Prop} {v w : Var} {a : Attribute} (h : s.Suits C v a)
    (same : s.walk (.var w) = s.walk (.var v)) : s.Suits C w a := by
  cases a with
  | domain a => exact h
  | watchers a =>
    unfold Suits
    rw [same]
    exact h
  | _ => exact h

/-- What suits a variable goes on to suit it when more is bound. -/
theorem Suits.of_extends {C : Propagator → Prop} {v : Var} {a : Attribute} (h : s.Suits C v a)
    (acyclic : t.Acyclic) (ext : s.Extends t) : t.Suits C v a := by
  cases a with
  | domain a => exact h
  | watchers a =>
    refine ⟨h.1, fun p mem => ?_⟩
    obtain ⟨known, w, mem_w, same⟩ := h.2 p mem
    refine ⟨known, w, mem_w, ?_⟩
    rw [← acyclic.walk_walk ext, same, acyclic.walk_walk ext]
  | _ => exact h

/-- Only unbound variables have attributes. -/
theorem Orderly.unbound_of_get? (h : s.Orderly K) {v : Var} {name : AttrName} {a : Attribute}
    (found : (s.attributes v).get? name = some a) : s.get? v = none := by
  cases bound : s.get? v with
  | none => rfl
  | some b =>
    rw [h.unbound v (by rw [bound]; nofun), Attributes.get?_empty] at found
    cases found

theorem getAttr_domain_iff {v : Var} {a : Stamped DomainFact} :
    s.getAttr v .domain = some (.domain a) ↔ (s.attributes v).domain = some a := by
  simp [getAttr, Attributes.get?]

theorem getAttr_watchers_iff {v : Var} {a : Stamped (List Propagator)} :
    s.getAttr v .watchers = some (.watchers a) ↔ (s.attributes v).watchers = some a := by
  simp [getAttr, Attributes.get?]

theorem getAttr_domain_none_iff {v : Var} : s.getAttr v .domain = none ↔ (s.attributes v).domain = none := by
  simp [getAttr, Attributes.get?]

theorem getAttr_watchers_none_iff {v : Var} : s.getAttr v .watchers = none ↔ (s.attributes v).watchers = none := by
  simp [getAttr, Attributes.get?]

theorem mem_storedWatchers_iff {v : Var} {p : Propagator} :
    p ∈ s.storedWatchers v ↔ ∃ a, (s.attributes v).watchers = some a ∧ p ∈ a.val := by
  unfold storedWatchers
  split
  · rename_i a found
    simp [found]
  · rename_i found
    simp [found]

/-- The attributes of a variable suit it. -/
theorem Orderly.suits (h : s.Orderly K) {v : Var} {a : Attribute}
    (found : (s.attributes v).get? a.name = some a) : s.Suits (s.Carries K) v a := by
  have unbound := h.unbound_of_get? found
  obtain ⟨allowed, tag, zero⟩ := h.simple v
  cases a with
  | domain a =>
    obtain ⟨b, at_v, same⟩ := Option.map_eq_some_iff.mp found
    cases same
    exact h.domain v a at_v
  | watchers a =>
    obtain ⟨b, at_v, same⟩ := Option.map_eq_some_iff.mp found
    cases same
    refine ⟨h.watched v a at_v, fun p mem => ?_⟩
    have stored : p ∈ s.storedWatchers v := mem_storedWatchers_iff.mpr ⟨a, at_v, mem⟩
    obtain ⟨w, mem_w, leads⟩ := h.mentions v p stored
    refine ⟨.inr ⟨v, stored⟩, w, mem_w, ?_⟩
    rw [leads, walk_var_of_unbound unbound]
  | allowed a => simp [Attribute.name, Attributes.get?, allowed] at found
  | tag a => simp [Attribute.name, Attributes.get?, tag] at found
  | zero a => simp [Attribute.name, Attributes.get?, zero] at found

/-- What is in order depends on the bindings and the attributes; stamps may be used up. -/
theorem Orderly.congr (h : s.Orderly K) (bindings : t.bindings = s.bindings)
    (attributes : t.attributes = s.attributes) (supply : s.supply ≤ t.supply) : t.Orderly K := by
  have get : t.get? = s.get? := by
    funext v
    rw [get?, get?, bindings]
  have stored : t.storedWatchers = s.storedWatchers := by
    funext v
    rw [storedWatchers, storedWatchers, attributes]
  have carries (p : Propagator) : t.Carries K p ↔ s.Carries K p := by
    unfold Carries
    rw [stored]
  have agrees (θ : Var → Term) : t.Agrees θ ↔ s.Agrees θ := by
    unfold Agrees
    rw [get]
  refine ⟨?_, by rw [get]; exact h.sized, by rw [attributes]; exact h.simple,
    by rw [get, attributes]; exact h.unbound, by rw [attributes]; exact h.domain,
    by rw [attributes]; exact h.watched, by rw [stored, walk_congr bindings]; exact h.mentions,
    fun p c => h.proper p ((carries p).mp c), fun p c v mem θ reading agreed => ?_, fun p c => ?_,
    fun p q c c' => h.coherent p q ((carries p).mp c) ((carries q).mp c')⟩
  · obtain ⟨rank, falls⟩ := h.acyclic
    refine ⟨rank, fun v w leads => ?_⟩
    obtain ⟨a, bound, mem⟩ := leads
    rw [get] at bound
    exact falls v w ⟨a, bound, mem⟩
  · exact h.integral p ((carries p).mp c) v mem θ reading ((agrees θ).mp agreed)
  · exact Nat.lt_of_lt_of_le (h.stamped p ((carries p).mp c)) supply

theorem admits_congr (bindings : t.bindings = s.bindings) (attributes : t.attributes = s.attributes) :
    t.Admits θ ↔ s.Admits θ := by
  rw [admits_iff, admits_iff, attributes]
  unfold Agrees get?
  rw [bindings]

/-- An attribute that says no less than the one that it replaces is added to what the
    substitution says. -/
theorem admits_setAttr {v : Var} {a : Attribute}
    (cover : ∀ b, s.getAttr v a.name = some b → a.HoldsAt θ v → b.HoldsAt θ v) :
    (s.setAttr v a).Admits θ ↔ s.Admits θ ∧ a.HoldsAt θ v := by
  rw [admits_iff, admits_iff]
  constructor
  · rintro ⟨agrees, holds⟩
    have at_v : a.HoldsAt θ v := holds v a (by simp)
    refine ⟨⟨agrees, fun w b found => ?_⟩, at_v⟩
    by_cases same : v = w ∧ a.name = b.name
    · obtain ⟨rfl, name⟩ := same
      exact cover b (by rw [getAttr, name, found]) at_v
    · refine holds w b ?_
      rw [attributes_setAttr]
      split
      · rename_i same_var
        rw [Attributes.get?_set, if_neg fun name => same ⟨same_var, name⟩]
        exact found
      · exact found
  · rintro ⟨⟨agrees, holds⟩, at_v⟩
    refine ⟨agrees, fun w b found => ?_⟩
    rw [attributes_setAttr] at found
    split at found
    · rename_i same
      subst same
      rw [Attributes.get?_set] at found
      split at found
      · cases found
        exact at_v
      · exact holds v b found
    · exact holds w b found

/-- What is stored after an attribute has been attached. -/
theorem mem_storedWatchers_setAttr {known : Propagator → Prop} {v w : Var} {a : Attribute}
    (suits : s.Suits known v a) {p : Propagator} (mem : p ∈ (s.setAttr v a).storedWatchers w) :
    p ∈ s.storedWatchers w ∨ v = w ∧ known p ∧ ∃ u ∈ p.val.vars, s.walk (.var u) = s.walk (.var v) := by
  obtain ⟨b, found, in_b⟩ := mem_storedWatchers_iff.mp mem
  rw [attributes_setAttr] at found
  split at found
  · rename_i same
    cases a with
    | domain a => exact .inl (mem_storedWatchers_iff.mpr ⟨b, found, in_b⟩)
    | watchers a =>
      cases found
      exact .inr ⟨same, suits.2 p in_b⟩
    | _ => exact suits.elim
  · exact .inl (mem_storedWatchers_iff.mpr ⟨b, found, in_b⟩)

/-- An attribute that suits an unbound variable may be attached to it. -/
theorem Orderly.attach (h : s.Orderly K) {v : Var} {a : Attribute} (unbound : s.get? v = none)
    (suits : s.Suits (s.Carries K) v a) : (s.setAttr v a).Orderly K := by
  have carries {p : Propagator} (carries : (s.setAttr v a).Carries K p) : s.Carries K p := by
    rcases carries with known | ⟨w, stored⟩
    · exact .inl known
    · rcases mem_storedWatchers_setAttr suits stored with before | ⟨_, known, _⟩
      · exact .inr ⟨w, before⟩
      · exact known
  refine ⟨h.acyclic, h.sized, fun w => ?_, fun w bound => ?_, fun w b found => ?_, fun w b found => ?_,
    fun w p stored => ?_, fun p c => h.proper p (carries c), fun p c => h.integral p (carries c),
    fun p c => h.stamped p (carries c), fun p q c c' => h.coherent p q (carries c) (carries c')⟩
  · rw [attributes_setAttr]
    split
    · cases a with
      | domain a => exact h.simple w
      | watchers a => exact h.simple w
      | _ => exact suits.elim
    · exact h.simple w
  · have other : v ≠ w := fun same => bound (same ▸ unbound)
    rw [attributes_setAttr, if_neg other]
    exact h.unbound w bound
  · rw [attributes_setAttr] at found
    split at found
    · cases a with
      | domain a =>
        cases found
        exact suits
      | watchers a => exact h.domain w b found
      | _ => exact suits.elim
    · exact h.domain w b found
  · rw [attributes_setAttr] at found
    split at found
    · cases a with
      | domain a => exact h.watched w b found
      | watchers a =>
        cases found
        exact suits.1
      | _ => exact suits.elim
    · exact h.watched w b found
  · rw [walk_congr (s := s) (t := s.setAttr v a) rfl]
    rcases mem_storedWatchers_setAttr suits stored with before | ⟨rfl, _, u, mem, leads⟩
    · exact h.mentions w p before
    · refine ⟨u, mem, ?_⟩
      rw [leads, walk_var_of_unbound unbound]

/-! ## Binding -/

/-- The substitution with `v` bound to `b` and rid of its attributes. -/
def bindBare (s : Subst) (v : Var) (b : Term) : Subst := (s.dropAttrs v).bind v b

theorem get?_bindBare (s : Subst) (v w : Var) (b : Term) :
    (s.bindBare v b).get? w = if v = w then some b else s.get? w := by
  rw [bindBare, get?_bind, get?_dropAttrs]

theorem attributes_bindBare (s : Subst) (v w : Var) (b : Term) :
    (s.bindBare v b).attributes w = if v = w then {} else s.attributes w := by
  rw [bindBare, attributes_bind, attributes_dropAttrs]

theorem Extends.bindBare {v : Var} (unbound : s.get? v = none) (b : Term) :
    s.Extends (s.bindBare v b) := Extends.bind (s := s.dropAttrs v) unbound b

theorem Acyclic.bindBare (h : s.Acyclic) {v : Var} {b : Term} (unbound : s.get? v = none)
    (fresh : s.occurs v b = false) : (s.bindBare v b).Acyclic := by
  have unbound' : (s.dropAttrs v).get? v = none := unbound
  have fresh' : (s.dropAttrs v).occurs v b = false := by rw [occurs_dropAttrs, fresh]
  exact Acyclic.bind (s := s.dropAttrs v) h unbound' fresh'

/-- Of two unbound variables the higher one may become the lower one. -/
structure Retires (s : Subst) (keep v : Var) : Prop where
  unbound : s.get? v = none
  unbound_keep : s.get? keep = none
  lower : keep.index < v.index

namespace Retires

variable {keep v : Var} (h : s.Retires keep v)

include h

theorem differ : v ≠ keep := fun same => Nat.lt_irrefl _ (same ▸ h.lower)

theorem fresh : s.occurs v (.var keep) = false := occurs_var_of_ne h.unbound_keep h.differ

theorem get?_keep : (s.bindBare v (.var keep)).get? keep = none := by
  rw [get?_bindBare, if_neg h.differ, h.unbound_keep]

theorem attributes_keep : (s.bindBare v (.var keep)).attributes keep = s.attributes keep := by
  rw [attributes_bindBare, if_neg h.differ]

theorem walk_keep : (s.bindBare v (.var keep)).walk (.var keep) = .var keep :=
  walk_var_of_unbound h.get?_keep

/-- Both variables stand for the same one then. -/
theorem walk_eq (acyclic : s.Acyclic) :
    (s.bindBare v (.var keep)).walk (.var keep) = (s.bindBare v (.var keep)).walk (.var v) :=
  ((acyclic.bindBare h.unbound h.fresh).walk_of_bound (by rw [get?_bindBare, if_pos rfl])).symm

end Retires

/-- What is stored is known outside once a variable is bound and rid of its part. -/
theorem Orderly.bindBare (h : s.Orderly K) {v : Var} {b : Term} (unbound : s.get? v = none)
    (fresh : s.occurs v b = false) (sized : b.Sized) :
    (s.bindBare v b).Orderly { K with known := s.Carries K } := by
  have ext := Extends.bindBare unbound b
  have acyclic := Acyclic.bindBare h.acyclic unbound fresh
  have stored {w : Var} {p : Propagator} (mem : p ∈ (s.bindBare v b).storedWatchers w) :
      v ≠ w ∧ p ∈ s.storedWatchers w := by
    obtain ⟨a, found, mem⟩ := mem_storedWatchers_iff.mp mem
    rw [attributes_bindBare] at found
    split at found
    · cases found
    · rename_i other
      exact ⟨other, mem_storedWatchers_iff.mpr ⟨a, found, mem⟩⟩
  have carries {p : Propagator}
      (carries : (s.bindBare v b).Carries { K with known := s.Carries K } p) : s.Carries K p := by
    rcases carries with known | ⟨w, mem⟩
    · exact known
    · exact .inr ⟨w, (stored mem).2⟩
  refine ⟨acyclic, fun w a bound => ?_, fun w => ?_, fun w bound => ?_, fun w a found => ?_,
    fun w a found => ?_, fun w p mem => ?_, fun p c => h.proper p (carries c),
    fun p c x mem θ reading agrees => h.integral p (carries c) x mem θ reading
      (agrees.of_extends ext), fun p c => h.stamped p (carries c),
    fun p q c c' => h.coherent p q (carries c) (carries c')⟩
  · rw [get?_bindBare] at bound
    split at bound
    · cases bound
      exact sized
    · exact h.sized w a bound
  · rw [attributes_bindBare]
    split
    · exact ⟨rfl, rfl, rfl⟩
    · exact h.simple w
  · rw [get?_bindBare] at bound
    rw [attributes_bindBare]
    split
    · rfl
    · rename_i other
      rw [if_neg other] at bound
      exact h.unbound w bound
  · rw [attributes_bindBare] at found
    split at found
    · cases found
    · exact h.domain w a found
  · rw [attributes_bindBare] at found
    split at found
    · cases found
    · exact h.watched w a found
  · obtain ⟨other, before⟩ := stored mem
    obtain ⟨u, mem_u, leads⟩ := h.mentions w p before
    refine ⟨u, mem_u, ?_⟩
    rw [← acyclic.walk_walk ext, leads]
    refine walk_var_of_unbound ?_
    rw [get?_bindBare, if_neg other]
    exact h.acyclic.get?_of_walk leads

/-- A variable that is bound is equal to its term, and loses what its attributes say. -/
theorem admits_bindBare {v : Var} {b : Term} (unbound : s.get? v = none) :
    (s.bindBare v b).Admits θ ∧ (∀ a ∈ (s.attributes v).toList, a.HoldsAt θ v) ↔
      s.Admits θ ∧ θ v = b.expand θ := by
  have unbound' : (s.dropAttrs v).get? v = none := unbound
  have agrees : (s.bindBare v b).Agrees θ ↔ s.Agrees θ ∧ θ v = b.expand θ :=
    agrees_bind_iff (s := s.dropAttrs v) unbound'
  rw [admits_iff, admits_iff, agrees]
  constructor
  · rintro ⟨⟨⟨agreed, equal⟩, others⟩, here⟩
    refine ⟨⟨agreed, fun w a found => ?_⟩, equal⟩
    by_cases same : v = w
    · subst same
      exact here a (Attributes.mem_toList.mpr found)
    · exact others w a (by rw [attributes_bindBare, if_neg same]; exact found)
  · rintro ⟨⟨agreed, all⟩, equal⟩
    refine ⟨⟨⟨agreed, equal⟩, fun w a found => ?_⟩, fun a mem => ?_⟩
    · rw [attributes_bindBare] at found
      split at found
      · rw [Attributes.get?_empty] at found
        cases found
      · exact all w a found
    · exact all v a (Attributes.mem_toList.mp mem)

end Subst

end ConstraintLogic
