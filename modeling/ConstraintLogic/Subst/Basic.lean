import ConstraintLogic.Attribute

/-!
# Substitutions

A substitution binds variables to terms and attaches attributes to variables. It
also knows which variable is allocated next, a number above every variable that
its bindings mention, and the number for the next stamped value.

Bindings may lead from variable to variable. On acyclic bindings no path meets
one variable twice, so the number of bindings bounds every path, and reading a
term under the substitution recurses on that number and on the term.

Contents:
* `Subst.walk`: the term at the end of a chain of variables.
* `Subst.walkDeep`: the term with every bound variable replaced.
* `Subst.occurs`: an unbound variable occurs in the term so read.
* `Subst.setAttr`, `Subst.removeAttr`, `Subst.dropAttrs`: the attribute store.
-/

namespace ConstraintLogic

/-- Bindings, attributes and the counters of variables and stamps. -/
structure Subst where
  /-- The terms of the bound variables. -/
  bindings : Std.ExtTreeMap Var Term := ∅
  /-- The attributes of the variables that have some. -/
  attrs : Std.ExtTreeMap Var Attributes := ∅
  /-- The number of variables allocated so far, and the next to allocate. -/
  next : Nat := 0
  /-- A number above every variable mentioned in the bindings. -/
  width : Nat := 0
  /-- The number of the next stamped value. -/
  supply : Nat := 0
  /-- The width lies above what the bindings mention. -/
  mentioned : ∀ (v : Var) (t : Term),
    bindings[v]? = some t → v.index < width ∧ t.width ≤ width := by simp

namespace Subst

/-- The substitution without bindings and attributes (`Subst::new`). -/
def empty : Subst := {}

/-! ## Allocation -/

/-- Allocates a variable (`fresh_var`). -/
def fresh (s : Subst) : Var × Subst := (⟨s.next⟩, { s with next := s.next + 1 })

/-- Allocates `n` variables. -/
def freshMany (s : Subst) (n : Nat) : List Var × Subst :=
  ((List.range n).map fun i => ⟨s.next + i⟩, { s with next := s.next + n })

/-- Gives `a` an identity of its own. -/
def stamped {α : Type} (s : Subst) (a : α) : Stamped α × Subst :=
  (⟨s.supply, a⟩, { s with supply := s.supply + 1 })

/-- The substitution whose next stamp is at least `n`. -/
def raiseSupply (s : Subst) (n : Nat) : Subst := { s with supply := max s.supply n }

/-! ## Bindings -/

/-- The term that the variable is bound to (`Subst::get`). -/
def get? (s : Subst) (v : Var) : Option Term := s.bindings[v]?

/-- The variable has a binding (`is_bound`). -/
def isBound (s : Subst) (v : Var) : Bool := (s.get? v).isSome

/-- The number of bindings (`Subst::len`). -/
def size (s : Subst) : Nat := s.bindings.size

/-- The substitution with `v` bound to `t` (`Subst::bind`). -/
def bind (s : Subst) (v : Var) (t : Term) : Subst :=
  { s with
    bindings := s.bindings.insert v t
    width := max s.width (max (v.index + 1) t.width)
    mentioned := fun w u h => by
      rw [Std.ExtTreeMap.getElem?_insert] at h
      split at h
      · rename_i same
        cases Std.compare_eq_iff_eq.mp same
        cases h
        omega
      · have := s.mentioned w u h
        omega }

/-- Follows at most `n` bindings from a variable. -/
def walkFor (s : Subst) : Nat → Term → Term
  | n + 1, .var v =>
    match s.get? v with
    | some t => s.walkFor n t
    | none => .var v
  | _, t => t

/-- The term at the end of the bindings that `t` leads to (`walk`). -/
def walk (s : Subst) (t : Term) : Term := s.walkFor s.size t

/-- The unbound variable at the end of the bindings of `v` (`walk_var`). -/
def walkVar (s : Subst) (v : Var) : Option Var := (s.walk (.var v)).asVar?

/-- The variable read along paths of at most `n` bindings. -/
def image (s : Subst) : Nat → Var → Term
  | 0, v => .var v
  | n + 1, v =>
    match s.get? v with
    | some t => t.expand (s.image n)
    | none => .var v

/-- The term with every bound variable replaced by the term it stands for (`walk_deep`). -/
def walkDeep (s : Subst) (t : Term) : Term := t.expand (s.image s.size)

/-- The unbound variable `x` is met from `v` along paths of at most `n` bindings. -/
def reaches (s : Subst) (x : Var) : Nat → Var → Bool
  | 0, v => v = x
  | n + 1, v =>
    match s.get? v with
    | some t => t.anyVar (s.reaches x n)
    | none => v = x

/-- The unbound variable `x` occurs in the term read under the substitution (`occurs`). -/
def occurs (s : Subst) (x : Var) (t : Term) : Bool := t.anyVar (s.reaches x s.size)

/-! ## Attributes -/

/-- The attributes of the variable (`attrs`). -/
def attributes (s : Subst) (v : Var) : Attributes := s.attrs[v]?.getD {}

/-- The variable has attributes (`has_attrs`). -/
def hasAttrs (s : Subst) (v : Var) : Bool := s.attrs[v]?.isSome

/-- The attribute of that kind (`get_attr`). -/
def getAttr (s : Subst) (v : Var) (name : AttrName) : Option Attribute :=
  (s.attributes v).get? name

/-- The substitution with `a` as the attribute of its kind on `v` (`set_attr`). -/
def setAttr (s : Subst) (v : Var) (a : Attribute) : Subst :=
  { s with attrs := s.attrs.insert v ((s.attributes v).set a) }

/-- The substitution without the attribute of that kind on `v` (`remove_attr`). -/
def removeAttr (s : Subst) (v : Var) (name : AttrName) : Subst :=
  match s.attrs[v]? with
  | none => s
  | some m =>
    let left := m.erase name
    if left.isEmpty then { s with attrs := s.attrs.erase v }
    else { s with attrs := s.attrs.insert v left }

/-- The substitution without any attribute on `v` (`take_attrs`). -/
def dropAttrs (s : Subst) (v : Var) : Subst := { s with attrs := s.attrs.erase v }

/-- The variables that have attributes, in ascending order (`attributed_vars`). -/
def attributedVars (s : Subst) : List Var := s.attrs.keys

/-- The domain attached to the variable; unbounded if there is none. -/
def storedDomain (s : Subst) (v : Var) : Domain :=
  match (s.attributes v).domain with
  | some a => a.val.domain
  | none => .unbounded

/-- The propagators attached to the variable. -/
def storedWatchers (s : Subst) (v : Var) : List Propagator :=
  match (s.attributes v).watchers with
  | some a => a.val
  | none => []

/-- How often the attached propagators name a variable, over all variables. -/
def watchCount (s : Subst) : Nat :=
  s.attrs.foldl (fun n _ m =>
    match m.watchers with
    | some a => a.val.foldl (fun n p => n + (p.val.vars.length + 1)) n
    | none => n) 0

/-! ## Comparison -/

/-- Two attribute records hold the same objects. -/
def sameAttributes (a b : Attributes) : Bool :=
  AttrName.all.all fun name => (a.get? name).map Attribute.stamp = (b.get? name).map Attribute.stamp

/-- Two substitutions allocate alike, bind alike and carry the same attribute objects (`Subst::eq`). -/
def isSame (s t : Subst) : Bool :=
  s.next = t.next && s.bindings.toList = t.bindings.toList &&
    s.attrs.keys = t.attrs.keys &&
    s.attrs.keys.all fun v => sameAttributes (s.attributes v) (t.attributes v)

/-! ## Description -/

/-- The bindings and then the attributes, each in the order of the variables (`Subst::fmt`). -/
def describe (s : Subst) : String :=
  let bound := s.bindings.toList.map fun (v, t) => v.describe ++ ": " ++ t.render
  let attached := s.attrs.toList.flatMap fun (v, m) =>
    m.toList.map fun a => v.render ++ ":" ++ a.name.text ++ ": " ++ a.describe
  "\x7b" ++ ", ".intercalate (bound ++ attached) ++ "\x7d"

end Subst

end ConstraintLogic
