import ConstraintLogic.Unification.Attributes

/-!
# Unification

Two terms are made equal by binding variables, from left to right and heads
before tails, every term being read under the bindings made so far. Of two
unbound variables the one with the higher number is bound to the other, and its
attributes move there. A variable is never bound to a term that it occurs in.

Equal terms are unified already and are not descended into. Else unification
recurses on the left term; where that is a bound variable, it goes on with the
pair that the variable is bound to. On acyclic bindings no path down the
left term crosses one variable twice, and every variable that can be crossed is
below the width of the substitution and the two terms: the crossings are bounded
by that width.

Contents:
* `Subst.instantiate`: binding an attributed variable to a value.
* `Subst.identify`: making two attributed variables one.
* `Subst.unify`: unification.
-/

namespace ConstraintLogic.Subst

/-- Binds an unbound variable to a term that is no variable (`instantiate`). The first attribute
    that delegates decides alone; otherwise all of them are consulted, in the order of their names,
    once the variable is bound and rid of them. -/
def instantiate (s : Subst) (v : Var) (value : Term) : Attempt Subst :=
  if s.occurs v value then .error .conflict
  else
    let attrs := (s.attributes v).toList
    match attrs.find? Attribute.delegating with
    | some a => s.validate v value a
    | none => attrs.foldlM (fun s a => s.validate v value a) ((s.dropAttrs v).bind v value)

/-- Moves one attribute to what `keep` stands for. The second component lists the
    attributes so far that came to stand next to others. -/
def moveAttr (keep : Var) (state : Subst × List Attribute) (a : Attribute) :
    Attempt (Subst × List Attribute) := do
  let (s, joined) := state
  match s.walk (.var keep) with
  | .var rep =>
    match s.getAttr rep a.name with
    | none => return (s.setAttr rep a, if s.hasAttrs rep then joined ++ [a] else joined)
    | some existing =>
      let (merged, s) ← s.combine rep existing a
      if s.walkVar rep = some rep then
        match merged with
        | some m => return (s.setAttr rep m, joined)
        | none => return (s.removeAttr rep a.name, joined)
      else return (s, joined)
  | value => return (← s.validate keep value a, joined)

/-- Checks an attribute that has moved next to others, if its variable is still
    unbound. -/
def settleAt (keep : Var) (s : Subst) (a : Attribute) : Attempt Subst :=
  match s.walk (.var keep) with
  | .var rep => s.settle rep a
  | _ => .ok s

/-- Makes two unbound variables one (`bind_vars`): the higher is bound to the lower, and its
    attributes move to the lower. -/
def identify (s : Subst) (v w : Var) : Attempt Subst := do
  let keep := if v.index < w.index then v else w
  let retire := if v.index < w.index then w else v
  let moved := (s.attributes retire).toList
  let (s, joined) ← moved.foldlM (moveAttr keep) ((s.dropAttrs retire).bind retire (.var keep), [])
  joined.foldlM (settleAt keep) s

/-- Unifies two terms that are not both pairs and not bound variables. -/
def unifyEnds (s : Subst) (a b : Term) : Attempt Subst :=
  if a = b then .ok s
  else
    match a, b with
    | .var v, .var w => s.identify v w
    | .var v, b => s.instantiate v b
    | a, .var w => s.instantiate w a
    | _, _ => .error .conflict

/-- Unifies `a` and `b` by recursion on `a`; where a variable stands for a pair,
    `cross` unifies that pair with the other one. -/
def unifyWith (cross : Term → Term → Subst → Attempt Subst) :
    Term → Term → Subst → Attempt Subst
  | .pair h t, b, s =>
    let b := s.walk b
    if .pair h t = b then .ok s
    else
      match b with
      | .pair h' t' => do
        let s ← unifyWith cross h h' s
        unifyWith cross t t' s
      | b => s.unifyEnds (.pair h t) b
  | a, b, s =>
    match s.walk a, s.walk b with
    | .pair h t, .pair h' t' => cross (.pair h t) (.pair h' t') s
    | a, b => s.unifyEnds a b

/-- Unifies two terms, crossing less than `n` variables on any path. -/
def unifyBelow : Nat → Term → Term → Subst → Attempt Subst
  | 0 => fun _ _ _ => .error .exhausted
  | n + 1 => unifyWith (unifyBelow n)

/-- Makes `a` and `b` equal, or ends in a conflict if they cannot be (`unify`). -/
def unify (a b : Term) (s : Subst) : Attempt Subst :=
  unifyBelow (max s.width (max a.width b.width) + 1) a b s

end ConstraintLogic.Subst
