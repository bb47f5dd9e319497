import ConstraintLogic.Propagator.Basic

/-!
# Attributes of variables

A variable without a value may carry attributes, at most one of each kind: a
finite domain, the propagators that watch it, and three small ones, a list of
allowed integers, a tag that aliasing drops and a placeholder for zero. An
attribute that delegates decides alone what happens when its variable takes a
value; the others are consulted one after another.

Contents:
* `Attribute`: one attribute, `AttrName`: its kind.
* `Attributes`: the attributes of one variable, in the order of their names.
-/

namespace ConstraintLogic

/-- The kinds of attributes, in the order of their names. -/
inductive AttrName where
  | allowed
  | domain
  | watchers
  | tag
  | zero
deriving DecidableEq, Repr

namespace AttrName

/-- Every kind, in the order of the names. -/
def all : List AttrName := [allowed, domain, watchers, tag, zero]

/-- The name of the kind. -/
def text : AttrName → String
  | allowed => "allowed"
  | domain => "fd"
  | watchers => "fda"
  | tag => "tag"
  | zero => "zero"

/-- The kind of that name. -/
def ofText? (s : String) : Option AttrName := all.find? fun a => a.text = s

end AttrName

/-- A domain and the variable it was stated for (`DomainAttr`). -/
structure DomainFact where
  /-- The variable that the domain was stated for. -/
  anchor : Var
  /-- The values left to the variable. -/
  domain : Domain
deriving DecidableEq, Repr

/-- One attribute with its identity. -/
inductive Attribute where
  | allowed (a : Stamped (List Int))
  | domain (a : Stamped DomainFact)
  | watchers (a : Stamped (List Propagator))
  | tag (a : Stamped Unit)
  | zero (a : Stamped Unit)
deriving DecidableEq, Repr

namespace Attribute

/-- The kind of the attribute (`domain_name`). -/
def name : Attribute → AttrName
  | allowed _ => .allowed
  | domain _ => .domain
  | watchers _ => .watchers
  | tag _ => .tag
  | zero _ => .zero

/-- The number of the making of the attribute. -/
def stamp : Attribute → Nat
  | allowed a => a.stamp
  | domain a => a.stamp
  | watchers a => a.stamp
  | tag a => a.stamp
  | zero a => a.stamp

/-- The attribute decides alone what a value for its variable means (`delegating`). -/
def delegating : Attribute → Bool
  | domain _ => true
  | zero _ => true
  | _ => false

/-- A domain as a term (`DomainConstraint::to_term`): its bounds, its values, or that it is
    unbounded. -/
def domainStatement (fact : DomainFact) : Term :=
  match fact.domain with
  | .unbounded => .ofList [.str "in", .var fact.anchor, .str "unbounded"]
  | .empty => .ofList [.str "in", .var fact.anchor, .int 1, .int 0]
  | .interval lb ub => .ofList [.str "in", .var fact.anchor, .int lb, .int ub]
  | .enumerated vs => .ofList [.str "in", .var fact.anchor, .ofList (vs.map .int)]

/-- The constraints that the attribute stands for (`constraints`): a term and the variables that it
    constrains. -/
def constraints : Attribute → List (Term × List Var)
  | domain a => [(domainStatement a.val, [a.val.anchor])]
  | watchers a => a.val.map fun p => (p.val.statement, p.val.vars)
  | _ => []

/-- The attribute with all its parts. -/
def describe : Attribute → String
  | allowed a => "Allowed(" ++ bracketed (a.val.map toString) ++ ")"
  | domain a =>
    recordText "DomainAttr"
      [("var", a.val.anchor.describe), ("domain", a.val.domain.describe)]
  | watchers a =>
    recordText "ConstraintsAttr" [("props", bracketed (a.val.map fun p => p.val.describe))]
  | tag _ => "Tag"
  | zero _ => "Zero"

end Attribute

/-- The attributes of one variable. -/
structure Attributes where
  allowed : Option (Stamped (List Int)) := none
  domain : Option (Stamped DomainFact) := none
  watchers : Option (Stamped (List Propagator)) := none
  tag : Option (Stamped Unit) := none
  zero : Option (Stamped Unit) := none
deriving DecidableEq, Repr

namespace Attributes

/-- The attribute of that kind. -/
def get? (m : Attributes) : AttrName → Option Attribute
  | .allowed => m.allowed.map .allowed
  | .domain => m.domain.map .domain
  | .watchers => m.watchers.map .watchers
  | .tag => m.tag.map .tag
  | .zero => m.zero.map .zero

/-- The attributes in the order of their names. -/
def toList (m : Attributes) : List Attribute := AttrName.all.filterMap m.get?

/-- The variable has no attribute. -/
def isEmpty (m : Attributes) : Bool := m.toList.isEmpty

/-- The attributes with `a` in the place of the one of its kind. -/
def set (m : Attributes) : Attribute → Attributes
  | .allowed a => { m with allowed := some a }
  | .domain a => { m with domain := some a }
  | .watchers a => { m with watchers := some a }
  | .tag a => { m with tag := some a }
  | .zero a => { m with zero := some a }

/-- The attributes without the one of that kind. -/
def erase (m : Attributes) : AttrName → Attributes
  | .allowed => { m with allowed := none }
  | .domain => { m with domain := none }
  | .watchers => { m with watchers := none }
  | .tag => { m with tag := none }
  | .zero => { m with zero := none }

end Attributes

end ConstraintLogic
