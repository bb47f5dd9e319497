import ConstraintLogic.Term.Printer

/-!
# Building lists from both ends

A `ListBuilder` collects items at either end and turns them into a list, with
any term as its end.
-/

namespace ConstraintLogic

/-- The items collected so far: `front` in order, then `back` in reverse. -/
structure ListBuilder where
  /-- The items pushed to the front, first item first. -/
  front : List Term := []
  /-- The items pushed to the back, last item first. -/
  back : List Term := []

namespace ListBuilder

/-- The items in order. -/
def items (b : ListBuilder) : List Term := b.front ++ b.back.reverse

/-- The number of items (`ListBuilder::len`). -/
def length (b : ListBuilder) : Nat := b.front.length + b.back.length

/-- No item has been collected (`ListBuilder::is_empty`). -/
def isEmpty (b : ListBuilder) : Bool := b.front.isEmpty && b.back.isEmpty

/-- `t` becomes the last item (`ListBuilder::push`). -/
def push (b : ListBuilder) (t : Term) : ListBuilder := { b with back := t :: b.back }

/-- `t` becomes the first item (`push_front`). -/
def pushFront (b : ListBuilder) (t : Term) : ListBuilder := { b with front := t :: b.front }

/-- The items consed onto `tail` (`build_with_tail`). -/
def buildOnto (b : ListBuilder) (tail : Term) : Term := Term.listOnto b.items tail

/-- The proper list of the items (`ListBuilder::build`). -/
def build (b : ListBuilder) : Term := b.buildOnto .nil

/-- The builder with its items, for inspection. -/
def describe (b : ListBuilder) : String :=
  "ListBuilder \x7b items: [" ++ ", ".intercalate (b.items.map Term.render) ++ "] \x7d"

@[simp] theorem items_push (b : ListBuilder) (t : Term) : (b.push t).items = b.items ++ [t] := by
  simp [items, push]

@[simp] theorem items_pushFront (b : ListBuilder) (t : Term) :
    (b.pushFront t).items = t :: b.items := rfl

@[simp] theorem length_items (b : ListBuilder) : b.items.length = b.length := by
  simp [items, length]

end ListBuilder

end ConstraintLogic
