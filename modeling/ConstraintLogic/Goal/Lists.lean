import ConstraintLogic.Goal.Basic

/-!
# List relations

The relations between lists, their heads, tails, elements and concatenations.
Appending and membership recurse through calls, so that each level of the list
puts the search off once more.

Contents:
* `Goal.null`, `Goal.cons`, `Goal.first`, `Goal.rest`: one cell of a list.
* `Goal.append`, `Goal.member`: the recursive relations, as calls.
* `RelName.body`: what a called relation means.
-/

namespace ConstraintLogic

namespace Goal

/-- `l` is the empty list (`nullo`). -/
def null (l : Term) : Goal := eq l .nil

/-- `l` is the pair of `head` and `tail` (`conso`). -/
def cons (head tail l : Term) : Goal := eq (.pair head tail) l

/-- `head` is the head of `l` (`firsto`). -/
def first (l head : Term) : Goal :=
  fresh 1 fun vs =>
    match vs with
    | [tail] => cons head (.var tail) l
    | _ => fail

/-- `tail` is the tail of `l` (`resto`). -/
def rest (l tail : Term) : Goal :=
  fresh 1 fun vs =>
    match vs with
    | [head] => cons (.var head) tail l
    | _ => fail

/-- `out` is `l` followed by `s` (`appendo`). -/
def append (l s out : Term) : Goal := call .append [l, s, out]

/-- `x` is an element of `l` (`membero`). -/
def member (x l : Term) : Goal := call .member [x, l]

/-- `out` is `l` followed by `s`, by the cases of `l` (`appendo`). -/
def appendBody (l s out : Term) : Goal :=
  conde
    [[null l, eq s out],
      [fresh 3 fun vs =>
        match vs with
        | [a, d, res] =>
          conjAll [cons (.var a) (.var d) l, cons (.var a) (.var res) out,
            append (.var d) s (.var res)]
        | _ => fail]]

/-- `x` is the head of `l` or an element of its tail (`membero`). -/
def memberBody (x l : Term) : Goal :=
  conde
    [[first l x],
      [fresh 1 fun vs =>
        match vs with
        | [tail] => conj (rest l (.var tail)) (member x (.var tail))
        | _ => fail]]

end Goal

/-- What a relation means of its arguments; with another number of arguments it
    never holds. -/
def RelName.body (program : Program) : RelName → List Term → Goal
  | append, [l, s, out] => Goal.appendBody l s out
  | member, [x, l] => Goal.memberBody x l
  | defined name, args => program name args
  | _, _ => .fail

end ConstraintLogic
