import ConstraintLogic.Term.Basic

/-!
# Comparing and encoding terms

Contents:
* `Term.same`: the comparison of two handles that looks at one cell only.
* `Term.agree`: structural equality, decided with a list of pairs still to be
  compared, so that long lists need no deep recursion.
* `Term.tokens`: the pre-order encoding of a term, from which it can be read
  back; two terms with one encoding are one term.
-/

namespace ConstraintLogic.Term

/-- Whether two handles show one term without descending into pairs (`Term::same`): atoms and
    variables by content, pairs only when both handles hold one cell. -/
def same (oneCell : Bool) : Term → Term → Bool
  | .nil, .nil => true
  | .atom a, .atom b => a = b
  | .var v, .var w => v = w
  | .pair _ _, .pair _ _ => oneCell
  | _, _ => false

/-- The number of nodes of a term. -/
def nodes : Term → Nat
  | .pair h t => h.nodes + t.nodes + 1
  | _ => 1

/-- The nodes on the left sides of a list of pairs. -/
def nodesLeft : List (Term × Term) → Nat
  | [] => 0
  | (t, _) :: rest => t.nodes + nodesLeft rest

/-- Every pair of the list holds equal terms: the first pair is compared, and
    heads and tails of two cells are put in front of what is left. -/
def agreeAll : List (Term × Term) → Bool
  | [] => true
  | (.pair h t, .pair h' t') :: rest => agreeAll ((h, h') :: (t, t') :: rest)
  | (a, b) :: rest => same false a b && agreeAll rest
termination_by work => nodesLeft work
decreasing_by
  · simp only [nodesLeft, nodes]; omega
  · simp only [nodesLeft]
    have : 0 < a.nodes := by cases a <;> simp [nodes]
    omega

/-- Structural equality of terms (`Term::eq`). -/
def agree (t u : Term) : Bool := agreeAll [(t, u)]

/-- What the encoding of a term is made of. -/
inductive Token where
  | nil
  | atom (a : Atom)
  | var (v : Var)
  | pair
deriving DecidableEq, Repr

/-- The encoding of the term in front of `rest`. -/
def tokensOnto : Term → List Token → List Token
  | .nil, rest => .nil :: rest
  | .atom a, rest => .atom a :: rest
  | .var v, rest => .var v :: rest
  | .pair h t, rest => .pair :: tokensOnto h (tokensOnto t rest)

/-- The pre-order encoding of the term (`Term::hash`); a hash of the term reads just this. -/
def tokens (t : Term) : List Token := tokensOnto t []

end ConstraintLogic.Term
