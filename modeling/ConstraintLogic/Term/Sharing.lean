import ConstraintLogic.Term.Equality

/-!
# Terms as they lie in memory

A pair is held by its cell: two handles that hold one cell show one pair, and two
cells may still hold equal pairs. The comparison of two handles and the hash of a
handle are loops over a stack. The comparison looks at the cells to pass by what it
need not compare; the hash does not look at them.

Contents:
* `Handle`: a term with the cells that its pairs lie in.
* `Handle.LiesIn`: a handle into a given memory.
* `Handle.agree`: the comparison, with its shortcut for shared cells.
* `Handle.hash`: the hash, with any hasher.
* `Handle.writes`: the calls that the hash makes.
-/

namespace ConstraintLogic

/-- A term with the number of the cell of each pair. -/
inductive Handle where
  | nil
  | atom (a : Atom)
  | var (v : Var)
  | pair (cell : Nat) (head tail : Handle)
deriving DecidableEq, Repr

namespace Handle

/-- The term that the handle shows. -/
def term : Handle → Term
  | .nil => .nil
  | .atom a => .atom a
  | .var v => .var v
  | .pair _ h t => .pair h.term t.term

/-- The cells of the handle hold what the memory says: a cell holds one head and one
    tail, wherever it is met. -/
def LiesIn (memory : Nat → Handle × Handle) : Handle → Prop
  | .pair cell h t => memory cell = (h, t) ∧ h.LiesIn memory ∧ t.LiesIn memory
  | _ => True

/-! ## Comparing -/

/-- Whether two handles show one term without descending into pairs (`Term::same`). -/
def same : Handle → Handle → Bool
  | .nil, .nil => true
  | .atom a, .atom b => a = b
  | .var v, .var w => v = w
  | .pair c _ _, .pair d _ _ => c = d
  | _, _ => false

/-- The number of nodes of a handle. -/
def nodes : Handle → Nat
  | .pair _ h t => h.nodes + t.nodes + 1
  | _ => 1

theorem nodes_pos (t : Handle) : 0 < t.nodes := by
  cases t <;> simp [nodes]

/-- The nodes of the handles of a list. -/
def nodesAll : List Handle → Nat
  | [] => 0
  | t :: rest => t.nodes + nodesAll rest

/-- Every pair on the stack shows equal terms. What lies in one cell is passed by;
    of two cells the heads are compared before the tails. -/
def agreeAll : List (Handle × Handle) → Bool
  | [] => true
  | (.pair c h t, .pair d h' t') :: rest =>
    if c = d then agreeAll rest else agreeAll ((h, h') :: (t, t') :: rest)
  | (a, b) :: rest => same a b && agreeAll rest
termination_by work => nodesAll (work.map (·.1))
decreasing_by
  · simp only [nodesAll, List.map_cons, nodes]; omega
  · simp only [nodesAll, List.map_cons, nodes]; omega
  · have := a.nodes_pos
    simp only [nodesAll, List.map_cons]; omega

/-- Structural equality of handles (`Term::eq`). -/
def agree (t u : Handle) : Bool := agreeAll [(t, u)]

end Handle

/-! ## Hashing -/

/-- One call of a hasher: a byte, the number of a constructor, an integer of 64 bits,
    an index of 32 bits or a text. -/
inductive Write where
  | byte (n : Nat)
  | tag (n : Nat)
  | int (n : Int)
  | index (n : Nat)
  | text (s : String)
deriving DecidableEq, Repr

/-- What the hash of an atom writes: its constructor and its content. -/
def Atom.writes : Atom → List Write
  | .int n => [.tag 0, .int n]
  | .str s => [.tag 1, .text s]
  | .bool b => [.tag 2, .byte b.toNat]

/-- What the hash writes for one token: a byte for its kind and then its content. -/
def Term.Token.writes : Term.Token → List Write
  | .nil => [.byte 0]
  | .atom a => .byte 1 :: a.writes
  | .var v => [.byte 2, .index v.index]
  | .pair => [.byte 3]

namespace Handle

/-- Runs the hasher over the handles on the stack, heads before tails. -/
def hashAll {σ : Type} (feed : σ → Write → σ) : List Handle → σ → σ
  | [], state => state
  | .nil :: rest, state => hashAll feed rest (Term.Token.nil.writes.foldl feed state)
  | .atom a :: rest, state => hashAll feed rest ((Term.Token.atom a).writes.foldl feed state)
  | .var v :: rest, state => hashAll feed rest ((Term.Token.var v).writes.foldl feed state)
  | .pair _ h t :: rest, state => hashAll feed (h :: t :: rest) (Term.Token.pair.writes.foldl feed state)
termination_by work => nodesAll work
decreasing_by all_goals simp only [nodesAll, nodes]; omega

/-- The hash of a handle (`Term::hash`): what becomes of the state of the hasher. -/
def hash {σ : Type} (feed : σ → Write → σ) (t : Handle) (state : σ) : σ := hashAll feed [t] state

/-- The calls that the hash of a handle makes. -/
def writes (t : Handle) : List Write := t.hash (fun calls call => calls ++ [call]) []

end Handle

end ConstraintLogic
