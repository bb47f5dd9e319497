import ConstraintLogic.Solver.Basic

/-!
# Running propagators

A propagator that runs narrows the domains of its variables and then subscribes
again to those that have no value yet; one that does not subscribe again is
entailed by the domains. A relation whose operands have come close to values is
replaced by a simpler one: a sum with a known operand by a difference, two small
domains by the table of the rows they admit.

Contents:
* `Narrow.runTable`, `Narrow.runPlusConst`, `Narrow.runScale`,
  `Narrow.runSumConst`, `Narrow.runSum`, `Narrow.runAllDifferent`: one run.
* `Narrow.propagate`: one run of any relation.
-/

namespace ConstraintLogic

/-- The largest number of rows that are tried when a relation becomes a table (`TABLE_THRESHOLD`). -/
def tableThreshold : Nat := 256

namespace Domain

/-- Both domains are finite, and the pairs of their values are few enough for a table
    (`small_product`). -/
def smallProduct (a b : Domain) : Bool :=
  match a.size, b.size with
  | some m, some n => m * n ≤ tableThreshold
  | _, _ => false

/-- The values of `a` for which a partner in `b` is looked up; none if there is no
    partner. -/
def partnered (a b : Domain) : List Int := if b.isEmpty then [] else a.toList

/-- How often a domain can shrink: from all integers to the integers of 64 bits,
    and then by a value at a time. -/
def maxChanges : Nat := maxSize + 2

end Domain

namespace Narrow

/-! ## Tables -/

/-- The pairs of positions whose variables stand for one unbound variable. -/
def aliases (vs : List Var) : Narrow (List (Nat × Nat)) := do
  let s ← get
  let indexed := vs.zipIdx
  return indexed.flatMap fun (v, i) =>
    (indexed.drop (i + 1)).filterMap fun (w, j) => if s.sameVar v w then some (i, j) else none

/-- The row lies in the domains and repeats its values where variables are
    aliased. -/
def rowFits (ds : List Domain) (same : List (Nat × Nat)) (row : List Int) : Bool :=
  (ds.zipIdx.all fun (d, k) => (row[k]?.map d.contains).getD false) &&
    same.all fun (i, j) => row[i]? = row[j]?

/-- Keeps the rows that fit, narrows every variable to its column, and shrinks the table when rows
    were dropped (`Table::propagate`). -/
def runTable (id : PropId) (vs : List Var) (rows : List (List Int)) (origin : Term) :
    Narrow Unit := do
  let ds ← vs.mapM domain
  let same ← aliases vs
  let live := rows.filter (rowFits ds same)
  require !live.isEmpty
  vs.zipIdx.forM fun (v, k) => reduce v (.values (live.filterMap (·[k]?)))
  if live.length < rows.length then replaceWith id (.table vs live origin)
  resubscribe id vs

/-- Goes on as the table of those rows. -/
def becomeTable (id : PropId) (vs : List Var) (rows : List (List Int)) (origin : Term) :
    Narrow Unit := do
  replaceWith id (.table vs rows origin)
  runTable id vs rows origin

/-! ## Arithmetic -/

/-- Narrows `z` to `x + c` and `x` to `z - c` (`PlusConst::propagate`). The constant is negated only
    after `z` has been narrowed, and the least integer cannot be. -/
def runPlusConst (id : PropId) (x : Var) (c : Int) (z : Var) : Narrow Unit := do
  if ← sameVar x z then require (c = 0)
  else
    reduce z ((← domain x).shift c)
    let dz ← domain z
    if c = minValue then throw (.fault .negateOverflow)
    reduce x (dz.shift (-c))
    resubscribe id [x, z]

/-- Narrows `z` to `c * x` and `x` to `z / c` (`Scale::propagate`); a small domain of `x` makes a
    table. -/
def runScale (id : PropId) (c : Int) (x z : Var) : Narrow Unit := do
  if c = 0 then reduce z (.singleton 0)
  else if ← sameVar x z then
    if c = 1 then pure () else reduce x (.singleton 0)
  else
    let dx ← domain x
    let dz ← domain z
    if dx.size.any (· ≤ tableThreshold) then
      let rows := dx.toList.filterMap fun a =>
        (value? (a * c)).bind fun b => if dz.contains b then some [a, b] else none
      becomeTable id [x, z] rows (Relation.scale c x z).statement
    else
      reduce z (dx.scale c)
      let dz ← domain z
      reduce x (dz.divideExact c)
      resubscribe id [x, z]

/-- Narrows `x` to `c - y` and `y` to `c - x` (`SumConst::propagate`); two small domains make a
    table. -/
def runSumConst (id : PropId) (x y : Var) (c : Int) : Narrow Unit := do
  if ← sameVar x y then
    require (Int.tmod c 2 = 0)
    reduce x (.singleton (Int.tdiv c 2))
  else
    let dx ← domain x
    let dy ← domain y
    if dx.smallProduct dy then
      let rows := (dx.partnered dy).filterMap fun a =>
        (value? (c - a)).bind fun b => if dy.contains b then some [a, b] else none
      becomeTable id [x, y] rows (Relation.sumConst x y c).statement
    else
      reduce x (dy.subtractFrom c)
      let dx ← domain x
      reduce y (dx.subtractFrom c)
      resubscribe id [x, y]

/-- Narrows `v` to the interval from `lb` to `ub` if both ends are known. -/
def reduceBetween (v : Var) (lb ub : Option Int) : Narrow Unit :=
  match lb, ub with
  | some lb, some ub => reduce v (.clampedRange lb ub)
  | _, _ => pure ()

/-- The sum of two ends that are both known. -/
def addEnds (a b : Option Int) : Option Int := a.bind fun m => b.map fun n => m + n

/-- The difference of two ends that are both known. -/
def subEnds (a b : Option Int) : Option Int := a.bind fun m => b.map fun n => m - n

/-- Narrows the three variables of `x + y = z` to the intervals that the ends of the other two
    leave, again and again until a round changes nothing (`Sum::narrow_bounds`). Every other round
    takes a value from one of three domains, which bounds `n`. -/
def narrowEnds (x y z : Var) : Nat → Narrow Unit
  | 0 => throw .exhausted
  | n + 1 => do
    let dx ← domain x
    let dy ← domain y
    let before := (dx, dy, ← domain z)
    reduceBetween z (addEnds dx.min? dy.min?) (addEnds dx.max? dy.max?)
    let dz ← domain z
    reduceBetween x (subEnds dz.min? dy.max?) (subEnds dz.max? dy.min?)
    let dx ← domain x
    reduceBetween y (subEnds dz.min? dx.max?) (subEnds dz.max? dx.min?)
    let after := (← domain x, ← domain y, ← domain z)
    if after = before then pure () else narrowEnds x y z n

/-- Goes on as a difference, a multiple or a sum with known result where two operands are aliased or
    one is known, as a table where two domains are small, and narrows the ends otherwise
    (`Sum::propagate`). -/
def runSum (id : PropId) (x y z : Var) : Narrow Unit := do
  let xy ← sameVar x y
  let xz ← sameVar x z
  let yz ← sameVar y z
  if xy && xz then reduce x (.singleton 0)
  else if xy then
    replaceWith id (.scale 2 x z)
    runScale id 2 x z
  else if xz then reduce y (.singleton 0)
  else if yz then reduce x (.singleton 0)
  else
    let dx ← domain x
    let dy ← domain y
    let dz ← domain z
    match dx.solution, dy.solution, dz.solution with
    | some a, _, _ =>
      replaceWith id (.plusConst y a z)
      runPlusConst id y a z
    | none, some b, _ =>
      replaceWith id (.plusConst x b z)
      runPlusConst id x b z
    | none, none, some c =>
      replaceWith id (.sumConst x y c)
      runSumConst id x y c
    | none, none, none =>
      if dx.smallProduct dy && dz.size.isSome then
        let rows := (dx.partnered dy).flatMap fun a =>
          dy.toList.filterMap fun b =>
            (value? (a + b)).bind fun c => if dz.contains c then some [a, b, c] else none
        becomeTable id [x, y, z] rows (Relation.sum x y z).statement
      else
        narrowEnds x y z (3 * Domain.maxChanges + 1)
        resubscribe id [x, y, z]

/-! ## Pairwise difference -/

/-- What is still open and what is known of the operands of a difference. -/
structure Operands where
  /-- The values that are taken. -/
  fixed : List Int := []
  /-- The distinct unbound variables. -/
  opened : List Var := []

/-- Takes a value, which must be a new one. -/
def Operands.take (o : Operands) (n : Int) : Narrow Operands := do
  require !(o.fixed.contains n)
  return { o with fixed := o.fixed ++ [n] }

/-- Sorts a variable by what it stands for. -/
def Operands.add (o : Operands) (v : Var) : Narrow Operands := do
  match ← resolve v with
  | .free r =>
    require !(o.opened.contains r)
    return { o with opened := o.opened ++ [r] }
  | .value n => o.take n
  | .other => conflict

/-- The domain without any of the values, taken out one after another. -/
def removeAll (d : Domain) (vs : List Int) : Except Fault Domain := vs.foldlM Domain.remove d

/-- Takes the taken values out of the domains of the variables `vs`; a variable
    that is left with one value adds it to those taken. Answers what is taken and
    open afterwards. -/
def sweep (vs : List Var) (fixed : List Int) : Narrow Operands :=
  vs.foldlM (fun o v => do
    let current ← domain v
    let narrowed ← orFault (removeAll current o.fixed)
    if narrowed ≠ current then reduce v narrowed
    match (← domain v).solution with
    | some n => o.take n
    | none => return { o with opened := o.opened ++ [v] }) { fixed, opened := [] }

/-- Sweeps until no variable is fixed in a sweep; every other sweep leaves fewer
    variables open, so the number of variables bounds `n`. -/
def sweepAll : Nat → Operands → Narrow Operands
  | 0, _ => throw .exhausted
  | n + 1, o => do
    let next ← sweep o.opened o.fixed
    if next.opened.length = o.opened.length then return next else sweepAll n next

/-- Counts the values that the variables can take together while the sizes of
    their domains stay within the budget. -/
def countValues : List Var → Nat → Std.ExtTreeMap Int Unit → Narrow (Option Nat)
  | [], _, seen => return some seen.size
  | v :: rest, budget, seen => do
    let d ← domain v
    match d.size with
    | some n =>
      if n ≤ budget then
        countValues rest (budget - n) (d.toList.foldl (fun seen k => seen.insert k ()) seen)
      else return none
    | none => return none

/-- There are at least as many values as open variables, as far as their domains are small enough to
    be counted (`AllDifferent::pigeonhole`). -/
def pigeonhole (opened : List Var) : Narrow Unit := do
  if 2 ≤ opened.length then
    match ← countValues opened Domain.materializeLimit ∅ with
    | some count => require (opened.length ≤ count)
    | none => pure ()

/-- Nothing is left for the relation to do. -/
def settled (o : Operands) : Narrow Bool := do
  match o.opened with
  | [] => return true
  | [v] =>
    let d ← domain v
    return o.fixed.all fun n => !d.contains n
  | _ => return false

/-- Takes the values of the constants and of the fixed variables out of the domains of the open
    ones, and shrinks to the open ones (`AllDifferent::propagate`). -/
def runAllDifferent (id : PropId) (vs : List Var) (cs : List Int) : Narrow Unit := do
  let o ← cs.foldlM Operands.take {}
  let o ← vs.foldlM Operands.add o
  let o ← sweepAll (o.opened.length + 1) o
  pigeonhole o.opened
  if ← settled o then pure ()
  else
    if o.opened.length < vs.length then replaceWith id (.allDifferent o.opened o.fixed)
    resubscribe id o.opened

/-! ## Any relation -/

/-- Runs the relation of the propagator with that number (`Propagator::propagate`). -/
def propagate (id : PropId) : Relation → Narrow Unit
  | .plusConst x c z => runPlusConst id x c z
  | .sumConst x y c => runSumConst id x y c
  | .sum x y z => runSum id x y z
  | .scale c x z => runScale id c x z
  | .allDifferent vs cs => runAllDifferent id vs cs
  | .table vs rows origin => runTable id vs rows origin

end Narrow

end ConstraintLogic
