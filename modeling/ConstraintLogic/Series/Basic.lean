import ConstraintLogic.Fault

/-!
# Series

A series is a sequence of elements, possibly infinite, whose rest is worked out on
demand. A node of a series is empty, an element with the rest behind it, a
suspension or a branch that is pending elsewhere. Work that is put off is data: a
computation to start, given by a code, with the operations that are to be applied
to its result. What the codes mean is given by an `Interp`, so that a series can
go on for ever while every single step of it ends.

Contents:
* `Series.append`: interleaving; the two sides change places at a suspension.
* `Series.bindWith`: every element is replaced by a series, and these are
  interleaved.
* `Work.run`: one step of work.
* `Series.next`, `Series.take`, `Series.trace`: reading a series.
-/

namespace ConstraintLogic

mutual

/-- Sequences of `α`, with codes `κ` for computations and `β` for functions from elements to
    series. -/
inductive Series (κ β α : Type) where
  /-- No further element. -/
  | empty
  /-- An element and what comes behind it. -/
  | cons (head : α) (tail : Series κ β α)
  /-- Work that is put off until it is forced. -/
  | suspend (work : Work κ β α)
  /-- Work that is done elsewhere and has to be waited for. -/
  | pending (work : Work κ β α)

/-- Work that delivers a series (`Pending`). -/
inductive Work (κ β α : Type) where
  /-- The series is there already. -/
  | done (s : Series κ β α)
  /-- The computation `k` is started. -/
  | start (k : κ)
  /-- The result is interleaved with `s`, the result first. -/
  | thenAppend (w : Work κ β α) (s : Series κ β α)
  /-- The result is interleaved with `s`, `s` first. -/
  | ontoAppend (s : Series κ β α) (w : Work κ β α)
  /-- The elements of the result are replaced by their series under `f`. -/
  | thenBind (w : Work κ β α) (f : β)

end

namespace Series

variable {κ β α : Type}

/-! ## Building series -/

/-- The series of the one element `a` (`Series::unit`). -/
def unit (a : α) : Series κ β α := .cons a .empty

/-- The series of an element that may be missing (`from_option`). -/
def ofOption : Option α → Series κ β α
  | some a => unit a
  | none => .empty

/-- The series of the elements of a list. -/
def ofList (as : List α) : Series κ β α := as.foldr .cons .empty

/-- The elements of both series, interleaved (`append_inf`). The rest behind an element is put off;
    a suspension on the left lets the right side go first; a branch that is pending on the left is
    waited for before the right side is looked at. -/
def append : Series κ β α → Series κ β α → Series κ β α
  | .empty, other => other
  | .cons a rest, other => .cons a (.suspend (.thenAppend (.done rest) other))
  | .suspend w, other => .suspend (.ontoAppend other w)
  | .pending w, .empty => .pending w
  | .pending w, other => .pending (.thenAppend w other)

/-- The series of the elements under `f`, interleaved (`append_map_inf`); `run` is the meaning of
    the code `f`. The first element is replaced at once, the others when they are forced. -/
def bindWith (run : α → Except Stop (Series κ β α)) (f : β) :
    Series κ β α → Except Stop (Series κ β α)
  | .empty => .ok .empty
  | .cons a rest => do
    let first ← run a
    return first.append (.suspend (.thenBind (.done rest) f))
  | .suspend w => .ok (.suspend (.thenBind w f))
  | .pending w => .ok (.pending (.thenBind w f))

/-- The node is empty (`Series::is_empty`). -/
def isEmpty : Series κ β α → Bool
  | .empty => true
  | _ => false

/-- The kind of the node. -/
def describe : Series κ β α → String
  | .empty => "Empty"
  | .cons _ _ => "Cons(..)"
  | .suspend _ => "Suspend(..)"
  | .pending _ => "Pending(..)"

end Series

/-- What the codes of a series mean. -/
structure Interp (κ β α : Type) where
  /-- The series that a computation delivers. -/
  start : κ → Except Stop (Series κ β α)
  /-- The series that a function makes of an element. -/
  bind : β → α → Except Stop (Series κ β α)

variable {κ β α : Type}

/-- Does the work (`Pending::wait`): starts its computation and applies the operations put off. -/
def Work.run (I : Interp κ β α) : Work κ β α → Except Stop (Series κ β α)
  | .done s => .ok s
  | .start k => I.start k
  | .thenAppend w s => do return (← w.run I).append s
  | .ontoAppend s w => do return s.append (← w.run I)
  | .thenBind w f => do Series.bindWith (I.bind f) f (← w.run I)

namespace Series

/-! ## Reading series -/

/-- Forces suspensions until another node comes up, at most `n` of them (`force_ready`). -/
def forceReady (I : Interp κ β α) : Nat → Series κ β α → Except Stop (Series κ β α)
  | 0, _ => .error .exhausted
  | n + 1, .suspend w => do forceReady I n (← w.run I)
  | _ + 1, s => .ok s

/-- Forces suspensions and waits for pending branches until an element or the end comes up, at most
    `n` times (`force_deep`). -/
def forceDeep (I : Interp κ β α) : Nat → Series κ β α → Except Stop (Series κ β α)
  | 0, _ => .error .exhausted
  | n + 1, .suspend w => do forceDeep I n (← w.run I)
  | n + 1, .pending w => do forceDeep I n (← w.run I)
  | _ + 1, s => .ok s

/-- The next element and the rest behind it, found in less than `n` steps (`IntoIter::next`). -/
def next (I : Interp κ β α) (n : Nat) (s : Series κ β α) :
    Except Stop (Option (α × Series κ β α)) := do
  match ← s.forceDeep I n with
  | .cons a rest => return some (a, rest)
  | _ => return none

/-- The first element (`Series::first`). -/
def first (I : Interp κ β α) (n : Nat) (s : Series κ β α) : Except Stop (Option α) := do
  return (← s.next I n).map Prod.fst

/-- The first `count` elements (`Series::take`); nothing behind them is forced. -/
def take (I : Interp κ β α) (n : Nat) (count : Nat) (s : Series κ β α) : Except Stop (List α) :=
  go count s []
where
  /-- `taken` holds the elements so far, last first. -/
  go : Nat → Series κ β α → List α → Except Stop (List α)
    | 0, _, taken => .ok taken.reverse
    | count + 1, s, taken => do
      match ← s.next I n with
      | some (a, rest) => go count rest (a :: taken)
      | none => return taken.reverse

/-- All elements of a series that has at most `bound` of them. -/
def toList (I : Interp κ β α) (n : Nat) (bound : Nat) (s : Series κ β α) :
    Except Stop (List α) :=
  go bound s []
where
  /-- `taken` holds the elements so far, last first. -/
  go : Nat → Series κ β α → List α → Except Stop (List α)
    | 0, _, _ => .error .exhausted
    | bound + 1, s, taken => do
      match ← s.next I n with
      | some (a, rest) => go bound rest (a :: taken)
      | none => return taken.reverse

/-- The answers of `count` calls for the next element; after the end there is
    none. -/
def pull (I : Interp κ β α) (n : Nat) (count : Nat) (s : Series κ β α) :
    Except Stop (List (Option α)) := do
  let taken ← s.take I n count
  return taken.map some ++ List.replicate (count - taken.length) none

/-- What one node of a series shows. -/
inductive Mark (α : Type) where
  /-- The end. -/
  | ended
  /-- An element. -/
  | element (a : α)
  /-- A suspension, which is forced. -/
  | suspended
  /-- A pending branch, which is waited for. -/
  | awaited
deriving DecidableEq, Repr

/-- The mark with its element under `f`. -/
def Mark.map {γ : Type} (f : α → γ) : Mark α → Mark γ
  | ended => ended
  | element a => element (f a)
  | suspended => suspended
  | awaited => awaited

/-- The nodes on the way through a series, at most `count` of them. -/
def trace (I : Interp κ β α) (count : Nat) (s : Series κ β α) : Except Stop (List (Mark α)) :=
  go count s []
where
  /-- `seen` holds the marks so far, last first. -/
  go : Nat → Series κ β α → List (Mark α) → Except Stop (List (Mark α))
    | 0, _, seen => .ok seen.reverse
    | _ + 1, .empty, seen => .ok (.ended :: seen).reverse
    | n + 1, .cons a rest, seen => go n rest (.element a :: seen)
    | n + 1, .suspend w, seen => do go n (← w.run I) (.suspended :: seen)
    | n + 1, .pending w, seen => do go n (← w.run I) (.awaited :: seen)

end Series

end ConstraintLogic
