import Std.Data.ExtTreeMap

/-!
# Terms

A term is the empty list, an atom, a logic variable or a pair of terms; lists
are pairs ending in the empty list, and a pair chain with any other end is an
improper list. A variable is nothing but its number.

Contents:
* `Term.toList?`: the elements of a proper list, or the end that spoils it.
* `Term.vars`: the variables of a term in the order of first occurrence.
* `Term.expand`: the homomorphic extension of a map from variables to terms.
* `Term.width`: a number above every variable of the term.
* `Term.digest`: a number that tells most terms apart.
* `Term.decEq`: equality, decided without comparing a cell with itself.
-/

namespace ConstraintLogic

/-- A logic variable, known by its number alone. -/
structure Var where
  /-- The number of the variable. -/
  index : Nat
deriving DecidableEq, Repr

namespace Var

/-- Variables are ordered by their numbers. -/
instance : Ord Var := ⟨fun a b => compare a.index b.index⟩

instance : Std.TransOrd Var := inferInstanceAs (Std.TransCmp (compareOn Var.index))

instance : Std.LawfulEqOrd Var where
  eq_of_compare {a b} h := by
    have : a.index = b.index := Std.compare_eq_iff_eq.mp h
    cases a; cases b; simp_all

end Var

/-- The atoms: integers of 64 bits, strings and truth values. -/
inductive Atom where
  | int (n : Int)
  | str (s : String)
  | bool (b : Bool)
deriving DecidableEq, Repr

/-- Blends `b` into the digest `a`. -/
def blend (a b : Nat) : Nat := (a * 1000003 + b) % 2147483647

/-- A number below `2 ^ 31` that different atoms rarely share. -/
def Atom.digest : Atom → Nat
  | .int n => blend 1 (n % 2147483647).toNat
  | .str s => s.toList.foldl (fun d c => blend d c.toNat) 2
  | .bool b => blend 3 b.toNat

/-- Terms: the empty list, atoms, variables and pairs. The width and the digest of a term
    are kept with it, so that reading them takes no traversal. -/
inductive Term where
  | nil
  | atom (a : Atom)
  | var (v : Var)
  | pair (head tail : Term)
with
  /-- A number above the index of every variable in the term. -/
  @[computed_field] width : Term → Nat
    | .nil => 0
    | .atom _ => 0
    | .var v => v.index + 1
    | .pair h t => max h.width t.width
  /-- A number below `2 ^ 31` that different terms rarely share. -/
  @[computed_field] digest : Term → Nat
    | .nil => 0
    | .atom a => blend 4 a.digest
    | .var v => blend 5 v.index
    | .pair h t => blend (blend 6 h.digest) t.digest
deriving Repr

namespace Term

/-- The integer atom `n` (`Term::int`). -/
def int (n : Int) : Term := .atom (.int n)

/-- The string atom `s` (`Term::str`). -/
def str (s : String) : Term := .atom (.str s)

/-- The truth value atom `b` (`Term::bool`). -/
def bool (b : Bool) : Term := .atom (.bool b)

/-- `items` consed onto `tail` (`build_with_tail`). -/
def listOnto (items : List Term) (tail : Term) : Term := items.foldr .pair tail

/-- The proper list of `items` (`Term::list`). -/
def ofList (items : List Term) : Term := listOnto items .nil

/-! ## Equality -/

/-- Decides whether two terms are equal. One cell is equal to itself, whatever it
    holds, and cells whose digests differ are not equal: neither takes a descent. -/
def decEq (a b : Term) : Decidable (a = b) :=
  withPtrEqDecEq a b fun _ =>
    match a, b with
    | .nil, .nil => .isTrue rfl
    | .atom a, .atom b => decidable_of_iff (a = b) (by simp)
    | .var v, .var w => decidable_of_iff (v = w) (by simp)
    | .pair h t, .pair h' t' =>
      if hd : (pair h t).digest = (pair h' t').digest then
        match decEq h h' with
        | .isFalse hh => .isFalse (by simp [hh])
        | .isTrue hh =>
          match decEq t t' with
          | .isFalse ht => .isFalse (by simp [ht])
          | .isTrue ht => .isTrue (by rw [hh, ht])
      else .isFalse fun he => hd (congrArg digest he)
    | .nil, .atom _ | .nil, .var _ | .nil, .pair _ _ | .atom _, .nil | .atom _, .var _
    | .atom _, .pair _ _ | .var _, .nil | .var _, .atom _ | .var _, .pair _ _
    | .pair _ _, .nil | .pair _ _, .atom _ | .pair _ _, .var _ => .isFalse nofun

instance : DecidableEq Term := decEq

/-! ## Queries -/

/-- The term is the empty list (`is_nil`). -/
def isNil : Term → Bool
  | .nil => true
  | _ => false

/-- The term is a variable (`is_var`). -/
def isVar : Term → Bool
  | .var _ => true
  | _ => false

/-- The variable that the term is, if it is one (`as_var`). -/
def asVar? : Term → Option Var
  | .var v => some v
  | _ => none

/-- The integer that the term is, if it is one (`as_int`). -/
def asInt? : Term → Option Int
  | .atom (.int n) => some n
  | _ => none

theorem eq_int_of_asInt? {t : Term} {n : Int} (h : t.asInt? = some n) : t = .int n := by
  unfold asInt? at h
  split at h
  · cases h
    rfl
  · cases h

/-- Head and tail of a pair (`as_pair`). -/
def asPair? : Term → Option (Term × Term)
  | .pair h t => some (h, t)
  | _ => none

/-- The elements of a proper list, or the end of an improper one (`to_vec`). -/
def toList? (t : Term) : Except Term (List Term) :=
  go [] t
where
  /-- `seen` holds the elements already passed, last first. -/
  go (seen : List Term) : Term → Except Term (List Term)
    | .nil => .ok seen.reverse
    | .pair h t => go (h :: seen) t
    | other => .error other

/-- The variables of the term in the order of first occurrence, after `seen`. -/
def varsAfter (seen : List Var) : Term → List Var
  | .var v => if seen.contains v then seen else seen ++ [v]
  | .pair h t => varsAfter (varsAfter seen h) t
  | _ => seen

/-- The variables of the term in the order of first occurrence (`Term::vars`). -/
def vars (t : Term) : List Var := varsAfter [] t

/-! ## Traversals -/

/-- The term with every variable replaced by its image under `f`. -/
def expand (f : Var → Term) : Term → Term
  | .var v => f v
  | .pair h t => .pair (h.expand f) (t.expand f)
  | other => other

/-- Some variable of the term satisfies `p`. -/
def anyVar (p : Var → Bool) : Term → Bool
  | .var v => p v
  | .pair h t => h.anyVar p || t.anyVar p
  | _ => false

end Term

end ConstraintLogic
