import ConstraintLogic.Term.Basic
import ConstraintLogic.Text.Quoted

/-!
# Printed terms

`[]` is the empty list, `_3` the variable with number 3, and a list is written
`[a, b]`; an improper list shows its end after a bar, `[a, b | end]`. The text is
built by writing behind a text already there, which costs no copying on long
lists.
-/

namespace ConstraintLogic

/-- A variable is written as its number behind an underscore (`Var::fmt`). -/
def Var.render (v : Var) : String := "_" ++ toString v.index

/-- Integers are written in decimal, strings quoted, truth values as words (`Atom::fmt`). -/
def Atom.render : Atom → String
  | .int n => toString n
  | .str s => Text.quoted s
  | .bool true => "true"
  | .bool false => "false"

namespace Term

mutual

/-- The term written behind `done`. -/
def renderOnto (done : String) : Term → String
  | .nil => done ++ "[]"
  | .atom a => done ++ a.render
  | .var v => done ++ v.render
  | .pair h t => renderTailOnto (renderOnto (done ++ "[") h) t

/-- The rest of a list written behind `done`, with its closing bracket. -/
def renderTailOnto (done : String) : Term → String
  | .nil => done ++ "]"
  | .atom a => done ++ " | " ++ a.render ++ "]"
  | .var v => done ++ " | " ++ v.render ++ "]"
  | .pair h t => renderTailOnto (renderOnto (done ++ ", ") h) t

end

/-- The written form of the term (`Term::fmt`). -/
def render (t : Term) : String := renderOnto "" t

/-- What is said of a term whose end keeps it from being a list. -/
def improperMessage (tail : Term) : String := "improper list tail: " ++ tail.render

end Term

end ConstraintLogic
