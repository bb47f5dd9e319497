import ConstraintLogic.Proofs.Report.Contents
import ConstraintLogic.Proofs.Text.Quotation
import ConstraintLogic.Term.Printer
import Std.Data.String.ToInt

/-!
# Printed terms are unambiguous

The first character of a written term tells whether it is a number, a variable, a truth
value, a string or a list. A string and a list say themselves where they end; a number ends
before the first character that cannot go on with it, and no bracket, comma or blank can.
Behind an element stands a bracket, a comma, or a blank with a bar, which tells whether the
list ends there, goes on, or has an end that is no list.

Results:
* `Term.toList_render`: the characters of a written term, by recursion on the term.
* `Term.form_eq`: two terms that one text can begin with have one form.
* `Term.told_pair`, `Term.tailTold_pair`: what is told of a head and of the rest of a list is
  told of the cell that holds them.
* `Term.told`: a text tells the term and where it ends; so does the text of the rest of a list.
* `Term.render_unambiguous`: terms are printed alike just if they are equal.
-/

namespace ConstraintLogic

/-! ## Numbers -/

namespace Text

/-- The character can stand in a number. -/
def numeric (c : Char) : Bool := c.isDigit || c = '-'

/-- What follows does not go on with a number. -/
def Ends (rest : List Char) : Prop := ∀ c ∈ rest.head?, numeric c = false

theorem ends_nil : Ends [] := by simp [Ends]

theorem ends_cons {c : Char} {rest : List Char} (other : numeric c = false) : Ends (c :: rest) := by
  simpa [Ends] using other

theorem takeWhile_numeric {ds rest : List Char} (inside : ∀ c ∈ ds, numeric c = true) (ends : Ends rest) :
    (ds ++ rest).takeWhile numeric = ds := by
  have stops : rest.takeWhile numeric = [] := by
    cases rest with
    | nil => rfl
    | cons c rest => simp [ends c rfl]
  rw [List.takeWhile_append_of_pos inside, stops, List.append_nil]

/-- Where a number ends is told by what can stand in a number. -/
theorem numeric_append {ds es rest rest' : List Char} (left : ∀ c ∈ ds, numeric c = true)
    (right : ∀ c ∈ es, numeric c = true) (ends : Ends rest) (ends' : Ends rest')
    (equal : ds ++ rest = es ++ rest') : ds = es ∧ rest = rest' := by
  obtain rfl : ds = es := by rw [← takeWhile_numeric left ends, equal, takeWhile_numeric right ends']
  exact ⟨rfl, List.append_cancel_left equal⟩

theorem numeric_of_mem_nat (n : Nat) : ∀ c ∈ n.repr.toList, numeric c = true := by
  intro c mem
  rw [Nat.toList_repr] at mem
  have digit : c.isDigit = true := Nat.isDigit_of_mem_toDigits (by omega) (by omega) mem
  simp [numeric, digit]

theorem numeric_of_mem_int (n : Int) : ∀ c ∈ n.repr.toList, numeric c = true := by
  rw [Int.repr_eq_if]
  split
  · exact numeric_of_mem_nat _
  · rw [String.toList_append]
    exact List.forall_mem_cons.mpr ⟨rfl, numeric_of_mem_nat _⟩

theorem repr_int_ne_empty (n : Int) : n.repr ≠ "" := by
  rw [Int.repr_eq_if]
  split
  · exact Nat.repr_ne_empty
  · simp

end Text

namespace Term

open Text

/-! ## Written terms as lists of characters -/

mutual

/-- The characters of the written term. -/
def text : Term → List Char
  | .nil => ['[', ']']
  | .atom a => a.render.toList
  | .var v => v.render.toList
  | .pair h t => '[' :: (h.text ++ t.tailText)

/-- The characters of the written rest of a list. -/
def tailText : Term → List Char
  | .nil => [']']
  | .atom a => ' ' :: '|' :: ' ' :: (a.render.toList ++ [']'])
  | .var v => ' ' :: '|' :: ' ' :: (v.render.toList ++ [']'])
  | .pair h t => ',' :: ' ' :: (h.text ++ t.tailText)

end

theorem toList_renderOnto (t : Term) (done : String) :
    (renderOnto done t).toList = done.toList ++ t.text ∧
    (renderTailOnto done t).toList = done.toList ++ t.tailText := by
  induction t generalizing done with
  | nil | atom a | var v => simp [renderOnto, renderTailOnto, text, tailText]
  | pair h t head tail => simp [renderOnto, renderTailOnto, text, tailText, head, tail]

theorem toList_render (t : Term) : t.render.toList = t.text := (t.toList_renderOnto "").1

theorem text_int (n : Int) : (int n).text = n.repr.toList := by
  rw [int, text, Atom.render, Int.toString_eq_repr]

theorem text_str (s : String) : (str s).text = (quoted s).toList := by
  rw [str, text, Atom.render]

theorem text_var (v : Var) : (var v).text = '_' :: v.index.repr.toList := by
  rw [text, Var.render, String.toList_append, Nat.toString_eq_repr]
  rfl

/-! ## Forms -/

/-- The forms in which terms are written. -/
inductive Form where
  | number
  | variableName
  | truthValue
  | string
  | list

/-- The form of the written term. -/
def form : Term → Form
  | .atom (.int _) => .number
  | .var _ => .variableName
  | .atom (.bool _) => .truthValue
  | .atom (.str _) => .string
  | .nil | .pair _ _ => .list

theorem exists_int {t : Term} (form : t.form = .number) : ∃ n, t = int n := by
  match t, form with
  | .atom (.int n), _ => exact ⟨n, rfl⟩

theorem exists_var {t : Term} (form : t.form = .variableName) : ∃ v, t = var v := by
  match t, form with
  | .var v, _ => exact ⟨v, rfl⟩

theorem exists_bool {t : Term} (form : t.form = .truthValue) : ∃ b, t = bool b := by
  match t, form with
  | .atom (.bool b), _ => exact ⟨b, rfl⟩

theorem exists_str {t : Term} (form : t.form = .string) : ∃ s, t = str s := by
  match t, form with
  | .atom (.str s), _ => exact ⟨s, rfl⟩

/-- The form that is told by the first character, if a term can begin with it. -/
def Form.ofText : List Char → Option Form
  | [] => none
  | c :: _ =>
    if numeric c then some .number
    else if c = '_' then some .variableName
    else if c = 't' ∨ c = 'f' then some .truthValue
    else if c = '"' then some .string
    else if c = '[' then some .list
    else none

/-- The first character tells the form. -/
theorem ofText_text (t : Term) (rest : List Char) : Form.ofText (t.text ++ rest) = some t.form := by
  match t with
  | .nil | .pair _ _ => rfl
  | .var v => rw [text_var]; rfl
  | .atom (.bool true) | .atom (.bool false) => rfl
  | .atom (.str s) =>
    have written : (atom (.str s)).text = '"' :: (s.toList.flatMap escaped ++ ['"']) :=
      (text_str s).trans (by simp [quoted])
    rw [written]
    rfl
  | .atom (.int n) =>
    cases chars : n.repr.toList with
    | nil => exact absurd (String.toList_eq_nil_iff.mp chars) (repr_int_ne_empty n)
    | cons c cs =>
      have lead : numeric c = true := numeric_of_mem_int n c (by simp [chars])
      have written : (atom (.int n)).text = c :: cs := (text_int n).trans chars
      rw [written]
      simp [Form.ofText, lead, form]

theorem form_eq {t u : Term} {rest rest' : List Char} (equal : t.text ++ rest = u.text ++ rest') :
    t.form = u.form := by
  have forms : some t.form = some u.form := by rw [← ofText_text, ← ofText_text, equal]
  exact Option.some.inj forms

/-- Where an element may begin, no list is closed. -/
theorem text_ne_bracket (t : Term) (rest rest' : List Char) : t.text ++ rest ≠ ']' :: rest' := by
  intro equal
  have form := t.ofText_text rest
  rw [equal] at form
  cases form

/-! ## What a text tells -/

/-- The text of the term tells the term and where it ends, if a number would end there. -/
def Told (t : Term) : Prop :=
  ∀ u rest rest', Ends rest → Ends rest' → t.text ++ rest = u.text ++ rest' → t = u ∧ rest = rest'

/-- The text of the term as the rest of a list tells the term and where it ends. -/
def TailTold (t : Term) : Prop :=
  ∀ u rest rest', t.tailText ++ rest = u.tailText ++ rest' → t = u ∧ rest = rest'

theorem told_int (n : Int) : (int n).Told := by
  intro u rest rest' ends ends' equal
  -- The texts begin alike, so that no other form is left for `u`.
  obtain ⟨m, rfl⟩ := exists_int (form_eq equal).symm
  rw [text_int, text_int] at equal
  obtain ⟨digits, rests⟩ := numeric_append (numeric_of_mem_int n) (numeric_of_mem_int m) ends ends' equal
  obtain rfl : n = m := Int.repr_inj.mp (String.toList_inj.mp digits)
  exact ⟨rfl, rests⟩

theorem told_var (v : Var) : (var v).Told := by
  intro u rest rest' ends ends' equal
  obtain ⟨w, rfl⟩ := exists_var (form_eq equal).symm
  rw [text_var, text_var] at equal
  obtain ⟨digits, rests⟩ := numeric_append (numeric_of_mem_nat v.index) (numeric_of_mem_nat w.index) ends ends'
    (List.cons.inj equal).2
  have index : v.index = w.index := Nat.repr_inj.mp (String.toList_inj.mp digits)
  exact ⟨congrArg (fun i => var ⟨i⟩) index, rests⟩

theorem told_bool (b : Bool) : (bool b).Told := by
  intro u rest rest' _ _ equal
  obtain ⟨c, rfl⟩ := exists_bool (form_eq equal).symm
  cases b <;> cases c <;> simp_all [bool, text, Atom.render]

theorem told_str (s : String) : (str s).Told := by
  intro u rest rest' _ _ equal
  obtain ⟨s', rfl⟩ := exists_str (form_eq equal).symm
  rw [text_str, text_str] at equal
  obtain ⟨rfl, rests⟩ := quoted_append equal
  exact ⟨rfl, rests⟩

theorem told_nil : nil.Told := by
  intro u rest rest' _ _ equal
  match u, form_eq equal with
  | .nil, _ => simpa [text] using equal
  | .pair h t, _ =>
    have closed : h.text ++ (t.tailText ++ rest') = ']' :: rest := by simpa [text] using equal.symm
    exact absurd closed (h.text_ne_bracket _ _)

/-- The rest of a list goes on with a bracket, a comma or a blank. -/
theorem ends_tailText (t : Term) (rest : List Char) : Ends (t.tailText ++ rest) := by
  cases t <;> exact ends_cons rfl

/-- A head and the rest of a list, one behind the other. -/
theorem cell_append {h t h' t' : Term} {rest rest' : List Char} (head : h.Told) (tail : t.TailTold)
    (equal : h.text ++ t.tailText ++ rest = h'.text ++ t'.tailText ++ rest') :
    pair h t = pair h' t' ∧ rest = rest' := by
  rw [List.append_assoc, List.append_assoc] at equal
  obtain ⟨rfl, tails⟩ := head h' _ _ (t.ends_tailText rest) (t'.ends_tailText rest') equal
  obtain ⟨rfl, rests⟩ := tail t' _ _ tails
  exact ⟨rfl, rests⟩

theorem told_pair {h t : Term} (head : h.Told) (tail : t.TailTold) : (pair h t).Told := by
  intro u rest rest' _ _ equal
  match u, form_eq equal with
  | .nil, _ =>
    have closed : h.text ++ (t.tailText ++ rest) = ']' :: rest' := by simpa [text] using equal
    exact absurd closed (h.text_ne_bracket _ _)
  | .pair h' t', _ => exact cell_append head tail (List.cons.inj equal).2

theorem tailTold_nil : nil.TailTold := by
  intro u rest rest' equal
  cases u with
  | nil => simpa [tailText] using equal
  | atom a | var v | pair h t => simp [tailText] at equal

theorem tailTold_pair {h t : Term} (head : h.Told) (tail : t.TailTold) : (pair h t).TailTold := by
  intro u rest rest' equal
  cases u with
  | pair h' t' =>
    exact cell_append head tail (by simpa [tailText] using equal)
  | nil | atom a | var v => simp [tailText] at equal

/-- An end that is no list stands between a bar and a bracket. -/
theorem tailText_of_form {t : Term} (ending : t.form ≠ .list) :
    t.tailText = ' ' :: '|' :: ' ' :: (t.text ++ [']']) := by
  cases t with
  | nil | pair h t => exact absurd rfl ending
  | atom a | var v => rfl

theorem Told.tailTold {t : Term} (told : t.Told) (ending : t.form ≠ .list) : t.TailTold := by
  intro u rest rest' equal
  rw [tailText_of_form ending] at equal
  by_cases other : u.form = .list
  · match u, other with
    | .nil, _ | .pair _ _, _ => simp [tailText] at equal
  · have ends : t.text ++ ']' :: rest = u.text ++ ']' :: rest' := by
      simpa [tailText_of_form other] using equal
    obtain ⟨rfl, rests⟩ := told u _ _ (ends_cons rfl) (ends_cons rfl) ends
    exact ⟨rfl, (List.cons.inj rests).2⟩

/-- Every term is told by its text, as an element and as the rest of a list. -/
theorem told (t : Term) : t.Told ∧ t.TailTold := by
  induction t with
  | nil => exact ⟨told_nil, tailTold_nil⟩
  | atom a =>
    cases a with
    | int n => exact ⟨told_int n, (told_int n).tailTold nofun⟩
    | str s => exact ⟨told_str s, (told_str s).tailTold nofun⟩
    | bool b => exact ⟨told_bool b, (told_bool b).tailTold nofun⟩
  | var v => exact ⟨told_var v, (told_var v).tailTold nofun⟩
  | pair h t head tail => exact ⟨told_pair head.1 tail.2, tailTold_pair head.1 tail.2⟩

/-- Printed terms are unambiguous: whatever lists are nested in them, ending in the empty list
    or not, and whatever their strings hold, two terms have one printed form just if they are
    one term, and just if the comparison of terms finds them equal. -/
theorem render_unambiguous (t u : Term) :
    (t.render = u.render ↔ t = u) ∧ (t.render = u.render ↔ t.agree u = true) := by
  have one : t.render = u.render ↔ t = u := by
    refine ⟨fun equal => ?_, congrArg render⟩
    have texts : t.text ++ [] = u.text ++ [] := by rw [← toList_render, ← toList_render, equal]
    exact (t.told.1 u [] [] ends_nil ends_nil texts).1
  exact ⟨one, one.trans agree_iff.symm⟩

-- The separator alone tells a proper list from an improper one.
example : (ofList [int 1, var ⟨4⟩]).render = "[1, _4]" ∧ (pair (int 1) (var ⟨4⟩)).render = "[1 | _4]" := by decide

end Term

end ConstraintLogic
