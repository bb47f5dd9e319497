import ConstraintLogic.Term.Basic

/-!
# Variables of terms

How the traversals of a term depend on its variables.

Results:
* `Term.mem_vars_pair`: the variables of a pair are those of its parts.
* `Term.anyVar_eq_true_iff`: looking for a variable.
* `Term.expand_congr`, `Term.expand_expand`, `Term.mem_vars_expand`: the extension
  of a map from variables to terms.
* `Term.toList?_ofList`: lists and proper list terms.
-/

namespace ConstraintLogic.Term

/-! ## Occurrence -/

theorem mem_varsAfter {v : Var} {seen : List Var} {t : Term} :
    v ∈ varsAfter seen t ↔ v ∈ seen ∨ v ∈ t.vars := by
  induction t generalizing seen with
  | nil => simp [varsAfter, vars]
  | atom a => simp [varsAfter, vars]
  | var w =>
    simp only [varsAfter, vars, List.contains_nil]
    split <;> simp_all
  | pair h t ihh iht =>
    simp only [varsAfter, vars] at *
    rw [iht, ihh, @iht (varsAfter [] h), or_assoc]

@[simp] theorem vars_nil : nil.vars = [] := rfl

@[simp] theorem vars_atom (a : Atom) : (atom a).vars = [] := rfl

@[simp] theorem vars_var (v : Var) : (var v).vars = [v] := rfl

@[simp] theorem mem_vars_pair {v : Var} {h t : Term} :
    v ∈ (pair h t).vars ↔ v ∈ h.vars ∨ v ∈ t.vars :=
  @mem_varsAfter v h.vars t

theorem anyVar_eq_true_iff {p : Var → Bool} {t : Term} :
    t.anyVar p = true ↔ ∃ v ∈ t.vars, p v = true := by
  induction t with
  | nil => simp [anyVar]
  | atom a => simp [anyVar]
  | var w => simp [anyVar]
  | pair h t ihh iht => simp [anyVar, ihh, iht, or_and_right, exists_or]

/-! ## Extension of maps -/

theorem expand_congr {f g : Var → Term} {t : Term} (h : ∀ v ∈ t.vars, f v = g v) :
    t.expand f = t.expand g := by
  induction t with
  | nil => rfl
  | atom a => rfl
  | var w => exact h w (by simp)
  | pair a b iha ihb =>
    rw [expand, expand, iha fun v hv => h v (mem_vars_pair.mpr (.inl hv)),
      ihb fun v hv => h v (mem_vars_pair.mpr (.inr hv))]

@[simp] theorem expand_var (t : Term) : t.expand var = t := by
  induction t <;> simp_all [expand]

theorem expand_expand (f g : Var → Term) (t : Term) :
    (t.expand f).expand g = t.expand fun v => (f v).expand g := by
  induction t <;> simp_all [expand]

theorem mem_vars_expand {f : Var → Term} {w : Var} {t : Term} :
    w ∈ (t.expand f).vars ↔ ∃ v ∈ t.vars, w ∈ (f v).vars := by
  induction t with
  | nil => simp [expand]
  | atom a => simp [expand]
  | var v => simp [expand]
  | pair a b iha ihb => simp [expand, iha, ihb, or_and_right, exists_or]

/-! ## Lists -/

theorem toList?_go (seen : List Term) (t : Term) :
    toList?.go seen t = (toList?.go [] t).map (seen.reverse ++ ·) := by
  induction t generalizing seen with
  | nil => simp [toList?.go, Except.map]
  | atom a => rfl
  | var v => rfl
  | pair h t _ iht =>
    rw [toList?.go, toList?.go, iht (h :: seen), iht [h]]
    cases toList?.go [] t <;> simp [Except.map]

@[simp] theorem toList?_ofList (ts : List Term) : (ofList ts).toList? = .ok ts := by
  induction ts with
  | nil => rfl
  | cons t ts ih =>
    simp only [ofList, listOnto, toList?] at ih
    simp only [ofList, listOnto, toList?, List.foldr_cons, toList?.go]
    rw [toList?_go, ih]
    rfl

end ConstraintLogic.Term
