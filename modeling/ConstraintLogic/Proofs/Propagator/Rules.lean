import ConstraintLogic.Proofs.Propagator.AllDifferent
import ConstraintLogic.Proofs.Propagator.Frame
import ConstraintLogic.Proofs.Propagator.Rows

/-!
# Judgements of runs

A run of a propagator is put together from few kinds of steps: it asks for a domain, looks
at what variables stand for, narrows a domain, subscribes, replaces its relation, or fails.
A judgement of narrowings that has a rule for each of them, and one for doing one after the
other, is a judgement of every run. The rules are asked for only as the steps occur: for
variables of the relation, with domains in their one form if the constants have 64 bits, and
without an overflow if the relation is safe from one.

Results:
* `Relation.names`, `Relation.Sized`: the variables and the constants of a relation.
* `Relation.Safe`: which values keep a relation safe from an overflow.
* `Narrow.Rules`: a judgement that follows the steps.
* `Narrow.Rules.propagate`: it holds of every run.
-/

namespace ConstraintLogic

/-! ## Relations -/

namespace Relation

/-- The variables that the relation names, for a table also those of the relation that it has
    been made for. -/
def names : Relation → List Var
  | .table vs _ origin => vs ++ origin.vars
  | r => r.vars

theorem vars_subset_names (r : Relation) : r.vars ⊆ r.names := by
  cases r with
  | table vs rows origin => exact List.subset_append_left vs origin.vars
  | _ => exact fun _ mem => mem

/-- The constants of the relation have 64 bits. -/
def Sized : Relation → Prop
  | plusConst _ c _ => isValue c = true
  | sumConst _ _ c => isValue c = true
  | sum _ _ _ => True
  | scale c _ _ => isValue c = true
  | allDifferent _ cs => ∀ c ∈ cs, isValue c = true
  | table _ rows _ => ∀ row ∈ rows, ∀ n ∈ row, isValue n = true

instance : (r : Relation) → Decidable r.Sized
  | plusConst _ c _ => inferInstanceAs (Decidable (isValue c = true))
  | sumConst _ _ c => inferInstanceAs (Decidable (isValue c = true))
  | sum _ _ _ => .isTrue trivial
  | scale c _ _ => inferInstanceAs (Decidable (isValue c = true))
  | allDifferent _ cs => inferInstanceAs (Decidable (∀ c ∈ cs, isValue c = true))
  | table _ rows _ => inferInstanceAs (Decidable (∀ row ∈ rows, ∀ n ∈ row, isValue n = true))

/-- The operand, a variable or a constant, can be the greatest integer of 64 bits; `may` says
    which values variables can have. -/
def CanBeGreatest (may : Var → Int → Prop) : Var ⊕ Int → Prop
  | .inl v => may v maxValue
  | .inr n => n = maxValue

/-- No two of the operands can be the greatest integer of 64 bits. -/
def Apart (may : Var → Int → Prop) (operands : List (Var ⊕ Int)) : Prop :=
  operands.Pairwise fun a b => ¬(CanBeGreatest may a ∧ CanBeGreatest may b)

/-- The relation is safe from an overflow where variables have no other values than `may` allows:
    the constant that is added can be negated, and so can what the variables of a sum become; no
    two operands that have to differ can be the greatest integer, which is followed by none. -/
def Safe (may : Var → Int → Prop) : Relation → Prop
  | plusConst _ c _ => c ≠ minValue
  | sum x y _ => ¬may x minValue ∧ ¬may y minValue
  | allDifferent vs cs => Apart may (vs.map .inl ++ cs.map .inr)
  | _ => True

theorem CanBeGreatest.mono {may more : Var → Int → Prop} (fewer : ∀ v n, may v n → more v n) {a : Var ⊕ Int}
    (h : CanBeGreatest may a) : CanBeGreatest more a := by
  cases a with
  | inl v => exact fewer v _ h
  | inr n => exact h

/-- A relation stays safe where values are lost. -/
theorem Safe.mono {may more : Var → Int → Prop} {r : Relation} (h : r.Safe more) (fewer : ∀ v n, may v n → more v n) :
    r.Safe may := by
  cases r with
  | sum x y z => exact ⟨fun least => h.1 (fewer x _ least), fun least => h.2 (fewer y _ least)⟩
  | allDifferent vs cs => exact List.Pairwise.imp (fun apart both => apart ⟨both.1.mono fewer, both.2.mono fewer⟩) h
  | _ => exact h

/-- An operand gives way to one that can be the greatest integer only if the first can. -/
theorem Apart.insert {may : Var → Int → Prop} {a b : Var ⊕ Int} {l m : List (Var ⊕ Int)} (h : Apart may (a :: (l ++ m)))
    (less : CanBeGreatest may b → CanBeGreatest may a) : Apart may (l ++ b :: m) := by
  obtain ⟨first, rest⟩ := List.pairwise_cons.mp h
  refine (List.perm_middle.pairwise_iff fun apart both => apart both.symm).mpr (List.pairwise_cons.mpr ⟨?_, rest⟩)
  exact fun c mem both => first c mem ⟨less both.1, both.2⟩

theorem Proper.sized {r : Relation} (h : r.Proper) : r.Sized := by
  cases r with
  | table vs rows origin => exact fun row mem => (h row mem).2
  | _ => exact h

end Relation

/-- The only value of a domain has 64 bits. -/
theorem Domain.Canonical.isValue_of_solution {d : Domain} (h : d.Canonical) {n : Int} (only : d.solution = some n) :
    isValue n = true := by
  refine h.isValue_of_mem ?_ (h.mem_of_solution only)
  rintro rfl
  cases only

namespace Narrow

/-- The judgement `J` says something of a narrowing, and of its result what the predicate
    says. It has a rule for every step of a run of the propagator `id` that is about variables
    in `P`. If `C` holds, domains are known to be in their one form and integers to have 64
    bits, and may be asked for to be so. If `S` holds as well, variables are known to have only
    values that `may` allows, relations may be asked for to be safe with these, and nothing
    ends in an overflow. -/
structure Rules (id : PropId) (P : Var → Prop) (C S : Prop) (may : Var → Int → Prop)
    (J : ∀ {α : Type}, Narrow α → (α → Prop) → Prop) : Prop where
  sized : S → C
  pure : ∀ {α : Type} {a : α} {Q : α → Prop}, Q a → J (Pure.pure a) Q
  throw : ∀ {α : Type} {Q : α → Prop} {why : Halt}, (S → ¬why.IsOverflow) → J (MonadExcept.throw why : Narrow α) Q
  bind : ∀ {α β : Type} {m : Narrow α} {f : α → Narrow β} {Q : α → Prop} {R : β → Prop},
    J m Q → (∀ a, Q a → J (f a) R) → J (m >>= f) R
  domain : ∀ {v}, P v → J (Narrow.domain v) fun d => (C → d.Canonical) ∧ (S → ∀ n ∈ d, may v n)
  sameVar : ∀ v w, J (Narrow.sameVar v w) fun _ => True
  aliases : ∀ vs, J (Narrow.aliases vs) fun _ => True
  resolve : ∀ {v}, P v → J (Narrow.resolve v) fun found =>
    (∀ w, found = .free w → P w ∧ (S → ∀ n, may w n → may v n)) ∧
      ∀ n, found = .value n → (C → isValue n = true) ∧ (S → may v n)
  reduce : ∀ {v d}, P v → (C → d.Canonical) → J (Narrow.reduce v d) fun _ => True
  resubscribe : ∀ {vs}, (∀ v ∈ vs, P v) → J (Narrow.resubscribe id vs) fun _ => True
  replaceWith : ∀ {r : Relation}, (∀ v ∈ r.names, P v) → (C → r.Sized) → (S → r.Safe may) →
    J (Narrow.replaceWith id r) fun _ => True

namespace Rules

variable {id : PropId} {P : Var → Prop} {C S : Prop} {may : Var → Int → Prop}
variable {J : ∀ {α : Type}, Narrow α → (α → Prop) → Prop}
variable {α β : Type} {m n : Narrow α} {Q Q' : α → Prop} {R : β → Prop} {v x y z : Var} {c : Int}
variable (h : Rules id P C S may J)

include h

theorem mono (judged : J m Q) (weaker : ∀ a, Q a → Q' a) : J m Q' := by
  have whole := h.bind judged fun a good => h.pure (weaker a good)
  rwa [bind_pure] at whole

omit h in
theorem branch {p : Prop} [Decidable p] (yes : p → J m Q) (no : ¬p → J n Q) : J (if p then m else n) Q := by
  split
  · exact yes ‹p›
  · exact no ‹¬p›

theorem conflict : J (Narrow.conflict : Narrow α) Q := h.throw fun _ => not_false

theorem require (holds : Bool) : J (Narrow.require holds) fun _ => holds = true :=
  branch (fun holds => h.pure holds) fun _ => h.conflict

theorem orFault (e : Except Fault α) (sound : S → ∀ f, e = .error f → ¬f.IsOverflow) :
    J (Narrow.orFault e) fun a => e = .ok a := by
  cases e with
  | ok a => exact h.pure rfl
  | error f => exact h.throw fun safe => sound safe f rfl

theorem forM {g : α → Narrow Unit} : ∀ l : List α, (∀ a ∈ l, J (g a) fun _ => True) → J (l.forM g) fun _ => True
  | [], _ => h.pure trivial
  | a :: l, each => h.bind (each a (by simp)) fun _ _ => forM l fun x mem => each x (List.mem_cons_of_mem a mem)

theorem mapM {g : α → Narrow β} (l : List α) (each : ∀ a ∈ l, J (g a) R) : J (l.mapM g) fun bs => ∀ b ∈ bs, R b := by
  induction l with
  | nil => exact h.pure (by simp)
  | cons a l ih =>
    rw [List.mapM_cons]
    refine h.bind (each a (by simp)) fun b good => ?_
    refine h.bind (ih fun x mem => each x (List.mem_cons_of_mem a mem)) fun bs all => ?_
    exact h.pure (List.forall_mem_cons.mpr ⟨good, all⟩)

/-- What is said of the result of a fold may depend on what is left of the list. -/
theorem foldlM {g : β → α → Narrow β} {R : List α → β → Prop} (each : ∀ a l b, R (a :: l) b → J (g b a) (R l)) :
    ∀ l b, R l b → J (l.foldlM g b) (R [])
  | [], _, good => h.pure good
  | a :: l, b, good => by
    rw [List.foldlM_cons]
    exact h.bind (each a l b good) fun b' good' => foldlM each l b' good'

/-! ## Tables -/

theorem runTable {vs : List Var} {rows : List (List Int)} {origin : Term}
    (named : ∀ v ∈ (Relation.table vs rows origin).names, P v) (sized : C → (Relation.table vs rows origin).Sized) :
    J (Narrow.runTable id vs rows origin) fun _ => True := by
  have named_vs (v : Var) (mem : v ∈ vs) : P v := named v (List.mem_append.mpr (.inl mem))
  refine h.bind (h.mapM (R := fun _ => True) vs fun v mem => h.mono (h.domain (named_vs v mem)) fun _ _ => trivial) fun ds _ => h.bind (h.aliases vs) fun same _ => ?_
  have live_sized (holds : C) : ∀ row ∈ rows.filter (rowFits ds same), ∀ n ∈ row, isValue n = true := fun row mem =>
    sized holds row (List.mem_of_mem_filter mem)
  refine h.bind (h.require _) fun _ _ => h.bind (h.forM vs.zipIdx fun entry mem => ?_) fun _ _ => ?_
  · obtain ⟨v, k⟩ := entry
    refine h.reduce (named_vs v (List.mem_of_getElem? (List.mem_zipIdx_iff_getElem?.mp mem))) fun holds =>
      Domain.canonical_values fun n mem => ?_
    obtain ⟨row, in_live, at_k⟩ := List.mem_filterMap.mp mem
    exact live_sized holds row in_live n (List.mem_of_getElem? at_k)
  · refine branch (fun _ => ?_) fun _ => h.resubscribe named_vs
    exact h.bind (h.replaceWith (r := .table vs _ origin) named live_sized fun _ => trivial) fun _ _ =>
      h.resubscribe named_vs

/-- A table that takes the place of another relation names no other variables. -/
theorem becomeTable {vs : List Var} {rows : List (List Int)} {origin : Term} (named : ∀ v ∈ vs, P v)
    (stated : ∀ v ∈ origin.vars, v ∈ vs) (sized : C → ∀ row ∈ rows, ∀ n ∈ row, isValue n = true) :
    J (Narrow.becomeTable id vs rows origin) fun _ => True := by
  have all : ∀ v ∈ (Relation.table vs rows origin).names, P v := fun v mem =>
    (List.mem_append.mp mem).elim (named v) fun mem => named v (stated v mem)
  exact h.bind (h.replaceWith all sized fun _ => trivial) fun _ _ => h.runTable all sized

/-! ## Arithmetic -/

theorem runPlusConst (named : ∀ v ∈ [x, z], P v) (safe : S → c ≠ minValue) :
    J (Narrow.runPlusConst id x c z) fun _ => True := by
  have px : P x := named x (by simp)
  have pz : P z := named z (by simp)
  refine h.bind (h.sameVar x z) fun same _ => branch (fun _ => h.mono (h.require _) fun _ _ => trivial) fun _ => ?_
  refine h.bind (h.domain px) fun dx _ => h.bind (h.reduce pz fun _ => Domain.canonical_affine dx 1 c) fun _ _ => ?_
  refine h.bind (h.domain pz) fun dz _ => ?_
  have last : J (do Narrow.reduce x (dz.shift (-c)); Narrow.resubscribe id [x, z]) fun _ => True :=
    h.bind (h.reduce px fun _ => Domain.canonical_affine dz 1 (-c)) fun _ _ => h.resubscribe named
  refine branch (fun least => ?_) fun _ => last
  exact h.bind (h.throw (Q := fun _ => True) fun holds => absurd least (safe holds)) fun _ _ => last

theorem runScale (named : ∀ v ∈ [x, z], P v) : J (Narrow.runScale id c x z) fun _ => True := by
  have px : P x := named x (by simp)
  have pz : P z := named z (by simp)
  have zero : C → (Domain.singleton 0).Canonical := fun _ => Solver.canonical_singleton (by decide)
  refine branch (fun _ => h.reduce pz zero) fun _ => h.bind (h.sameVar x z) fun same _ => ?_
  refine branch (fun _ => branch (fun _ => h.pure trivial) fun _ => h.reduce px zero) fun _ => ?_
  refine h.bind (h.domain px) fun dx ⟨hx, _⟩ => h.bind (h.domain pz) fun dz _ => branch (fun small => ?_) fun _ => ?_
  · refine h.becomeTable named ?_ fun holds row mem => ?_
    · simp [Relation.statement, Term.ofList, Term.listOnto, Term.mem_vars_pair, Term.str, Term.int, Term.vars_atom]
    · have values := Solver.Running.isValue_of_mem_toList (hx holds) (Solver.Running.finite_of_size small)
      exact (Solver.Running.proper_pairRows values mem).2
  · refine h.bind (h.reduce pz fun holds => Domain.canonical_scale (hx holds) c) fun _ _ => ?_
    refine h.bind (h.domain pz) fun dz _ => h.bind (h.reduce px fun _ => Domain.canonical_divideExact dz c) fun _ _ => ?_
    exact h.resubscribe named

theorem runSumConst (named : ∀ v ∈ [x, y], P v) (sized : C → isValue c = true) :
    J (Narrow.runSumConst id x y c) fun _ => True := by
  have px : P x := named x (by simp)
  have py : P y := named y (by simp)
  refine h.bind (h.sameVar x y) fun same _ => branch (fun _ => ?_) fun _ => ?_
  · refine h.bind (h.require _) fun _ even => h.reduce px fun holds => Solver.canonical_singleton ?_
    exact (Solver.Running.isValue_half (sized holds) (by simpa using even)).2
  refine h.bind (h.domain px) fun dx ⟨hx, _⟩ => h.bind (h.domain py) fun dy _ => branch (fun small => ?_) fun _ => ?_
  · refine h.becomeTable named ?_ fun holds row mem => ?_
    · simp [Relation.statement, Term.ofList, Term.listOnto, Term.mem_vars_pair, Term.str, Term.int, Term.vars_atom]
    · have values := Solver.Running.isValue_of_mem_partnered (b := dy) (hx holds)
        (Solver.Running.finite_of_smallProduct small).1
      exact (Solver.Running.proper_pairRows values mem).2
  · refine h.bind (h.reduce px fun _ => Domain.canonical_affine dy (-1) c) fun _ _ => h.bind (h.domain px) fun dx _ => ?_
    exact h.bind (h.reduce py fun _ => Domain.canonical_affine dx (-1) c) fun _ _ => h.resubscribe named

theorem reduceBetween (pv : P v) (lb ub : Option Int) : J (Narrow.reduceBetween v lb ub) fun _ => True := by
  unfold Narrow.reduceBetween
  split
  · exact h.reduce pv fun _ => Domain.canonical_clampedRange _ _
  · exact h.pure trivial

theorem narrowEnds (px : P x) (py : P y) (pz : P z) : ∀ n, J (Narrow.narrowEnds x y z n) fun _ => True
  | 0 => h.throw fun _ => not_false
  | n + 1 => by
    refine h.bind (h.domain px) fun dx _ => h.bind (h.domain py) fun dy _ => h.bind (h.domain pz) fun dz _ => ?_
    refine h.bind (h.reduceBetween pz _ _) fun _ _ => h.bind (h.domain pz) fun dz' _ => ?_
    refine h.bind (h.reduceBetween px _ _) fun _ _ => h.bind (h.domain px) fun dx' _ => ?_
    refine h.bind (h.reduceBetween py _ _) fun _ _ => h.bind (h.domain px) fun ax _ => ?_
    refine h.bind (h.domain py) fun ay _ => h.bind (h.domain pz) fun az _ => ?_
    exact branch (fun _ => h.pure trivial) fun _ => narrowEnds px py pz n

theorem runSum (named : ∀ v ∈ [x, y, z], P v) (safe : S → ¬may x minValue ∧ ¬may y minValue) :
    J (Narrow.runSum id x y z) fun _ => True := by
  have px : P x := named x (by simp)
  have py : P y := named y (by simp)
  have pz : P z := named z (by simp)
  have pair {v w : Var} (pv : P v) (pw : P w) : ∀ u ∈ [v, w], P u := by simp [pv, pw]
  have zero : C → (Domain.singleton 0).Canonical := fun _ => Solver.canonical_singleton (by decide)
  refine h.bind (h.sameVar x y) fun xy _ => h.bind (h.sameVar x z) fun xz _ => h.bind (h.sameVar y z) fun yz _ => ?_
  refine branch (fun _ => h.reduce px zero) fun _ => branch (fun _ => ?_) fun _ => ?_
  · exact h.bind (h.replaceWith (r := .scale 2 x z) (pair px pz) (fun _ => (by decide : isValue 2 = true))
      fun _ => trivial) fun _ _ => h.runScale (pair px pz)
  refine branch (fun _ => h.reduce py zero) fun _ => branch (fun _ => h.reduce px zero) fun _ => ?_
  refine h.bind (h.domain px) fun dx ⟨hx, vx⟩ => h.bind (h.domain py) fun dy ⟨hy, vy⟩ =>
    h.bind (h.domain pz) fun dz ⟨hz, _⟩ => ?_
  split
  · rename_i a only
    have not_least (holds : S) : a ≠ minValue := fun least =>
      (safe holds).1 (vx holds _ (least ▸ (hx (h.sized holds)).mem_of_solution only))
    exact h.bind (h.replaceWith (r := .plusConst y a z) (pair py pz) (fun holds => (hx holds).isValue_of_solution only)
      not_least) fun _ _ => h.runPlusConst (pair py pz) not_least
  · rename_i b _ only
    have not_least (holds : S) : b ≠ minValue := fun least =>
      (safe holds).2 (vy holds _ (least ▸ (hy (h.sized holds)).mem_of_solution only))
    exact h.bind (h.replaceWith (r := .plusConst x b z) (pair px pz) (fun holds => (hy holds).isValue_of_solution only)
      not_least) fun _ _ => h.runPlusConst (pair px pz) not_least
  · rename_i c _ _ only
    have value (holds : C) := (hz holds).isValue_of_solution only
    exact h.bind (h.replaceWith (r := .sumConst x y c) (pair px py) value fun _ => trivial) fun _ _ =>
      h.runSumConst (pair px py) value
  refine branch (fun small => ?_) fun _ => h.bind (h.narrowEnds px py pz _) fun _ _ => h.resubscribe named
  obtain ⟨finite_x, finite_y⟩ := Solver.Running.finite_of_smallProduct (Bool.and_eq_true_iff.mp small).1
  refine h.becomeTable named ?_ fun holds row mem => ?_
  · simp [Relation.statement, Term.ofList, Term.listOnto, Term.mem_vars_pair, Term.str, Term.vars_atom]
  · have values_x := Solver.Running.isValue_of_mem_partnered (b := dy) (hx holds) finite_x
    have values_y := Solver.Running.isValue_of_mem_toList (hy holds) finite_y
    exact (Solver.Running.proper_sumRows values_x values_y mem).2

/-! ## Pairwise difference -/

section AllDifferent

/-- While operands are sorted the open ones are in `P`. If `C`, the values that are taken have 64
    bits, and if `S`, no two of what is taken, open or `later` can be the greatest integer. -/
structure Sorted (P : Var → Prop) (C S : Prop) (may : Var → Int → Prop) (later : List (Var ⊕ Int)) (o : Operands) :
    Prop where
  opened : ∀ v ∈ o.opened, P v
  fixed : C → ∀ n ∈ o.fixed, isValue n = true
  apart : S → Relation.Apart may (later ++ (o.opened.map .inl ++ o.fixed.map .inr))

variable {o : Operands} {a : Var ⊕ Int} {later : List (Var ⊕ Int)}

/-- The next operand is taken as a value. -/
theorem take (sorted : Sorted P C S may (a :: later) o) {n : Int} (value : C → isValue n = true)
    (less : S → n = maxValue → Relation.CanBeGreatest may a) : J (o.take n) (Sorted P C S may later) := by
  refine h.bind (h.require _) fun _ _ => h.pure ⟨sorted.opened, fun holds => ?_, fun holds => ?_⟩
  · exact List.forall_mem_append.mpr ⟨sorted.fixed holds, by simpa using value holds⟩
  · have apart : Relation.Apart may (a :: (later ++ (o.opened.map .inl ++ o.fixed.map .inr) ++ [])) := by
      simpa using sorted.apart holds
    simpa using apart.insert (b := .inr n) (less holds)

omit h in
/-- The next operand is left open. -/
theorem Sorted.leave (sorted : Sorted P C S may (a :: later) o) {w : Var} (pw : P w)
    (less : S → may w maxValue → Relation.CanBeGreatest may a) :
    Sorted P C S may later { o with opened := o.opened ++ [w] } where
  opened := List.forall_mem_append.mpr ⟨sorted.opened, by simpa using pw⟩
  fixed := sorted.fixed
  apart holds := by
    have apart : Relation.Apart may (a :: ((later ++ o.opened.map .inl) ++ o.fixed.map .inr)) := by
      simpa using sorted.apart holds
    simpa using apart.insert (b := .inl w) (less holds)

theorem add {v : Var} (sorted : Sorted P C S may (.inl v :: later) o) (pv : P v) :
    J (o.add v) (Sorted P C S may later) := by
  refine h.bind (h.resolve pv) fun found ⟨root, value⟩ => ?_
  cases found with
  | free w =>
    obtain ⟨pw, less⟩ := root w rfl
    exact h.bind (h.require _) fun _ _ => h.pure (sorted.leave pw fun holds => less holds _)
  | value n =>
    obtain ⟨sized, allowed⟩ := value n rfl
    refine h.take sorted sized fun holds greatest => ?_
    subst greatest
    exact allowed holds
  | other => exact h.conflict

theorem sweep {vs : List Var} {fixed : List Int} (named : ∀ v ∈ vs, P v) (values : C → ∀ n ∈ fixed, isValue n = true)
    (apart : S → Relation.Apart may (vs.map .inl ++ fixed.map .inr)) :
    J (Narrow.sweep vs fixed) (Sorted P C S may []) := by
  refine h.mono (h.foldlM (R := fun l o => (∀ v ∈ l, P v) ∧ Sorted P C S may (l.map .inl) o) ?_ vs _ ⟨named, by simp, values, apart⟩)
    fun _ => And.right
  rintro v l o ⟨named, sorted⟩
  obtain ⟨pv, named⟩ := List.forall_mem_cons.mp named
  refine h.bind (h.domain pv) fun current ⟨canonical, allowed⟩ => h.bind (h.orFault _ fun holds f failed _ => ?_)
    fun narrowed removed => ?_
  · -- A value is followed by none in a domain that has it: both the variable and a value taken can be the greatest.
    obtain ⟨_, in_domain, in_fixed⟩ := (canonical (h.sized holds)).removeAll_error _ failed
    exact (List.pairwise_cons.mp (sorted.apart holds)).1 (.inr maxValue) (by simp [in_fixed]) ⟨allowed holds _ in_domain, rfl⟩
  refine branch (fun _ => h.bind (h.reduce pv fun holds => ((canonical holds).removeAll _ removed).1) fun _ _ => ?_) fun _ => ?_
  -- Whether the domain is narrowed or not, the variable is sorted by what is left of it.
  all_goals
    refine h.bind (h.domain pv) fun d ⟨canonical, allowed⟩ => ?_
    split
    · rename_i n only
      refine h.mono (h.take sorted (fun holds => (canonical holds).isValue_of_solution only) fun holds greatest => ?_)
        fun _ sorted => ⟨named, sorted⟩
      subst greatest
      exact allowed holds _ ((canonical (h.sized holds)).mem_of_solution only)
    · exact h.pure ⟨named, sorted.leave pv fun _ greatest => greatest⟩

theorem sweepAll : ∀ n {o : Operands}, Sorted P C S may [] o → J (Narrow.sweepAll n o) (Sorted P C S may [])
  | 0, _, _ => h.throw fun _ => not_false
  | n + 1, _, sorted => h.bind (h.sweep sorted.opened sorted.fixed sorted.apart) fun _ sorted' =>
    branch (fun _ => h.pure sorted') fun _ => sweepAll n sorted'

theorem countValues (vs : List Var) (named : ∀ v ∈ vs, P v) :
    ∀ budget seen, J (Narrow.countValues vs budget seen) fun _ => True := by
  induction vs with
  | nil => exact fun _ _ => h.pure trivial
  | cons v rest ih =>
    intro budget seen
    rw [List.forall_mem_cons] at named
    refine h.bind (h.domain named.1) fun d _ => ?_
    split
    · exact branch (fun _ => ih named.2 _ _) fun _ => h.pure trivial
    · exact h.pure trivial

theorem pigeonhole {opened : List Var} (named : ∀ v ∈ opened, P v) : J (Narrow.pigeonhole opened) fun _ => True := by
  refine branch (fun _ => h.bind (h.countValues opened named _ _) fun count _ => ?_) fun _ => h.pure trivial
  split
  · exact h.mono (h.require _) fun _ _ => trivial
  · exact h.pure trivial

theorem settled (sorted : Sorted P C S may later o) : J (Narrow.settled o) fun _ => True := by
  unfold Narrow.settled
  split
  · exact h.pure trivial
  · rename_i v one_open
    exact h.bind (h.domain (sorted.opened v (by simp [one_open]))) fun d _ => h.pure trivial
  · exact h.pure trivial

theorem runAllDifferent {vs : List Var} {cs : List Int} (named : ∀ v ∈ vs, P v) (values : C → ∀ n ∈ cs, isValue n = true)
    (safe : S → (Relation.allDifferent vs cs).Safe may) : J (Narrow.runAllDifferent id vs cs) fun _ => True := by
  have start : Sorted P C S may (cs.map .inr ++ vs.map .inl) {} := by
    refine ⟨by simp, by simp, fun holds => ?_⟩
    have apart : Relation.Apart may (cs.map .inr ++ vs.map .inl) :=
      List.Pairwise.perm (safe holds) List.perm_append_comm fun apart both => apart both.symm
    simpa using apart
  refine h.bind (h.foldlM (R := fun l o => (C → ∀ n ∈ l, isValue n = true) ∧ Sorted P C S may (l.map .inr ++ vs.map .inl) o)
    ?_ cs {} ⟨values, start⟩) fun o ⟨_, sorted⟩ => ?_
  · rintro n l o ⟨values, sorted⟩
    refine h.mono (h.take sorted (fun holds => values holds n (by simp)) fun _ greatest => greatest) fun _ sorted => ?_
    exact ⟨fun holds m mem => values holds m (List.mem_cons_of_mem n mem), sorted⟩
  refine h.bind (h.foldlM (R := fun l o => (∀ v ∈ l, P v) ∧ Sorted P C S may (l.map .inl) o) ?_ vs o ⟨named, sorted⟩)
    fun o ⟨_, sorted⟩ => ?_
  · rintro v l o ⟨named, sorted⟩
    obtain ⟨pv, named⟩ := List.forall_mem_cons.mp named
    exact h.mono (h.add sorted pv) fun _ sorted => ⟨named, sorted⟩
  refine h.bind (h.sweepAll _ sorted) fun o sorted => h.bind (h.pigeonhole sorted.opened) fun _ _ => ?_
  refine h.bind (h.settled sorted) fun done _ => branch (fun _ => h.pure trivial) fun _ => branch (fun _ => ?_) fun _ => ?_
  · exact h.bind (h.replaceWith (r := .allDifferent o.opened o.fixed) sorted.opened sorted.fixed sorted.apart) fun _ _ =>
      h.resubscribe sorted.opened
  · exact h.resubscribe sorted.opened

end AllDifferent

/-! ## Any relation -/

/-- A judgement with a rule for every step holds of a run of any relation. -/
theorem propagate {r : Relation} (named : ∀ v ∈ r.names, P v) (sized : C → r.Sized) (safe : S → r.Safe may) :
    J (Narrow.propagate id r) fun _ => True := by
  cases r with
  | plusConst x c z => exact h.runPlusConst named safe
  | sumConst x y c => exact h.runSumConst named sized
  | sum x y z => exact h.runSum named safe
  | scale c x z => exact h.runScale named
  | allDifferent vs cs => exact h.runAllDifferent named sized safe
  | table vs rows origin => exact h.runTable named sized

end Rules

end Narrow

end ConstraintLogic
