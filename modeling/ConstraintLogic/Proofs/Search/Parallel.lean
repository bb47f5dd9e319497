import ConstraintLogic.Proofs.Goal.Tells
import ConstraintLogic.Proofs.Search.Allowance

/-!
# Searches that come to their end

Where all series that a goal involves are finite and no fault stops them, the search for
the goal comes to its end with some allowance, and its answers are those that are told.
They do not depend on the workers of parallel disjunctions, nor on whether these are
disjunctions.

Results:
* `Series.ComesTo`: the elements of a series that is read to its end.
* `Goal.Finite`: all series that a goal involves are finite.
* `Goal.Tells.comesTo`, `Goal.Finite.ends`: such a search comes to its end.
* `Goal.ends_sequential`: parallel disjunction means disjunction.
-/

namespace ConstraintLogic

open Verdict

/-! ## Series that are read to their end -/

namespace Series

variable {κ β α : Type} {I J : Interp κ β α} {s t : Series κ β α} {r : Except Stop (Series κ β α)}
variable {as bs : Multiset α}

/-- The attempt at a series shows its end and these elements, in some order. -/
def ComesTo (I : Interp κ β α) (r : Except Stop (Series κ β α)) (as : Multiset α) : Prop :=
  ∃ shown : List α, PlaysOut I r shown none ∧ ↑shown = as

theorem comesTo_empty : ComesTo I (.ok .empty) 0 := ⟨[], ⟨0, .ended⟩, rfl⟩

theorem comesTo_unit (a : α) : ComesTo I (.ok (.unit a)) {a} := ⟨[a], ⟨1, .element .ended⟩, rfl⟩

theorem ComesTo.exists_ok (h : ComesTo I r as) :
    ∃ s n, ∃ shown : List α, r = .ok s ∧ Plays I n s shown none ∧ ↑shown = as := by
  obtain ⟨shown, plays, same⟩ := h
  cases r with
  | error why => cases plays.2
  | ok s =>
    obtain ⟨n, plays⟩ := plays
    exact ⟨s, n, shown, rfl, plays, same⟩

theorem ComesTo.unique (h : ComesTo I r as) (h' : ComesTo I r bs) : as = bs := by
  obtain ⟨shown, plays, rfl⟩ := h
  obtain ⟨shown', plays', rfl⟩ := h'
  exact congrArg _ (plays.unique plays').1

theorem ComesTo.cons (a : α) (h : ComesTo I (.ok s) as) : ComesTo I (.ok (.cons a s)) ({a} + as) := by
  obtain ⟨shown, ⟨n, plays⟩, rfl⟩ := h
  exact ⟨a :: shown, ⟨n + 1, .element plays⟩, rfl⟩

theorem ComesTo.suspend {w : Work κ β α} (h : ComesTo I (w.run I) as) : ComesTo I (.ok (.suspend w)) as := by
  obtain ⟨shown, plays, same⟩ := h
  exact ⟨shown, plays.suspend, same⟩

theorem ComesTo.pending {w : Work κ β α} (h : ComesTo I (w.run I) as) : ComesTo I (.ok (.pending w)) as := by
  obtain ⟨shown, plays, same⟩ := h
  exact ⟨shown, plays.pending, same⟩

theorem ComesTo.append (hs : ComesTo I (.ok s) as) (ht : ComesTo I (.ok t) bs) :
    ComesTo I (.ok (s.append t)) (as + bs) := by
  obtain ⟨shown, ⟨n, plays⟩, rfl⟩ := hs
  obtain ⟨shown', ⟨m, plays'⟩, rfl⟩ := ht
  obtain ⟨k, cs, d, whole, joins⟩ := plays.append plays'
  cases d with
  | some why => exact absurd (joins.stops why rfl) (by simp)
  | none => exact ⟨cs, ⟨k, whole⟩, Multiset.coe_eq_coe.mpr (joins.shuffles rfl).2.2.perm⟩

theorem ComesTo.bindWith {f : β} {L : Multiset (α × Multiset α)} (h : ComesTo I r (L.map Prod.fst))
    (each : ∀ p ∈ L, ComesTo I (I.bind f p.1) p.2) :
    ComesTo I (r >>= Series.bindWith (I.bind f) f) (L.bind Prod.snd) := by
  classical
  obtain ⟨s, n, shown, rfl, plays, source⟩ := h.exists_ok
  let image (a : α) : List α := if made : ∃ cs, PlaysOut I (I.bind f a) cs none then made.choose else []
  have found {a : α} {bs : Multiset α} (comes : ComesTo I (I.bind f a) bs) :
      PlaysOut I (I.bind f a) (image a) none ∧ ↑(image a) = bs := by
    have made : ∃ cs, PlaysOut I (I.bind f a) cs none := comes.imp fun _ => And.left
    have plays : PlaysOut I (I.bind f a) (image a) none := by
      simp only [image, made, dif_pos]
      exact made.choose_spec
    exact ⟨plays, ComesTo.unique ⟨image a, plays, rfl⟩ comes⟩
  let out (_ : α) : Option Stop := none
  have shows (a : α) (mem : a ∈ shown) : PlaysOut I (I.bind f a) (image a) (out a) := by
    have fst : a ∈ L.map Prod.fst := source ▸ Multiset.mem_coe.mpr mem
    obtain ⟨p, in_L, rfl⟩ := Multiset.mem_map.mp fst
    exact (found (each p in_L)).1
  obtain ⟨cs, d, whole, _, ends, stops⟩ := plays.bindWith shows
  cases d with
  | some why => exact absurd (stops why rfl) (by simp [out])
  | none =>
    refine ⟨cs, whole, ?_⟩
    calc (↑cs : Multiset α) = ↑(shown.flatMap image) := Multiset.coe_eq_coe.mpr (ends rfl).2.2
      _ = (L.map Prod.fst).bind fun a => ↑(image a) := by rw [← source, Multiset.coe_bind]
      _ = L.bind fun p => ↑(image p.1) := Multiset.bind_map ..
      _ = L.bind Prod.snd := Multiset.bind_congr fun p mem => (found (each p mem)).2

theorem ComesTo.continues (h : I.Continues J) {r' : Except Stop (Series κ β α)} (comes : ComesTo I r as)
    (next : ConstraintLogic.Continues r r') : ComesTo J r' as := by
  obtain ⟨s, n, shown, rfl, plays, same⟩ := comes.exists_ok
  rw [next.ok rfl]
  exact ⟨shown, ⟨n, plays.continues h rfl⟩, same⟩

end Series

open Series

/-! ## Labeling -/

section Labeling

variable {c : Context} {vs : List Var} {v : Verdict Subst}

theorem Answers.Told.comesTo {r : Attempt Subst} (told : Answers.Told r v) :
    ∀ as, v = .all as → ComesTo c.interp (Answers.ofAttempt r) as := by
  rintro as rfl
  cases told with
  | @solved s _ told =>
    cases told
    exact comesTo_unit s
  | conflict => exact comesTo_empty

/-- The answers below a solver that was reduced. -/
def Solver.answers (vs : List Var) : EStateM.Result Halt Solver Unit → Except Stop Answers
  | .ok _ solver => solver.search vs
  | .error .conflict _ => .ok .empty
  | .error (.stop why) _ => .error why

theorem Solver.Tells.comesTo {r : EStateM.Result Halt Solver Unit} (told : Solver.Tells vs r v) :
    ∀ as, v = .all as → ComesTo c.interp (Solver.answers vs r) as := by
  induction told with
  | conflict =>
    intro as same
    cases same
    exact comesTo_empty
  | ended chosen told =>
    intro as same
    show ComesTo c.interp (Solver.search _ vs) as
    unfold Solver.search
    rw [chosen]
    exact told.comesTo as same
  | left =>
    intro as same
    cases same
  | right =>
    intro as same
    cases same
  | @both s s' x left right as bs chosen halved _ _ ih ih' =>
    intro as same
    cases same
    show ComesTo c.interp (Solver.search _ vs) _
    unfold Solver.search
    rw [chosen]
    dsimp only
    rw [halved]
    exact (ComesTo.suspend (w := .start (Task.explore (s'.domain x).2 x left vs)) (ih _ rfl)).append
      (ComesTo.suspend (w := .start (Task.explore (s'.domain x).2 x right vs)) (ih' _ rfl))

end Labeling

/-! ## Goals -/

namespace Goal

variable {program : Program} {g h : Goal} {s : Subst} {v : Verdict Subst} {as bs : Multiset Subst}

theorem exists_bound {β : Type} {L : Multiset β} {P : β → Nat → Prop}
    (each : ∀ b ∈ L, ∃ enough, ∀ n, enough ≤ n → P b n) : ∃ enough, ∀ b ∈ L, ∀ n, enough ≤ n → P b n := by
  induction L using Multiset.induction with
  | empty => exact ⟨0, by simp⟩
  | cons b L ih =>
    obtain ⟨n, here⟩ := each b (Multiset.mem_cons_self b L)
    obtain ⟨m, rest⟩ := ih fun c mem => each c (Multiset.mem_cons_of_mem mem)
    refine ⟨max n m, fun c mem k le => ?_⟩
    rcases Multiset.mem_cons.mp mem with rfl | mem
    · exact here k (by omega)
    · exact rest c mem k (by omega)

/-- With any allowance that is large enough, the search for the goal comes to its end, and
    these are its answers. -/
def ComesTo (program : Program) (g : Goal) (s : Subst) (as : Multiset Subst) : Prop :=
  ∃ enough, ∀ n, enough ≤ n → Series.ComesTo (program.context n).interp (g.apply (program.context n) s) as

/-- What holds with one allowance holds with any larger one. -/
theorem comesTo_of_context {n : Nat}
    (h : Series.ComesTo (program.context n).interp (g.apply (program.context n) s) as) : ComesTo program g s as :=
  ⟨n, fun _ le => h.continues (program.continues_context le).interp
    (g.continues_apply (program.continues_context le) s)⟩

/-- A goal that looks at the answers of another one: forcing these comes to a node that
    has them all. -/
theorem ComesTo.forced (h : ComesTo program g s as) : ∃ enough, ∀ n, enough ≤ n →
    ∃ answers ready deep, g.apply (program.context n) s = .ok answers ∧
      ((program.context n).forceReady answers = .ok ready ∧
        Series.ComesTo (program.context n).interp (.ok ready) as) ∧
      (program.context n).forceDeep answers = .ok deep ∧
        Series.ComesTo (program.context n).interp (.ok deep) as := by
  obtain ⟨enough, comes⟩ := h
  obtain ⟨answers, k, shown, applied, plays, same⟩ := (comes enough (Nat.le_refl _)).exists_ok
  refine ⟨max enough k + 2, fun n le => ?_⟩
  obtain ⟨n, rfl⟩ : ∃ m, n = m + 1 := ⟨n - 1, by omega⟩
  have onward := program.continues_context (n := enough) (m := n) (by omega)
  have last := program.continues_succ n
  have plays := plays.continues onward.interp rfl
  obtain ⟨i, ready, _, found, rest⟩ := plays.forceReady rfl n (by omega)
  obtain ⟨j, deep, _, found', rest'⟩ := plays.forceDeep rfl n (by omega)
  have applied := ((g.continues_apply onward s).trans (g.continues_apply last s)).ok applied
  exact ⟨answers, ready, deep, applied, ⟨found, shown, ⟨i, rest.continues last.interp rfl⟩, same⟩, found', shown,
    ⟨j, rest'.continues last.interp rfl⟩, same⟩

theorem ComesTo.conj {L : Multiset (Subst × Multiset Subst)} (first : ComesTo program g s (L.map Prod.fst))
    (each : ∀ p ∈ L, ComesTo program h p.1 p.2) : ComesTo program (.conj g h) s (L.bind Prod.snd) := by
  obtain ⟨n, first⟩ := first
  obtain ⟨m, each⟩ := exists_bound each
  refine comesTo_of_context (n := max n m) ?_
  exact Series.ComesTo.bindWith (I := (program.context (max n m)).interp) (f := h) (first _ (by omega))
    fun p mem => each p mem _ (by omega)

theorem ComesTo.disj (left : ComesTo program g s as) (right : ComesTo program h s bs) :
    ComesTo program (.disj g h) s (as + bs) := by
  obtain ⟨n, left⟩ := left
  obtain ⟨m, right⟩ := right
  refine comesTo_of_context (n := max n m) ?_
  have left := left (max n m) (by omega)
  have right := right (max n m) (by omega)
  obtain ⟨x, _, _, applied, _⟩ := left.exists_ok
  obtain ⟨y, _, _, applied', _⟩ := right.exists_ok
  rw [applied] at left
  rw [applied'] at right
  rw [Goal.apply, applied, applied']
  exact left.append right

/-- However many workers there are, the branch delivers what its goal comes to. -/
theorem ComesTo.par {workers : Nat} (left : ComesTo program g s as) (right : ComesTo program h s bs) :
    ComesTo program (.par workers g h) s (as + bs) := by
  obtain ⟨n, left⟩ := left
  obtain ⟨m, right⟩ := right.forced
  refine comesTo_of_context (n := max n m) ?_
  have left := left (max n m) (by omega)
  obtain ⟨found, ready, _, applied', ⟨forced, right⟩, _⟩ := right (max n m) (by omega)
  obtain ⟨x, _, _, applied, _⟩ := left.exists_ok
  rw [applied] at left
  have searched : h.apply (program.context (max n m)) s >>= (program.context (max n m)).forceReady = .ok ready := by
    rw [applied']
    exact forced
  rw [Goal.apply, applied, searched]
  split
  · refine left.append (ComesTo.pending (w := .start (Task.branch h s)) ?_)
    show Series.ComesTo _ ((program.context (max n m)).branch h s) bs
    rw [Context.branch, searched]
    exact right
  · exact left.append (ComesTo.pending (w := .done ready) right)

/-- Whether a goal has answers is seen by forcing them deeply. -/
theorem ComesTo.deep (h : ComesTo program g s as) : ∃ enough, ∀ n, enough ≤ n →
    ∃ answers deep, g.apply (program.context n) s = .ok answers ∧
      (program.context n).forceDeep answers = .ok deep ∧
      Series.ComesTo (program.context n).interp (.ok deep) as ∧
      (as = 0 ∧ deep = .empty ∨ as ≠ 0 ∧ ∃ a rest, deep = .cons a rest) := by
  obtain ⟨enough, forced⟩ := h.forced
  refine ⟨enough, fun n le => ?_⟩
  obtain ⟨answers, _, deep, applied, _, found, comes⟩ := forced n le
  refine ⟨answers, deep, applied, found, comes, ?_⟩
  rcases (program.told_context n).deep_cases answers deep found with rfl | ⟨a, rest, rfl⟩
  · exact .inl ⟨comes.unique comesTo_empty, rfl⟩
  · refine .inr ⟨fun none => ?_, a, rest, rfl⟩
    obtain ⟨shown, ⟨k, plays⟩, same⟩ := comes
    cases plays with
    | element _ => exact absurd (same.trans none) (by simp)

theorem ComesTo.notNone (none : ComesTo program g s 0) : ComesTo program (.not g) s {s} := by
  obtain ⟨n, deep⟩ := none.deep
  refine comesTo_of_context (n := n) ?_
  obtain ⟨answers, deep, applied, found, _, ⟨_, rfl⟩ | ⟨some, _⟩⟩ := deep n (Nat.le_refl n)
  · rw [Goal.apply, applied]
    show Series.ComesTo _ ((program.context n).forceDeep answers >>= _) _
    rw [found]
    exact comesTo_unit s
  · exact absurd rfl some

theorem ComesTo.notAll (h : ComesTo program g s as) (some : as ≠ 0) : ComesTo program (.not g) s 0 := by
  obtain ⟨n, deep⟩ := h.deep
  refine comesTo_of_context (n := n) ?_
  obtain ⟨answers, deep, applied, found, _, ⟨none, _⟩ | ⟨_, a, rest, rfl⟩⟩ := deep n (Nat.le_refl n)
  · exact absurd none some
  · rw [Goal.apply, applied]
    show Series.ComesTo _ ((program.context n).forceDeep answers >>= _) _
    rw [found]
    exact comesTo_empty

theorem ComesTo.onceNone (none : ComesTo program g s 0) : ComesTo program (.once g) s 0 := by
  obtain ⟨n, deep⟩ := none.deep
  refine comesTo_of_context (n := n) ?_
  obtain ⟨answers, deep, applied, found, _, ⟨_, rfl⟩ | ⟨some, _⟩⟩ := deep n (Nat.le_refl n)
  · rw [Goal.apply, applied]
    show Series.ComesTo _ ((program.context n).forceDeep answers >>= _) _
    rw [found]
    exact comesTo_empty
  · exact absurd rfl some

theorem ComesTo.ifteNo {cond yes no : Goal} (none : ComesTo program cond s 0) (h : ComesTo program no s as) :
    ComesTo program (.ifte cond yes no) s as := by
  obtain ⟨n, deep⟩ := none.deep
  obtain ⟨m, h⟩ := h
  refine comesTo_of_context (n := max n m) ?_
  obtain ⟨answers, deep, applied, found, _, ⟨_, rfl⟩ | ⟨some, _⟩⟩ := deep (max n m) (by omega)
  · rw [Goal.apply, applied]
    show Series.ComesTo _ ((program.context (max n m)).forceDeep answers >>= _) _
    rw [found]
    exact h _ (by omega)
  · exact absurd rfl some

theorem ComesTo.ifteAll {cond yes no : Goal} {L : Multiset (Subst × Multiset Subst)} (some : L ≠ 0)
    (first : ComesTo program cond s (L.map Prod.fst)) (each : ∀ p ∈ L, ComesTo program yes p.1 p.2) :
    ComesTo program (.ifte cond yes no) s (L.bind Prod.snd) := by
  obtain ⟨n, deep⟩ := first.deep
  obtain ⟨m, each⟩ := exists_bound each
  refine comesTo_of_context (n := max n m) ?_
  obtain ⟨answers, deep, applied, found, comes, ⟨none, _⟩ | ⟨_, a, rest, rfl⟩⟩ := deep (max n m) (by omega)
  · exact absurd (Multiset.map_eq_zero.mp none) some
  · rw [Goal.apply, applied]
    show Series.ComesTo _ ((program.context (max n m)).forceDeep answers >>= _) _
    rw [found]
    exact comes.bindWith (f := yes) fun p mem => each p mem _ (by omega)

theorem ComesTo.suspend (h : ComesTo program g s as) : ComesTo program (.suspend g) s as := by
  obtain ⟨n, h⟩ := h
  exact comesTo_of_context (Series.ComesTo.suspend (w := .start (Task.apply g s)) (h n (Nat.le_refl n)))

theorem ComesTo.call {r : RelName} {args : List Term} (h : ComesTo program (r.body program args) s as) :
    ComesTo program (.call r args) s as := by
  obtain ⟨n, h⟩ := h
  refine comesTo_of_context (n := n) ?_
  rw [Goal.apply, program.program_context]
  exact Series.ComesTo.suspend (w := .start (Task.apply (r.body program args) s)) (h n (Nat.le_refl n))

theorem comesTo_of_attempt {r : Attempt Subst} (told : Answers.Told r (.all as))
    (applied : ∀ c, g.apply c s = Answers.ofAttempt r) : ComesTo program g s as :=
  comesTo_of_context (n := 0) (by rw [applied]; exact told.comesTo as rfl)

/-- All series that are involved in the search for the goal are finite, nothing stops the
    search, and these are the answers. -/
def Finite (program : Program) (g : Goal) (s : Subst) (as : Multiset Subst) : Prop :=
  g.Tells program False s (.all as)

/-- A search that involves finite series only comes to its end. -/
theorem Tells.comesTo (told : Goal.Tells program False g s v) : ∀ as, v = .all as → ComesTo program g s as := by
  induction told with
  | @succeed s v told =>
    rintro as rfl
    cases told
    exact comesTo_of_context (n := 0) (comesTo_unit s)
  | fail =>
    intro as same
    cases same
    exact comesTo_of_context (n := 0) comesTo_empty
  | eq told =>
    rintro as rfl
    exact comesTo_of_attempt told fun _ => rfl
  | conjAll _ _ ihg ihh =>
    intro as same
    cases same
    exact (ihg _ rfl).conj fun p mem => ihh p mem _ rfl
  | both _ _ ihg ihh =>
    intro as same
    cases same
    exact (ihg _ rfl).disj (ihh _ rfl)
  | parBoth _ _ ihg ihh =>
    intro as same
    cases same
    exact (ihg _ rfl).par (ihh _ rfl)
  | suspend _ ih => exact fun as same => (ih as same).suspend
  | fresh _ ih =>
    intro as same
    obtain ⟨n, h⟩ := ih as same
    exact comesTo_of_context (h n (Nat.le_refl n))
  | call _ ih => exact fun as same => (ih as same).call
  | notNone _ told ih =>
    rintro as rfl
    cases told
    exact (ih _ rfl).notNone
  | notSome peek => exact peek.elim
  | notAll _ some ih =>
    intro as same
    cases same
    exact (ih _ rfl).notAll some
  | ifteNo _ _ ihc ihn => exact fun as same => (ihc _ rfl).ifteNo (ihn as same)
  | ifteAll some _ _ ihc ihy =>
    intro as same
    cases same
    exact (ihc _ rfl).ifteAll some fun p mem => ihy p mem _ rfl
  | onceNone _ ih =>
    intro as same
    cases same
    exact (ih _ rfl).onceNone
  | onceSome peek => exact peek.elim
  | @alwaysAll s _ _ ih =>
    intro as same
    cases same
    obtain ⟨n, h⟩ := ih _ rfl
    have again := Series.ComesTo.suspend (w := .start (Task.apply .always s)) (h n (Nat.le_refl n))
    exact comesTo_of_context (again.cons s)
  | post told =>
    rintro as rfl
    exact comesTo_of_attempt told fun _ => rfl
  | posted told =>
    rintro as rfl
    exact comesTo_of_attempt told fun _ => rfl
  | narrow told =>
    rintro as rfl
    exact comesTo_of_attempt told fun _ => rfl
  | label told => exact fun as same => comesTo_of_context (n := 0) (told.comesTo as same)
  | unlabeled none_finite told =>
    rintro as rfl
    cases told
    refine comesTo_of_context (n := 0) ?_
    rw [Goal.apply, Subst.labelAll, if_pos none_finite]
    exact comesTo_unit _
  | labelAll some_finite _ ih =>
    intro as same
    obtain ⟨n, h⟩ := ih as same
    refine comesTo_of_context (n := n) ?_
    rw [Goal.apply, Subst.labelAll, if_neg (by simp [some_finite])]
    exact h n (Nat.le_refl n)
  | reserve _ ih =>
    intro as same
    obtain ⟨n, h⟩ := ih as same
    exact comesTo_of_context (h n (Nat.le_refl n))
  | _ =>
    intro as same
    cases same

theorem Finite.ends (h : g.Finite program s as) : ∃ shown : List Subst, g.Ends program s shown ∧ ↑shown = as := by
  obtain ⟨n, comes⟩ := Goal.Tells.comesTo h as rfl
  obtain ⟨shown, plays, same⟩ := comes n (Nat.le_refl n)
  exact ⟨shown, ⟨n, plays⟩, same⟩

/-- Parallel disjunction means disjunction, whatever workers there are: if the searches for
    a goal and for the goal with disjunctions come to their ends, they have the same answers,
    each as often; and if all series that the goal involves are finite, both do. -/
theorem ends_sequential (uncut : program.Uncut) (here : g.Uncut) (s : Subst) :
    (∀ as bs : List Subst, g.Ends program s as → g.sequential.Ends program.sequential s bs → as.Perm bs) ∧
    ∀ as : Multiset Subst, g.Finite program s as →
      ∃ cs ds : List Subst, g.Ends program s cs ∧ g.sequential.Ends program.sequential s ds ∧ ↑cs = as ∧ ↑ds = as := by
  refine ⟨fun as bs ends ends' => ?_, fun as finite => ?_⟩
  · have told := ends.tells.sequential
    exact Multiset.coe_eq_coe.mp (told.fits uncut.sequential here.sequential _ ends'.tells)
  · obtain ⟨cs, ends, same⟩ := finite.ends
    obtain ⟨ds, ends', same'⟩ := Finite.ends (Goal.Tells.sequential finite)
    exact ⟨cs, ds, ends, ends', same, same'⟩

/-- A branch for two workers, beside the negation of one that is worked on at once. -/
theorem ends_sequential_branches :
    let program : Program := fun _ _ => .fail
    let s := (Subst.empty.freshMany 1).2
    let g := par 2 (eq (.var ⟨0⟩) .nil) (not (par 0 fail fail))
    program.Uncut ∧ g.Uncut ∧ ∃ t, s.unify (.var ⟨0⟩) .nil = .ok t ∧ g.Finite program s {t, s} ∧
      ∃ cs ds : List Subst, g.Ends program s cs ∧ g.sequential.Ends program.sequential s ds ∧
        ↑cs = ({t, s} : Multiset Subst) ∧ cs.Perm ds := by
  intro program s g
  have uncut : program.Uncut := fun _ _ => trivial
  have here : g.Uncut := ⟨trivial, trivial, trivial⟩
  obtain ⟨t, unified⟩ : ∃ t, s.unify (.var ⟨0⟩) .nil = .ok t := ⟨_, rfl⟩
  have finite : g.Finite program s {t, s} := by
    have answer : (eq (.var ⟨0⟩) .nil).Finite program s {t} := .eq (unified ▸ .solved rfl)
    have none : (par 0 fail fail).Finite program s (0 + 0) := .parBoth .fail .fail
    exact .parBoth answer (.notNone none rfl)
  obtain ⟨same, both⟩ := ends_sequential uncut here s
  obtain ⟨cs, ds, ends, ends', found, _⟩ := both _ finite
  exact ⟨uncut, here, t, unified, finite, cs, ds, ends, ends', found, same cs ds ends ends'⟩

end Goal

end ConstraintLogic
