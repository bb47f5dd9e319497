import ConstraintLogic.Proofs.Goal.Information
import ConstraintLogic.Proofs.Labeling.Integrality
import ConstraintLogic.Proofs.Query.Exactness

/-!
# Terms that propagators refuse

A variable of a propagator may stand for a term that is no integer. Its domain is then
empty, and nearly every run ends in a conflict there: a reduction of the variable fails, a
table has no row left, a difference cannot sort it. Two runs do not see it. A multiple of
zero looks at its result only, and a sum narrows nothing while the term leaves its ends
unknown.

Results:
* `Solver.Detects`: the relations whose runs look at all of their variables.
* `Solver.Serving.refuses`: such a run does not succeed where a variable stands for another
  term than an integer.
-/

namespace ConstraintLogic

/-- Every finite domain has a size. -/
theorem Domain.exists_size {d : Domain} (finite : d ≠ .unbounded) : ∃ n, d.size = some n := by
  cases d with
  | unbounded => exact absurd rfl finite
  | _ => exact ⟨_, rfl⟩

namespace Solver

variable {K : Scope} {s t u : Solver} {id : PropId} {r q : Relation} {p : Propagator} {v w x y z : Var} {c : Int}

/-! ## Runs -/

/-- A run of the relation looks at all of its variables. A sum does so if an operand has a
    value, if two of them are one unbound variable, or if none is unbounded. -/
def Detects (s : Solver) : Relation → Prop
  | .scale c _ z => c ≠ 0 ∨ s.resolve z = .other
  | .sum x y z => (∃ v ∈ [x, y, z], ∃ n, s.resolve v = .value n) ∨
      (s.sameVar x y = true ∨ s.sameVar x z = true ∨ s.sameVar y z = true) ∨ ∀ v ∈ [x, y, z], s.peek v ≠ .unbounded
  | _ => True

/-- A variable that stands for another term than an integer is not reduced. -/
theorem refuses_reduce {d : Domain} (other : s.resolve v = .other) :
    Narrow.Leaves s (Narrow.reduce v d) fun _ _ => False := by
  intro _ t run
  rw [reduce_eq, other] at run
  cases run

theorem ne_other_of_sameVar (same : s.sameVar v w = true) : ∀ x ∈ [v, w], s.resolve x ≠ .other := by
  obtain ⟨u, at_v, at_w⟩ := sameVar_iff.mp same
  simp [at_v, at_w]

/-- A variable that leads to a term that is neither a variable nor an integer. -/
theorem resolve_eq_other {a : Term} (leads : s.subst.walk (.var v) = a) (not_var : ∀ u, a ≠ .var u)
    (no_int : a.asInt? = none) : s.resolve v = .other := by
  unfold resolve
  rw [leads]
  cases a with
  | var u => exact absurd rfl (not_var u)
  | atom b =>
    cases b with
    | int n => cases no_int
    | _ => rfl
  | _ => rfl

theorem peek_of_other (other : s.resolve v = .other) : s.peek v = .empty := by simp [peek, other]

theorem ne_other_of_solution {n : Int} (only : (s.peek v).solution = some n) : s.resolve v ≠ .other := by
  intro other
  rw [peek_of_other other] at only
  cases only

namespace Serving

variable {vs : List Var} {cs : List Int} {rows : List (List Int)} {origin : Term}

/-- No row of a table has a value for the variable. -/
theorem refuses_runTable (h : s.Serving K id (.table vs rows origin)) (mem : x ∈ vs) (other : s.resolve x = .other) :
    Narrow.Leaves s (Narrow.runTable id vs rows origin) fun _ _ => False :=
  h.leaves_runTable fun _ _ trimmed => absurd other (trimmed.proper x mem)

theorem refuses_becomeTable (h : s.Serving K id r) (tabulates : s.Tabulates r rows) (mem : x ∈ r.vars)
    (other : s.resolve x = .other) : Narrow.Leaves s (Narrow.becomeTable id r.vars rows origin) fun _ _ => False := by
  unfold Narrow.becomeTable
  refine (h.replaceWith (q := .table r.vars rows origin) tabulates.proper fun v mem => names_of_mem mem).bind ?_
  rintro _ t ⟨serving, aside, _⟩
  exact serving.refuses_runTable mem (aside.resolve ▸ other)

/-- Variables that are narrowed by one another stand for no other term. -/
theorem not_exchanged (mem : x ∈ [y, z]) (other : s.resolve x = .other) : ¬Exchanged K id r y z s t := by
  intro exchanged
  rcases List.mem_pair.mp mem with rfl | rfl
  · exact exchanged.proper.1 other
  · exact exchanged.proper.2 other

theorem refuses_runPlusConst (h : s.Serving K id (.plusConst y c z)) (mem : x ∈ [y, z]) (other : s.resolve x = .other) :
    Narrow.Leaves s (Narrow.runPlusConst id y c z) fun _ _ => False :=
  h.leaves_runPlusConst (fun same => ne_other_of_sameVar same x mem other) fun _ _ exchanged =>
    absurd exchanged (not_exchanged mem other)

theorem refuses_runScale (h : s.Serving K id (.scale c y z)) (mem : x ∈ [y, z]) (other : s.resolve x = .other)
    (detects : s.Detects (.scale c y z)) : Narrow.Leaves s (Narrow.runScale id c y z) fun _ _ => False := by
  refine h.leaves_runScale (fun zero => ?_) (fun same => ?_) (fun _ rows tabulates => ?_) fun _ _ t exchanged => ?_
  · exact refuses_reduce (detects.resolve_left fun nonzero => nonzero zero)
  · exact absurd other (ne_other_of_sameVar same x mem)
  · exact h.refuses_becomeTable tabulates mem other
  · exact absurd exchanged (not_exchanged mem other)

theorem refuses_runSumConst (h : s.Serving K id (.sumConst y z c)) (mem : x ∈ [y, z]) (other : s.resolve x = .other) :
    Narrow.Leaves s (Narrow.runSumConst id y z c) fun _ _ => False := by
  refine h.leaves_runSumConst (fun same n _ => ?_) (fun _ _ rows tabulates => ?_) fun _ t exchanged => ?_
  · exact absurd other (ne_other_of_sameVar same x mem)
  · exact h.refuses_becomeTable tabulates mem other
  · exact absurd exchanged (not_exchanged mem other)

/-- Where an operand of a sum stands for another term, and none is unbounded, but the rows
    are too many for a table, that operand is the result, and the ends of the others are
    known. -/
theorem refuses_narrowEnds (h : s.Serving K id (.sum x y z)) (mem : v ∈ [x, y, z]) (other : s.resolve v = .other)
    (finite : ∀ v ∈ [x, y, z], s.peek v ≠ .unbounded)
    (large : ¬((s.peek x).smallProduct (s.peek y) && (s.peek z).size.isSome) = true) (n : Nat) :
    Narrow.Leaves s (Narrow.narrowEnds x y z n) fun _ _ => False := by
  have in_x : x ∈ (Relation.sum x y z).vars := by simp [Relation.vars]
  have in_y : y ∈ (Relation.sum x y z).vars := by simp [Relation.vars]
  have in_z : z ∈ (Relation.sum x y z).vars := by simp [Relation.vars]
  obtain ⟨k, size_x⟩ := Domain.exists_size (finite x (by simp))
  obtain ⟨l, size_y⟩ := Domain.exists_size (finite y (by simp))
  obtain ⟨m, size_z⟩ := Domain.exists_size (finite z (by simp))
  simp only [Domain.smallProduct, size_x, size_y, size_z, Option.isSome_some, Bool.and_true, decide_eq_true_eq] at large
  have some_x : s.peek x ≠ .empty := fun none => by
    rw [none] at size_x
    cases size_x
    omega
  have some_y : s.peek y ≠ .empty := fun none => by
    rw [none] at size_y
    cases size_y
    omega
  have other_z : s.resolve z = .other := by
    simp only [List.mem_cons, List.not_mem_nil, or_false] at mem
    rcases mem with rfl | rfl | rfl
    · exact absurd (peek_of_other other) some_x
    · exact absurd (peek_of_other other) some_y
    · exact other
  obtain ⟨lx, min_x⟩ := (h.sound.canonical_peek x).exists_min? (finite x (by simp)) some_x
  obtain ⟨ux, max_x⟩ := (h.sound.canonical_peek x).exists_max? (finite x (by simp)) some_x
  obtain ⟨ly, min_y⟩ := (h.sound.canonical_peek y).exists_min? (finite y (by simp)) some_y
  obtain ⟨uy, max_y⟩ := (h.sound.canonical_peek y).exists_max? (finite y (by simp)) some_y
  cases n with
  | zero => exact Narrow.leaves_throw
  | succ n =>
    unfold Narrow.narrowEnds
    refine h.domain (names_of_mem in_x) (h.domain (names_of_mem in_y) (h.domain (names_of_mem in_z) ?_))
    rw [min_x, min_y, max_x, max_y]
    exact Narrow.Leaves.bind (Q := fun _ _ => False) (refuses_reduce other_z) fun _ _ none => none.elim

/-- Where no operand of a sum is known and no two are one variable, a run that looks at all
    of them finds none unbounded. -/
theorem finite_of_detects (detects : s.Detects (.sum x y z)) (distinct : s.Distinct x y z)
    (opened : ∀ v ∈ [x, y, z], (s.peek v).solution = none) : ∀ v ∈ [x, y, z], s.peek v ≠ .unbounded := by
  obtain ⟨apart_xy, apart_xz, apart_yz⟩ := distinct
  rcases detects with ⟨u, mem, n, value⟩ | alike | finite
  · have only : (s.peek u).solution = some n := by simp [peek, value, Domain.solution, Domain.singleton]
    cases (opened u mem).symm.trans only
  · rcases alike with alike | alike | alike
    · cases apart_xy.symm.trans alike
    · cases apart_xz.symm.trans alike
    · cases apart_yz.symm.trans alike
  · exact finite

theorem refuses_runSum (h : s.Serving K id (.sum x y z)) (mem : v ∈ [x, y, z]) (other : s.resolve v = .other)
    (detects : s.Detects (.sum x y z)) : Narrow.Leaves s (Narrow.runSum id x y z) fun _ _ => False := by
  -- The operand that is another term is not one of those that are known.
  have rest {l : List Var} (known : ∀ u ∈ [x, y, z], u ∉ l → s.resolve u ≠ .other) : v ∈ l := by
    by_contra out
    exact known v mem out other
  have fixed {w : Var} {n : Int} (only : (s.peek w).solution = some n) : s.resolve w ≠ .other := ne_other_of_solution only
  refine h.leaves_runSum (fun same_xy same_xz => ?_) (fun same t replaced => ?_) (fun same => ?_) (fun same => ?_)
    (fun _ n only t replaced => ?_) (fun _ n only t replaced => ?_) (fun _ n only t replaced => ?_)
    (fun _ rows tabulates => h.refuses_becomeTable tabulates mem other) fun distinct opened large => ?_
  · have proper_xy := ne_other_of_sameVar same_xy
    have proper_xz := ne_other_of_sameVar same_xz
    exact absurd (rest (l := []) (by simp_all)) List.not_mem_nil
  · have proper := ne_other_of_sameVar same
    exact replaced.serving.refuses_runScale (rest (by simp_all)) (replaced.aside.resolve ▸ other) (.inl (by decide))
  · have proper := ne_other_of_sameVar same
    have last : v = y := by simpa using rest (l := [y]) (by simp_all)
    exact refuses_reduce (last ▸ other)
  · have proper := ne_other_of_sameVar same
    have last : v = x := by simpa using rest (l := [x]) (by simp_all)
    exact refuses_reduce (last ▸ other)
  · exact replaced.serving.refuses_runPlusConst (rest (by simp [fixed only])) (replaced.aside.resolve ▸ other)
  · exact replaced.serving.refuses_runPlusConst (rest (by simp [fixed only])) (replaced.aside.resolve ▸ other)
  · exact replaced.serving.refuses_runSumConst (rest (by simp [fixed only])) (replaced.aside.resolve ▸ other)
  · have finite := finite_of_detects detects distinct opened
    exact (h.refuses_narrowEnds mem other finite large _).bind fun _ _ none => none.elim

theorem refuses_runAllDifferent (h : s.Serving K id (.allDifferent vs cs)) (mem : x ∈ vs)
    (other : s.resolve x = .other) : Narrow.Leaves s (Narrow.runAllDifferent id vs cs) fun _ _ => False := by
  have never {o : Narrow.Operands} {t : Solver} : ¬Swept K id vs cs o s t := fun swept => by
    have other : t.resolve x = .other := swept.aside.resolve ▸ other
    rcases swept.accounted.covers x mem with ⟨u, mem_u, same⟩ | decided
    · exact swept.proper mem_u (same.trans other)
    · exact (swept.serving.sound.confined_of_decided decided).1 other
  exact h.leaves_runAllDifferent (fun _ _ swept _ => never swept) (fun _ _ _ swept _ _ => absurd swept never)
    fun _ _ swept _ => absurd swept never

/-- A run that looks at all of its variables does not succeed where one of them stands for
    another term than an integer. -/
theorem refuses (h : s.Serving K id r) (mem : v ∈ r.vars) (other : s.resolve v = .other) (detects : s.Detects r) :
    Narrow.Leaves s (Narrow.propagate id r) fun _ _ => False := by
  cases r with
  | plusConst x c z => exact h.refuses_runPlusConst mem other
  | sumConst x y c => exact h.refuses_runSumConst mem other
  | sum x y z => exact h.refuses_runSum mem other detects
  | scale c x z => exact h.refuses_runScale mem other detects
  | allDifferent vs cs => exact h.refuses_runAllDifferent mem other
  | table vs rows origin => exact h.refuses_runTable mem other

end Serving

/-! ## Waiting -/

/-- A relation whose run looks at all of its variables goes on to be one. -/
theorem Detects.of_shrinks (h : s.Steady K) (shrinks : s.Shrinks t) (detects : s.Detects r) : t.Detects r := by
  have resolve := shrinks.resolve
  have alike (v w : Var) : t.sameVar v w = s.sameVar v w := by rw [sameVar, sameVar, resolve]
  cases r with
  | scale c x z => exact detects.imp_right fun other => by rw [resolve, other]
  | sum x y z =>
    simp only [Detects, alike, resolve] at detects ⊢
    refine detects.imp_right (Or.imp_right fun finite v mem full => ?_)
    obtain ⟨n, out⟩ := (h.canonical_peek v).not_all (finite v mem)
    refine out (shrinks.mem_peek v n ?_)
    rw [full]
    exact Domain.mem_unbounded n
  | _ => exact trivial

/-- The propagator waits. -/
def Pending (s : Solver) (p : Propagator) : Prop := ∃ id, s.prop? id = some p ∧ s.agenda.Waits id

/-- A propagator that waits goes on to wait until it is run. -/
theorem Pending.turn (turn : s.Turn K t) (h : s.Pending p) :
    t.Pending p ∨ ∃ id u, u.Serving K id p.val ∧ s.Framed u ∧ Narrow.propagate id p.val u = .ok () t := by
  obtain ⟨j, at_j, waits⟩ := h
  cases turn with
  | @idle id a popped absent eq =>
    subst eq
    refine .inl ⟨j, at_j, (Agenda.waits_pop popped).mpr ⟨?_, waits⟩⟩
    rintro rfl
    cases absent.symm.trans at_j
  | @served id a q m popped found withdrawn serving served ran =>
    by_cases same : j = id
    · subst same
      cases found.symm.trans at_j
      exact .inr ⟨j, _, serving, ⟨rfl, rfl, rfl, fun _ => Iff.rfl, fun _ _ mem => mem⟩, ran⟩
    · refine .inl ⟨j, by rw [served.aside.props j same]; exact at_j, ?_⟩
      exact served.aside.waits j ((Agenda.waits_pop popped).mpr ⟨same, waits⟩)

theorem Pending.not_quiet (h : s.Pending p) (quiet : ∀ id, ¬s.agenda.Waits id) : False := by
  obtain ⟨id, _, waits⟩ := h
  exact quiet id waits

/-- What a solver starts with and every turn keeps, the solver has where its answer is
    written back from. -/
theorem Sound.of_solve? {J : Solver → Prop} {answer : Subst} (h : s.Steady K) (start : J s)
    (keeps : ∀ s t : Solver, s.Steady K → t.Steady K → s.Turn K t → J s → J t) (run : s.solve? = .ok answer) :
    ∃ u, u.Steady K ∧ J u ∧ (∀ id, ¬u.agenda.Waits id) ∧ u.WrittenBack answer := by
  obtain ⟨u, ⟨kept, steady, _, _, quiet⟩, written⟩ :=
    of_runToSubst ((h.fixpoint_keeps start keeps).and h.fixpoint.leaves) run
  obtain ⟨t', written', back⟩ := toSubst?_spec steady
  cases written.symm.trans written'
  exact ⟨u, steady, kept, quiet, back⟩

end Solver

/-! ## Posting -/

namespace Subst

variable {K : Scope} {s t : Subst} {p : Propagator} {v w x : Var}

/-- A propagator is not posted whose run looks at all of its variables, where one of them
    stands for another term than an integer. -/
theorem Orderly.refuses (h : s.Orderly K) (known : K.known p) (mem : v ∈ p.val.vars)
    (other : (Solver.new s).resolve v = .other) (detects : (Solver.new s).Detects p.val) :
    s.solveWith [p] ≠ .ok t := by
  intro run
  have fresh := h.steady_new
  obtain ⟨steady, grows, _⟩ := fresh.post known
  have keeps (u m : Solver) (turn : u.Turn K m) (before : (Solver.new s).Shrinks u ∧ u.Pending p) :
      (Solver.new s).Shrinks m ∧ m.Pending p := by
    obtain ⟨shrinks, pending⟩ := before
    refine ⟨shrinks.trans turn.framed.shrinks, (pending.turn turn).resolve_right ?_⟩
    rintro ⟨id, u', serving, framed, ran⟩
    have shrinks' := shrinks.trans framed.shrinks
    exact serving.refuses mem (by rw [shrinks'.resolve, other]) (detects.of_shrinks fresh shrinks') _ _ ran
  obtain ⟨u, _, ⟨_, pending⟩, quiet, _⟩ := steady.of_solve? ⟨grows.shrinks, fresh.post_waits known⟩
    (fun u m _ _ => keeps u m) run
  exact pending.not_quiet quiet

end Subst

end ConstraintLogic
