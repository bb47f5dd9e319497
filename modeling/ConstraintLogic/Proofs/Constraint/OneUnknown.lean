import ConstraintLogic.Proofs.Solver.Reload

/-!
# Relations with one unknown

A relation of which all operands but one are integers comes to narrowing the unknown to the
value that it must have. Whatever code a run takes for that, it leaves the solver as the
narrowing does, but for the propagator that has been run; it fails where the narrowing
fails, and otherwise can only be stopped by an overflow.

Results:
* `Solver.Retouched`: another propagator has taken the place of one.
* `Narrow.Fixes`: a run comes to narrowing one variable.
* `Narrow.fixes_plusConst`, `Narrow.fixes_plusConst_back`: differences do.
-/

namespace ConstraintLogic

namespace Domain

/-! ## Images of one value -/

/-- The domain of a value, if there is one. -/
def ofValue (o : Option Int) : Domain := o.elim .empty .singleton

variable {o : Option Int} {n c : Int} {d : Domain}

@[simp] theorem mem_ofValue : n ∈ ofValue o ↔ o = some n := by
  cases o with
  | none => simp [ofValue]
  | some m => simp [ofValue, eq_comm]

theorem contains_ofValue (o : Option Int) (n : Int) : (ofValue o).contains n = decide (o = some n) := by
  rw [Bool.eq_iff_iff, decide_eq_true_iff]
  exact mem_ofValue

theorem contains_singleton (m n : Int) : (singleton m).contains n = decide (n = m) := by
  rw [Bool.eq_iff_iff, decide_eq_true_iff]
  exact mem_singleton

theorem canonical_ofValue (h : ∀ n, o = some n → isValue n = true) : (ofValue o).Canonical := by
  cases o with
  | none => trivial
  | some n => exact Solver.canonical_singleton (h n rfl)

theorem canonical_ofValue_value? (m : Int) : (ofValue (value? m)).Canonical :=
  canonical_ofValue fun _ => isValue_of_value?

theorem canonical_shift (d : Domain) (c : Int) : (d.shift c).Canonical := canonical_affine d 1 c

theorem canonical_subtractFrom (d : Domain) (c : Int) : (d.subtractFrom c).Canonical := canonical_affine d (-1) c

theorem shift_singleton (value : isValue n = true) : (singleton n).shift c = ofValue (value? (n + c)) := by
  have canonical := Solver.canonical_singleton value
  refine (canonical_shift _ _).ext (canonical_ofValue_value? _) fun m => ?_
  rw [canonical.mem_shift, mem_singleton, mem_ofValue, value?_eq_some_iff]
  simp only [singleton, reduceCtorEq, false_or]
  constructor
  · rintro ⟨value, same⟩
    obtain rfl : n + c = m := by omega
    exact ⟨value, rfl⟩
  · rintro ⟨value, rfl⟩
    exact ⟨value, by omega⟩

theorem subtractFrom_singleton (value : isValue n = true) : (singleton n).subtractFrom c = ofValue (value? (c - n)) := by
  have canonical := Solver.canonical_singleton value
  refine (canonical_subtractFrom _ _).ext (canonical_ofValue_value? _) fun m => ?_
  rw [canonical.mem_subtractFrom, mem_singleton, mem_ofValue, value?_eq_some_iff]
  simp only [singleton, reduceCtorEq, false_or]
  constructor
  · rintro ⟨value, same⟩
    obtain rfl : c - n = m := by omega
    exact ⟨value, rfl⟩
  · rintro ⟨value, rfl⟩
    exact ⟨value, by omega⟩

/-- The integer of 64 bits by which `c` has to be multiplied for `n`. -/
def quotient? (n c : Int) : Option Int := if Int.tmod n c = 0 then value? (Int.tdiv n c) else none

theorem quotient?_eq_some_iff {k : Int} (nonzero : c ≠ 0) : quotient? n c = some k ↔ isValue k = true ∧ c * k = n := by
  unfold quotient?
  constructor
  · intro found
    split at found
    · rename_i divides
      obtain ⟨value, rfl⟩ := value?_eq_some_iff.mp found
      exact ⟨value, Int.mul_tdiv_cancel_of_tmod_eq_zero divides⟩
    · cases found
  · rintro ⟨value, rfl⟩
    rw [if_pos (Int.mul_tmod_right c k), Int.mul_tdiv_cancel_left k nonzero]
    exact value?_eq_some_iff.mpr ⟨value, rfl⟩

theorem canonical_ofValue_quotient? (n c : Int) : (ofValue (quotient? n c)).Canonical := by
  refine canonical_ofValue fun k found => ?_
  unfold quotient? at found
  split at found
  · exact isValue_of_value? found
  · cases found

theorem divideExact_singleton (nonzero : c ≠ 0) : (singleton n).divideExact c = ofValue (quotient? n c) := by
  refine (canonical_divideExact _ _).ext (canonical_ofValue_quotient? _ _) fun k => ?_
  rw [mem_divideExact nonzero, mem_singleton, mem_ofValue, quotient?_eq_some_iff nonzero]
  simp [singleton]

theorem values_eq_singleton {ns : List Int} (value : isValue n = true) (only : ∀ m, m ∈ ns ↔ m = n) :
    values ns = .singleton n := by
  refine (canonical_values fun m mem => (only m).mp mem ▸ value).ext (Solver.canonical_singleton value) fun m => ?_
  rw [mem_values, only, mem_singleton]

theorem Canonical.eq_singleton (h : d.Canonical) (value : isValue n = true) (only : ∀ m, m ∈ d ↔ m = n) :
    d = .singleton n :=
  h.ext (Solver.canonical_singleton value) fun m => by rw [only, mem_singleton]

end Domain

namespace Solver

variable {s t u : Solver} {id : PropId} {v w x y z : Var} {d : Domain} {n : Int} {r : Relation}

/-! ## Variables that are loaded -/

/-- What the variable stands for has been loaded, if it is unbound. -/
def Loaded (s : Solver) (v : Var) : Prop := ∀ u, s.resolve v = .free u → u ∈ s.domains

theorem loaded_of_value (value : s.resolve v = .value n) : s.Loaded v := fun u free => by cases value.symm.trans free

theorem peek_of_value (value : s.resolve v = .value n) : s.peek v = .singleton n := by
  unfold peek
  rw [value]

theorem Tidy.isValue_of_value (h : s.Tidy) (value : s.resolve v = .value n) : isValue n = true :=
  h.isValue_of_mem (v := v) (by rw [peek_of_value value]; exact Domain.noConfusion)
    (by rw [peek_of_value value]; exact Domain.mem_singleton.mpr rfl)

theorem sameVar_of_value (value : s.resolve v = .value n) (w : Var) : s.sameVar v w = false ∧ s.sameVar w v = false := by
  have apart : s.sameVar v w = false := by
    unfold sameVar
    rw [value]
  exact ⟨apart, s.sameVar_comm v w ▸ apart⟩

theorem domain_run (loaded : s.Loaded v) : Narrow.domain v s = .ok (s.peek v) s := by
  change EStateM.Result.ok (s.domain v).1 (s.domain v).2 = _
  rw [domain_of_loaded loaded]

theorem sameVar_run (s : Solver) (v w : Var) : Narrow.sameVar v w s = .ok (s.sameVar v w) s := rfl

/-- The variable is loaded, and has this value only. -/
structure Solved (s : Solver) (v : Var) (n : Int) : Prop where
  loaded : s.Loaded v
  only : s.peek v = .singleton n

theorem solved_of_value (value : s.resolve v = .value n) : s.Solved v n := ⟨loaded_of_value value, peek_of_value value⟩

/-- A variable with one value is narrowed to no other domain. -/
theorem Solved.reduce (h : s.Solved v n) (tidy : s.Tidy) (canonical : d.Canonical) (mem : n ∈ d) :
    Narrow.reduce v d s = .ok () s := by
  obtain ⟨loaded, only⟩ := h
  have whole : (s.peek v).intersect d = s.peek v := by
    refine (Domain.canonical_intersect (tidy.canonical v) canonical).ext (tidy.canonical v) fun m => ?_
    rw [Domain.mem_intersect (tidy.canonical v) canonical, only, Domain.mem_singleton]
    exact ⟨And.left, fun same => ⟨same, same ▸ mem⟩⟩
  rw [reduce_eq]
  cases found : s.resolve v with
  | value m =>
    rw [peek_of_value found] at only
    cases only
    have holds : d.contains n = true := mem
    simp only [holds]
    rfl
  | other =>
    rw [peek, found] at only
    cases only
  | free u =>
    have root := tidy.root v u found
    have same : s.peek u = s.peek v := by rw [peek_of_free root, peek_of_free found]
    have some_value : ¬(Domain.singleton n).isEmpty = true := by simp [Domain.singleton, Domain.isEmpty]
    dsimp only
    rw [domain_of_loaded fun x free => by cases root.symm.trans free; exact loaded u found]
    dsimp only
    rw [same, whole, only, if_neg some_value, if_pos rfl]
    rfl

/-- Where no value would be left, narrowing is a conflict. -/
theorem reduce_of_apart (tidy : s.Tidy) (canonical : d.Canonical) (apart : ∀ m ∈ s.peek v, m ∉ d) :
    ∃ u, Narrow.reduce v d s = .error .conflict u := by
  rw [reduce_eq]
  cases found : s.resolve v with
  | value m =>
    have out : d.contains m = false := by
      rw [← Bool.not_eq_true]
      exact apart m (by rw [peek_of_value found]; exact Domain.mem_singleton.mpr rfl)
    simp only [out]
    exact ⟨_, rfl⟩
  | other => exact ⟨_, rfl⟩
  | free u =>
    have root := tidy.root v u found
    have same : s.peek u = s.peek v := by rw [peek_of_free root, peek_of_free found]
    have none : ((s.domain u).1.intersect d).isEmpty = true := by
      rw [(s.domain_spec u).1, same, Domain.isEmpty_iff]
      refine (Domain.canonical_intersect (tidy.canonical v) canonical).ext trivial fun m => ?_
      rw [Domain.mem_intersect (tidy.canonical v) canonical]
      exact iff_of_false (fun both => apart m both.1 both.2) (Domain.not_mem_empty m)
    dsimp only
    rw [if_pos none]
    exact ⟨_, rfl⟩

/-- What is loaded stays so when a domain is narrowed. -/
theorem Loaded.reduce (h : s.Loaded w) (ran : Narrow.reduce v d s = .ok () t) : t.Loaded w := by
  rw [reduce_eq] at ran
  cases found : s.resolve v with
  | value n =>
    rw [found] at ran
    dsimp only [Narrow.require] at ran
    split at ran <;> cases ran
    exact h
  | other => rw [found] at ran; cases ran
  | free u =>
    have grows := (s.domain_spec u).2
    have loaded : (s.domain u).2.Loaded w := fun x free => grows.mem_domains (h x (grows.resolve ▸ free))
    rw [found] at ran
    dsimp only at ran
    split at ran
    · cases ran
    split at ran
    · cases ran
      exact loaded
    · cases ran
      obtain ⟨a, eq⟩ := ((s.domain u).2.narrowTo u ((s.domain u).1.intersect d)).excite_eq u
      change (((s.domain u).2.narrowTo u _).excite u).Loaded w
      rw [eq]
      exact fun x free => Std.ExtTreeMap.mem_insert.mpr (.inr (loaded x free))

/-- Where all variables have their values, none is subscribed to. -/
theorem resubscribe_of_solved (id : PropId) (vs : List Var) (solved : ∀ v ∈ vs, ∃ n, s.Solved v n) :
    Narrow.resubscribe id vs s = .ok () s := by
  have same : s.resubscribe id vs = s := by
    induction vs with
    | nil => rfl
    | cons v vs ih =>
      obtain ⟨n, loaded, only⟩ := solved v (by simp)
      rw [resubscribe_cons s id v vs loaded]
      have rest := ih fun w mem => solved w (List.mem_cons_of_mem v mem)
      cases found : s.resolve v with
      | free u =>
        rw [peek_of_free found] at only
        dsimp only
        rw [only, if_pos (by simp [Domain.hasSolution, Domain.solution, Domain.singleton])]
        exact rest
      | value m => exact rest
      | other => exact rest
  show EStateM.Result.ok () (s.resubscribe id vs) = _
  rw [same]

/-! ## Another propagator in the place -/

/-- The second solver differs from the first one in the propagator with the number only. -/
structure Retouched (id : PropId) (s t : Solver) : Prop where
  bindings : t.subst.bindings = s.subst.bindings
  attrs : t.subst.attrs = s.subst.attrs
  domains : t.domains = s.domains
  subscribers : t.subscribers = s.subscribers
  agenda : t.agenda = s.agenda
  others : ∀ j, j ≠ id → t.prop? j = s.prop? j

namespace Retouched

theorem refl (id : PropId) (s : Solver) : Retouched id s s := ⟨rfl, rfl, rfl, rfl, rfl, fun _ _ => rfl⟩

theorem trans (h : Retouched id s t) (h' : Retouched id t u) : Retouched id s u where
  bindings := h'.bindings.trans h.bindings
  attrs := h'.attrs.trans h.attrs
  domains := h'.domains.trans h.domains
  subscribers := h'.subscribers.trans h.subscribers
  agenda := h'.agenda.trans h.agenda
  others j other := (h'.others j other).trans (h.others j other)

theorem matched (h : Retouched id s t) : s.Matches t := matched_of_eq h.bindings h.attrs h.domains

theorem loaded (h : Retouched id s t) (loaded : s.Loaded v) : t.Loaded v := by
  intro u free
  rw [h.matched.resolve] at free
  exact h.domains ▸ loaded u free

end Retouched

theorem retouched_replaceWith (s : Solver) (id : PropId) (r : Relation) :
    ∃ t, Narrow.replaceWith id r s = .ok () t ∧ Retouched id s t := by
  obtain ⟨t, run, bindings, attrs, domains, subscribers, agenda, others, _⟩ := s.replaceWith_spec id r
  exact ⟨t, run, bindings, attrs, domains, subscribers, agenda, others⟩

end Solver

namespace Narrow

open Solver (Retouched Loaded Cuts domain_run sameVar_run)

variable {s t u : Solver} {id : PropId} {v w x y z : Var} {d : Domain} {n c : Int} {m m' : Narrow Unit}
variable {f : Unit → Narrow Unit} {o : Option Int}

/-! ## Fixing a variable -/

/-- The run is stopped, or ends as the other one does once another propagator has taken the
    place of the one with the number. -/
def EndsAs (id : PropId) (t : Solver) (m m' : Narrow Unit) : Prop :=
  (∃ why u, m t = .error (.stop why) u) ∨ ∃ t', Retouched id t t' ∧
    ((∃ u, m t = .ok () u ∧ m' t' = .ok () u) ∨ ∃ why u u', m t = .error why u ∧ m' t' = .error why u')

/-- The run comes to narrowing the variable. -/
abbrev Fixes (id : PropId) (t : Solver) (m : Narrow Unit) (v : Var) (d : Domain) : Prop := EndsAs id t m (reduce v d)

/-- Nothing is changed, unless the run is stopped. -/
def Idle (t : Solver) (m : Narrow Unit) : Prop := (∃ why u, m t = .error (.stop why) u) ∨ m t = .ok () t

namespace EndsAs

variable {n n' : Narrow Unit}

theorem of_eq (same : m t = m' t) : EndsAs id t m m' := by
  refine .inr ⟨t, .refl id t, ?_⟩
  cases ran : m' t with
  | ok _ u => exact .inl ⟨u, same.trans ran, rfl⟩
  | error why u => exact .inr ⟨why, u, u, same.trans ran, rfl⟩

theorem congr (h : EndsAs id t m m') (same : n t = m t) : EndsAs id t n m' := by
  unfold EndsAs
  rwa [same]

theorem retouched (same : n t = m u) (retouched : Retouched id t u) (h : EndsAs id u m m') : EndsAs id t n m' := by
  unfold EndsAs at h ⊢
  rw [same]
  exact h.imp_right fun ⟨t', retouched', ends⟩ => ⟨t', retouched.trans retouched', ends⟩

theorem of_alike (h : EndsAs id t m m') (alike : ∀ u, Retouched id t u → m' u = n' u) : EndsAs id t m n' := by
  refine h.imp_right ?_
  rintro ⟨u, retouched, ends⟩
  rw [alike u retouched] at ends
  exact ⟨u, retouched, ends⟩

end EndsAs

/-- A narrowing after which nothing is changed. -/
theorem fixes_reduce (tidy : t.Tidy) (canonical : d.Canonical)
    (rest : ∀ u, Narrow.reduce v d t = .ok () u → u.Tidy → Cuts v d t u → Idle u (f ())) :
    Fixes id t (Narrow.reduce v d >>= f) v d := by
  have ensured := tidy.reduce (v := v) (M := fun _ => False) canonical fun _ => False.elim
  unfold Narrow.Ensures at ensured
  cases ran : Narrow.reduce v d t with
  | error why u => exact .inr ⟨t, .refl id t, .inr ⟨why, u, u, bind_of_error ran, ran⟩⟩
  | ok _ u =>
    rw [ran] at ensured
    rcases rest u ran ensured.1 ensured.2.1 with ⟨why, u', stopped⟩ | idle
    · exact .inl ⟨why, u', (bind_of_ok ran).trans stopped⟩
    · exact .inr ⟨t, .refl id t, .inl ⟨u, (bind_of_ok ran).trans idle, ran⟩⟩

/-- A conflict where narrowing is one. -/
theorem fixes_of_conflict (tidy : t.Tidy) (canonical : d.Canonical) (apart : ∀ n ∈ t.peek v, n ∉ d)
    (ran : ∃ u, m t = .error .conflict u) : Fixes id t m v d := by
  obtain ⟨u, ran⟩ := ran
  obtain ⟨u', refused⟩ := Solver.reduce_of_apart tidy canonical apart
  exact .inr ⟨t, .refl id t, .inr ⟨.conflict, u, u', ran, refused⟩⟩

/-- What is narrowed to one value at most has it. -/
theorem solved_of_cuts (tidy : u.Tidy) (values : ∀ n, o = some n → isValue n = true) (loaded : u.Loaded v)
    (cuts : Cuts v (.ofValue o) t u) : ∃ k, o = some k ∧ u.Solved v k := by
  obtain ⟨k, mem⟩ := cuts.inhabited
  have here := Domain.mem_ofValue.mp (cuts.left k mem)
  refine ⟨k, here, loaded, (tidy.canonical v).eq_singleton (values k here) fun m => ⟨fun mem => ?_, fun same => same ▸ mem⟩⟩
  exact Option.some.inj ((Domain.mem_ofValue.mp (cuts.left m mem)).symm.trans here)

/-- Variables with values are left alone. -/
theorem idle_resubscribe {vs : List Var} (solved : ∀ v ∈ vs, ∃ n, t.Solved v n) : Idle t (resubscribe id vs) :=
  .inr (Solver.resubscribe_of_solved id vs solved)

theorem Idle.reduce (solved : t.Solved v n) (tidy : t.Tidy) (canonical : d.Canonical) (mem : n ∈ d) (rest : Idle t (f ())) :
    Idle t (Narrow.reduce v d >>= f) := by
  have same := solved.reduce tidy canonical mem
  unfold Idle at rest ⊢
  rwa [bind_of_ok same]

theorem Idle.domain {f : Domain → Narrow Unit} (loaded : t.Loaded v) (rest : Idle t (f (t.peek v))) :
    Idle t (Narrow.domain v >>= f) := by
  unfold Idle at rest ⊢
  rwa [bind_of_ok (domain_run loaded)]

theorem idle_pair {m : Int} (first : t.Solved x n) (second : t.Solved z m) : Idle t (resubscribe id [x, z]) :=
  idle_resubscribe (by simpa using ⟨⟨n, first⟩, ⟨m, second⟩⟩)

section Known

variable (tidy : t.Tidy) (value : t.resolve w = .value n) (values : ∀ k, o = some k → isValue k = true)

include tidy value values

/-- An unknown gets its value, and nothing is changed afterwards. -/
theorem fixes_value (loaded : t.Loaded v)
    (rest : ∀ u k, o = some k → u.Tidy → u.resolve w = .value n → u.Solved v k → Idle u (f ())) :
    Fixes id t (reduce v (.ofValue o) >>= f) v (.ofValue o) := by
  refine fixes_reduce tidy (Domain.canonical_ofValue values) fun u ran tidy_u cuts => ?_
  obtain ⟨k, found, solved⟩ := solved_of_cuts tidy_u values (loaded.reduce ran) cuts
  exact rest u k found tidy_u (cuts.resolve ▸ value) solved

/-- The integer is looked at first, which changes nothing if there is a value for the unknown. -/
theorem fixes_after_known (canonical : d.Canonical) (mem : ∀ k ∈ t.peek v, o = some k → n ∈ d)
    (rest : Fixes id t (f ()) v (.ofValue o)) : Fixes id t (reduce w d >>= f) v (.ofValue o) := by
  have known := Solver.solved_of_value value
  by_cases inside : n ∈ d
  · exact rest.congr (bind_of_ok (known.reduce tidy canonical inside))
  · refine fixes_of_conflict tidy (Domain.canonical_ofValue values)
      (fun k in_v same => inside (mem k in_v (Domain.mem_ofValue.mp same))) ?_
    obtain ⟨u, refused⟩ := Solver.reduce_of_apart (v := w) tidy canonical
      fun m in_w => by rw [known.only, Domain.mem_singleton] at in_w; exact in_w ▸ inside
    exact ⟨u, bind_of_error refused⟩

end Known

/-! ## Differences -/

section Differences

variable (tidy : t.Tidy) (value : t.resolve w = .value n) (sized : isValue n = true)

include tidy value sized

/-- A difference of which the first operand is an integer. -/
theorem fixes_plusConst (loaded : t.Loaded z) :
    Fixes id t (runPlusConst id w c z) z (.ofValue (value? (n + c))) := by
  have known := Solver.solved_of_value value
  have values (k : Int) (found : value? (n + c) = some k) : isValue k = true := Domain.isValue_of_value? found
  have looks : runPlusConst id w c z t = (do
      reduce z (.ofValue (value? (n + c)))
      let dz ← domain z
      if c = minValue then throw (.fault .negateOverflow)
      reduce w (dz.shift (-c))
      resubscribe id [w, z] : Narrow Unit) t := by
    unfold runPlusConst
    rw [bind_of_ok (sameVar_run t w z), (Solver.sameVar_of_value value z).1, if_neg Bool.false_ne_true,
      bind_of_ok (domain_run known.loaded), known.only, Domain.shift_singleton sized]
  refine EndsAs.congr (fixes_value tidy value values loaded fun u k sum tidy_u value_u solved => ?_) looks
  have known_u := Solver.solved_of_value value_u
  obtain ⟨sized_k, rfl⟩ := value?_eq_some_iff.mp sum
  refine .domain solved.loaded ?_
  rw [solved.only]
  by_cases least : c = minValue
  · rw [if_pos least]
    exact .inl ⟨_, _, rfl⟩
  · rw [if_neg least]
    refine .reduce known_u tidy_u (Domain.canonical_shift _ _) ?_ (idle_pair known_u solved)
    rw [Domain.shift_singleton sized_k, Domain.mem_ofValue, value?_eq_some_iff, Int.add_neg_cancel_right]
    exact ⟨sized, rfl⟩

/-- A difference of which the result is an integer. -/
theorem fixes_plusConst_back (loaded : t.Loaded x) :
    Fixes id t (runPlusConst id x c w) x (.ofValue (value? (n - c))) := by
  have known := Solver.solved_of_value value
  have values (k : Int) (found : value? (n - c) = some k) : isValue k = true := Domain.isValue_of_value? found
  have looks : runPlusConst id x c w t = (do
      reduce w ((t.peek x).shift c)
      let dz ← domain w
      if c = minValue then throw (.fault .negateOverflow)
      reduce x (dz.shift (-c))
      resubscribe id [x, w] : Narrow Unit) t := by
    unfold runPlusConst
    rw [bind_of_ok (sameVar_run t x w), (Solver.sameVar_of_value value x).2, if_neg Bool.false_ne_true,
      bind_of_ok (domain_run loaded)]
  refine EndsAs.congr (fixes_after_known tidy value values (Domain.canonical_shift _ _) (fun k in_x same => ?_) ?_) looks
  · obtain ⟨_, rfl⟩ := value?_eq_some_iff.mp same
    exact (tidy.canonical x).mem_shift.mpr (.inr ⟨sized, in_x⟩)
  refine EndsAs.congr (m := do
    if c = minValue then throw (.fault .negateOverflow)
    reduce x (.ofValue (value? (n - c)))
    resubscribe id [x, w]) ?_ ?_
  · by_cases least : c = minValue
    · rw [if_pos least]
      exact .inl ⟨_, _, rfl⟩
    · rw [if_neg least]
      exact fixes_value tidy value values loaded fun u k _ _ value_u solved =>
        idle_pair solved (Solver.solved_of_value value_u)
  · rw [bind_of_ok (domain_run known.loaded), known.only, Domain.shift_singleton sized, ← Int.sub_eq_add_neg]

end Differences

/-- A difference of one unbound variable from itself. -/
theorem runPlusConst_alias (same : t.sameVar x z = true) : runPlusConst id x c z t = require (c = 0) t := by
  unfold runPlusConst
  rw [bind_of_ok (sameVar_run t x z), if_pos same]

/-! ## Tables -/

section Tables

variable {rows : List (List Int)} {origin : Term} {a b k : Int}

/-- A table of the one row of the values `a` and `b`. -/
theorem runTable_pair (loaded_x : t.Loaded x) (loaded_z : t.Loaded z) (apart : t.sameVar x z = false)
    (all : ∀ row ∈ rows, row = [a, b]) (some_row : rows ≠ []) (in_x : a ∈ t.peek x) (in_z : b ∈ t.peek z)
    (sized_a : isValue a = true) (sized_b : isValue b = true) :
    runTable id [x, z] rows origin t = (do
      reduce x (.singleton a)
      reduce z (.singleton b)
      resubscribe id [x, z] : Narrow Unit) t := by
  have fits : rows.filter (rowFits ([x, z].map t.peek) (t.aliasPairs [x, z])) = rows := by
    refine List.filter_eq_self.mpr fun row mem => Solver.rowFits_iff.mpr ?_
    rw [all row mem]
    refine ⟨fun k v at_k => ?_, fun i j v w at_i at_j same => ?_⟩
    · match k, at_k with
      | 0, at_k => cases at_k; exact ⟨a, rfl, in_x⟩
      | 1, at_k => cases at_k; exact ⟨b, rfl, in_z⟩
    · match i, j, at_i, at_j with
      | 0, 0, _, _ => rfl
      | 1, 1, _, _ => rfl
      | 0, 1, at_i, at_j =>
        cases at_i
        cases at_j
        cases apart.symm.trans same
      | 1, 0, at_i, at_j =>
        cases at_i
        cases at_j
        cases apart.symm.trans (t.sameVar_comm x z ▸ same)
  have column {k : Nat} {n : Int} (at_k : ([a, b] : List Int)[k]? = some n) (value : isValue n = true) :
      Domain.values (rows.filterMap (·[k]?)) = .singleton n := by
    refine Domain.values_eq_singleton value fun m => ?_
    rw [List.mem_filterMap]
    constructor
    · rintro ⟨row, mem, found⟩
      rw [all row mem, at_k] at found
      exact (Option.some.inj found).symm
    · rintro rfl
      obtain ⟨row, mem⟩ := List.exists_mem_of_ne_nil rows some_row
      exact ⟨row, mem, by rw [all row mem, at_k]⟩
  have domains := Solver.mapM_domain (s := t) [x, z] (by simpa using ⟨loaded_x, loaded_z⟩)
  have looks : aliases [x, z] t = .ok (t.aliasPairs [x, z]) t := rfl
  have some_live : (!rows.isEmpty) = true := by simpa using some_row
  unfold runTable
  rw [bind_of_ok domains, bind_of_ok looks]
  dsimp only
  rw [fits, some_live, if_neg (Nat.lt_irrefl _)]
  refine (bind_of_ok (t := t) rfl).trans ?_
  have unrolled (f : Var × Nat → Narrow Unit) :
      [x, z].zipIdx.forM f = (f (x, 0) >>= fun _ => f (z, 1) >>= fun _ => Pure.pure ()) := rfl
  rw [unrolled]
  simp only [bind_assoc, pure_bind, column (k := 0) rfl sized_a, column (k := 1) rfl sized_b]

theorem runTable_nil {vs : List Var} (loaded : ∀ v ∈ vs, t.Loaded v) :
    ∃ u, runTable id vs [] origin t = .error .conflict u := by
  have looks : aliases vs t = .ok (t.aliasPairs vs) t := rfl
  unfold runTable
  rw [bind_of_ok (Solver.mapM_domain vs loaded), bind_of_ok looks]
  exact ⟨t, rfl⟩

/-- A table of which the second column has one value at most, and the first one is known. -/
theorem fixes_becomeTable (tidy : t.Tidy) (value : t.resolve w = .value n) (sized : isValue n = true)
    (loaded : t.Loaded z) (values : ∀ k, o = some k → isValue k = true)
    (listed : ∀ row, row ∈ rows ↔ ∃ k, o = some k ∧ k ∈ t.peek z ∧ row = [n, k]) :
    Fixes id t (becomeTable id [w, z] rows origin) z (.ofValue o) := by
  obtain ⟨u, replaced, retouched⟩ := t.retouched_replaceWith id (.table [w, z] rows origin)
  refine EndsAs.retouched (m := runTable id [w, z] rows origin) (bind_of_ok replaced) retouched ?_
  have tidy_u := retouched.matched.tidy tidy
  have loaded_u := retouched.loaded loaded
  have value_u : u.resolve w = .value n := retouched.matched.resolve ▸ value
  rw [← retouched.matched.peek] at listed
  have known := Solver.solved_of_value value_u
  have canonical := Domain.canonical_ofValue values
  by_cases found : ∃ k, o = some k ∧ k ∈ u.peek z
  · obtain ⟨k, rfl, in_z⟩ := found
    have sized_k := values k rfl
    have all (row : List Int) (mem : row ∈ rows) : row = [n, k] := by
      obtain ⟨_, ⟨⟩, _, eq⟩ := (listed row).mp mem
      exact eq
    have some_row : rows ≠ [] := List.ne_nil_of_mem ((listed [n, k]).mpr ⟨k, rfl, in_z, rfl⟩)
    have in_w : n ∈ u.peek w := by rw [known.only, Domain.mem_singleton]
    refine EndsAs.congr (fixes_value (f := fun _ => resubscribe id [w, z]) tidy_u value_u values loaded_u
      fun u' k _ _ value' solved => idle_pair (Solver.solved_of_value value') solved) ?_
    · rw [runTable_pair known.loaded loaded_u (Solver.sameVar_of_value value_u z).1 all some_row in_w in_z sized sized_k,
        bind_of_ok (known.reduce tidy_u (Solver.canonical_singleton sized) (Domain.mem_singleton.mpr rfl))]
      rfl
  · obtain rfl : rows = [] := List.eq_nil_iff_forall_not_mem.mpr fun row mem => by
      obtain ⟨k, same, in_z, _⟩ := (listed row).mp mem
      exact found ⟨k, same, in_z⟩
    exact fixes_of_conflict tidy_u canonical (fun k in_z same => found ⟨k, Domain.mem_ofValue.mp same, in_z⟩)
      (runTable_nil (by simpa using ⟨known.loaded, loaded_u⟩))

/-- A table of which the first column has one value at most, and the second one is known. -/
theorem fixes_becomeTable_back (tidy : t.Tidy) (value : t.resolve w = .value n) (sized : isValue n = true)
    (loaded : t.Loaded x) (values : ∀ k, o = some k → isValue k = true)
    (listed : ∀ row, row ∈ rows ↔ ∃ k, o = some k ∧ k ∈ t.peek x ∧ row = [k, n]) :
    Fixes id t (becomeTable id [x, w] rows origin) x (.ofValue o) := by
  obtain ⟨u, replaced, retouched⟩ := t.retouched_replaceWith id (.table [x, w] rows origin)
  refine EndsAs.retouched (m := runTable id [x, w] rows origin) (bind_of_ok replaced) retouched ?_
  have tidy_u := retouched.matched.tidy tidy
  have loaded_u := retouched.loaded loaded
  have value_u : u.resolve w = .value n := retouched.matched.resolve ▸ value
  rw [← retouched.matched.peek] at listed
  have known := Solver.solved_of_value value_u
  have canonical := Domain.canonical_ofValue values
  by_cases found : ∃ k, o = some k ∧ k ∈ u.peek x
  · obtain ⟨k, rfl, in_x⟩ := found
    have sized_k := values k rfl
    have all (row : List Int) (mem : row ∈ rows) : row = [k, n] := by
      obtain ⟨_, ⟨⟩, _, eq⟩ := (listed row).mp mem
      exact eq
    have some_row : rows ≠ [] := List.ne_nil_of_mem ((listed [k, n]).mpr ⟨k, rfl, in_x, rfl⟩)
    have in_w : n ∈ u.peek w := by rw [known.only, Domain.mem_singleton]
    refine EndsAs.congr (fixes_value tidy_u value_u values loaded_u fun u' k _ tidy' value' solved => ?_)
      (runTable_pair loaded_u known.loaded (Solver.sameVar_of_value value_u x).2 all some_row in_x in_w sized_k sized)
    have known' := Solver.solved_of_value value'
    exact .reduce known' tidy' (Solver.canonical_singleton sized) (Domain.mem_singleton.mpr rfl) (idle_pair solved known')
  · obtain rfl : rows = [] := List.eq_nil_iff_forall_not_mem.mpr fun row mem => by
      obtain ⟨k, same, in_x, _⟩ := (listed row).mp mem
      exact found ⟨k, same, in_x⟩
    exact fixes_of_conflict tidy_u canonical (fun k in_x same => found ⟨k, Domain.mem_ofValue.mp same, in_x⟩)
      (runTable_nil (by simpa using ⟨loaded_u, known.loaded⟩))

end Tables

/-! ## Multiples -/

section Multiples

variable (tidy : t.Tidy) (value : t.resolve w = .value n) (sized : isValue n = true)

include tidy value sized

/-- A multiple of an integer. -/
theorem fixes_scale (loaded : t.Loaded z) : Fixes id t (runScale id c w z) z (.ofValue (value? (c * n))) := by
  by_cases zero : c = 0
  · subst zero
    rw [Int.zero_mul, value?_eq_some_iff.mpr ⟨by decide, rfl⟩]
    exact .of_eq rfl
  have known := Solver.solved_of_value value
  have few : (Domain.singleton n).size.any (· ≤ tableThreshold) = true := by
    simp [Domain.singleton, Domain.size, tableThreshold]
  have finite : Domain.singleton n ≠ .unbounded := Domain.noConfusion
  have looks : runScale id c w z t = becomeTable id [w, z] ((Domain.singleton n).toList.filterMap fun a =>
      (value? (a * c)).bind fun b => if (t.peek z).contains b then some [a, b] else none)
      (Relation.scale c w z).statement t := by
    unfold runScale
    rw [if_neg zero, bind_of_ok (sameVar_run t w z), (Solver.sameVar_of_value value z).1, if_neg Bool.false_ne_true,
      bind_of_ok (domain_run known.loaded), bind_of_ok (domain_run loaded), known.only, if_pos few]
  refine EndsAs.congr (fixes_becomeTable tidy value sized loaded (fun _ => Domain.isValue_of_value?) fun row => ?_) looks
  rw [Solver.Running.mem_pairRows]
  constructor
  · rintro ⟨a, mem, valued, in_z, rfl⟩
    obtain rfl := Domain.mem_singleton.mp ((Domain.mem_toList finite).mp mem)
    exact ⟨a * c, value?_eq_some_iff.mpr ⟨Int.mul_comm a c ▸ valued, Int.mul_comm c a⟩, in_z, rfl⟩
  · rintro ⟨k, product, in_z, rfl⟩
    obtain ⟨valued, rfl⟩ := value?_eq_some_iff.mp product
    rw [Int.mul_comm] at valued in_z ⊢
    exact ⟨n, (Domain.mem_toList finite).mpr (Domain.mem_singleton.mpr rfl), valued, in_z, rfl⟩

/-- A multiple that is an integer. -/
theorem fixes_scale_back (nonzero : c ≠ 0) (loaded : t.Loaded x) :
    Fixes id t (runScale id c x w) x (.ofValue (Domain.quotient? n c)) := by
  have known := Solver.solved_of_value value
  have values (k : Int) (found : Domain.quotient? n c = some k) : isValue k = true :=
    ((Domain.quotient?_eq_some_iff nonzero).mp found).1
  have looks : runScale id c x w t = (
      if (t.peek x).size.any (· ≤ tableThreshold) then
        becomeTable id [x, w] ((t.peek x).toList.filterMap fun a =>
          (value? (a * c)).bind fun b => if (Domain.singleton n).contains b then some [a, b] else none)
          (Relation.scale c x w).statement
      else do
        reduce w ((t.peek x).scale c)
        let dz ← domain w
        reduce x (dz.divideExact c)
        resubscribe id [x, w] : Narrow Unit) t := by
    unfold runScale
    rw [if_neg nonzero, bind_of_ok (sameVar_run t x w), (Solver.sameVar_of_value value x).2, if_neg Bool.false_ne_true,
      bind_of_ok (domain_run loaded), bind_of_ok (domain_run known.loaded), known.only]
  by_cases few : (t.peek x).size.any (· ≤ tableThreshold) = true
  · rw [if_pos few] at looks
    have finite : t.peek x ≠ .unbounded := by
      intro full
      simp [full, Domain.size] at few
    refine EndsAs.congr (fixes_becomeTable_back tidy value sized loaded values fun row => ?_) looks
    rw [Solver.Running.mem_pairRows]
    constructor
    · rintro ⟨a, mem, _, in_w, rfl⟩
      have in_x := (Domain.mem_toList finite).mp mem
      obtain rfl := Domain.mem_singleton.mp in_w
      exact ⟨a, (Domain.quotient?_eq_some_iff nonzero).mpr ⟨tidy.isValue_of_mem finite in_x, Int.mul_comm c a⟩, in_x, rfl⟩
    · rintro ⟨k, found, in_x, rfl⟩
      obtain ⟨_, product⟩ := (Domain.quotient?_eq_some_iff nonzero).mp found
      rw [Int.mul_comm] at product
      refine ⟨k, (Domain.mem_toList finite).mpr in_x, ?_⟩
      rw [product]
      exact ⟨sized, Domain.mem_singleton.mpr rfl, rfl⟩
  rw [if_neg few] at looks
  refine EndsAs.congr (fixes_after_known tidy value values (Domain.canonical_scale (tidy.canonical x) c)
    (fun k in_x found => ?_) ?_) looks
  · obtain ⟨_, product⟩ := (Domain.quotient?_eq_some_iff nonzero).mp found
    rw [← product]
    exact (tidy.canonical x).mem_scale in_x (product ▸ sized)
  refine EndsAs.congr (m := do
    reduce x (.ofValue (Domain.quotient? n c))
    resubscribe id [x, w]) ?_ ?_
  · exact fixes_value tidy value values loaded fun u k _ _ value_u solved =>
      idle_pair solved (Solver.solved_of_value value_u)
  · rw [bind_of_ok (domain_run known.loaded), known.only, Domain.divideExact_singleton nonzero]

end Multiples

/-! ## Sums with a known result -/

section Sums

/-- A known sum of an integer and an unknown. -/
theorem fixes_sumConst (tidy : t.Tidy) (value : t.resolve w = .value n) (sized : isValue n = true) (loaded : t.Loaded y) :
    Fixes id t (runSumConst id w y c) y (.ofValue (value? (c - n))) := by
  have known := Solver.solved_of_value value
  have values (k : Int) (found : value? (c - n) = some k) : isValue k = true := Domain.isValue_of_value? found
  have looks : runSumConst id w y c t = (
      if (Domain.singleton n).smallProduct (t.peek y) then
        becomeTable id [w, y] (((Domain.singleton n).partnered (t.peek y)).filterMap fun a =>
          (value? (c - a)).bind fun b => if (t.peek y).contains b then some [a, b] else none)
          (Relation.sumConst w y c).statement
      else do
        reduce w ((t.peek y).subtractFrom c)
        let dx ← domain w
        reduce y (dx.subtractFrom c)
        resubscribe id [w, y] : Narrow Unit) t := by
    unfold runSumConst
    rw [bind_of_ok (sameVar_run t w y), (Solver.sameVar_of_value value y).1, if_neg Bool.false_ne_true,
      bind_of_ok (domain_run known.loaded), bind_of_ok (domain_run loaded), known.only]
  by_cases few : (Domain.singleton n).smallProduct (t.peek y) = true
  · rw [if_pos few] at looks
    obtain ⟨finite, _⟩ := Solver.Running.finite_of_smallProduct few
    refine EndsAs.congr (fixes_becomeTable tidy value sized loaded values fun row => ?_) looks
    rw [Solver.Running.mem_pairRows]
    constructor
    · rintro ⟨a, mem, valued, in_y, rfl⟩
      obtain rfl := Domain.mem_singleton.mp (Solver.Running.of_mem_partnered finite mem)
      exact ⟨c - a, value?_eq_some_iff.mpr ⟨valued, rfl⟩, in_y, rfl⟩
    · rintro ⟨k, found, in_y, rfl⟩
      obtain ⟨valued, rfl⟩ := value?_eq_some_iff.mp found
      exact ⟨n, (Solver.Running.mem_partnered finite in_y).mpr (Domain.mem_singleton.mpr rfl), valued, in_y, rfl⟩
  rw [if_neg few] at looks
  refine EndsAs.congr (fixes_after_known tidy value values (Domain.canonical_subtractFrom _ _)
    (fun k in_y found => ?_) ?_) looks
  · obtain ⟨_, rfl⟩ := value?_eq_some_iff.mp found
    exact (tidy.canonical y).mem_subtractFrom.mpr (.inr ⟨sized, in_y⟩)
  refine EndsAs.congr (m := do
    reduce y (.ofValue (value? (c - n)))
    resubscribe id [w, y]) ?_ ?_
  · exact fixes_value tidy value values loaded fun u k _ _ value_u solved =>
      idle_pair (Solver.solved_of_value value_u) solved
  · rw [bind_of_ok (domain_run known.loaded), known.only, Domain.subtractFrom_singleton sized]

/-- A known sum of an unknown and an integer. -/
theorem fixes_sumConst_back (tidy : t.Tidy) (value : t.resolve w = .value n) (sized : isValue n = true)
    (loaded : t.Loaded x) : Fixes id t (runSumConst id x w c) x (.ofValue (value? (c - n))) := by
  have known := Solver.solved_of_value value
  have values (k : Int) (found : value? (c - n) = some k) : isValue k = true := Domain.isValue_of_value? found
  have looks : runSumConst id x w c t = (
      if (t.peek x).smallProduct (.singleton n) then
        becomeTable id [x, w] (((t.peek x).partnered (.singleton n)).filterMap fun a =>
          (value? (c - a)).bind fun b => if (Domain.singleton n).contains b then some [a, b] else none)
          (Relation.sumConst x w c).statement
      else do
        reduce x ((Domain.singleton n).subtractFrom c)
        let dx ← domain x
        reduce w (dx.subtractFrom c)
        resubscribe id [x, w] : Narrow Unit) t := by
    unfold runSumConst
    rw [bind_of_ok (sameVar_run t x w), (Solver.sameVar_of_value value x).2, if_neg Bool.false_ne_true,
      bind_of_ok (domain_run loaded), bind_of_ok (domain_run known.loaded), known.only]
  by_cases few : (t.peek x).smallProduct (.singleton n) = true
  · rw [if_pos few] at looks
    obtain ⟨finite, _⟩ := Solver.Running.finite_of_smallProduct few
    refine EndsAs.congr (fixes_becomeTable_back tidy value sized loaded values fun row => ?_) looks
    have partner : n ∈ Domain.singleton n := Domain.mem_singleton.mpr rfl
    rw [Solver.Running.mem_pairRows]
    constructor
    · rintro ⟨a, mem, _, in_w, rfl⟩
      have in_x := Solver.Running.of_mem_partnered finite mem
      have same := Domain.mem_singleton.mp in_w
      rw [same]
      exact ⟨a, value?_eq_some_iff.mpr ⟨by rw [← same, Int.sub_sub_self]; exact tidy.isValue_of_mem finite in_x,
        by rw [← same, Int.sub_sub_self]⟩, in_x, rfl⟩
    · rintro ⟨k, found, in_x, rfl⟩
      obtain ⟨_, rfl⟩ := value?_eq_some_iff.mp found
      refine ⟨c - n, (Solver.Running.mem_partnered finite partner).mpr in_x, ?_⟩
      rw [Int.sub_sub_self]
      exact ⟨sized, partner, rfl⟩
  rw [if_neg few, Domain.subtractFrom_singleton sized] at looks
  refine EndsAs.congr (fixes_value tidy value values loaded fun u k found tidy_u value_u solved => ?_) looks
  have known_u := Solver.solved_of_value value_u
  obtain ⟨valued, rfl⟩ := value?_eq_some_iff.mp found
  refine .domain solved.loaded ?_
  rw [solved.only]
  refine .reduce known_u tidy_u (Domain.canonical_subtractFrom _ _) ?_ (idle_pair solved known_u)
  rw [Domain.subtractFrom_singleton valued, Domain.mem_ofValue, value?_eq_some_iff, Int.sub_sub_self]
  exact ⟨sized, rfl⟩

/-- A known sum of one unbound variable and itself. -/
theorem fixes_sumConst_alias (tidy : t.Tidy) (same : t.sameVar x y = true) (sized : isValue c = true) :
    Fixes id t (runSumConst id x y c) x (.ofValue (Domain.quotient? c 2)) := by
  have looks : runSumConst id x y c t = (do
      require (Int.tmod c 2 = 0)
      reduce x (.singleton (Int.tdiv c 2)) : Narrow Unit) t := by
    unfold runSumConst
    rw [bind_of_ok (sameVar_run t x y), same, if_pos rfl]
  by_cases even : Int.tmod c 2 = 0
  · have half : Domain.quotient? c 2 = some (Int.tdiv c 2) :=
      (Domain.quotient?_eq_some_iff (by decide)).mpr ((Solver.Running.isValue_half sized even).symm)
    rw [half]
    refine .of_eq (looks.trans (bind_of_ok (t := t) (a := ()) ?_))
    rw [decide_eq_true even]
    rfl
  · have none : Domain.quotient? c 2 = none := if_neg even
    rw [none]
    refine fixes_of_conflict tidy trivial (fun k _ => Domain.not_mem_empty k) ⟨t, looks.trans (bind_of_error ?_)⟩
    rw [decide_eq_false even]
    rfl

end Sums

/-! ## Sums -/

section Sum

variable {a b : Int} {r : Relation}

theorem reduce_of_value (value : t.resolve v = .value n) (d : Domain) : reduce v d t = require (d.contains n) t := by
  rw [Solver.reduce_eq, value]

/-- The run goes on as one for another relation. -/
theorem EndsAs.replaced (looks : m t = (do replaceWith id r; propagate id r : Narrow Unit) t)
    (ends : ∀ u, Retouched id t u → EndsAs id u (propagate id r) m') : EndsAs id t m m' := by
  obtain ⟨u, replaced, retouched⟩ := t.retouched_replaceWith id r
  exact (ends u retouched).retouched (looks.trans (bind_of_ok replaced)) retouched

/-- An unbound variable has more than one value. -/
def Open (t : Solver) (v : Var) : Prop := ∀ u, t.resolve v = .free u → (t.peek v).solution = none

theorem solution_of_open (h : Open t v) (unknown : ∀ n, t.resolve v ≠ .value n) : (t.peek v).solution = none := by
  cases found : t.resolve v with
  | free u => exact h u found
  | value n => exact absurd found (unknown n)
  | other => rw [Solver.peek_of_other found]; rfl

theorem runSum_first (value : t.resolve x = .value a) (loaded_y : t.Loaded y) (loaded_z : t.Loaded z)
    (apart : t.sameVar y z = false) :
    runSum id x y z t = (do
      replaceWith id (.plusConst y a z)
      propagate id (.plusConst y a z) : Narrow Unit) t := by
  have known := Solver.solved_of_value value
  have only : (Domain.singleton a).solution = some a := if_pos rfl
  unfold runSum
  rw [bind_of_ok (sameVar_run t x y), bind_of_ok (sameVar_run t x z), bind_of_ok (sameVar_run t y z),
    (Solver.sameVar_of_value value y).1, (Solver.sameVar_of_value value z).1, apart]
  simp only [Bool.and_false, Bool.false_eq_true, if_false]
  rw [bind_of_ok (domain_run known.loaded), bind_of_ok (domain_run loaded_y), bind_of_ok (domain_run loaded_z), known.only,
    only]
  rfl

theorem runSum_second (value : t.resolve y = .value b) (loaded_x : t.Loaded x) (loaded_z : t.Loaded z)
    (open_ : (t.peek x).solution = none) (apart : t.sameVar x z = false) :
    runSum id x y z t = (do
      replaceWith id (.plusConst x b z)
      propagate id (.plusConst x b z) : Narrow Unit) t := by
  have known := Solver.solved_of_value value
  have only : (Domain.singleton b).solution = some b := if_pos rfl
  unfold runSum
  rw [bind_of_ok (sameVar_run t x y), bind_of_ok (sameVar_run t x z), bind_of_ok (sameVar_run t y z),
    (Solver.sameVar_of_value value x).2, (Solver.sameVar_of_value value z).1, apart]
  simp only [Bool.and_false, Bool.false_eq_true, if_false]
  rw [bind_of_ok (domain_run loaded_x), bind_of_ok (domain_run known.loaded), bind_of_ok (domain_run loaded_z), known.only,
    only, open_]
  rfl

theorem runSum_result (value : t.resolve z = .value n) (loaded_x : t.Loaded x) (loaded_y : t.Loaded y)
    (open_x : (t.peek x).solution = none) (open_y : (t.peek y).solution = none) (apart : t.sameVar x y = false) :
    runSum id x y z t = (do
      replaceWith id (.sumConst x y n)
      propagate id (.sumConst x y n) : Narrow Unit) t := by
  have known := Solver.solved_of_value value
  have only : (Domain.singleton n).solution = some n := if_pos rfl
  unfold runSum
  rw [bind_of_ok (sameVar_run t x y), bind_of_ok (sameVar_run t x z), bind_of_ok (sameVar_run t y z),
    (Solver.sameVar_of_value value x).2, (Solver.sameVar_of_value value y).2, apart]
  simp only [Bool.and_false, Bool.false_eq_true, if_false]
  rw [bind_of_ok (domain_run loaded_x), bind_of_ok (domain_run loaded_y), bind_of_ok (domain_run known.loaded), known.only,
    only, open_x, open_y]
  rfl

/-- The first operand is the result. -/
theorem runSum_alias_first (value : t.resolve y = .value b) (same : t.sameVar x z = true) :
    runSum id x y z t = reduce y (.singleton 0) t := by
  unfold runSum
  rw [bind_of_ok (sameVar_run t x y), bind_of_ok (sameVar_run t x z), bind_of_ok (sameVar_run t y z),
    (Solver.sameVar_of_value value x).2, same]
  rfl

/-- The second operand is the result. -/
theorem runSum_alias_second (value : t.resolve x = .value a) (same : t.sameVar y z = true) :
    runSum id x y z t = reduce x (.singleton 0) t := by
  unfold runSum
  rw [bind_of_ok (sameVar_run t x y), bind_of_ok (sameVar_run t x z), bind_of_ok (sameVar_run t y z),
    (Solver.sameVar_of_value value y).1, (Solver.sameVar_of_value value z).1, same]
  rfl

/-- Both operands are one variable. -/
theorem runSum_alias_both (value : t.resolve z = .value n) (same : t.sameVar x y = true) :
    runSum id x y z t = (do
      replaceWith id (.scale 2 x z)
      propagate id (.scale 2 x z) : Narrow Unit) t := by
  unfold runSum
  rw [bind_of_ok (sameVar_run t x y), bind_of_ok (sameVar_run t x z), bind_of_ok (sameVar_run t y z),
    (Solver.sameVar_of_value value x).2, same]
  rfl

section Fixes

variable (tidy : t.Tidy)

include tidy

/-- A sum of two integers. -/
theorem fixes_sum (value : t.resolve x = .value a) (value' : t.resolve y = .value b) (sized : isValue b = true)
    (loaded : t.Loaded z) : Fixes id t (runSum id x y z) z (.ofValue (value? (a + b))) := by
  have known := Solver.loaded_of_value value'
  refine .replaced (runSum_first value known loaded (Solver.sameVar_of_value value' z).1) fun u retouched => ?_
  rw [Int.add_comm]
  exact fixes_plusConst (retouched.matched.tidy tidy) (retouched.matched.resolve ▸ value') sized (retouched.loaded loaded)

/-- The first operand and the result are integers. -/
theorem fixes_sum_second (value : t.resolve x = .value a) (value' : t.resolve z = .value n) (sized : isValue n = true)
    (loaded : t.Loaded y) : Fixes id t (runSum id x y z) y (.ofValue (value? (n - a))) := by
  have known := Solver.loaded_of_value value'
  refine .replaced (runSum_first value loaded known (Solver.sameVar_of_value value' y).2) fun u retouched => ?_
  exact fixes_plusConst_back (retouched.matched.tidy tidy) (retouched.matched.resolve ▸ value') sized
    (retouched.loaded loaded)

/-- The second operand and the result are integers. -/
theorem fixes_sum_first (value : t.resolve y = .value b) (value' : t.resolve z = .value n) (sized : isValue n = true)
    (loaded : t.Loaded x) (open_ : Open t x) (values : ∀ a, t.resolve x = .value a → isValue a = true)
    (sized' : isValue b = true) : Fixes id t (runSum id x y z) x (.ofValue (value? (n - b))) := by
  by_cases unknown : ∃ a, t.resolve x = .value a
  · -- All three are integers, of which the result is checked.
    obtain ⟨a, known⟩ := unknown
    refine (fixes_sum tidy known value sized' (Solver.loaded_of_value value')).of_alike fun u retouched => ?_
    have resolve := retouched.matched.resolve
    rw [reduce_of_value (resolve ▸ value'), reduce_of_value (resolve ▸ known)]
    congr 1
    rw [Bool.eq_iff_iff]
    show n ∈ Domain.ofValue _ ↔ a ∈ Domain.ofValue _
    rw [Domain.mem_ofValue, Domain.mem_ofValue, value?_eq_some_iff, value?_eq_some_iff]
    have sized_a := values a known
    constructor
    · rintro ⟨_, rfl⟩
      exact ⟨by rwa [Int.add_sub_cancel], by omega⟩
    · rintro ⟨_, rfl⟩
      exact ⟨by rwa [Int.sub_add_cancel], by omega⟩
  · push Not at unknown
    have known := Solver.loaded_of_value value'
    refine .replaced (runSum_second value loaded known (solution_of_open open_ unknown)
      (Solver.sameVar_of_value value' x).2) fun u retouched => ?_
    exact fixes_plusConst_back (retouched.matched.tidy tidy) (retouched.matched.resolve ▸ value') sized
      (retouched.loaded loaded)

/-- The sum of one variable and itself is an integer. -/
theorem fixes_sum_both (value : t.resolve z = .value n) (sized : isValue n = true) (loaded : t.Loaded x)
    (same : t.sameVar x y = true) : Fixes id t (runSum id x y z) x (.ofValue (Domain.quotient? n 2)) := by
  refine .replaced (runSum_alias_both value same) fun u retouched => ?_
  exact fixes_scale_back (retouched.matched.tidy tidy) (retouched.matched.resolve ▸ value) sized (by decide)
    (retouched.loaded loaded)

end Fixes

end Sum

end Narrow

end ConstraintLogic
