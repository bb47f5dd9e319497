import ConstraintLogic.Proofs.Propagator.Table

/-!
# Running a pairwise difference

A run sorts the operands into values that are taken and unbound variables that are
open. At every moment the relation says the same as the pairwise difference of what
is open, what is still to be sorted and what is taken. A variable stays open only
while it has two values left, and the sweep that fixes no variable is the last one.

Results:
* `Solver.Sorted`: the operands that are sorted so far.
* `Solver.Running.sweepAll`: the sweeps come to an end.
* `Solver.Running.pigeonhole`: counting the values refutes no reading.
* `Solver.Running.runAllDifferent`: a pairwise difference can be run.
-/

namespace ConstraintLogic

/-! ## Taking values out -/

namespace Domain

theorem removeAll_cons_eq_ok_iff {d e : Domain} {n : Int} {ns : List Int} : Narrow.removeAll d (n :: ns) = .ok e ↔
    ∃ d', d.remove n = .ok d' ∧ Narrow.removeAll d' ns = .ok e := by
  rw [Narrow.removeAll, List.foldlM_cons]
  cases d.remove n with
  | error f => simp [bind, Except.bind]
  | ok d' => simp [bind, Except.bind, Narrow.removeAll]

theorem Canonical.removeAll (ns : List Int) : ∀ {d e : Domain}, d.Canonical →
    Narrow.removeAll d ns = .ok e → e.Canonical ∧ ∀ m, m ∉ ns → (m ∈ e ↔ m ∈ d) := by
  induction ns with
  | nil =>
    intro d e h removed
    cases removed
    exact ⟨h, fun m _ => Iff.rfl⟩
  | cons n ns ih =>
    intro d e h removed
    obtain ⟨d', first, rest⟩ := removeAll_cons_eq_ok_iff.mp removed
    obtain ⟨canonical, mem⟩ := ih (h.canonical_remove first) rest
    refine ⟨canonical, fun m out => ?_⟩
    rw [List.mem_cons, not_or] at out
    rw [mem m out.2, h.mem_remove first out.1]

/-- Taking values out fails only where the greatest integer is one of them and in the domain. -/
theorem Canonical.removeAll_error (ns : List Int) : ∀ {d : Domain} {f : Fault}, d.Canonical →
    Narrow.removeAll d ns = .error f → f = .addOverflow ∧ maxValue ∈ d ∧ maxValue ∈ ns := by
  induction ns with
  | nil => exact fun _ h => by cases h
  | cons n ns ih =>
    intro d f canonical h
    rw [Narrow.removeAll, List.foldlM_cons] at h
    cases first : d.remove n with
    | error g =>
      rw [first] at h
      cases h
      obtain ⟨overflow, here, rfl⟩ := remove_error first
      exact ⟨overflow, here, by simp⟩
    | ok d' =>
      rw [first] at h
      obtain ⟨overflow, here, mem⟩ := ih (canonical.canonical_remove first) h
      exact ⟨overflow, mem_of_mem_remove canonical first here, List.mem_cons_of_mem n mem⟩

/-- No value is taken out of the unbounded domain. -/
theorem removeAll_unbounded (ns : List Int) : Narrow.removeAll unbounded ns = .ok unbounded := by
  induction ns with
  | nil => rfl
  | cons n ns ih =>
    rw [Narrow.removeAll, List.foldlM_cons]
    exact ih

end Domain

namespace Solver

variable {C : Contract} {id : PropId} {r : Relation} {s t : Solver}

/-! ## Sorting -/

theorem nodup_append_singleton {α : Type} {l : List α} {a : α} (h : l.Nodup) (new : a ∉ l) : (l ++ [a]).Nodup :=
  List.concat_eq_append ▸ h.concat new

/-- Variables stay named where the next one is left to the variable that it stands for. -/
theorem names_append {rest opened : List Var} {v w : Var} (names : ∀ u ∈ v :: rest ++ opened, s.Names r u)
    (alike : s.resolve v = s.resolve w) : ∀ u ∈ rest ++ (opened ++ [w]), s.Names r u := by
  intro u mem
  rw [← List.append_assoc, List.mem_append] at mem
  rcases mem with mem | mem
  · exact names u (List.mem_cons_of_mem v mem)
  · obtain ⟨x, mem_x, same_x⟩ := names v (by simp)
    rw [List.mem_singleton.mp mem]
    exact ⟨x, mem_x, same_x.trans alike⟩

/-- Different unbound variables are not aliased. -/
theorem sameVar_of_ne {v w : Var} (free : s.resolve v = .free v) (free' : s.resolve w = .free w) (differ : v ≠ w) :
    s.sameVar v w = false := by
  rw [← Bool.not_eq_true, sameVar_iff]
  rintro ⟨u, leads, leads'⟩
  cases free.symm.trans leads
  cases free'.symm.trans leads'
  exact differ rfl

/-- The operands of the relation `r` but for those in `rest` have been sorted. -/
structure Sorted (r : Relation) (rest : List Var) (o : Narrow.Operands) (s : Solver) : Prop where
  names : ∀ v ∈ rest ++ o.opened, s.Names r v
  free : ∀ v ∈ o.opened, s.resolve v = .free v
  distinct : o.opened.Nodup
  taken : o.fixed.Nodup
  values : ∀ n ∈ o.fixed, isValue n = true
  same : ∀ σ, s.Fits (r.vars ++ (rest ++ o.opened)) σ →
    ((Relation.allDifferent (rest ++ o.opened) o.fixed).Holds σ ↔ r.Holds σ)

namespace Sorted

variable {rest : List Var} {o : Narrow.Operands} {v : Var}

/-- Smaller domains leave the operands sorted. -/
theorem shrink (h : s.Sorted r rest o) (shrinks : s.Shrinks t) : t.Sorted r rest o := by
  refine { h with names := ?_, free := ?_, same := fun σ fits => h.same σ (shrinks.fits fits) }
  · unfold Names
    rw [shrinks.resolve]
    exact h.names
  · rw [shrinks.resolve]
    exact h.free

/-- In every reading the operands that are left are pairwise different. -/
theorem nodup (h : s.Sorted r rest o) (running : s.Running C id r) {θ : Var → Term}
    (model : C.models θ) : ((rest ++ o.opened).map (integers θ) ++ o.fixed).Nodup := by
  refine (h.same _ (running.fits (fun v mem => ?_) model)).mpr (running.holds model)
  rcases List.mem_append.mp mem with mem | mem
  · exact names_of_mem mem
  · exact h.names v mem

/-- Two relations may be compared with a value for the next operand. -/
theorem transfer (h : s.Sorted r (v :: rest) o) {q : Relation}
    (same : ∀ τ, s.Fits (r.vars ++ v :: q.vars) τ → (q.Holds τ ↔ r.Holds τ)) {σ : Assignment}
    (fits : s.Fits (r.vars ++ q.vars) σ) : q.Holds σ ↔ r.Holds σ := by
  obtain ⟨x, mem, alike⟩ := h.names v (by simp)
  have named : ∀ w ∈ [v], ∃ x ∈ r.vars ++ q.vars, s.resolve x = s.resolve w := fun w mem_w => by
    rw [List.mem_singleton.mp mem_w]
    exact ⟨x, List.mem_append.mpr (.inl mem), alike⟩
  obtain ⟨τ, fits', agree⟩ := fits.extend named
  have sub : r.vars ++ v :: q.vars ⊆ r.vars ++ q.vars ++ [v] := by
    intro w mem_w
    simp only [List.mem_append, List.mem_cons] at mem_w ⊢
    tauto
  rw [← Relation.holds_congr (r := q) fun w mem => agree w (List.mem_append.mpr (.inr mem)),
    same τ (fits'.mono sub)]
  exact Relation.holds_congr fun w mem => agree w (List.mem_append.mpr (.inl mem))

/-- The next operand is the value `n`. -/
theorem take (h : s.Sorted r (v :: rest) o) {n : Int} (new : n ∉ o.fixed)
    (value : isValue n = true) (alone : ∀ m ∈ s.peek v, m = n) :
    s.Sorted r rest { o with fixed := o.fixed ++ [n] } where
  names w mem := h.names w (List.mem_cons_of_mem v mem)
  free := h.free
  distinct := h.distinct
  taken := nodup_append_singleton h.taken new
  values := List.forall_mem_append.mpr ⟨h.values, List.forall_mem_singleton.mpr value⟩
  same σ fits := by
    refine h.transfer (fun τ fits' => ?_) fits
    have at_v : τ v = n := alone _ (fits'.mem v (by simp))
    rw [← h.same τ fits']
    refine List.Perm.nodup_iff ?_
    rw [List.cons_append, List.map_cons, at_v, ← List.append_assoc]
    exact List.perm_append_comm

/-- The next operand stays open as the variable `w`. -/
theorem keep (h : s.Sorted r (v :: rest) o) {w : Var} (free : s.resolve w = .free w)
    (new : w ∉ o.opened) (alike : s.resolve v = s.resolve w) :
    s.Sorted r rest { o with opened := o.opened ++ [w] } where
  names := names_append h.names alike
  free := List.forall_mem_append.mpr ⟨h.free, List.forall_mem_singleton.mpr free⟩
  distinct := nodup_append_singleton h.distinct new
  taken := h.taken
  values := h.values
  same σ fits := by
    refine h.transfer (fun τ fits' => ?_) fits
    have at_v : τ v = τ w := fits'.alike v (by simp) w (by simp [Relation.vars]) alike
    have sub : r.vars ++ (v :: rest ++ o.opened) ⊆ r.vars ++ v :: (rest ++ (o.opened ++ [w])) := by
      intro u mem
      simp only [List.mem_append, List.mem_cons] at mem ⊢
      tauto
    rw [← h.same τ (fits'.mono sub)]
    refine List.Perm.nodup_iff (List.Perm.append_right o.fixed ?_)
    rw [List.cons_append, List.map_cons, at_v, ← List.append_assoc, List.map_append]
    exact List.perm_append_comm

end Sorted

/-! ## Sorting the operands -/

namespace Running

variable {rest : List Var} {o : Narrow.Operands} {v : Var}

/-- The operand that comes next is not taken yet. -/
theorem not_mem_fixed (h : s.Running C id r) (sorted : s.Sorted r (v :: rest) o) {θ : Var → Term}
    (model : C.models θ) : integers θ v ∉ o.fixed := fun mem => by
  have := sorted.nodup h model
  rw [List.nodup_append] at this
  exact this.2.2 _ (by simp) _ mem rfl

theorem takeOperand (h : s.Running C id r) (sorted : s.Sorted r (v :: rest) o) {n : Int}
    (value : isValue n = true) (alone : ∀ m ∈ s.peek v, m = n) :
    Narrow.Ensures C.models s (o.take n) fun o' t =>
      t = s ∧ o' = { o with fixed := o.fixed ++ [n] } ∧ s.Sorted r rest o' := by
  unfold Narrow.Operands.take
  refine Narrow.ensures_require_bind (fun old θ model => ?_) fun new => ?_
  · rw [Bool.not_eq_false', List.contains_iff_mem] at old
    refine h.not_mem_fixed sorted model ?_
    rw [alone _ (h.mem_peek (sorted.names v (by simp)) model)]
    exact old
  · rw [Bool.not_eq_true', ← Bool.not_eq_true, List.contains_iff_mem] at new
    exact Narrow.Ensures.pure ⟨rfl, rfl, sorted.take new value alone⟩

/-- The constants are taken one after another. -/
theorem takeAll {M : (Var → Term) → Prop} (cs : List Int) : ∀ o : Narrow.Operands, o.fixed.Nodup →
    (∀ θ, M θ → (o.fixed ++ cs).Nodup) →
    Narrow.Ensures M s (cs.foldlM Narrow.Operands.take o) fun o' t =>
      t = s ∧ o' = { o with fixed := o.fixed ++ cs } ∧ o'.fixed.Nodup := by
  induction cs with
  | nil =>
    intro o taken _
    refine Narrow.Ensures.pure ⟨rfl, ?_, taken⟩
    rw [List.append_nil]
  | cons n cs ih =>
    intro o taken different
    rw [List.foldlM_cons]
    refine Narrow.Ensures.bind (Q := fun o' t => t = s ∧ o' = { o with fixed := o.fixed ++ [n] } ∧
      o'.fixed.Nodup) ?_ ?_
    · unfold Narrow.Operands.take
      refine Narrow.ensures_require_bind (fun old θ model => ?_) fun new => ?_
      · rw [Bool.not_eq_false', List.contains_iff_mem] at old
        have := different θ model
        rw [List.nodup_append] at this
        exact this.2.2 n old n (by simp) rfl
      · rw [Bool.not_eq_true', ← Bool.not_eq_true, List.contains_iff_mem] at new
        exact Narrow.Ensures.pure ⟨rfl, rfl, nodup_append_singleton taken new⟩
    · rintro _ t ⟨rfl, rfl, taken'⟩
      refine (ih _ taken' fun θ model => ?_).mono ?_
      · rw [List.append_assoc]
        exact different θ model
      · rintro _ u ⟨rfl, rfl, taken''⟩
        refine ⟨rfl, ?_, taken''⟩
        rw [List.append_assoc]
        rfl

theorem addOperand (h : s.Running C id r) (sorted : s.Sorted r (v :: rest) o) :
    Narrow.Ensures C.models s (o.add v) fun o' t => t = s ∧ s.Sorted r rest o' := by
  unfold Narrow.Operands.add
  refine Narrow.Ensures.step (a := s.resolve v) (t := s) rfl ?_
  cases found : s.resolve v with
  | free w =>
    have free := resolve_of_unbound (h.sound.unbound_of_free found)
    have alike : s.resolve v = s.resolve w := found.trans free.symm
    refine Narrow.ensures_require_bind (fun old θ model => ?_) fun new => ?_
    · rw [Bool.not_eq_false', List.contains_iff_mem] at old
      have := sorted.nodup h model
      rw [List.cons_append, List.map_cons, List.cons_append, List.nodup_cons] at this
      refine this.1 (List.mem_append.mpr (.inl (List.mem_map.mpr ⟨w, by simp [old], ?_⟩)))
      exact (h.alike (sorted.names v (by simp)) model alike).symm
    · rw [Bool.not_eq_true', ← Bool.not_eq_true, List.contains_iff_mem] at new
      exact Narrow.Ensures.pure ⟨rfl, sorted.keep free new alike⟩
  | value n =>
    refine (h.takeOperand sorted (h.sound.isValue_of_value found) fun m mem => ?_).mono ?_
    · rw [peek, found] at mem
      exact Domain.mem_singleton.mp mem
    · exact fun _ _ taken => ⟨taken.1, taken.2.2⟩
  | other =>
    refine Narrow.ensures_conflict fun θ model => ?_
    exact not_isValue_of_other ((h.admits θ).mpr model).binding found
      (h.value (sorted.names v (by simp)) model)

/-- Sorting the operands changes nothing. -/
theorem addAll (h : s.Running C id r) (rest : List Var) : ∀ o : Narrow.Operands,
    s.Sorted r rest o → Narrow.Ensures C.models s (rest.foldlM Narrow.Operands.add o) fun o' t =>
      t = s ∧ s.Sorted r [] o' := by
  induction rest with
  | nil => exact fun o sorted => Narrow.Ensures.pure ⟨rfl, sorted⟩
  | cons v rest ih =>
    intro o sorted
    rw [List.foldlM_cons]
    refine (h.addOperand sorted).bind ?_
    rintro o' _ ⟨rfl, sorted'⟩
    exact ih o' sorted'

/-! ## Sweeping -/

/-- A variable that keeps its own values keeps its domain. -/
theorem solution_of_apart (h : s.Running C id r) (running : t.Running C id r) {d : Domain}
    (reduced : Reduced v d s t) {w : Var} (apart : s.sameVar w v = false) :
    (t.peek w).solution = (s.peek w).solution := by
  have same : t.peek w = s.peek w := (running.sound.canonical_peek w).ext
    (h.sound.canonical_peek w) fun n => reduced.mem_peek_of_apart apart
  rw [same]

/-- One variable of a sweep. -/
def sweepOne (o : Narrow.Operands) (v : Var) : Narrow Narrow.Operands := do
  let current ← Narrow.domain v
  let narrowed ← Narrow.orFault (Narrow.removeAll current o.fixed)
  if narrowed ≠ current then Narrow.reduce v narrowed
  match (← Narrow.domain v).solution with
  | some n => o.take n
  | none => return { o with opened := o.opened ++ [v] }

/-- Taking the taken values out of a domain refutes no reading. -/
theorem reduceTaken (h : s.Running C id r) (sorted : s.Sorted r (v :: rest) o) {d : Domain}
    (removed : Narrow.removeAll (s.peek v) o.fixed = .ok d) :
    Narrow.Ensures C.models s (if d ≠ s.peek v then Narrow.reduce v d else pure ()) fun _ t =>
      t.Running C id r ∧ s.Shrinks t ∧
        ∀ w, s.sameVar w v = false → (t.peek w).solution = (s.peek w).solution := by
  obtain ⟨canonical, mem⟩ := (h.sound.canonical_peek v).removeAll o.fixed removed
  have named := sorted.names v (by simp)
  split
  · refine (h.reduce named canonical fun θ model => ?_).mono ?_
    · exact (mem _ (h.not_mem_fixed sorted model)).mpr (h.mem_peek named model)
    · rintro _ t ⟨running, reduced⟩
      exact ⟨running, reduced.shrinks, fun w apart => h.solution_of_apart running reduced apart⟩
  · exact Narrow.Ensures.pure ⟨h, .refl s, fun _ _ => rfl⟩

theorem sweepOne_spec (h : s.Running C id r) (sorted : s.Sorted r (v :: rest) o)
    (free : s.resolve v = .free v) (new : v ∉ o.opened) :
    Narrow.Ensures C.models s (sweepOne o v) fun o' t =>
      t.Running C id r ∧ t.Sorted r rest o' ∧ s.Shrinks t ∧
        (∀ w, s.sameVar w v = false → (t.peek w).solution = (s.peek w).solution) ∧
        (o'.opened = o.opened ∨ o'.opened = o.opened ++ [v] ∧ (t.peek v).solution = none) := by
  unfold sweepOne
  refine h.domain (sorted.names v (by simp)) ?_
  cases removed : Narrow.removeAll (s.peek v) o.fixed with
  | error f => exact Narrow.ensures_overflow (.inl ((h.sound.canonical_peek v).removeAll_error o.fixed removed).1)
  | ok d =>
    refine Narrow.Ensures.step (a := d) (t := s) rfl ?_
    dsimp only
    refine (h.reduceTaken sorted removed).ite_bind ?_
    rintro _ t ⟨running, shrinks, others⟩
    have sorted' := sorted.shrink shrinks
    refine running.domain (sorted'.names v (by simp)) ?_
    cases only : (t.peek v).solution with
    | some n =>
      obtain ⟨value, alone⟩ := running.eq_of_solution only
      refine (running.takeOperand sorted' value alone).mono ?_
      rintro _ u ⟨rfl, rfl, sorted''⟩
      exact ⟨running, sorted'', shrinks, others, .inl rfl⟩
    | none =>
      have free' : t.resolve v = .free v := by rw [shrinks.resolve, free]
      exact Narrow.Ensures.pure
        ⟨running, sorted'.keep free' new rfl, shrinks, others, .inr ⟨rfl, only⟩⟩

/-- A sweep leaves the variables open that have at least two values. -/
theorem sweepRest (rest : List Var) : ∀ (s : Solver) (o : Narrow.Operands), s.Running C id r →
    s.Sorted r rest o → (∀ v ∈ rest, s.resolve v = .free v) → (rest ++ o.opened).Nodup →
    (∀ v ∈ o.opened, (s.peek v).solution = none) →
    Narrow.Ensures C.models s (rest.foldlM sweepOne o) fun o' t =>
      t.Running C id r ∧ t.Sorted r [] o' ∧ (∀ v ∈ o'.opened, (t.peek v).solution = none) ∧
        o'.opened.length ≤ o.opened.length + rest.length := by
  induction rest with
  | nil => exact fun s o h sorted _ _ open_ => Narrow.Ensures.pure ⟨h, sorted, open_, Nat.le_refl _⟩
  | cons v rest ih =>
    intro s o h sorted free distinct open_
    rw [List.cons_append, List.nodup_cons, List.mem_append, not_or] at distinct
    obtain ⟨⟨not_later, not_before⟩, distinct⟩ := distinct
    rw [List.foldlM_cons]
    refine (h.sweepOne_spec sorted (free v (by simp)) not_before).bind ?_
    rintro o' t ⟨running, sorted', shrinks, others, grown⟩
    have apart (w : Var) (mem : w ∈ o.opened) : s.sameVar w v = false :=
      sameVar_of_ne (sorted.free w mem) (free v (by simp)) fun same => not_before (same ▸ mem)
    have still (w : Var) (mem : w ∈ o.opened) : (t.peek w).solution = none := by
      rw [others w (apart w mem), open_ w mem]
    have free' (w : Var) (mem : w ∈ rest) : t.resolve w = .free w := by
      rw [shrinks.resolve]
      exact free w (List.mem_cons_of_mem v mem)
    rcases grown with same | ⟨more, none_v⟩
    · refine (ih t o' running sorted' free' (by rw [same]; exact distinct) ?_).mono ?_
      · rw [same]
        exact still
      · rintro o'' u ⟨running', sorted'', open'', length⟩
        refine ⟨running', sorted'', open'', ?_⟩
        rw [same] at length
        rw [List.length_cons]
        omega
    · refine (ih t o' running sorted' free' ?_ ?_).mono ?_
      · rw [more, ← List.append_assoc]
        exact nodup_append_singleton distinct fun mem => (List.mem_append.mp mem).elim not_later not_before
      · rw [more]
        exact List.forall_mem_append.mpr ⟨still, List.forall_mem_singleton.mpr none_v⟩
      · rintro o'' u ⟨running', sorted'', open'', length⟩
        refine ⟨running', sorted'', open'', ?_⟩
        rw [more, List.length_append, List.length_singleton] at length
        rw [List.length_cons]
        omega

/-- The sweeps come to an end: one that fixes a variable leaves fewer variables open. -/
theorem sweepAll (n : Nat) : ∀ (s : Solver) (o : Narrow.Operands), s.Running C id r →
    s.Sorted r [] o → o.opened.length < n →
    Narrow.Ensures C.models s (Narrow.sweepAll n o) fun o' t =>
      t.Running C id r ∧ t.Sorted r [] o' ∧ ∀ v ∈ o'.opened, (t.peek v).solution = none := by
  induction n with
  | zero => exact fun s o _ _ few => absurd few (Nat.not_lt_zero _)
  | succ n ih =>
    intro s o h sorted few
    have start : s.Sorted r o.opened { fixed := o.fixed, opened := [] } := by
      refine ⟨fun v mem => ?_, by simp, by simp, sorted.taken, sorted.values, fun σ fits => ?_⟩
      · exact sorted.names v (by simpa using mem)
      · rw [List.append_nil] at fits ⊢
        exact sorted.same σ fits
    unfold Narrow.sweepAll
    refine (sweepRest o.opened s _ h start sorted.free (by simpa using sorted.distinct) (by simp)).bind ?_
    rintro o' t ⟨running, sorted', open', length⟩
    split
    · exact Narrow.Ensures.pure ⟨running, sorted', open'⟩
    · rename_i fewer
      rw [List.length_nil, Nat.zero_add] at length
      exact ih t o' running sorted' (by omega)

/-! ## Counting values -/

theorem mem_foldl_insert (ns : List Int) : ∀ (seen : Std.ExtTreeMap Int Unit) (n : Int),
    n ∈ ns.foldl (fun seen k => seen.insert k ()) seen ↔ n ∈ ns ∨ n ∈ seen := by
  induction ns with
  | nil => simp
  | cons k ns ih =>
    intro seen n
    rw [List.foldl_cons, ih, Std.ExtTreeMap.mem_insert, Std.compare_eq_iff_eq, List.mem_cons,
      @eq_comm _ k n]
    tauto

/-- The count covers all values that the variables can take. -/
theorem countValues (h : s.Running C id r) (vs : List Var) : ∀ (budget : Nat)
    (seen : Std.ExtTreeMap Int Unit), (∀ v ∈ vs, s.Names r v) →
    Narrow.Ensures C.models s (Narrow.countValues vs budget seen) fun count t => t = s ∧
      ∀ k, count = some k → ∀ ns : List Int, ns.Nodup →
        (∀ n ∈ ns, n ∈ seen ∨ ∃ v ∈ vs, n ∈ s.peek v) → ns.length ≤ k := by
  induction vs with
  | nil =>
    intro budget seen _
    refine Narrow.Ensures.pure ⟨rfl, fun k same ns distinct covered => ?_⟩
    cases same
    rw [← Std.ExtTreeMap.length_keys]
    refine distinct.length_le_of_subset fun n mem => ?_
    rw [Std.ExtTreeMap.mem_keys]
    simpa using covered n mem
  | cons v vs ih =>
    intro budget seen names
    unfold Narrow.countValues
    refine h.domain (names v (by simp)) ?_
    cases size : (s.peek v).size with
    | none => exact Narrow.Ensures.pure ⟨rfl, fun k same => by cases same⟩
    | some m =>
      dsimp only
      split
      · refine (ih _ _ fun u mem => names u (by simp [mem])).mono ?_
        rintro count t ⟨rfl, covers⟩
        refine ⟨rfl, fun k same ns distinct covered => covers k same ns distinct fun n mem => ?_⟩
        rw [mem_foldl_insert, Domain.mem_toList (Domain.ne_unbounded_of_size size)]
        rcases covered n mem with in_seen | ⟨u, in_vs, in_u⟩
        · exact .inl (.inr in_seen)
        · rcases List.mem_cons.mp in_vs with rfl | in_vs
          · exact .inl (.inl in_u)
          · exact .inr ⟨u, in_vs, in_u⟩
      · exact Narrow.Ensures.pure ⟨rfl, fun k same => by cases same⟩

/-- Pairwise different values are no more than there are to choose from. -/
theorem pigeonhole (h : s.Running C id r) (sorted : s.Sorted r [] o) :
    Narrow.Ensures C.models s (Narrow.pigeonhole o.opened) fun _ t => t = s := by
  unfold Narrow.pigeonhole
  split
  · refine (h.countValues o.opened _ _ sorted.names).bind ?_
    rintro count t ⟨rfl, covers⟩
    cases count with
    | none => exact Narrow.Ensures.pure rfl
    | some k =>
      refine Narrow.ensures_require (fun _ => rfl) fun few θ model => ?_
      rw [decide_eq_false_iff_not] at few
      have distinct := (List.nodup_append.mp (sorted.nodup h model)).1
      have := covers k rfl _ distinct fun n mem => by
        obtain ⟨v, in_vs, rfl⟩ := List.mem_map.mp mem
        exact .inr ⟨v, in_vs, h.mem_peek (sorted.names v in_vs) model⟩
      rw [List.length_map] at this
      exact few this
  · exact Narrow.Ensures.pure rfl

/-! ## Runs -/

/-- With no variable open, or with one that cannot take a taken value, the operands
    are pairwise different. -/
theorem settled (h : s.Running C id r) (sorted : s.Sorted r [] o) :
    Narrow.Ensures C.models s (Narrow.settled o) fun done t => t = s ∧
      (done = true → s.Entails r) ∧ (done = false → o.opened ≠ []) := by
  -- The open variables have values wherever the variables of the relation have.
  have entails (apart : ∀ σ, s.Fits (r.vars ++ o.opened) σ →
      (o.opened.map σ ++ o.fixed).Nodup) : s.Entails r := fun σ fits => by
    obtain ⟨τ, fits', agree⟩ := fits.extend fun w mem => sorted.names w mem
    rw [← Relation.holds_congr agree, ← sorted.same τ fits']
    exact apart τ fits'
  unfold Narrow.settled
  split
  · rename_i none_open
    refine Narrow.Ensures.pure ⟨rfl, fun _ => entails fun σ _ => ?_, by simp⟩
    rw [none_open]
    exact sorted.taken
  · rename_i v one_open
    refine h.domain (sorted.names v (by simp [one_open])) ?_
    refine Narrow.Ensures.pure ⟨rfl, fun apart => entails fun σ fits => ?_, fun _ => by simp [one_open]⟩
    rw [List.all_eq_true] at apart
    rw [one_open, List.map_singleton, List.singleton_append, List.nodup_cons]
    refine ⟨fun mem => ?_, sorted.taken⟩
    have in_v : σ v ∈ s.peek v := fits.mem v (by simp [one_open])
    have out := apart (σ v) mem
    rw [Bool.not_eq_true', ← Bool.not_eq_true] at out
    exact out in_v
  · rename_i not_none _
    exact Narrow.Ensures.pure ⟨rfl, by simp, fun _ => not_none⟩

theorem runAllDifferent {vs : List Var} {cs : List Int} (h : s.Running C id (.allDifferent vs cs)) :
    Narrow.Ensures C.models s (Narrow.runAllDifferent id vs cs) fun _ t => t.Rested C := by
  unfold Narrow.runAllDifferent
  refine (takeAll cs {} List.nodup_nil fun θ model => ?_).bind ?_
  · exact (List.nodup_append.mp (h.holds model)).2.1
  rintro _ s ⟨rfl, rfl, taken⟩
  have start : s.Sorted (.allDifferent vs cs) vs { fixed := [] ++ cs, opened := [] } := by
    refine ⟨fun v mem => ?_, by simp, by simp, taken, h.proper, fun σ _ => ?_⟩
    · rw [List.append_nil] at mem
      exact names_of_mem mem
    · rw [List.append_nil, List.nil_append]
  refine (h.addAll vs _ start).bind ?_
  rintro o s ⟨rfl, sorted⟩
  refine (sweepAll _ _ o h sorted (Nat.lt_succ_self _)).bind ?_
  rintro o' t ⟨running, sorted', open'⟩
  refine (running.pigeonhole sorted').bind ?_
  rintro _ t rfl
  refine (running.settled sorted').bind ?_
  rintro done t ⟨rfl, entails, some_open⟩
  cases done with
  | true => exact Narrow.Ensures.pure (running.rest (entails rfl))
  | false =>
    -- A variable that is open has at least two values.
    have never {p : Prop} (only : ∀ v ∈ o'.opened, ∃ n, ∀ m ∈ t.peek v, m = n) : p := by
      obtain ⟨v, mem⟩ := List.exists_mem_of_ne_nil _ (some_open rfl)
      obtain ⟨n, all⟩ := only v mem
      have canonical := running.sound.canonical_current v
      have undecided := open' v mem
      rw [peek_of_free (sorted'.free v mem)] at all undecided
      obtain ⟨m, in_v⟩ := canonical.1.exists_mem canonical.2
      have : (t.current v).solution = some n := canonical.1.solution_eq_some_iff.mpr fun k =>
        ⟨all k, fun same => by rw [same, ← all m in_v]; exact in_v⟩
      rw [undecided] at this
      cases this
    rw [if_neg Bool.false_ne_true]
    split
    · refine (running.replaceWith (q := .allDifferent o'.opened o'.fixed) sorted'.values sorted'.names
        sorted'.same).bind ?_
      rintro _ u ⟨running', _, peek⟩
      refine running'.resubscribe (fun v mem => names_of_mem mem) fun only => ?_
      rw [peek] at only
      exact never only
    · exact running.resubscribe sorted'.names never

end Running

end Solver

end ConstraintLogic
