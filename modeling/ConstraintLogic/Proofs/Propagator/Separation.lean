import ConstraintLogic.Proofs.Propagator.SumSupport

/-!
# Pairwise differences on any solver

A run of a pairwise difference keeps an account of its operands: each of them has given its
value to the taken ones, or is open, or is still to be looked at. In the end the taken
values are the constants and the values of the operands that have one. A taken value can
only be left in a domain that had to begin with more values in a row than are listed one by
one: a value inside of these may not be taken out.

Results:
* `Domain.Vast`: a domain with too many values in a row; `Domain.Canonical.vast_of_removeAll`.
* `Solver.Ledger`: the account of the operands.
* `Solver.Working.runAllDifferent`: a pairwise difference on any solver.
-/

namespace ConstraintLogic

namespace Domain

/-- More integers in a row than are listed one by one belong to the domain. -/
def Vast (d : Domain) : Prop := ∃ lo : Int, ∀ n, lo ≤ n → n ≤ lo + materializeLimit → n ∈ d

/-- A domain with all the values of a vast one is vast. -/
theorem Vast.mono {d e : Domain} (h : d.Vast) (sub : ∀ n, n ∈ d → n ∈ e) : e.Vast :=
  h.imp fun _ row n above below => sub n (row n above below)

/-- A value that is taken out in vain lies inside of a vast domain. -/
theorem Canonical.vast_of_remove {d e : Domain} (h : d.Canonical) {n : Int} (removed : d.remove n = .ok e) (mem : n ∈ e) :
    d.Vast := by
  have in_d : d.contains n = true := mem_of_mem_remove h removed mem
  unfold remove at removed
  rw [if_pos in_d] at removed
  cases d with
  | empty => simp [contains] at in_d
  | unbounded => exact ⟨0, fun m _ _ => mem_unbounded m⟩
  | interval lb ub =>
    dsimp only at removed
    split at removed
    · split at removed
      · cases removed
      · cases removed
        rw [mem_range] at mem
        omega
    · split at removed
      · cases removed
        rw [mem_range] at mem
        omega
      · split at removed
        · cases removed
          rw [mem_ofAscending ((pairwise_ascending _ _).filter _), List.mem_filter] at mem
          simp at mem
        · refine ⟨lb, fun m above below => ?_⟩
          rw [mem_interval]
          omega
  | enumerated vs =>
    cases removed
    rw [mem_ofAscending (h.1.filter _), List.mem_filter] at mem
    simp at mem

theorem Canonical.mem_of_mem_removeAll (ns : List Int) : ∀ {d e : Domain}, d.Canonical →
    Narrow.removeAll d ns = .ok e → ∀ m ∈ e, m ∈ d := by
  induction ns with
  | nil =>
    intro d e _ removed m mem
    cases removed
    exact mem
  | cons n ns ih =>
    intro d e h removed m mem
    obtain ⟨d', first, rest⟩ := removeAll_cons_eq_ok_iff.mp removed
    exact mem_of_mem_remove h first (ih (h.canonical_remove first) rest m mem)

/-- The values are taken out one after another, from fewer and fewer values: one that is
    left was taken out in vain, of a domain that was vast. -/
theorem Canonical.vast_of_removeAll (ns : List Int) : ∀ {d e : Domain}, d.Canonical → Narrow.removeAll d ns = .ok e →
    ∀ n ∈ ns, n ∈ e → d.Vast := by
  induction ns with
  | nil => simp
  | cons m ns ih =>
    intro d e h removed n in_ns mem
    obtain ⟨d', first, rest⟩ := removeAll_cons_eq_ok_iff.mp removed
    have canonical := h.canonical_remove first
    by_cases later : n ∈ ns
    · exact (ih canonical rest n later mem).mono fun k => mem_of_mem_remove h first
    · rcases List.mem_cons.mp in_ns with rfl | in_ns
      · exact h.vast_of_remove first ((Canonical.mem_of_mem_removeAll ns canonical rest) n mem)
      · exact absurd in_ns later

end Domain

namespace Solver

variable {S : Selection} {s t u : Solver} {id : PropId} {r : Relation} {v w : Var} {n : Int} {σ : Assignment}
variable {vs rest : List Var} {cs : List Int} {o o' : Narrow.Operands}

/-! ## The account -/

/-- Integers that fit are the same for variables that stand for the same. -/
theorem Fits.perm_map {as bs : List Var} (fits : s.Fits (as ++ bs) σ) (perm : (as.map s.resolve).Perm (bs.map s.resolve)) :
    (as.map σ).Perm (bs.map σ) := by
  let f : Resolved → Int := fun r => (((as ++ bs).find? fun v => s.resolve v = r).map σ).getD 0
  have factors (v : Var) (mem : v ∈ as ++ bs) : σ v = f (s.resolve v) := by
    cases found : (as ++ bs).find? fun w => s.resolve w = s.resolve v with
    | none => exact absurd (rfl : s.resolve v = s.resolve v) (by simpa using List.find?_eq_none.mp found v mem)
    | some w =>
      simp only [f, found, Option.map_some, Option.getD_some]
      exact (fits.alike w (List.mem_of_find?_eq_some found) v mem (by simpa using List.find?_some found)).symm
  have eq (l : List Var) (sub : l ⊆ as ++ bs) : l.map σ = (l.map s.resolve).map f := by
    rw [List.map_map]
    exact List.map_congr_left fun v mem => factors v (sub mem)
  rw [eq as (List.subset_append_left as bs), eq bs (List.subset_append_right as bs)]
  exact perm.map f

/-- The operands `vs` have been sorted, but for those in `rest`: some variables have given
    their values to the taken ones, which were the constants `cs` before, others are open. -/
structure Ledger (vs : List Var) (cs : List Int) (rest : List Var) (o : Narrow.Operands) (s : Solver) : Prop where
  free : ∀ v ∈ o.opened, s.resolve v = .free v
  taken : o.fixed.Nodup
  values : ∀ n ∈ o.fixed, isValue n = true
  account : ∃ done ns, o.fixed = cs ++ ns ∧ (done.map fun v => (s.peek v).solution) = ns.map some ∧
    (vs.map s.resolve).Perm ((done ++ (rest ++ o.opened)).map s.resolve)

namespace Ledger

/-- Smaller domains leave the account as it is. -/
theorem contract (h : s.Ledger vs cs rest o) (contracts : s.Contracts t) (hs : s.Tidy) (ht : t.Tidy) :
    t.Ledger vs cs rest o where
  free := by rw [contracts.resolve]; exact h.free
  taken := h.taken
  values := h.values
  account := by
    obtain ⟨done, ns, fixed, solved, perm⟩ := h.account
    refine ⟨done, ns, fixed, ?_, by rw [contracts.resolve]; exact perm⟩
    rw [← solved]
    refine List.map_congr_left fun v mem => ?_
    have : (s.peek v).solution ∈ ns.map some := solved ▸ List.mem_map.mpr ⟨v, mem, rfl⟩
    obtain ⟨n, _, only⟩ := List.mem_map.mp this
    rw [contracts.peek_of_solution hs ht only.symm, only]

/-- What is left to look at, and what is open, are operands. -/
theorem names (h : s.Ledger vs cs rest o) (mem : v ∈ rest ++ o.opened) : ∃ x ∈ vs, s.resolve x = s.resolve v := by
  obtain ⟨done, ns, _, _, perm⟩ := h.account
  have : s.resolve v ∈ vs.map s.resolve :=
    perm.mem_iff.mpr (List.mem_map.mpr ⟨v, List.mem_append.mpr (.inr mem), rfl⟩)
  exact List.mem_map.mp this

/-- Of integers that fit, the operands are pairwise different if what is left is. -/
theorem nodup_iff (h : s.Ledger vs cs rest o) (tidy : s.Tidy) (fits : s.Fits vs σ) : ∃ τ, (∀ v ∈ vs, τ v = σ v) ∧
    s.Fits (vs ++ (rest ++ o.opened)) τ ∧ ((vs.map σ ++ cs).Nodup ↔ ((rest ++ o.opened).map τ ++ o.fixed).Nodup) := by
  obtain ⟨done, ns, fixed, solved, perm⟩ := h.account
  have named : ∀ w ∈ done ++ (rest ++ o.opened), ∃ v ∈ vs, s.resolve v = s.resolve w := fun w mem =>
    List.mem_map.mp (perm.mem_iff.mpr (List.mem_map.mpr ⟨w, mem, rfl⟩))
  obtain ⟨τ, fits', agree⟩ := fits.extend named
  refine ⟨τ, agree, fits'.mono fun v mem => ?_, ?_⟩
  · rcases List.mem_append.mp mem with mem | mem
    · exact List.mem_append.mpr (.inl mem)
    · exact List.mem_append.mpr (.inr (List.mem_append.mpr (.inr mem)))
  have same := fits'.perm_map perm
  -- The variables that have given their values have these values.
  have given : done.map τ = ns := by
    have : (done.map τ).map some = ns.map some := by
      rw [← solved, List.map_map]
      refine List.map_congr_left fun v mem => ?_
      have : (s.peek v).solution ∈ ns.map some := solved ▸ List.mem_map.mpr ⟨v, mem, rfl⟩
      obtain ⟨n, _, only⟩ := List.mem_map.mp this
      rw [← only]
      have in_v := fits'.mem v (List.mem_append.mpr (.inr (List.mem_append.mpr (.inl mem))))
      exact congrArg some (((tidy.eq_of_solution only.symm).2 _).mp in_v)
    exact List.map_injective_iff.mpr (Option.some_injective Int) this
  rw [List.map_append, given] at same
  rw [← List.map_congr_left agree, fixed]
  refine ((same.append_right cs).trans ?_).nodup_iff
  rw [List.append_assoc]
  exact List.perm_append_comm.trans (by rw [List.append_assoc])

/-- Of integers that suit, the operands are pairwise different if what is left is. -/
theorem accepts_iff (h : s.Ledger vs cs rest o) (hs : s.Working S id (.allDifferent vs cs)) (suits : s.Suits S.vars σ) :
    ((rest ++ o.opened).map σ ++ o.fixed).Nodup ↔ (vs.map σ ++ cs).Nodup := by
  have named (v : Var) (mem : v ∈ vs ++ (rest ++ o.opened)) : S.vars v := by
    rcases List.mem_append.mp mem with mem | mem
    · exact hs.named v mem
    · obtain ⟨x, in_vs, same⟩ := h.names mem
      exact hs.closed x v (hs.named x in_vs) same.symm
  have fits := suits _ named
  obtain ⟨τ, agree, fits', iff⟩ := h.nodup_iff hs.tidy (fits.mono (List.subset_append_left _ _))
  rw [iff, List.map_congr_left fun v mem => ?_]
  obtain ⟨x, in_vs, same⟩ := h.names mem
  have in_left : x ∈ vs ++ (rest ++ o.opened) := List.mem_append.mpr (.inl in_vs)
  have in_right : v ∈ vs ++ (rest ++ o.opened) := List.mem_append.mpr (.inr mem)
  rw [← fits.alike x in_left v in_right same, ← agree x in_vs, fits'.alike x in_left v in_right same]

/-- In a kept assignment the operands that are left are pairwise different. -/
theorem nodup (h : s.Ledger vs cs rest o) (hs : s.Working S id (.allDifferent vs cs)) (keep : S.kept σ) :
    ((rest ++ o.opened).map σ ++ o.fixed).Nodup :=
  (h.accepts_iff hs (hs.suits keep)).mpr (hs.accepts keep)

/-- The next operand gives its value to the taken ones. -/
theorem take (h : s.Ledger vs cs (v :: rest) o) (new : n ∉ o.fixed) (value : isValue n = true)
    (only : (s.peek v).solution = some n) : s.Ledger vs cs rest { o with fixed := o.fixed ++ [n] } where
  free := h.free
  taken := nodup_append_singleton h.taken new
  values := List.forall_mem_append.mpr ⟨h.values, List.forall_mem_singleton.mpr value⟩
  account := by
    obtain ⟨done, ns, fixed, solved, perm⟩ := h.account
    refine ⟨done ++ [v], ns ++ [n], by rw [fixed, List.append_assoc], ?_, ?_⟩
    · rw [List.map_append, List.map_append, solved, List.map_singleton, List.map_singleton, only]
    · rw [List.append_assoc, List.singleton_append, ← List.cons_append]
      exact perm

/-- The next operand is open. -/
theorem keep (h : s.Ledger vs cs (v :: rest) o) (free : s.resolve w = .free w) (same : s.resolve v = s.resolve w) :
    s.Ledger vs cs rest { o with opened := o.opened ++ [w] } where
  free := List.forall_mem_append.mpr ⟨h.free, List.forall_mem_singleton.mpr free⟩
  taken := h.taken
  values := h.values
  account := by
    obtain ⟨done, ns, fixed, solved, perm⟩ := h.account
    refine ⟨done, ns, fixed, solved, perm.trans ?_⟩
    simp only [List.cons_append, List.map_append, List.map_cons, List.map_nil, same]
    refine List.Perm.append_left _ ?_
    rw [← List.append_assoc]
    exact (List.perm_append_singleton _ _).symm

end Ledger

namespace Working

/-! ## Sorting -/

/-- The value of an operand is a new one. -/
theorem takeOperand (h : s.Working S id (.allDifferent vs cs)) (ledger : s.Ledger vs cs (v :: rest) o)
    (only : (s.peek v).solution = some n) :
    Narrow.Ensures S.models s (o.take n) fun o' t => t = s ∧ o' = { o with fixed := o.fixed ++ [n] } ∧ s.Ledger vs cs rest o' := by
  obtain ⟨value, alone⟩ := h.tidy.eq_of_solution only
  refine Narrow.ensures_require_bind (fun old θ model => ?_) fun new => ?_
  · rw [Bool.not_eq_false', List.contains_iff_mem] at old
    have nodup := ledger.nodup h model
    obtain ⟨x, in_vs, same⟩ := ledger.names (v := v) (by simp)
    have named := h.closed x v (h.named x in_vs) same.symm
    rw [List.cons_append, List.map_cons, List.cons_append, List.nodup_cons, (alone _).mp (h.mem_peek named model)] at nodup
    exact nodup.1 (List.mem_append.mpr (.inr old))
  · rw [Bool.not_eq_true', ← Bool.not_eq_true, List.contains_iff_mem] at new
    exact Narrow.Ensures.pure ⟨rfl, rfl, ledger.take new value only⟩

/-- Sorting the operands changes nothing. -/
theorem addAll (h : s.Working S id (.allDifferent vs cs)) (rest : List Var) : ∀ o : Narrow.Operands,
    s.Ledger vs cs rest o → o.opened.Nodup → Narrow.Ensures S.models s (rest.foldlM Narrow.Operands.add o) fun o' t =>
      t = s ∧ s.Ledger vs cs [] o' ∧ o'.opened.Nodup := by
  induction rest with
  | nil => exact fun o ledger distinct => Narrow.Ensures.pure ⟨rfl, ledger, distinct⟩
  | cons v rest ih =>
    intro o ledger distinct
    rw [List.foldlM_cons]
    refine Narrow.Ensures.bind (Q := fun o' t => t = s ∧ s.Ledger vs cs rest o' ∧ o'.opened.Nodup) ?_ ?_
    · unfold Narrow.Operands.add
      refine Narrow.Ensures.step (a := s.resolve v) (t := s) rfl ?_
      obtain ⟨x, in_vs, same⟩ := ledger.names (v := v) (by simp)
      have named := h.closed x v (h.named x in_vs) same.symm
      cases found : s.resolve v with
      | free w =>
        have free := h.tidy.root v w found
        refine Narrow.ensures_require_bind (fun old θ model => ?_) fun new => ?_
        · rw [Bool.not_eq_false', List.contains_iff_mem] at old
          have nodup := ledger.nodup h model
          rw [List.cons_append, List.map_cons, List.cons_append, List.nodup_cons] at nodup
          refine nodup.1 (List.mem_append.mpr (.inl (List.mem_map.mpr ⟨w, by simp [old], ?_⟩)))
          exact (h.alike named (h.closed v w named (free.trans found.symm)) model (found.trans free.symm)).symm
        · rw [Bool.not_eq_true', ← Bool.not_eq_true, List.contains_iff_mem] at new
          exact Narrow.Ensures.pure ⟨rfl, ledger.keep free (found.trans free.symm), nodup_append_singleton distinct new⟩
      | value n =>
        refine (h.takeOperand ledger (n := n) ?_).mono ?_
        · simp [Solver.peek, found, Domain.singleton, Domain.solution]
        · rintro _ _ ⟨rfl, rfl, ledger'⟩
          exact ⟨rfl, ledger', distinct⟩
      | other =>
        refine Narrow.ensures_conflict fun θ model => ?_
        have := h.mem_peek named model
        simp [Solver.peek, found] at this
    · rintro o' _ ⟨rfl, ledger', distinct'⟩
      exact ih o' ledger' distinct'

/-! ## Sweeping -/

/-- A variable of a sweep gives its value to the taken ones, or stays open with none of them
    left in its domain, unless that was vast. -/
theorem sweepOne (h : s.Working S id (.allDifferent vs cs)) (ledger : s.Ledger vs cs (v :: rest) o)
    (free : s.resolve v = .free v) :
    Narrow.Ensures S.models s (Running.sweepOne o v) fun o' t =>
      t.Working S id (.allDifferent vs cs) ∧ t.Ledger vs cs rest o' ∧ s.Contracts t ∧
        (∀ w, s.sameVar w v = false → t.peek w = s.peek w) ∧
        (o'.opened = o.opened ∨ o' = { o with opened := o.opened ++ [v] } ∧ (t.peek v).solution = none ∧
          ∀ n ∈ o.fixed, n ∈ t.peek v → (s.peek v).Vast) := by
  obtain ⟨x, in_vs, same⟩ := ledger.names (v := v) (by simp)
  have named := h.closed x v (h.named x in_vs) same.symm
  unfold Running.sweepOne
  refine h.domain v fun s₁ h₁ same₁ => ?_
  have ledger₁ := ledger.contract same₁.contracts h.tidy h₁.tidy
  cases removed : Narrow.removeAll (s₁.peek v) o.fixed with
  | error f => exact Narrow.ensures_overflow (.inl ((h₁.tidy.canonical v).removeAll_error o.fixed removed).1)
  | ok d =>
    refine Narrow.Ensures.step (a := d) (t := s₁) rfl ?_
    dsimp only
    obtain ⟨canonical, mem_d⟩ := (h₁.tidy.canonical v).removeAll o.fixed removed
    have narrowed : Narrow.Ensures S.models s₁ (if d ≠ s₁.peek v then Narrow.reduce v d else pure ()) fun _ t =>
        t.Working S id (.allDifferent vs cs) ∧ s₁.Contracts t ∧ (∀ w, s₁.sameVar w v = false → t.peek w = s₁.peek w) ∧
          ∀ n ∈ t.peek v, n ∈ d := by
      split
      · refine (h₁.reduce named canonical fun σ keep => ?_).mono fun _ t ⟨ht, cuts⟩ =>
          ⟨ht, cuts.contracts, fun w apart => cuts.peek_of_apart h₁.tidy ht.tidy apart, cuts.left⟩
        refine (mem_d _ fun taken => ?_).mpr (h₁.mem_peek named keep)
        have nodup := ledger.nodup h keep
        rw [List.cons_append, List.map_cons, List.cons_append, List.nodup_cons] at nodup
        exact nodup.1 (List.mem_append.mpr (.inr taken))
      · rename_i unchanged
        rw [not_not] at unchanged
        exact Narrow.Ensures.pure ⟨h₁, .refl s₁, fun _ _ => rfl, fun n mem => unchanged ▸ mem⟩
    refine narrowed.ite_bind ?_
    rintro _ s₂ ⟨h₂, contracts₂, others₂, left₂⟩
    refine h₂.domain v fun s₃ h₃ same₃ => ?_
    have contracts₃ := contracts₂.trans same₃.contracts
    have ledger₃ := ledger₁.contract contracts₃ h₁.tidy h₃.tidy
    have others : ∀ w, s.sameVar w v = false → s₃.peek w = s.peek w := fun w apart => by
      rw [same₃.peek, others₂ w (by rw [sameVar_congr same₁.resolve, apart]), same₁.peek]
    have contracts := same₁.contracts.trans contracts₃
    cases only : (s₃.peek v).solution with
    | some n =>
      refine (h₃.takeOperand ledger₃ only).mono ?_
      rintro _ t ⟨rfl, rfl, ledger'⟩
      exact ⟨h₃, ledger', contracts, others, .inl rfl⟩
    | none =>
      have free₃ : s₃.resolve v = .free v := by rw [contracts.resolve, free]
      refine Narrow.Ensures.pure ⟨h₃, ledger₃.keep free₃ rfl, contracts, others, .inr ⟨rfl, only, fun n taken mem => ?_⟩⟩
      rw [same₃.peek] at mem
      rw [← same₁.peek]
      exact (h₁.tidy.canonical v).vast_of_removeAll o.fixed removed n taken (left₂ n mem)

/-- A sweep that fixes no variable leaves the taken values out of all domains but vast ones. -/
theorem sweepRest (rest : List Var) : ∀ (s : Solver) (o : Narrow.Operands), s.Working S id (.allDifferent vs cs) →
    s.Ledger vs cs rest o → (∀ v ∈ rest, s.resolve v = .free v) → (rest ++ o.opened).Nodup →
    (∀ v ∈ o.opened, (s.peek v).solution = none) →
    Narrow.Ensures S.models s (rest.foldlM Running.sweepOne o) fun o' t =>
      t.Working S id (.allDifferent vs cs) ∧ t.Ledger vs cs [] o' ∧ s.Contracts t ∧ o'.opened.Nodup ∧
        (∀ v ∈ o'.opened, (t.peek v).solution = none) ∧ o'.opened.length ≤ o.opened.length + rest.length ∧
        (o'.opened.length = o.opened.length + rest.length → o'.fixed = o.fixed ∧
          ∀ v ∈ o'.opened, v ∈ o.opened ∨ ∀ n ∈ o.fixed, n ∈ t.peek v → (s.peek v).Vast) := by
  induction rest with
  | nil =>
    exact fun s o h ledger _ distinct open_ =>
      Narrow.Ensures.pure ⟨h, ledger, .refl s, distinct, open_, Nat.le_refl _, fun _ => ⟨rfl, fun v mem => .inl mem⟩⟩
  | cons v rest ih =>
    intro s o h ledger free distinct open_
    rw [List.cons_append, List.nodup_cons, List.mem_append, not_or] at distinct
    obtain ⟨⟨not_later, not_before⟩, distinct⟩ := distinct
    rw [List.foldlM_cons]
    refine (h.sweepOne ledger (free v (by simp))).bind ?_
    rintro o' t ⟨ht, ledger', contracts, others, grown⟩
    have still (w : Var) (mem : w ∈ o.opened) : (t.peek w).solution = none := by
      have apart := sameVar_of_ne (ledger.free w mem) (free v (by simp)) fun same => not_before (same ▸ mem)
      rw [others w apart, open_ w mem]
    have free' (w : Var) (mem : w ∈ rest) : t.resolve w = .free w := by
      rw [contracts.resolve]
      exact free w (List.mem_cons_of_mem v mem)
    rcases grown with same | ⟨rfl, none_v, clean⟩
    · refine (ih t o' ht ledger' free' (by rw [same]; exact distinct) ?_).mono ?_
      · rw [same]
        exact still
      · rintro o'' u ⟨hu, ledger'', contracts', distinct', open'', length, _⟩
        rw [same] at length
        refine ⟨hu, ledger'', contracts.trans contracts', distinct', open'', ?_, fun all => ?_⟩
        · rw [List.length_cons]
          omega
        · rw [List.length_cons] at all
          omega
    · refine (ih t _ ht ledger' free' ?_ ?_).mono ?_
      · change (rest ++ (o.opened ++ [v])).Nodup
        rw [← List.append_assoc]
        exact nodup_append_singleton distinct fun mem => (List.mem_append.mp mem).elim not_later not_before
      · exact List.forall_mem_append.mpr ⟨still, List.forall_mem_singleton.mpr none_v⟩
      · rintro o'' u ⟨hu, ledger'', contracts', distinct', open'', length, none_fixed⟩
        rw [List.length_append, List.length_singleton] at length none_fixed
        refine ⟨hu, ledger'', contracts.trans contracts', distinct', open'', ?_, fun all => ?_⟩
        · rw [List.length_cons]
          omega
        · rw [List.length_cons] at all
          obtain ⟨fixed, each⟩ := none_fixed (by omega)
          refine ⟨fixed, fun w mem => ?_⟩
          rcases each w mem with before | vast
          · rcases List.mem_append.mp before with before | before
            · exact .inl before
            · rw [List.mem_singleton.mp before]
              exact .inr fun n taken in_u => clean n taken (contracts'.mem_peek v n in_u)
          · exact .inr fun n taken in_u => (vast n taken in_u).mono (contracts.mem_peek w)

/-- The sweeps come to an end: one that fixes a variable leaves fewer variables open. -/
theorem sweepAll (n : Nat) : ∀ (s : Solver) (o : Narrow.Operands), s.Working S id (.allDifferent vs cs) →
    s.Ledger vs cs [] o → o.opened.Nodup → o.opened.length < n →
    Narrow.Ensures S.models s (Narrow.sweepAll n o) fun o' t =>
      t.Working S id (.allDifferent vs cs) ∧ t.Ledger vs cs [] o' ∧ s.Contracts t ∧ o'.opened.Nodup ∧
        ∀ v ∈ o'.opened, (t.peek v).solution = none ∧ ∀ n ∈ o'.fixed, n ∈ t.peek v → (s.peek v).Vast := by
  induction n with
  | zero => exact fun s o _ _ _ few => absurd few (Nat.not_lt_zero _)
  | succ n ih =>
    intro s o h ledger distinct few
    have start : s.Ledger vs cs o.opened { fixed := o.fixed, opened := [] } := by
      obtain ⟨done, ns, fixed, solved, perm⟩ := ledger.account
      exact ⟨by simp, ledger.taken, ledger.values, done, ns, fixed, solved, by simpa using perm⟩
    unfold Narrow.sweepAll
    refine (sweepRest o.opened s _ h start ledger.free (by simpa using distinct) (by simp)).bind ?_
    rintro o' t ⟨ht, ledger', contracts, distinct', open', length, none_fixed⟩
    rw [List.length_nil, Nat.zero_add] at length none_fixed
    split
    · rename_i same
      obtain ⟨fixed, each⟩ := none_fixed same
      refine Narrow.Ensures.pure ⟨ht, ledger', contracts, distinct', fun v mem => ⟨open' v mem, ?_⟩⟩
      rw [fixed]
      exact (each v mem).resolve_left (by simp)
    · refine (ih t o' ht ledger' distinct' (by omega)).mono ?_
      rintro o'' u ⟨hu, ledger'', contracts', distinct'', each⟩
      refine ⟨hu, ledger'', contracts.trans contracts', distinct'', fun v mem => ⟨(each v mem).1, fun n taken in_u => ?_⟩⟩
      exact ((each v mem).2 n taken in_u).mono (contracts.mem_peek v)

/-! ## Counting values -/

/-- The count covers all values that the variables can take. -/
theorem countValues (ws : List Var) : ∀ (s : Solver) (budget : Nat) (seen : Std.ExtTreeMap Int Unit), s.Working S id r →
    Narrow.Ensures S.models s (Narrow.countValues ws budget seen) fun count t =>
      t.Working S id r ∧ s.Matches t ∧ ∀ k, count = some k → ∀ ns : List Int, ns.Nodup →
        (∀ n ∈ ns, n ∈ seen ∨ ∃ v ∈ ws, n ∈ s.peek v) → ns.length ≤ k := by
  induction ws with
  | nil =>
    intro s budget seen h
    refine Narrow.Ensures.pure ⟨h, .refl s, fun k same ns distinct covered => ?_⟩
    cases same
    rw [← Std.ExtTreeMap.length_keys]
    refine distinct.length_le_of_subset fun n mem => ?_
    rw [Std.ExtTreeMap.mem_keys]
    simpa using covered n mem
  | cons v ws ih =>
    intro s budget seen h
    unfold Narrow.countValues
    refine h.domain v fun t ht same => ?_
    have stop : Narrow.Ensures S.models t (pure none) fun count u => u.Working S id r ∧ s.Matches u ∧ ∀ k, count = some k →
        ∀ ns : List Int, ns.Nodup → (∀ n ∈ ns, n ∈ seen ∨ ∃ w ∈ v :: ws, n ∈ s.peek w) → ns.length ≤ k :=
      Narrow.Ensures.pure ⟨ht, same, fun k none_eq => by cases none_eq⟩
    cases size : (t.peek v).size with
    | none => exact stop
    | some m =>
      dsimp only
      split
      · refine (ih t _ _ ht).mono ?_
        rintro count u ⟨hu, same', covers⟩
        refine ⟨hu, same.trans same', fun k some_eq ns distinct covered => covers k some_eq ns distinct fun n mem => ?_⟩
        rw [Running.mem_foldl_insert, Domain.mem_toList (Domain.ne_unbounded_of_size size), same.peek]
        rcases covered n mem with in_seen | ⟨w, in_vs, in_w⟩
        · exact .inl (.inr in_seen)
        · rcases List.mem_cons.mp in_vs with rfl | in_vs
          · exact .inl (.inl in_w)
          · exact .inr ⟨w, in_vs, in_w⟩
      · exact stop

/-- Pairwise different values are no more than there are to choose from. -/
theorem pigeonhole (h : s.Working S id (.allDifferent vs cs)) (ledger : s.Ledger vs cs [] o) :
    Narrow.Ensures S.models s (Narrow.pigeonhole o.opened) fun _ t => t.Working S id (.allDifferent vs cs) ∧ s.Matches t := by
  unfold Narrow.pigeonhole
  split
  · refine (countValues o.opened s _ _ h).bind ?_
    rintro count t ⟨ht, same, covers⟩
    cases count with
    | none => exact Narrow.Ensures.pure ⟨ht, same⟩
    | some k =>
      refine Narrow.ensures_require (fun _ => ⟨ht, same⟩) fun few θ keep => ?_
      rw [decide_eq_false_iff_not] at few
      have distinct := (List.nodup_append.mp (ledger.nodup h keep)).1
      have := covers k rfl _ distinct fun n mem => by
        obtain ⟨v, is_open, rfl⟩ := List.mem_map.mp mem
        obtain ⟨x, in_vs, alike⟩ := ledger.names is_open
        exact .inr ⟨v, is_open, h.mem_peek (h.closed x v (h.named x in_vs) alike.symm) keep⟩
      rw [List.length_map] at this
      exact few this
  · exact Narrow.Ensures.pure ⟨h, .refl s⟩

/-! ## Runs -/

/-- With no variable open, or with one that cannot take a taken value, the operands are
    pairwise different. -/
theorem settled (h : s.Working S id (.allDifferent vs cs)) (ledger : s.Ledger vs cs [] o) :
    Narrow.Ensures S.models s (Narrow.settled o) fun done t => t.Working S id (.allDifferent vs cs) ∧ s.Matches t ∧
      (done = true → ∀ σ, s.Fits vs σ → (vs.map σ ++ cs).Nodup) ∧ (done = false → o.opened ≠ []) := by
  unfold Narrow.settled
  split
  · rename_i none_open
    refine Narrow.Ensures.pure ⟨h, .refl s, fun _ σ fits => ?_, by simp⟩
    obtain ⟨τ, -, -, iff⟩ := ledger.nodup_iff h.tidy fits
    rw [iff, none_open]
    exact ledger.taken
  · rename_i v one_open
    refine h.domain v fun t ht same => ?_
    refine Narrow.Ensures.pure ⟨ht, same, fun apart σ fits => ?_, fun _ => by simp [one_open]⟩
    obtain ⟨τ, -, fits', iff⟩ := ledger.nodup_iff h.tidy fits
    rw [iff, one_open, List.nil_append, List.map_singleton, List.singleton_append, List.nodup_cons]
    refine ⟨fun mem => ?_, ledger.taken⟩
    have in_v : τ v ∈ t.peek v := same.peek ▸ fits'.mem v (by simp [one_open])
    rw [List.all_eq_true] at apart
    have out := apart (τ v) mem
    rw [Bool.not_eq_true', ← Bool.not_eq_true] at out
    exact out in_v
  · rename_i not_none _
    exact Narrow.Ensures.pure ⟨h, .refl s, by simp, fun _ => not_none⟩

end Working

/-- In `t` the constants and the values of the operands are pairwise different, and none of
    them is left to an operand without a value, unless its domain was vast in `s`. -/
structure Separated (s : Solver) (vs : List Var) (cs : List Int) (t : Solver) : Prop where
  nodup : (cs ++ vs.filterMap fun v => (t.peek v).solution).Nodup
  clean : ∀ v ∈ vs, (t.peek v).solution = none → ∀ n ∈ cs ++ vs.filterMap fun v => (t.peek v).solution,
    n ∈ t.peek v → (s.peek v).Vast

/-- The one value that is known for what a variable stands for. -/
def knownOf (s : Solver) : Resolved → Option Int
  | .free w => (s.current w).solution
  | .value n => (Domain.singleton n).solution
  | .other => Domain.empty.solution

/-- Variables that stand for the same have the same values. -/
theorem perm_solutions {as bs : List Var} (perm : (as.map s.resolve).Perm (bs.map s.resolve)) :
    (as.filterMap fun v => (s.peek v).solution).Perm (bs.filterMap fun v => (s.peek v).solution) := by
  have factors : (fun v => (s.peek v).solution) = s.knownOf ∘ s.resolve := by
    funext v
    unfold peek
    simp only [Function.comp, knownOf]
    cases s.resolve v <;> rfl
  rw [factors, ← List.filterMap_map, ← List.filterMap_map]
  exact perm.filterMap s.knownOf

/-- The sorted operands are separated if the open ones are. -/
theorem Ledger.separated (ledger : t.Ledger vs cs [] o)
    (clean : ∀ v ∈ o.opened, (t.peek v).solution = none ∧ ∀ n ∈ o.fixed, n ∈ t.peek v → (s.peek v).Vast)
    (resolve : t.resolve = s.resolve) : s.Separated vs cs t := by
  obtain ⟨done, ns, fixed, solved, perm⟩ := ledger.account
  rw [List.nil_append] at perm
  have values : (vs.filterMap fun v => (t.peek v).solution).Perm ns := by
    refine (perm_solutions perm).trans ?_
    have given : (done.filterMap fun v => (t.peek v).solution) = ns := by
      have := congrArg (List.filterMap id) solved
      simpa only [List.filterMap_map, Function.id_comp, List.filterMap_some] using this
    have still : (o.opened.filterMap fun v => (t.peek v).solution) = [] :=
      List.filterMap_eq_nil_iff.mpr fun v mem => (clean v mem).1
    rw [List.filterMap_append, given, still, List.append_nil]
  have taken := values.append_left cs
  rw [← fixed] at taken
  refine ⟨taken.nodup_iff.mpr ledger.taken, fun v mem no_value n among in_v => ?_⟩
  have : t.resolve v ∈ (done ++ o.opened).map t.resolve := perm.mem_iff.mp (List.mem_map.mpr ⟨v, mem, rfl⟩)
  obtain ⟨w, in_both, same⟩ := List.mem_map.mp this
  rw [peek_congr same.symm] at no_value in_v
  rcases List.mem_append.mp in_both with in_done | is_open
  · have : (t.peek w).solution ∈ ns.map some := solved ▸ List.mem_map.mpr ⟨w, in_done, rfl⟩
    rw [no_value] at this
    simp at this
  · rw [peek_congr (resolve ▸ same.symm : s.resolve v = s.resolve w)]
    exact (clean w is_open).2 n (taken.mem_iff.mp among) in_v

theorem Separated.matched (h : s.Separated vs cs t) (same : t.Matches u) : s.Separated vs cs u := by
  refine ⟨?_, ?_⟩
  · rw [same.peek]
    exact h.nodup
  · rw [same.peek]
    exact h.clean

namespace Working

/-- A run ends with the open operands, with nothing of what is taken left to them that can
    be taken out. -/
theorem runAllDifferent (h : s.Working S id (.allDifferent vs cs)) :
    Narrow.Ensures S.models s (Narrow.runAllDifferent id vs cs) fun _ t =>
      t.Finished S id ∧ s.Contracts t ∧ s.Separated vs cs t := by
  unfold Narrow.runAllDifferent
  refine (Running.takeAll cs {} List.nodup_nil fun θ model => ?_).bind ?_
  · exact (List.nodup_append.mp (h.accepts model)).2.1
  rintro _ s ⟨rfl, rfl, taken⟩
  have start : s.Ledger vs cs vs { fixed := [] ++ cs, opened := [] } :=
    ⟨by simp, taken, h.sized, [], [], by simp, rfl, by simp⟩
  refine (h.addAll vs _ start List.nodup_nil).bind ?_
  rintro o s ⟨rfl, ledger, distinct⟩
  refine (sweepAll _ s o h ledger distinct (Nat.lt_succ_self _)).bind ?_
  rintro o' t ⟨ht, ledger', contracts, -, clean⟩
  have separated := ledger'.separated clean contracts.resolve
  refine (ht.pigeonhole ledger').bind ?_
  rintro _ t₁ ⟨ht₁, same₁⟩
  have ledger₁ := ledger'.contract same₁.contracts ht.tidy ht₁.tidy
  refine (ht₁.settled ledger₁).bind ?_
  rintro done t₂ ⟨ht₂, same₂, entailed, some_open⟩
  have ledger₂ := ledger₁.contract same₂.contracts ht₁.tidy ht₂.tidy
  have same := same₁.trans same₂
  cases done with
  | true =>
    refine Narrow.Ensures.pure ⟨ht₂.finished fun σ fits => ?_, contracts.trans same.contracts, separated.matched same⟩
    exact entailed rfl σ (same₂.contracts.fits fits)
  | false =>
    -- A variable that is open has no value.
    have never {p : Prop} {u : Solver} (same' : t₂.Matches u)
        (only : ∀ v ∈ o'.opened, ∀ w, u.resolve v = .free w → ∃ n, (u.peek v).solution = some n) : p := by
      obtain ⟨v, mem⟩ := List.exists_mem_of_ne_nil _ (some_open rfl)
      obtain ⟨n, some_value⟩ := only v mem v (by rw [same'.resolve]; exact ledger₂.free v mem)
      rw [(same.trans same').peek, (clean v mem).1] at some_value
      cases some_value
    rw [if_neg Bool.false_ne_true]
    split
    · refine (ht₂.replaceWith (q := .allDifferent o'.opened o'.fixed) ledger₂.values (fun v mem => ?_) fun σ suits => ?_).bind ?_
      · obtain ⟨x, in_vs, alike⟩ := ledger₂.names (v := v) mem
        exact ht₂.closed x v (ht₂.named x in_vs) alike.symm
      · exact ledger₂.accepts_iff ht₂ suits
      rintro _ t₃ ⟨ht₃, same₃⟩
      refine (ht₃.finish o'.opened (fun v mem => names_of_mem mem) fun only => never same₃ only).mono ?_
      rintro _ u ⟨finished, same₄⟩
      have all := (same.trans same₃).trans same₄
      exact ⟨finished, contracts.trans all.contracts, separated.matched all⟩
    · refine (ht₂.finish o'.opened (fun v mem => ledger₂.names mem) fun only => never (.refl t₂) only).mono ?_
      rintro _ u ⟨finished, same₃⟩
      exact ⟨finished, contracts.trans (same.trans same₃).contracts, separated.matched (same.trans same₃)⟩

end Working

end Solver

end ConstraintLogic
