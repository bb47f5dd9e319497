import ConstraintLogic.Proofs.Solver.NarrowSteps

/-!
# Running tables

A table keeps the rows that the domains still admit and narrows every variable to
its column of these rows. A row that is kept survives all of the narrowings, for
where two variables are aliased it has one value twice. Hence, once all variables
have their values, some row consists of them.

Results:
* `Solver.rowFits_iff`: what the check of a row decides.
* `Solver.Running.runTable`: a table can be run.
* `Solver.Tabulates`: the rows are those of a relation.
* `Solver.Running.becomeTable`: a relation can be run as the table of its rows.
-/

namespace ConstraintLogic.Solver

variable {C : Contract} {id : PropId} {r : Relation} {s t : Solver}

/-! ## Rows -/

/-- The row has a value for every variable, from the domain of the variable, and the
    same one where variables are aliased. -/
structure RowFits (s : Solver) (vs : List Var) (row : List Int) : Prop where
  mem : ∀ (k : Nat) (v : Var), vs[k]? = some v → ∃ n, row[k]? = some n ∧ n ∈ s.peek v
  alike : ∀ (i j : Nat) (v w : Var), vs[i]? = some v → vs[j]? = some w → s.sameVar v w = true →
    row[i]? = row[j]?

/-- The pairs of positions whose variables are aliased. -/
def aliasPairs (s : Solver) (vs : List Var) : List (Nat × Nat) :=
  vs.zipIdx.flatMap fun (v, i) => (vs.zipIdx.drop (i + 1)).filterMap fun (w, j) =>
    if s.sameVar v w then some (i, j) else none

theorem mem_aliasPairs {vs : List Var} {i j : Nat} :
    (i, j) ∈ s.aliasPairs vs ↔
      i < j ∧ ∃ v w, vs[i]? = some v ∧ vs[j]? = some w ∧ s.sameVar v w = true := by
  unfold aliasPairs
  rw [List.mem_flatMap]
  constructor
  · rintro ⟨⟨v, k⟩, in_vs, found⟩
    rw [List.mem_zipIdx_iff_getElem?] at in_vs
    obtain ⟨⟨w, l⟩, later, pair⟩ := List.mem_filterMap.mp found
    obtain ⟨m, at_m⟩ := List.mem_iff_getElem?.mp later
    rw [List.getElem?_drop, List.getElem?_zipIdx, Option.map_eq_some_iff] at at_m
    obtain ⟨x, at_x, same⟩ := at_m
    dsimp only at in_vs pair at_x
    split at pair
    · rename_i aliased
      cases pair
      cases same
      rw [Nat.zero_add]
      exact ⟨by omega, v, w, in_vs, at_x, aliased⟩
    · cases pair
  · rintro ⟨less, v, w, at_i, at_j, aliased⟩
    refine ⟨(v, i), List.mem_zipIdx_iff_getElem?.mpr at_i, List.mem_filterMap.mpr ⟨(w, j), ?_, ?_⟩⟩
    · refine List.mem_iff_getElem?.mpr ⟨j - (i + 1), ?_⟩
      rw [List.getElem?_drop, List.getElem?_zipIdx, show i + 1 + (j - (i + 1)) = j by omega, at_j]
      simp
    · simp [aliased]

theorem sameVar_comm (s : Solver) (v w : Var) : s.sameVar v w = s.sameVar w v := by
  rw [Bool.eq_iff_iff, sameVar_iff, sameVar_iff]
  simp only [and_comm]

/-- The check of a row looks at the domains and at the aliases. -/
theorem rowFits_iff {vs : List Var} {row : List Int} :
    Narrow.rowFits (vs.map s.peek) (s.aliasPairs vs) row = true ↔ s.RowFits vs row := by
  unfold Narrow.rowFits
  rw [Bool.and_eq_true, List.all_eq_true, List.all_eq_true]
  constructor
  · rintro ⟨domains, aliases⟩
    have ordered (i j : Nat) (v w : Var) (less : i < j) (at_i : vs[i]? = some v)
        (at_j : vs[j]? = some w) (same : s.sameVar v w = true) : row[i]? = row[j]? := by
      simpa using aliases (i, j) (mem_aliasPairs.mpr ⟨less, v, w, at_i, at_j, same⟩)
    refine ⟨fun k v at_k => ?_, fun i j v w at_i at_j same => ?_⟩
    · have := domains (s.peek v, k) (List.mem_zipIdx_iff_getElem?.mpr (by simp [at_k]))
      cases found : row[k]? with
      | none => simp [found] at this
      | some n => exact ⟨n, rfl, Domain.mem_iff_contains.mpr (by simpa [found] using this)⟩
    · rcases Nat.lt_trichotomy i j with less | rfl | more
      · exact ordered i j v w less at_i at_j same
      · rfl
      · exact (ordered j i w v more at_j at_i (by rw [sameVar_comm, same])).symm
  · rintro ⟨mem, alike⟩
    refine ⟨fun ⟨d, k⟩ in_domains => ?_, fun ⟨i, j⟩ pair => ?_⟩
    · rw [List.mem_zipIdx_iff_getElem?, List.getElem?_map, Option.map_eq_some_iff] at in_domains
      obtain ⟨v, at_k, rfl⟩ := in_domains
      obtain ⟨n, found, in_peek⟩ := mem k v at_k
      simp only [found, Option.map_some, Option.getD_some]
      exact in_peek
    · obtain ⟨_, v, w, at_i, at_j, same⟩ := mem_aliasPairs.mp pair
      simpa using alike i j v w at_i at_j same

theorem sameVar_congr (h : t.resolve = s.resolve) : t.sameVar = s.sameVar := by
  funext v w
  unfold sameVar
  rw [h]

theorem resolve_of_sameVar {v w : Var} (h : s.sameVar v w = true) : s.resolve v = s.resolve w := by
  obtain ⟨u, free_v, free_w⟩ := sameVar_iff.mp h
  rw [free_v, free_w]

/-- Integers that fit the domains make a row that fits. -/
theorem Fits.rowFits {vs : List Var} {σ : Assignment} (fits : s.Fits vs σ) :
    s.RowFits vs (vs.map σ) where
  mem k v at_k := ⟨σ v, by simp [at_k], fits.mem v (List.mem_of_getElem? at_k)⟩
  alike i j v w at_i at_j same := by
    rw [List.getElem?_map, List.getElem?_map, at_i, at_j, Option.map_some, Option.map_some,
      fits.alike v (List.mem_of_getElem? at_i) w (List.mem_of_getElem? at_j) (resolve_of_sameVar same)]

/-! ## Runs -/

/-- The only integer that is left to a variable is the one that fits. -/
theorem Fits.eq_of_only {vs : List Var} {σ : Assignment} (fits : s.Fits vs σ) {v : Var}
    (mem : v ∈ vs) (only : ∃ n, ∀ m ∈ s.peek v, m = n) {m : Int} (in_v : m ∈ s.peek v) :
    m = σ v := by
  obtain ⟨n, all⟩ := only
  rw [all m in_v, all (σ v) (fits.mem v mem)]

/-- Where the variables are loaded, asking for their domains changes nothing. -/
theorem mapM_domain (vs : List Var) (loaded : ∀ v ∈ vs, ∀ w, s.resolve v = .free w → w ∈ s.domains) :
    vs.mapM Narrow.domain s = .ok (vs.map s.peek) s := by
  induction vs with
  | nil => rfl
  | cons v vs ih =>
    have first : Narrow.domain v s = .ok (s.peek v) s := by
      change EStateM.Result.ok (s.domain v).1 (s.domain v).2 = _
      rw [domain_of_loaded (loaded v (by simp))]
    have rest := ih fun u mem => loaded u (by simp [mem])
    rw [List.mapM_cons]
    change EStateM.bind (Narrow.domain v) _ s = _
    unfold EStateM.bind
    rw [first]
    change EStateM.bind (vs.mapM Narrow.domain) _ s = _
    unfold EStateM.bind
    rw [rest]
    rfl

/-- The rows consist of values, and list assignments that satisfy the relation: all of
    those that fit the domains. -/
structure Tabulates (s : Solver) (r : Relation) (rows : List (List Int)) : Prop where
  proper : ∀ row ∈ rows, row.length = r.vars.length ∧ ∀ n ∈ row, isValue n = true
  sound : ∀ σ : Assignment, r.vars.map σ ∈ rows → r.Holds σ
  complete : ∀ σ : Assignment, s.Fits r.vars σ → r.Holds σ → r.vars.map σ ∈ rows

theorem Tabulates.mem_iff {rows : List (List Int)} {σ : Assignment} (h : s.Tabulates r rows) (fits : s.Fits r.vars σ) :
    r.vars.map σ ∈ rows ↔ r.Holds σ := ⟨h.sound σ, h.complete σ fits⟩

namespace Running

theorem domains_eq (h : s.Running C id r) (vs : List Var) (names : ∀ v ∈ vs, s.Names r v) :
    vs.mapM Narrow.domain s = .ok (vs.map s.peek) s :=
  mapM_domain vs fun v mem _ => h.loaded (names v mem)

variable {vs : List Var} {all live : List (List Int)} {origin : Term}

/-- Narrows a variable to its column of the rows. -/
def narrowColumn (live : List (List Int)) (c : Var × Nat) : Narrow Unit :=
  Narrow.reduce c.1 (.values (live.filterMap (·[c.2]?)))

/-- Narrowing variables to their columns keeps every row that fits. -/
theorem reduceColumns (cols : List (Var × Nat)) : ∀ s : Solver,
    s.Running C id (.table vs all origin) → (∀ c ∈ cols, vs[c.2]? = some c.1) →
    (∀ row ∈ live, s.RowFits vs row) → (∀ row ∈ live, ∀ n ∈ row, isValue n = true) →
    (∀ θ, C.models θ → vs.map (integers θ) ∈ live) →
    Narrow.Ensures C.models s (cols.forM (narrowColumn live)) fun _ t =>
      t.Running C id (.table vs all origin) ∧ s.Shrinks t ∧ ∀ row ∈ live, t.RowFits vs row := by
  induction cols with
  | nil => exact fun s h _ fit _ _ => ⟨h, .refl s, fit⟩
  | cons c cols ih =>
    intro s h at_cols fit values models
    obtain ⟨v, k⟩ := c
    have at_k : vs[k]? = some v := at_cols (v, k) (by simp)
    have column (n : Int) : n ∈ Domain.values (live.filterMap (·[k]?)) ↔
        ∃ row ∈ live, row[k]? = some n := by rw [Domain.mem_values, List.mem_filterMap]
    have canonical : (Domain.values (live.filterMap (·[k]?))).Canonical := by
      refine Domain.canonical_values fun n mem => ?_
      obtain ⟨row, in_live, found⟩ := List.mem_filterMap.mp mem
      exact values row in_live n (List.mem_of_getElem? found)
    change Narrow.Ensures C.models s
      (narrowColumn live (v, k) >>= fun _ => cols.forM (narrowColumn live)) _
    refine (h.reduce (names_of_mem (List.mem_of_getElem? at_k)) canonical fun θ model => ?_).bind ?_
    · exact (column _).mpr ⟨_, models θ model, by rw [List.getElem?_map, at_k]; rfl⟩
    · rintro _ t ⟨running, reduced⟩
      have fit' (row : List Int) (in_live : row ∈ live) : t.RowFits vs row := by
        have before := fit row in_live
        refine ⟨fun i u at_i => ?_, fun i j u w at_i at_j same => ?_⟩
        · obtain ⟨n, found, mem⟩ := before.mem i u at_i
          refine ⟨n, found, (reduced.mem_peek u n).mpr ⟨mem, fun same => (column n).mpr ?_⟩⟩
          exact ⟨row, in_live, by rw [← before.alike i k u v at_i at_k same, found]⟩
        · rw [sameVar_congr reduced.resolve] at same
          exact before.alike i j u w at_i at_j same
      refine (ih t running (fun c mem => at_cols c (by simp [mem])) fit' values models).mono ?_
      rintro _ u ⟨running', shrinks, fit''⟩
      exact ⟨running', reduced.shrinks.trans shrinks, fit''⟩

/-- A table can be run. -/
theorem runTable {rows : List (List Int)} (h : s.Running C id (.table vs rows origin)) :
    Narrow.Ensures C.models s (Narrow.runTable id vs rows origin) fun _ t => t.Rested C := by
  have proper : ∀ row ∈ rows, row.length = vs.length ∧ ∀ n ∈ row, isValue n = true := h.proper
  have names (v : Var) (mem : v ∈ vs) : s.Names (.table vs rows origin) v := names_of_mem mem
  unfold Narrow.runTable
  refine Narrow.Ensures.step (h.domains_eq vs names) ?_
  refine Narrow.Ensures.step (a := s.aliasPairs vs) (t := s) rfl ?_
  dsimp only
  have live_iff (row : List Int) :
      row ∈ rows.filter (Narrow.rowFits (vs.map s.peek) (s.aliasPairs vs)) ↔
        row ∈ rows ∧ s.RowFits vs row := by rw [List.mem_filter, rowFits_iff]
  generalize rows.filter (Narrow.rowFits (vs.map s.peek) (s.aliasPairs vs)) = live at live_iff ⊢
  have models (θ : Var → Term) (model : C.models θ) : vs.map (integers θ) ∈ live :=
    (live_iff _).mpr ⟨h.holds model, (h.fits names model).rowFits⟩
  refine Narrow.ensures_require_bind (fun no_row θ model => ?_) fun some_row => ?_
  · have := models θ model
    simp only [Bool.not_eq_false', List.isEmpty_iff] at no_row
    rw [no_row] at this
    cases this
  simp only [Bool.not_eq_true', List.isEmpty_eq_false_iff] at some_row
  refine (reduceColumns vs.zipIdx _ h (fun c mem => List.mem_zipIdx_iff_getElem?.mp mem)
    (fun row mem => ((live_iff row).mp mem).2)
    (fun row mem => (proper row ((live_iff row).mp mem).1).2) models).bind ?_
  rintro _ t ⟨running, shrinks, fit⟩
  -- Where nothing but single values is left, every row that is left consists of them.
  have last {u : Solver} (peek : u.peek = t.peek) (σ : Assignment)
      (fits : u.Fits vs σ) (only : ∀ v ∈ vs, ∃ n, ∀ m ∈ u.peek v, m = n) : vs.map σ ∈ live := by
    obtain ⟨row, in_live⟩ := List.exists_mem_of_ne_nil live some_row
    have same : row = vs.map σ := by
      refine List.ext_getElem? fun k => ?_
      rw [List.getElem?_map]
      cases at_k : vs[k]? with
      | none =>
        have := (proper row ((live_iff row).mp in_live).1).1
        rw [List.getElem?_eq_none_iff] at at_k
        rw [Option.map_none, List.getElem?_eq_none_iff, this]
        exact at_k
      | some v =>
        obtain ⟨n, found, mem⟩ := (fit row in_live).mem k v at_k
        have in_vs := List.mem_of_getElem? at_k
        have alone : n = σ v := fits.eq_of_only in_vs (only v in_vs) (by rwa [peek])
        rw [found, Option.map_some, alone]
    exact same ▸ in_live
  split
  · refine (running.replaceWith (q := .table vs live origin) ?_ (fun v mem => ⟨v, mem, rfl⟩) ?_).bind ?_
    · exact fun row mem => proper row ((live_iff row).mp mem).1
    · intro σ fits
      have fits' : s.Fits vs σ := shrinks.fits (fits.mono (List.subset_append_left vs vs))
      exact ⟨fun mem => ((live_iff _).mp mem).1, fun mem => (live_iff _).mpr ⟨mem, fits'.rowFits⟩⟩
    · rintro _ u ⟨running', resolve', peek⟩
      exact running'.resubscribe (fun v mem => ⟨v, mem, rfl⟩) fun only σ fits => last peek σ fits only
  · exact running.resubscribe (fun v mem => ⟨v, mem, rfl⟩) fun only σ fits =>
      ((live_iff _).mp (last rfl σ fits only)).1

/-- A relation can be run as the table of its rows. -/
theorem becomeTable (h : s.Running C id r) {rows : List (List Int)} (tabulates : s.Tabulates r rows) :
    Narrow.Ensures C.models s (Narrow.becomeTable id r.vars rows origin) fun _ t => t.Rested C := by
  unfold Narrow.becomeTable
  refine (h.replaceWith (q := .table r.vars rows origin) tabulates.proper (fun v mem => names_of_mem mem)
    fun σ fits => tabulates.mem_iff (fits.mono (List.subset_append_left _ _))).bind ?_
  rintro _ t ⟨running, _⟩
  exact running.runTable

end Running

end ConstraintLogic.Solver
