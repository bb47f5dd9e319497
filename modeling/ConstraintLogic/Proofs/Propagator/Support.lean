import ConstraintLogic.Proofs.Propagator.Contraction

/-!
# Supports

A value that is left in a domain has a support if it occurs in integers from the domains of
which the relation holds. Tables and the relations with two operands look at all values of a
domain: what they leave has a support, unless the only partner of a value would be an
integer of more than 64 bits for a variable of which nothing was known.

Results:
* `Solver.Supports`, `Solver.Beyond`, `Solver.Backed`: the values that are left.
* `Solver.backed_affine`: values in pairs.
* `Solver.Columned`: the rows that a run of a table leaves.
* `Solver.Working.runTable`, `Solver.Working.runPlusConst`, `Solver.Working.runSumConst`,
  `Solver.Working.runScale`: the relations on any solver.
-/

namespace ConstraintLogic

/-! ## Partners -/

/-- Two domains have been narrowed to the image of each other, the first one before the
    second one, where `n ↦ sign * n + c` takes the second to the first. -/
structure Domain.Partners (sign c : Int) (b a' b' : Domain) : Prop where
  image : ∀ m ∈ b', sign * m + c ∈ a'
  preimage : ∀ n ∈ a', isValue n = true → (b = unbounded → isValue (sign * (n - c)) = true) → sign * (n - c) ∈ b'
  full : a' = unbounded ↔ b' = unbounded

namespace Domain

theorem Canonical.eq_unbounded_iff {d : Domain} (h : d.Canonical) : d = unbounded ↔ ∀ n, n ∈ d := by
  refine ⟨fun full n => full ▸ mem_unbounded n, fun all => ?_⟩
  by_contra finite
  obtain ⟨n, out⟩ := h.not_all finite
  exact out (all n)

theorem Partners.intro {sign c : Int} {a b a' b' : Domain} (unit : sign = 1 ∨ sign = -1) (hb : b.Canonical)
    (ha' : a'.Canonical) (hb' : b'.Canonical) (first : ∀ n, n ∈ a' ↔ n ∈ a ∧ n ∈ b.affine sign c)
    (second : ∀ m, m ∈ b' ↔ m ∈ b ∧ m ∈ a'.affine sign (-(sign * c))) : Partners sign c b a' b' where
  image m mem := by
    have back : sign * (m - -(sign * c)) = sign * m + c := by rcases unit with rfl | rfl <;> omega
    exact back ▸ ha'.of_mem_affine unit ((second m).mp mem).2
  preimage n mem value fits := by
    have back : sign * (sign * (n - c) - -(sign * c)) = n := by rcases unit with rfl | rfl <;> omega
    rcases (hb.mem_affine unit).mp ((first n).mp mem).2 with full | ⟨_, in_b⟩
    · refine (second _).mpr ⟨by rw [full]; exact mem_unbounded _, (ha'.mem_affine unit).mpr (.inr ⟨fits full, ?_⟩)⟩
      rwa [back]
    · by_cases full : b = unbounded
      · refine (second _).mpr ⟨in_b, (ha'.mem_affine unit).mpr (.inr ⟨fits full, ?_⟩)⟩
        rwa [back]
      · refine (second _).mpr ⟨in_b, (ha'.mem_affine unit).mpr (.inr ⟨hb.isValue_of_mem full in_b, ?_⟩)⟩
        rwa [back]
  full := by
    constructor
    · intro full
      have all (n : Int) : n ∈ b.affine sign c := ((first n).mp (full ▸ mem_unbounded n)).2
      have full_b := affine_eq_unbounded_iff.mp ((canonical_affine b sign c).eq_unbounded_iff.mpr all)
      refine hb'.eq_unbounded_iff.mpr fun m => (second m).mpr ⟨full_b ▸ mem_unbounded m, ?_⟩
      rw [affine_eq_unbounded_iff.mpr full]
      exact mem_unbounded m
    · intro full
      have all (m : Int) : m ∈ a'.affine sign (-(sign * c)) := ((second m).mp (full ▸ mem_unbounded m)).2
      exact affine_eq_unbounded_iff.mp ((canonical_affine a' sign _).eq_unbounded_iff.mpr all)

end Domain

theorem Relation.Affine.accepts_iff {r : Relation} {sign c : Int} {v w : Var} (h : r.Affine sign c v w) (σ : Assignment) :
    r.Accepts σ ↔ σ v = sign * σ w + c :=
  h.proper.accepts_iff.trans (h.holds_iff σ)

namespace Solver

variable {S : Selection} {s t u : Solver} {id : PropId} {r q : Relation} {v w x y z : Var} {d : Domain} {c n m : Int}
variable {σ : Assignment} {vs : List Var} {rows live : List (List Int)} {row : List Int} {origin : Term}

/-! ## Values that are left -/

/-- The value occurs for the variable in integers from the domains that satisfy the relation. -/
def Supports (t : Solver) (r : Relation) (v : Var) (n : Int) : Prop :=
  ∃ σ, t.Fits r.vars σ ∧ r.Accepts σ ∧ σ v = n

/-- Of some variable nothing is known, and whatever the other variables take from their
    domains, with the value `n` for `v` it would need an integer of more than 64 bits. -/
def Beyond (s : Solver) (r : Relation) (v : Var) (n : Int) : Prop :=
  ∃ u ∈ r.vars, s.peek u = .unbounded ∧ ∀ σ : Assignment,
    (∀ w ∈ r.vars, w ≠ u → σ w ∈ s.peek w) → r.Accepts σ → σ v = n → isValue (σ u) = false

/-- A run from `s` to `t` leaves values with a support in the finite domains, and such for
    which it would lie beyond. -/
def Backed (s : Solver) (r : Relation) (t : Solver) : Prop :=
  ∀ v ∈ r.vars, t.peek v ≠ .unbounded → ∀ n ∈ t.peek v, t.Supports r v n ∨ s.Beyond r v n

/-- Some integers from the domains satisfy the relation. -/
def Satisfiable (t : Solver) (r : Relation) : Prop := ∃ σ, t.Fits r.vars σ ∧ r.Accepts σ

theorem peek_congr (same : s.resolve v = s.resolve w) : s.peek v = s.peek w := by
  unfold peek
  rw [same]

/-- An unbound variable with a solution, and any other, has no two values. -/
theorem Tidy.eq_of_ground (tidy : s.Tidy) (only : ∀ w, s.resolve v = .free w → ∃ n, (s.peek v).solution = some n)
    (mem : n ∈ s.peek v) (mem' : m ∈ s.peek v) : n = m := by
  cases found : s.resolve v with
  | free w =>
    obtain ⟨k, alone⟩ := only w found
    have alone := (tidy.eq_of_solution alone).2
    rw [(alone n).mp mem, (alone m).mp mem']
  | value k =>
    simp only [peek, found, Domain.mem_singleton] at mem mem'
    rw [mem, mem']
  | other => simp [peek, found] at mem

/-- Variables that are not aliased, but stand for the same, have one and the same value. -/
theorem eq_of_apart (apart : s.sameVar v w = false) (same : s.resolve v = s.resolve w) (mem : n ∈ s.peek v)
    (mem' : m ∈ s.peek w) : n = m := by
  rw [← peek_congr same] at mem'
  cases found : s.resolve v with
  | free u =>
    have : s.sameVar v w = true := sameVar_iff.mpr ⟨u, found, same ▸ found⟩
    rw [apart] at this
    cases this
  | value k =>
    simp only [peek, found, Domain.mem_singleton] at mem mem'
    rw [mem, mem']
  | other => simp [peek, found] at mem

/-- Variables that stand for the same can take any of their values together. -/
theorem fits_const (same : ∀ w ∈ vs, s.resolve w = s.resolve v) (mem : n ∈ s.peek v) (value : isValue n = true) :
    s.Fits vs fun _ => n where
  mem w in_vs := by rwa [peek_congr (same w in_vs)]
  value _ _ := value
  alike _ _ _ _ _ := rfl

/-- Two variables that are not aliased take their values independently. -/
theorem exists_fits_pair (apart : s.sameVar v w = false) (mem : n ∈ s.peek v) (mem' : m ∈ s.peek w)
    (value : isValue n = true) (value' : isValue m = true) : ∃ σ, s.Fits [v, w] σ ∧ σ v = n ∧ σ w = m := by
  have at_w : (if w = v then n else m) = m := by
    split
    · rename_i same
      exact eq_of_apart apart (by rw [same]) mem mem'
    · rfl
  refine ⟨fun u => if u = v then n else m, ⟨?_, ?_, ?_⟩, if_pos rfl, at_w⟩
  · intro u in_pair
    rcases List.mem_pair.mp in_pair with rfl | rfl
    · simpa using mem
    · rwa [at_w]
  · intro u in_pair
    rcases List.mem_pair.mp in_pair with rfl | rfl
    · simpa using value
    · rwa [at_w]
  · intro u in_pair u' in_pair' same
    rcases List.mem_pair.mp in_pair with rfl | rfl <;> rcases List.mem_pair.mp in_pair' with rfl | rfl
    · rfl
    · rw [at_w, if_pos rfl]
      exact eq_of_apart apart same mem mem'
    · rw [at_w, if_pos rfl]
      exact (eq_of_apart apart same.symm mem mem').symm
    · rfl

/-- Two aliased variables take any value together that the relation allows them. -/
theorem backed_of_alias (x : Var) (tidy : t.Tidy) (alike : ∀ v ∈ r.vars, t.resolve v = t.resolve x)
    (accepts : ∀ n ∈ t.peek x, r.Accepts fun _ => n) : s.Backed r t := by
  intro v in_r finite n mem
  have mem' : n ∈ t.peek x := peek_congr (alike v in_r) ▸ mem
  exact .inl ⟨fun _ => n, fits_const alike mem' (tidy.isValue_of_mem finite mem), accepts n mem', rfl⟩

theorem Matches.backed (h : s.Matches t) (backed : t.Backed r u) : s.Backed r u := by
  unfold Backed Beyond at *
  rwa [h.peek] at backed

/-! ## Pairs -/

section Affine

variable {sign : Int} {b : Domain} (means : r.Affine sign c v w) (tidy : t.Tidy) (apart : t.sameVar v w = false)

include means apart

/-- A value and its image satisfy the relation together. -/
theorem exists_fits_affine (image : n = sign * m + c) (mem : n ∈ t.peek v) (mem' : m ∈ t.peek w)
    (value : isValue n = true) (value' : isValue m = true) : ∃ σ, t.Fits r.vars σ ∧ r.Accepts σ ∧ σ v = n ∧ σ w = m := by
  obtain ⟨σ, fits, at_v, at_w⟩ := exists_fits_pair apart mem mem' value value'
  exact ⟨σ, fits.mono fun u in_r => (means.mem_vars u).mp in_r,
    (means.accepts_iff σ).mpr (by rw [at_v, at_w, image]), at_v, at_w⟩

include tidy

theorem supports_affine (partners : Domain.Partners sign c b (t.peek v) (t.peek w)) (finite : t.peek w ≠ .unbounded)
    (mem : m ∈ t.peek w) : t.Supports r w m := by
  have in_v := partners.image m mem
  have value := tidy.isValue_of_mem (mt partners.full.mp finite) in_v
  obtain ⟨σ, fits, accepts, -, at_w⟩ :=
    exists_fits_affine means apart rfl in_v mem value (tidy.isValue_of_mem finite mem)
  exact ⟨σ, fits, accepts, at_w⟩

theorem satisfiable_affine (partners : Domain.Partners sign c b (t.peek v) (t.peek w)) (some_value : ∃ m, m ∈ t.peek w) :
    t.Satisfiable r := by
  by_cases full : t.peek w = .unbounded
  · -- Nothing is known of either variable, and 0 has an image of 64 bits.
    obtain ⟨σ, fits, accepts, -⟩ := exists_fits_affine means apart (n := c) (m := 0) (by omega)
      (by rw [partners.full.mpr full]; exact Domain.mem_unbounded c) (by rw [full]; exact Domain.mem_unbounded 0)
      means.value (by decide)
    exact ⟨σ, fits, accepts⟩
  · obtain ⟨m, mem⟩ := some_value
    obtain ⟨σ, fits, accepts, -⟩ := supports_affine means tidy apart partners full mem
    exact ⟨σ, fits, accepts⟩

/-- Domains that are narrowed to the images of each other hold values with a support. The
    preimage of a value lies beyond only where nothing was known of the second variable. -/
theorem backed_affine (partners : Domain.Partners sign c (s.peek w) (t.peek v) (t.peek w)) : s.Backed r t := by
  intro u in_r finite n mem
  rcases List.mem_pair.mp ((means.mem_vars u).mp in_r) with rfl | rfl
  · by_cases lost : s.peek w = .unbounded ∧ isValue (sign * (n - c)) = false
    · refine .inr ⟨w, means.mem_second, lost.1, fun σ _ accepts at_v => ?_⟩
      rw [(means.inverse _ _).mp ((means.accepts_iff σ).mp accepts), at_v]
      exact lost.2
    · have value := tidy.isValue_of_mem finite mem
      have partner := partners.preimage n mem value fun full => by simpa using fun out => lost ⟨full, out⟩
      obtain ⟨σ, fits, accepts, at_v, -⟩ := exists_fits_affine means apart ((means.inverse _ _).mpr rfl) mem partner value
        (tidy.isValue_of_mem (mt partners.full.mpr finite) partner)
      exact .inl ⟨σ, fits, accepts, at_v⟩
  · exact .inl (supports_affine means tidy apart partners finite mem)

end Affine

/-! ## Rows -/

theorem getElem?_of_initial {as bs : List Int} (h : as <+: bs) {k : Nat} {a : Int} (at_k : as[k]? = some a) :
    bs[k]? = some a := by
  obtain ⟨rest, rfl⟩ := h
  rw [List.getElem?_append_left (List.getElem?_eq_some_iff.mp at_k).1, at_k]

/-- Integers that fit the domains make a row that fits, whatever follows them. -/
theorem Fits.rowFits_of_initial (fits : s.Fits vs σ) (h : vs.map σ <+: row) : s.RowFits vs row where
  mem k v at_k :=
    ⟨σ v, getElem?_of_initial h (by rw [List.getElem?_map, at_k]; rfl), fits.mem v (List.mem_of_getElem? at_k)⟩
  alike i j v w at_i at_j same := by
    rw [getElem?_of_initial h (k := i) (a := σ v) (by rw [List.getElem?_map, at_i]; rfl),
      getElem?_of_initial h (k := j) (a := σ w) (by rw [List.getElem?_map, at_j]; rfl),
      fits.alike v (List.mem_of_getElem? at_i) w (List.mem_of_getElem? at_j) (resolve_of_sameVar same)]

/-- A row that fits gives integers that fit the domains. -/
theorem RowFits.exists_fits (h : s.RowFits vs row) (values : ∀ n ∈ row, isValue n = true) :
    ∃ σ, s.Fits vs σ ∧ vs.map σ <+: row := by
  -- A variable takes the value at its first position.
  let σ : Assignment := fun v => (row[vs.idxOf v]?).getD 0
  have same_value {i j : Nat} {v w : Var} {n m : Int} (at_i : vs[i]? = some v) (at_j : vs[j]? = some w)
      (same : s.resolve v = s.resolve w) (at_i' : row[i]? = some n) (at_j' : row[j]? = some m) : n = m := by
    cases aliased : s.sameVar v w with
    | true =>
      have := h.alike i j v w at_i at_j aliased
      rw [at_i', at_j'] at this
      exact Option.some.inj this
    | false =>
      obtain ⟨n', found, mem⟩ := h.mem i v at_i
      obtain ⟨m', found', mem'⟩ := h.mem j w at_j
      rw [at_i'] at found
      rw [at_j'] at found'
      cases found
      cases found'
      exact eq_of_apart aliased same mem mem'
  have row_at (k : Nat) (v : Var) (at_k : vs[k]? = some v) : row[k]? = some (σ v) := by
    have first : vs[vs.idxOf v]? = some v := by
      rw [List.getElem?_eq_some_iff]
      exact ⟨List.idxOf_lt_length_of_mem (List.mem_of_getElem? at_k), List.getElem_idxOf _⟩
    obtain ⟨n, found, _⟩ := h.mem k v at_k
    obtain ⟨m, found', _⟩ := h.mem _ v first
    have : σ v = m := by simp only [σ, found', Option.getD_some]
    rw [this, found, same_value at_k first rfl found found']
  refine ⟨σ, ⟨fun v mem => ?_, fun v mem => ?_, fun v mem w mem' same => ?_⟩, ?_⟩
  · obtain ⟨k, at_k⟩ := List.mem_iff_getElem?.mp mem
    obtain ⟨n, found, in_v⟩ := h.mem k v at_k
    rw [row_at k v at_k] at found
    cases found
    exact in_v
  · obtain ⟨k, at_k⟩ := List.mem_iff_getElem?.mp mem
    exact values _ (List.mem_of_getElem? (row_at k v at_k))
  · obtain ⟨i, at_i⟩ := List.mem_iff_getElem?.mp mem
    obtain ⟨j, at_j⟩ := List.mem_iff_getElem?.mp mem'
    exact same_value at_i at_j same (row_at i v at_i) (row_at j w at_j)
  · rw [List.prefix_iff_getElem?]
    intro k less
    rw [List.length_map] at less
    rw [List.getElem_map]
    exact row_at k _ (List.getElem?_eq_getElem less)

/-- What the rows that are left say of the domains: there is one, all of them fit, and the
    values of a variable are those of its column. -/
structure Columned (vs : List Var) (live : List (List Int)) (t : Solver) : Prop where
  some_row : live ≠ []
  sized : ∀ row ∈ live, ∀ n ∈ row, isValue n = true
  fit : ∀ row ∈ live, t.RowFits vs row
  columns : ∀ v ∈ vs, ∀ n ∈ t.peek v, ∃ k : Nat, vs[k]? = some v ∧ ∃ row ∈ live, row[k]? = some n

namespace Columned

theorem matched (h : Columned vs live t) (same : t.Matches u) : Columned vs live u where
  some_row := h.some_row
  sized := h.sized
  fit row mem :=
    ⟨by rw [same.peek]; exact (h.fit row mem).mem,
      fun i j v w at_i at_j alike => (h.fit row mem).alike i j v w at_i at_j (by rwa [← sameVar_congr same.resolve])⟩
  columns := by rw [same.peek]; exact h.columns

/-- Where the variables have one value each, any row is made of these. -/
theorem of_ground (h : Columned vs live t) (tidy : t.Tidy) (fits : t.Fits vs σ)
    (only : ∀ v ∈ vs, ∀ w, t.resolve v = .free w → ∃ n, (t.peek v).solution = some n) :
    ∃ row ∈ live, vs.map σ <+: row := by
  obtain ⟨row, in_live⟩ := List.exists_mem_of_ne_nil live h.some_row
  obtain ⟨τ, fits', start⟩ := (h.fit row in_live).exists_fits (h.sized row in_live)
  have same : vs.map σ = vs.map τ := List.map_congr_left fun v mem =>
    tidy.eq_of_ground (only v mem) (fits.mem v mem) (fits'.mem v mem)
  exact ⟨row, in_live, same ▸ start⟩

/-- Rows that are left satisfy the table, and each value that is left occurs in one. -/
theorem supports (h : Columned vs live t) (sub : ∀ row ∈ live, row ∈ rows) :
    t.Satisfiable (.table vs rows origin) ∧ ∀ v ∈ vs, ∀ n ∈ t.peek v, t.Supports (.table vs rows origin) v n := by
  have of_row (row : List Int) (in_live : row ∈ live) :
      ∃ σ, t.Fits vs σ ∧ (Relation.table vs rows origin).Accepts σ ∧ vs.map σ <+: row := by
    obtain ⟨σ, fits, start⟩ := (h.fit row in_live).exists_fits (h.sized row in_live)
    exact ⟨σ, fits, ⟨row, sub row in_live, start⟩, start⟩
  refine ⟨?_, fun v mem n in_v => ?_⟩
  · obtain ⟨row, in_live⟩ := List.exists_mem_of_ne_nil live h.some_row
    obtain ⟨σ, fits, accepts, _⟩ := of_row row in_live
    exact ⟨σ, fits, accepts⟩
  · obtain ⟨k, at_k, row, in_live, found⟩ := h.columns v mem n in_v
    obtain ⟨σ, fits, accepts, start⟩ := of_row row in_live
    have := getElem?_of_initial start (k := k) (a := σ v) (by rw [List.getElem?_map, at_k]; rfl)
    rw [found] at this
    exact ⟨σ, fits, accepts, (Option.some.inj this).symm⟩

end Columned

namespace Working

open Running (narrowColumn narrowPair)

/-! ## Single values -/

/-- A relation that says that one of its variables has a certain value. -/
theorem reduceOnly (h : s.Working S id r) (mem : v ∈ r.vars) (value : isValue n = true)
    (means : ∀ σ, s.Fits r.vars σ → (r.Accepts σ ↔ σ v = n)) :
    Narrow.Ensures S.models s (Narrow.reduce v (.singleton n)) fun _ t =>
      t.Finished S id ∧ s.Contracts t ∧ ∀ m, m ∈ t.peek v ↔ m = n := by
  refine (h.reduce (h.named v mem) (canonical_singleton value) fun σ keep => ?_).mono ?_
  · exact Domain.mem_singleton.mpr ((means σ (h.fits keep)).mp (h.accepts keep))
  rintro _ t ⟨ht, cuts⟩
  have alone {m : Int} (in_v : m ∈ t.peek v) : m = n := Domain.mem_singleton.mp (cuts.left m in_v)
  refine ⟨ht.finished fun σ fits => (means σ (cuts.contracts.fits fits)).mpr (alone (fits.mem v mem)), cuts.contracts,
    fun m => ⟨alone, ?_⟩⟩
  rintro rfl
  obtain ⟨k, in_v⟩ := cuts.inhabited
  rwa [← alone in_v]

/-- A relation that says of aliased variables that they have a certain value. -/
theorem reduceAlias (h : s.Working S id r) (mem : x ∈ r.vars) (alike : ∀ v ∈ r.vars, s.resolve v = s.resolve x)
    (value : isValue n = true) (accepts : r.Accepts fun _ => n)
    (means : ∀ σ, s.Fits r.vars σ → (r.Accepts σ ↔ σ x = n)) :
    Narrow.Ensures S.models s (Narrow.reduce x (.singleton n)) fun _ t =>
      t.Finished S id ∧ s.Contracts t ∧ t.Satisfiable r ∧ s.Backed r t := by
  refine (h.reduceOnly mem value means).mono ?_
  rintro _ t ⟨finished, contracts, left⟩
  have ⟨_, ht, _⟩ := finished
  have alike' : ∀ v ∈ r.vars, t.resolve v = t.resolve x := by rwa [contracts.resolve]
  refine ⟨finished, contracts, ⟨_, fits_const alike' ((left n).mpr rfl) value, accepts⟩,
    backed_of_alias x ht.tidy alike' fun m in_x => ?_⟩
  rwa [(left m).mp in_x]

/-! ## Tables -/

/-- Asking for the domains of variables changes nothing that is known. -/
theorem mapM_domain {α : Type} {f : List Domain → Narrow α} {Q : α → Solver → Prop} (vs : List Var) :
    ∀ s : Solver, s.Working S id r →
    (∀ t, t.Working S id r → s.Matches t → Narrow.Ensures S.models t (f (vs.map t.peek)) Q) →
    Narrow.Ensures S.models s (vs.mapM Narrow.domain >>= f) Q := by
  induction vs generalizing f with
  | nil => exact fun s h next => next s h (.refl s)
  | cons v vs ih =>
    intro s h next
    rw [List.mapM_cons]
    simp only [bind_assoc, pure_bind]
    refine h.domain v fun t ht same => ih t ht fun u hu same' => ?_
    rw [← same'.peek]
    exact next u hu (same.trans same')

/-- Narrowing variables to their columns keeps every row that fits, and leaves nothing but
    the values of the columns. -/
theorem reduceColumns (values : ∀ row ∈ live, ∀ n ∈ row, isValue n = true)
    (kept : ∀ σ, S.kept σ → ∃ row ∈ live, vs.map σ <+: row) (cols : List (Var × Nat)) : ∀ s : Solver,
    s.Working S id (.table vs rows origin) → (∀ c ∈ cols, vs[c.2]? = some c.1) → (∀ row ∈ live, s.RowFits vs row) →
    Narrow.Ensures S.models s (cols.forM (narrowColumn live)) fun _ t =>
      t.Working S id (.table vs rows origin) ∧ s.Contracts t ∧ (∀ row ∈ live, t.RowFits vs row) ∧
        ∀ c ∈ cols, ∀ n ∈ t.peek c.1, ∃ row ∈ live, row[c.2]? = some n := by
  induction cols with
  | nil => exact fun s h _ fit => ⟨h, .refl s, fit, by simp⟩
  | cons c cols ih =>
    intro s h at_cols fit
    obtain ⟨v, k⟩ := c
    have at_k : vs[k]? = some v := at_cols (v, k) (by simp)
    have column (n : Int) : n ∈ Domain.values (live.filterMap (·[k]?)) ↔
        ∃ row ∈ live, row[k]? = some n := by rw [Domain.mem_values, List.mem_filterMap]
    have canonical : (Domain.values (live.filterMap (·[k]?))).Canonical := by
      refine Domain.canonical_values fun n mem => ?_
      obtain ⟨row, in_live, found⟩ := List.mem_filterMap.mp mem
      exact values row in_live n (List.mem_of_getElem? found)
    change Narrow.Ensures S.models s (narrowColumn live (v, k) >>= fun _ => cols.forM (narrowColumn live)) _
    refine (h.reduce (h.named v (List.mem_of_getElem? at_k)) canonical fun σ keep => ?_).bind ?_
    · obtain ⟨row, in_live, start⟩ := kept σ keep
      exact (column _).mpr ⟨row, in_live, getElem?_of_initial start (by rw [List.getElem?_map, at_k]; rfl)⟩
    rintro _ t ⟨ht, cuts⟩
    have fit' (row : List Int) (in_live : row ∈ live) : t.RowFits vs row := by
      have before := fit row in_live
      refine ⟨fun i u at_i => ?_, fun i j u w at_i at_j same => ?_⟩
      · obtain ⟨n, found, mem⟩ := before.mem i u at_i
        refine ⟨n, found, (cuts.mem_peek u n).mpr ⟨mem, fun same => (column n).mpr ?_⟩⟩
        exact ⟨row, in_live, by rw [← before.alike i k u v at_i at_k same, found]⟩
      · rw [sameVar_congr cuts.resolve] at same
        exact before.alike i j u w at_i at_j same
    refine (ih t ht (fun c mem => at_cols c (by simp [mem])) fit').mono ?_
    rintro _ u ⟨hu, contracts, fit'', columns⟩
    refine ⟨hu, cuts.contracts.trans contracts, fit'', fun c mem n in_u => ?_⟩
    rcases List.mem_cons.mp mem with rfl | mem
    · exact (column n).mp (cuts.left n (contracts.mem_peek _ n in_u))
    · exact columns c mem n in_u

/-- A run of a table leaves values with a support only. -/
theorem runTable (h : s.Working S id (.table vs rows origin)) :
    Narrow.Ensures S.models s (Narrow.runTable id vs rows origin) fun _ t =>
      t.Finished S id ∧ s.Contracts t ∧ t.Satisfiable (.table vs rows origin) ∧
        ∀ v ∈ vs, ∀ n ∈ t.peek v, t.Supports (.table vs rows origin) v n := by
  unfold Narrow.runTable
  refine mapM_domain vs s h fun s' h' same => ?_
  refine Narrow.Ensures.step (a := s'.aliasPairs vs) (t := s') rfl ?_
  dsimp only
  have live_iff (row : List Int) :
      row ∈ rows.filter (Narrow.rowFits (vs.map s'.peek) (s'.aliasPairs vs)) ↔
        row ∈ rows ∧ s'.RowFits vs row := by rw [List.mem_filter, rowFits_iff]
  generalize rows.filter (Narrow.rowFits (vs.map s'.peek) (s'.aliasPairs vs)) = live at live_iff ⊢
  have sub (row : List Int) (mem : row ∈ live) : row ∈ rows := ((live_iff row).mp mem).1
  have sized (row : List Int) (mem : row ∈ live) : ∀ n ∈ row, isValue n = true := h.sized row (sub row mem)
  have kept (σ : Assignment) (keep : S.kept σ) : ∃ row ∈ live, vs.map σ <+: row := by
    obtain ⟨row, mem, start⟩ := h'.accepts keep
    exact ⟨row, (live_iff row).mpr ⟨mem, (h'.fits keep).rowFits_of_initial start⟩, start⟩
  refine Narrow.ensures_require_bind (fun no_row θ model => ?_) fun some_row => ?_
  · obtain ⟨row, mem, _⟩ := kept _ model
    simp only [Bool.not_eq_false', List.isEmpty_iff] at no_row
    rw [no_row] at mem
    cases mem
  simp only [Bool.not_eq_true', List.isEmpty_eq_false_iff] at some_row
  refine (reduceColumns sized kept vs.zipIdx _ h'
    (fun c mem => List.mem_zipIdx_iff_getElem?.mp mem) fun row mem => ((live_iff row).mp mem).2).bind ?_
  rintro _ t ⟨ht, contracts, fit, columns⟩
  have columned : Columned vs live t := by
    refine ⟨some_row, sized, fit, fun v mem n in_v => ?_⟩
    obtain ⟨k, at_k⟩ := List.mem_iff_getElem?.mp mem
    exact ⟨k, at_k, columns (v, k) (List.mem_zipIdx_iff_getElem?.mpr at_k) n in_v⟩
  have whole := same.contracts.trans contracts
  split
  · refine (ht.replaceWith (q := .table vs live origin) sized h.named fun σ suits => ?_).bind ?_
    · have fits := contracts.fits (suits vs h.named)
      constructor
      · rintro ⟨row, mem, start⟩
        exact ⟨row, sub row mem, start⟩
      · rintro ⟨row, mem, start⟩
        exact ⟨row, (live_iff row).mpr ⟨mem, fits.rowFits_of_initial start⟩, start⟩
    · rintro _ u ⟨hu, replaced⟩
      have columned := columned.matched replaced
      refine (hu.finish vs (fun v mem => names_of_mem mem) fun only σ fits =>
        columned.of_ground hu.tidy fits only).mono ?_
      rintro _ w ⟨finished, last⟩
      exact ⟨finished, whole.trans (replaced.trans last).contracts, (columned.matched last).supports sub⟩
  · refine (ht.finish vs (fun v mem => names_of_mem mem) fun only σ fits => ?_).mono ?_
    · obtain ⟨row, mem, start⟩ := columned.of_ground ht.tidy fits only
      exact ⟨row, sub row mem, start⟩
    · rintro _ w ⟨finished, last⟩
      exact ⟨finished, whole.trans last.contracts, (columned.matched last).supports sub⟩

/-- A relation that becomes the table of its rows keeps what it says. -/
theorem becomeTable (h : s.Working S id r) (vars : r.vars = vs)
    (proper : (Relation.table vs rows origin).Proper)
    (same : ∀ σ, s.Fits vs σ → (vs.map σ ∈ rows ↔ r.Accepts σ)) :
    Narrow.Ensures S.models s (Narrow.becomeTable id vs rows origin) fun _ t =>
      t.Finished S id ∧ s.Contracts t ∧ t.Satisfiable r ∧ ∀ v ∈ r.vars, ∀ n ∈ t.peek v, t.Supports r v n := by
  subst vars
  unfold Narrow.becomeTable
  have accepts (σ : Assignment) (fits : s.Fits r.vars σ) :
      (Relation.table r.vars rows origin).Accepts σ ↔ r.Accepts σ := proper.accepts_iff.trans (same σ fits)
  refine (h.replaceWith (q := .table r.vars rows origin) proper.sized h.named fun σ suits =>
    accepts σ (suits _ h.named)).bind ?_
  rintro _ t ⟨ht, matched⟩
  refine ht.runTable.mono ?_
  rintro _ u ⟨finished, contracts, ⟨σ, fits, holds⟩, supports⟩
  have whole := matched.contracts.trans contracts
  refine ⟨finished, whole, ⟨σ, fits, (accepts σ (whole.fits fits)).mp holds⟩, fun v mem n in_u => ?_⟩
  obtain ⟨τ, fits', holds', at_v⟩ := supports v mem n in_u
  exact ⟨τ, fits', (accepts τ (whole.fits fits')).mp holds', at_v⟩

/-! ## Pairs -/

/-- Two variables of which one is an affine image of the other have their values in pairs. -/
theorem narrowPair_spec (h : s.Working S id r) {sign : Int} (means : r.Affine sign c v w) (overflows : Bool)
    (apart : s.sameVar v w = false) :
    Narrow.Ensures S.models s (narrowPair id sign c v w r.vars overflows (s.peek w)) fun _ t =>
      t.Finished S id ∧ s.Contracts t ∧ t.Satisfiable r ∧ s.Backed r t := by
  have in_v : S.vars v := h.named v means.mem_first
  have in_w : S.vars w := h.named w means.mem_second
  have image {σ : Assignment} (keep : S.kept σ) : σ v = sign * σ w + c := (means.accepts_iff σ).mp (h.accepts keep)
  unfold narrowPair
  refine (h.reduce in_v (Domain.canonical_affine _ sign c) fun σ keep => ?_).bind ?_
  · refine ((h.tidy.canonical w).mem_affine means.unit).mpr (.inr ⟨h.value in_v keep, ?_⟩)
    rw [← (means.inverse _ _).mp (image keep)]
    exact h.mem_peek in_w keep
  rintro _ s₁ ⟨h₁, cuts₁⟩
  refine h₁.domain v fun s₂ h₂ same₂ => ?_
  dsimp only
  split
  · exact .inr rfl
  refine (h₂.reduce in_w (Domain.canonical_affine _ sign _) fun σ keep => ?_).bind ?_
  · refine ((h₂.tidy.canonical v).mem_affine means.unit).mpr (.inr ⟨h.value in_w keep, ?_⟩)
    rw [(means.inverse_neg _ _).mpr (image keep)]
    exact h₂.mem_peek in_v keep
  rintro _ s₃ ⟨h₃, cuts₃⟩
  have cuts₂ := cuts₁.matched same₂
  have peek_v : s₃.peek v = s₂.peek v :=
    cuts₃.peek_of_apart h₂.tidy h₃.tidy (by rw [sameVar_congr cuts₂.resolve, apart])
  have peek_w : s₂.peek w = s.peek w :=
    cuts₂.peek_of_apart h.tidy h₂.tidy (by rw [sameVar_comm, apart])
  have partners : Domain.Partners sign c (s.peek w) (s₃.peek v) (s₃.peek w) :=
    .intro (a := s.peek v) means.unit (h.tidy.canonical w) (h₃.tidy.canonical v) (h₃.tidy.canonical w)
      (fun n => by rw [peek_v, cuts₂.mem_iff]) (fun n => by rw [cuts₃.mem_iff, peek_w, peek_v])
  have contracts := cuts₂.contracts.trans cuts₃.contracts
  refine (h₃.finish r.vars (fun u mem => names_of_mem mem) fun only σ fits => ?_).mono ?_
  · have image := partners.image _ (fits.mem w means.mem_second)
    exact (means.accepts_iff σ).mpr (h₃.tidy.eq_of_ground (only v means.mem_first) (fits.mem v means.mem_first) image)
  rintro _ t ⟨finished, last⟩
  have tidy := last.tidy h₃.tidy
  have whole := contracts.trans last.contracts
  have apart' : t.sameVar v w = false := by rw [sameVar_congr whole.resolve, apart]
  have inhabited := cuts₃.inhabited
  rw [← last.peek] at partners inhabited
  exact ⟨finished, whole, satisfiable_affine means tidy apart' partners inhabited,
    backed_affine means tidy apart' partners⟩

/-! ## Differences -/

/-- The operands of a difference that are not aliased have their values in pairs. -/
theorem runPlusConst_apart (h : s.Working S id (.plusConst x c z)) (apart : s.sameVar x z = false) :
    Narrow.Ensures S.models s (Narrow.runPlusConst id x c z) fun _ t =>
      t.Finished S id ∧ s.Contracts t ∧ t.Satisfiable (.plusConst x c z) ∧ s.Backed (.plusConst x c z) t := by
  unfold Narrow.runPlusConst
  refine Narrow.ensures_sameVar ?_
  rw [apart, if_neg Bool.false_ne_true]
  refine h.domain x fun s₁ h₁ same₁ => ?_
  have pair := h₁.narrowPair_spec (Relation.affine_plusConst h.sized) (decide (c = minValue))
    (by rw [sameVar_congr same₁.resolve, sameVar_comm, apart])
  simp only [narrowPair, decide_eq_true_eq, Int.one_mul] at pair
  refine pair.mono ?_
  rintro _ t ⟨finished, contracts, satisfiable, backed⟩
  exact ⟨finished, same₁.contracts.trans contracts, satisfiable, same₁.backed backed⟩

/-- A run of a difference leaves values with a support, or such for which it lies beyond. -/
theorem runPlusConst (h : s.Working S id (.plusConst x c z)) :
    Narrow.Ensures S.models s (Narrow.runPlusConst id x c z) fun _ t =>
      t.Finished S id ∧ s.Contracts t ∧ s.Backed (.plusConst x c z) t := by
  have in_x : x ∈ (Relation.plusConst x c z).vars := by simp [Relation.vars]
  have in_z : z ∈ (Relation.plusConst x c z).vars := by simp [Relation.vars]
  cases aliased : s.sameVar x z with
  | false =>
    refine (h.runPlusConst_apart aliased).mono ?_
    rintro _ t ⟨finished, contracts, _, backed⟩
    exact ⟨finished, contracts, backed⟩
  | true =>
    have alike := resolve_of_sameVar aliased
    unfold Narrow.runPlusConst
    refine Narrow.ensures_sameVar ?_
    rw [aliased, if_pos rfl]
    refine Narrow.ensures_require (fun zero => ?_) fun nonzero θ model => ?_
    · rw [decide_eq_true_eq] at zero
      refine ⟨h.finished fun σ fits => ?_, .refl s, backed_of_alias x h.tidy (by simpa [Relation.vars] using alike.symm) fun n _ => ?_⟩
      · have := fits.alike x in_x z in_z alike
        change σ x + c = σ z
        omega
      · change n + c = n
        omega
    · rw [decide_eq_false_iff_not] at nonzero
      have := h.alike (h.named x in_x) (h.named z in_z) model alike
      have : integers θ x + c = integers θ z := h.accepts model
      omega

/-! ## Multiples -/

/-- A multiple narrows the domains of its two variables to images of each other. -/
theorem scaleImages (h : s.Working S id (.scale c x z)) (nonzero : c ≠ 0) (apart : s.sameVar x z = false) :
    Narrow.Ensures S.models s (do
        Narrow.reduce z ((s.peek x).scale c)
        let dz ← Narrow.domain z
        Narrow.reduce x (dz.divideExact c)
        Narrow.resubscribe id [x, z]) fun _ t => t.Finished S id ∧ s.Contracts t := by
  have in_x : x ∈ (Relation.scale c x z).vars := by simp [Relation.vars]
  have in_z : z ∈ (Relation.scale c x z).vars := by simp [Relation.vars]
  have named_x := h.named x in_x
  have named_z := h.named z in_z
  have product {σ : Assignment} (keep : S.kept σ) : c * σ x = σ z := h.accepts keep
  refine (h.reduce named_z (Domain.canonical_scale (h.tidy.canonical x) c) fun σ keep => ?_).bind ?_
  · rw [← product keep]
    refine (h.tidy.canonical x).mem_scale (h.mem_peek named_x keep) ?_
    rw [product keep]
    exact h.value named_z keep
  rintro _ s₁ ⟨h₁, cuts₁⟩
  refine h₁.domain z fun s₂ h₂ same₂ => ?_
  refine (h₂.reduce named_x (Domain.canonical_divideExact _ c) fun σ keep => ?_).bind ?_
  · refine (Domain.mem_divideExact nonzero).mpr (.inr ⟨h.value named_x keep, ?_⟩)
    rw [product keep]
    exact h₂.mem_peek named_z keep
  rintro _ s₃ ⟨h₃, cuts₃⟩
  have whole := (cuts₁.contracts.trans same₂.contracts).trans cuts₃.contracts
  have apart' : s₃.sameVar z x = false := by rw [sameVar_congr whole.resolve, sameVar_comm, apart]
  have peek_z : s₃.peek z = s₂.peek z :=
    cuts₃.peek_of_apart h₂.tidy h₃.tidy (by rwa [← sameVar_congr cuts₃.resolve])
  refine (h₃.finish [x, z] (fun v mem => names_of_mem mem) fun only σ fits => ?_).mono ?_
  · have in_dz := Domain.of_mem_divideExact nonzero (cuts₃.left _ (fits.mem x in_x))
    rw [← peek_z] at in_dz
    exact h₃.tidy.eq_of_ground (only z (by simp)) in_dz (fits.mem z in_z)
  · rintro _ t ⟨finished, last⟩
    exact ⟨finished, whole.trans last.contracts⟩

/-- A run of a multiple leaves values with a support if the domain of its operand is small. -/
theorem runScale (h : s.Working S id (.scale c x z)) :
    Narrow.Ensures S.models s (Narrow.runScale id c x z) fun _ t => t.Finished S id ∧ s.Contracts t ∧
      (c ≠ 0 → (s.peek x).size.any (· ≤ tableThreshold) = true → s.Backed (.scale c x z) t) := by
  have in_x : x ∈ (Relation.scale c x z).vars := by simp [Relation.vars]
  have in_z : z ∈ (Relation.scale c x z).vars := by simp [Relation.vars]
  have zero_value : isValue 0 = true := by decide
  unfold Narrow.runScale
  split
  · rename_i zero
    refine (h.reduceOnly in_z zero_value fun σ _ => ?_).mono ?_
    · change c * σ x = σ z ↔ σ z = 0
      rw [zero, Int.zero_mul, eq_comm]
    · rintro _ t ⟨finished, contracts, _⟩
      exact ⟨finished, contracts, fun nonzero => absurd zero nonzero⟩
  rename_i nonzero
  refine Narrow.ensures_sameVar ?_
  split
  · rename_i same
    have alike : ∀ v ∈ (Relation.scale c x z).vars, s.resolve v = s.resolve x := by
      simpa [Relation.vars] using (resolve_of_sameVar same).symm
    split
    · rename_i one
      refine Narrow.Ensures.pure ⟨h.finished fun σ fits => ?_, .refl s, fun _ _ =>
        backed_of_alias x h.tidy alike fun n _ => ?_⟩
      · change c * σ x = σ z
        rw [one, Int.one_mul]
        exact fits.alike x in_x z in_z (resolve_of_sameVar same)
      · change c * n = n
        rw [one, Int.one_mul]
    · rename_i not_one
      refine (h.reduceAlias in_x alike zero_value (Int.mul_zero c) fun σ fits => ?_).mono ?_
      · change c * σ x = σ z ↔ σ x = 0
        rw [← fits.alike x in_x z in_z (resolve_of_sameVar same)]
        refine ⟨fun fixed => ?_, fun zero => by rw [zero, Int.mul_zero]⟩
        have : (c - 1) * σ x = 0 := by rw [Int.sub_mul, fixed]; omega
        exact (Int.mul_eq_zero.mp this).resolve_left (by omega)
      · rintro _ t ⟨finished, contracts, _, backed⟩
        exact ⟨finished, contracts, fun _ _ => backed⟩
  · rename_i apart
    rw [Bool.not_eq_true] at apart
    refine h.domain x fun s₁ h₁ same₁ => h₁.domain z fun s₂ h₂ same₂ => ?_
    have same := same₁.trans same₂
    rw [← same₂.peek]
    split
    · rename_i small
      have rows := Running.tabulates_scale (z := z) (c := c) (h₂.tidy.canonical x) (Running.finite_of_size small)
      refine (h₂.becomeTable rfl rows.proper fun σ fits => rows.mem_iff fits).mono ?_
      rintro _ t ⟨finished, contracts, _, supports⟩
      exact ⟨finished, same.contracts.trans contracts, fun _ _ v mem _ n in_v => .inl (supports v mem n in_v)⟩
    · rename_i large
      refine (h₂.scaleImages nonzero (by rw [sameVar_congr same.resolve, apart])).mono ?_
      rintro _ t ⟨finished, contracts⟩
      refine ⟨finished, same.contracts.trans contracts, fun _ small => absurd ?_ large⟩
      rwa [same.peek]

/-! ## Sums with a known result -/

/-- A run of a sum with a known result leaves values with a support, or such for which it
    lies beyond. -/
theorem runSumConst (h : s.Working S id (.sumConst x y c)) :
    Narrow.Ensures S.models s (Narrow.runSumConst id x y c) fun _ t =>
      t.Finished S id ∧ s.Contracts t ∧ t.Satisfiable (.sumConst x y c) ∧ s.Backed (.sumConst x y c) t := by
  have in_x : x ∈ (Relation.sumConst x y c).vars := by simp [Relation.vars]
  have in_y : y ∈ (Relation.sumConst x y c).vars := by simp [Relation.vars]
  unfold Narrow.runSumConst
  refine Narrow.ensures_sameVar ?_
  split
  · rename_i same
    have twice (σ : Assignment) (fits : s.Fits [x, y] σ) : (Relation.sumConst x y c).Accepts σ ↔ c = 2 * σ x := by
      have := fits.alike x in_x y in_y (resolve_of_sameVar same)
      change σ x + σ y = c ↔ _
      omega
    refine Narrow.ensures_require_bind (fun odd θ model => ?_) fun even => ?_
    · rw [(twice _ (h.fits model)).mp (h.accepts model)] at odd
      simp at odd
    · rw [decide_eq_true_eq] at even
      obtain ⟨half, value⟩ := Running.isValue_half h.sized even
      refine h.reduceAlias in_x (by simpa [Relation.vars] using (resolve_of_sameVar same).symm) value ?_ fun σ fits => ?_
      · change Int.tdiv c 2 + Int.tdiv c 2 = c
        omega
      · rw [twice σ fits]
        omega
  · rename_i apart
    rw [Bool.not_eq_true] at apart
    refine h.domain x fun s₁ h₁ same₁ => h₁.domain y fun s₂ h₂ same₂ => ?_
    have same := same₁.trans same₂
    rw [← same₂.peek]
    split
    · rename_i small
      obtain ⟨finite, _⟩ := Running.finite_of_smallProduct small
      have rows := Running.tabulates_sumConst (y := y) (c := c) (h₂.tidy.canonical x) finite
      refine (h₂.becomeTable rfl rows.proper fun σ fits => rows.mem_iff fits).mono ?_
      rintro _ t ⟨finished, contracts, satisfiable, supports⟩
      exact ⟨finished, same.contracts.trans contracts, satisfiable, fun v mem _ n in_v => .inl (supports v mem n in_v)⟩
    · have pair := h₂.narrowPair_spec (Relation.affine_sumConst h.sized) false
        (by rw [sameVar_congr same.resolve, apart])
      simp only [narrowPair, Bool.false_eq_true, if_false, Int.neg_one_mul, Int.neg_neg] at pair
      refine pair.mono ?_
      rintro _ t ⟨finished, contracts, satisfiable, backed⟩
      exact ⟨finished, same.contracts.trans contracts, satisfiable, same.backed backed⟩

end Working

end Solver

end ConstraintLogic
