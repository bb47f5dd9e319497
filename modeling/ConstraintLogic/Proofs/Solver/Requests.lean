import ConstraintLogic.Proofs.Solver.WriteBack
import ConstraintLogic.Proofs.Unification.Equations

/-!
# Solving

A solver that is opened on a substitution takes requests, to post a propagator or to
reduce a domain, runs to a fixpoint and is written back. In all of that nothing but
the requests is added to what the substitution says.

Results:
* `Solver.Sound.reduce`: reducing a domain, loaded or not.
* `Subst.Orderly.steady_new`, `Subst.Orderly.admits_new`: a new solver.
* `Request`, `Subst.solveAll`: what is asked of a solver, and the answer.
* `Subst.Adds`: what an attempt adds to a substitution.
* `Subst.OrderlyIn.solveAll`: the answer adds just the requests.
-/

namespace ConstraintLogic

namespace Solver

variable {K : Scope} {E : PropId → Prop} {P : Var → Prop} {s : Solver}

/-! ## Reducing -/

theorem reduce_eq (v : Var) (d : Domain) (s : Solver) : Narrow.reduce v d s =
    match s.resolve v with
    | .value n => Narrow.require (d.contains n) s
    | .other => Narrow.conflict s
    | .free w =>
      let next := (s.domain w).1.intersect d
      (if next.isEmpty then Narrow.conflict
      else if next = (s.domain w).1 then pure ()
      else modify fun s => { s with domains := s.domains.insert w next }.excite w) (s.domain w).2 := by
  unfold Narrow.reduce
  show (match s.resolve v with
    | .value n => _
    | .other => _
    | .free w => _ : Narrow Unit) s = _
  cases s.resolve v with
  | free w => rfl
  | value n => rfl
  | other => rfl

/-- Reducing a domain loads it first. -/
theorem Sound.reduce_domain (h : s.Sound K E P) (v : Var) (d : Domain) :
    Narrow.reduce v d (s.domain v).2 = Narrow.reduce v d s := by
  obtain ⟨_, unfolds, loaded⟩ := h.domain v
  rw [reduce_eq, reduce_eq, unfolds.grows.resolve]
  cases found : s.resolve v with
  | free w =>
    have free := resolve_of_unbound (h.unbound_of_free found)
    have same : s.domain w = s.domain v := by
      unfold Solver.domain
      rw [free, found]
    have again : (s.domain v).2.domain w = ((s.domain v).1, (s.domain v).2) := by
      rw [domain_of_loaded fun u free' => ?_, unfolds.grows.peek, ← same, (h.domain w).1]
      rw [unfolds.grows.resolve, free] at free'
      cases free'
      exact loaded w found
    dsimp only
    rw [again, same]
  | value n =>
    have same : (s.domain v).2 = s := by
      unfold Solver.domain
      rw [found]
    rw [same]
  | other =>
    have same : (s.domain v).2 = s := by
      unfold Solver.domain
      rw [found]
    rw [same]

/-- Reducing a domain adds just that the variable takes a value of the new one. -/
theorem Sound.reduce (h : s.Sound K E P) {v : Var} {d : Domain} (canonical : d.Canonical)
    (full : d = .unbounded → ∀ θ, s.Admits K θ → (θ v).IsValue) :
    Narrow.Ensures (fun θ => s.Admits K θ ∧ d.Holds (θ v)) s (Narrow.reduce v d) fun _ t =>
      t.Sound K E P ∧ s.Shrinks t ∧ t.subst = s.subst ∧ (∀ n ∈ t.peek v, n ∈ d) ∧
        ∀ θ, t.Admits K θ ↔ s.Admits K θ ∧ d.Holds (θ v) := by
  obtain ⟨_, unfolds, loaded⟩ := h.domain v
  have resolve := unfolds.grows.resolve
  have reduced := unfolds.sound.reduce_loaded canonical (v := v)
    (fun w free => loaded w (by rw [← resolve, free]))
    fun unbounded θ admits => full unbounded θ ((unfolds.admits θ).mp admits)
  unfold Narrow.Ensures at reduced ⊢
  rw [h.reduce_domain v d] at reduced
  simp only [unfolds.admits] at reduced
  split
  · rename_i t run
    rw [run] at reduced
    refine ⟨reduced.sound, unfolds.grows.shrinks.trans reduced.reduced.shrinks,
      reduced.reduced.subst.trans unfolds.grows.subst, reduced.reduced.left, fun θ => ?_⟩
    rw [reduced.admits, unfolds.admits]
  · rename_i run
    rw [run] at reduced
    exact reduced
  · rename_i run
    rw [run] at reduced
    exact reduced
  · rename_i run
    rw [run] at reduced
    exact reduced

end Solver

namespace Subst

variable {K : Scope} {s : Subst}

/-! ## A new solver -/

theorem Orderly.steady_new (h : s.Orderly K) : (Solver.new s).Steady K where
  base := by
    refine h.mono rfl fun p known => ?_
    rcases known with known | ⟨id, found⟩
    · exact .inl known
    · simp [Solver.new, Solver.prop?] at found
  loaded w d found := by simp [Solver.new] at found
  closed p := fun ⟨id, found⟩ => by simp [Solver.new, Solver.prop?] at found
  subscribed w id mem := by simp [Solver.new, Solver.subscribersOf] at mem
  distinct w := by simp [Solver.new, Solver.subscribersOf]
  interned n id := by simp [Solver.new, Solver.prop?]
  agenda := Agenda.coherent_empty
  live id p found := by simp [Solver.new, Solver.prop?] at found

/-- A new solver describes what its substitution describes. -/
theorem Orderly.admits_new (h : s.Orderly K) {θ : Var → Term} :
    (Solver.new s).Admits K θ ↔ K.readings θ ∧ s.Admits θ := by
  have current (w : Var) : (Solver.new s).current w = s.storedDomain w := by
    simp [Solver.current, Solver.new]
  constructor
  · intro admits
    refine ⟨admits.reading, admits.binding, fun v a found => ?_, fun v a found p mem => ?_⟩
    · have unbound : s.get? v = none := by
        cases bound : s.get? v with
        | none => rfl
        | some b =>
          rw [h.unbound v (by simp [bound])] at found
          cases found
      have allows := admits.domain v unbound
      rw [current, storedDomain, found] at allows
      exact allows.resolve_left (h.domain v a found).finite
    · refine admits.stored v (by simp [Solver.new]) p ?_
      show p ∈ s.storedWatchers v
      rw [storedWatchers, found]
      exact mem
  · rintro ⟨reading, admits⟩
    refine ⟨reading, admits.binding, fun w _ => ?_, fun p work => ?_, fun w _ p mem => ?_⟩
    · rw [current, storedDomain]
      split
      · rename_i a found
        exact .inr (admits.domain w a found)
      · exact .inl rfl
    · obtain ⟨id, found⟩ := work
      simp [Solver.new, Solver.prop?] at found
    · replace mem : p ∈ s.storedWatchers w := mem
      rw [storedWatchers] at mem
      split at mem
      · rename_i a found
        exact admits.watchers w a found p mem
      · cases mem

end Subst

/-- The substitution is in order, and its bound variables have terms that are `T`. -/
structure Subst.OrderlyIn (K : Scope) (T : Term → Prop) (s : Subst) : Prop where
  orderly : s.Orderly K
  bound : ∀ v t, s.get? v = some t → T t

theorem Subst.Orderly.inAll {K : Scope} {s : Subst} (h : s.Orderly K) : s.OrderlyIn K fun _ => True :=
  ⟨h, fun _ _ _ => trivial⟩

/-- The values that the substitution leaves to the variable. -/
def Subst.leaves (s : Subst) (v : Var) : Domain := (Solver.new s).peek v

/-- The second substitution leaves no more values to any variable. -/
def Subst.Tightens (s t : Subst) : Prop := ∀ v n, n ∈ t.leaves v → n ∈ s.leaves v

/-- The second substitution is in order, keeps the bindings of the first one, binds other
    variables to integers only, and leaves no more values to any variable. -/
structure Subst.Refines (K : Scope) (T : Term → Prop) (s t : Subst) : Prop where
  good : t.OrderlyIn K T
  extends_ : s.Extends t
  gains : ∀ v a, t.get? v = some a → s.get? v = some a ∨ ∃ n, a = .int n
  tightens : s.Tightens t

theorem Subst.Refines.refl {K : Scope} {T : Term → Prop} {s : Subst} (h : s.OrderlyIn K T) :
    s.Refines K T s :=
  ⟨h, .refl s, fun _ _ => .inl, fun _ _ => id⟩

theorem Subst.Refines.trans {K : Scope} {T : Term → Prop} {s t u : Subst} (h : s.Refines K T t)
    (h' : t.Refines K T u) : s.Refines K T u where
  good := h'.good
  extends_ := h.extends_.trans h'.extends_
  gains v a bound := (h'.gains v a bound).elim (h.gains v a) .inr
  tightens v n mem := h.tightens v n (h'.tightens v n mem)

/-- What is written back from a solver refines what the solver was opened on. -/
theorem Solver.WrittenBack.refines {K : Scope} {T : Term → Prop} {subst t : Subst} {s : Solver}
    (back : s.WrittenBack t) (h : subst.OrderlyIn K T) (ints : ∀ n, isValue n = true → T (.int n))
    (steady : s.Steady K) (shrinks : (Solver.new subst).Shrinks s) (good : t.Orderly K) :
    subst.Refines K T t := by
  have get (w : Var) : s.subst.get? w = subst.get? w := by
    rw [Subst.get?, shrinks.bindings]
    rfl
  refine ⟨⟨good, fun w a found => ?_⟩, fun w a found => ?_, fun w a found => ?_, fun w n mem => ?_⟩
  · rcases back.bound w a found with before | ⟨_, n, _, _, rfl⟩
    · exact h.bound w a (get w ▸ before)
    · exact ints n (good.sized w _ found)
  · exact back.extends_ w a (by rw [get, found])
  · rcases back.bound w a found with before | ⟨_, n, _, _, same⟩
    · exact .inl (get w ▸ before)
    · exact .inr ⟨n, same⟩
  · exact shrinks.mem_peek w n (back.mem_peek steady mem)

/-- The attempt adds just `E` to what the substitution says to the readings that
    count, and keeps it in order; nothing but an overflow stops it. -/
abbrev Subst.Adds (K : Scope) (T : Term → Prop) (s : Subst) (E : (Var → Term) → Prop)
    (r : Attempt Subst) : Prop :=
  Subst.Solves (fun t => t.OrderlyIn K T) (fun t θ => K.readings θ ∧ t.Admits θ) Fault.IsOverflow
    s E r

/-! ## Requests -/

/-- What can be asked of a solver. -/
inductive Request where
  /-- To post a propagator. -/
  | post (p : Propagator)
  /-- To leave a variable with the values of a domain. -/
  | reduce (v : Var) (d : Domain)

namespace Request

/-- Makes the request. -/
def run : Request → Narrow Unit
  | post p => modify fun s => (s.post p).2
  | reduce v d => Narrow.reduce v d

/-- The reading satisfies the request. -/
def HoldsOf (θ : Var → Term) : Request → Prop
  | post p => p.val.HoldsOf θ
  | reduce v d => d.Holds (θ v)

/-- A propagator is posted that is known, or the domain is in its one form; a variable
    that may take every value is read as an integer. -/
def Fair (K : Scope) (s : Subst) : Request → Prop
  | post p => K.known p
  | reduce v d => d.Canonical ∧ (d = .unbounded → s.Integral K v)

end Request

/-- The answer of a solver to requests. -/
def Subst.solveAll (s : Subst) (requests : List Request) : Attempt Subst :=
  (Solver.new s).runToSubst do
    requests.forM Request.run
    Narrow.fixpoint

namespace Solver

variable {K : Scope} {s : Solver}

/-- A request adds itself to what has to be satisfied. -/
theorem Sound.request (h : s.Steady K) {r : Request} (fair : r.Fair K s.subst) :
    Narrow.Ensures (fun θ => s.Admits K θ ∧ r.HoldsOf θ) s r.run fun _ t =>
      t.Steady K ∧ t.subst = s.subst ∧ s.Shrinks t ∧
        ∀ θ, t.Admits K θ ↔ s.Admits K θ ∧ r.HoldsOf θ := by
  cases r with
  | post p =>
    obtain ⟨sound, grows, admits⟩ := h.post (p := p) fair
    exact ⟨sound, grows.subst, grows.shrinks, admits⟩
  | reduce v d =>
    refine (h.reduce fair.1 fun full θ admits => ?_).mono ?_
    · exact fair.2 full θ admits.reading admits.binding
    · rintro _ t ⟨sound, shrinks, subst, _, admits⟩
      exact ⟨sound, subst, shrinks, admits⟩

/-- Requests that are made one after another. -/
theorem Sound.requests (requests : List Request) : ∀ s : Solver, s.Steady K →
    (∀ r ∈ requests, r.Fair K s.subst) →
    Narrow.Ensures (fun θ => s.Admits K θ ∧ ∀ r ∈ requests, r.HoldsOf θ) s
      (requests.forM Request.run) fun _ t => t.Steady K ∧ t.subst = s.subst ∧ s.Shrinks t ∧
        ∀ θ, t.Admits K θ ↔ s.Admits K θ ∧ ∀ r ∈ requests, r.HoldsOf θ := by
  induction requests with
  | nil => exact fun s h _ => Narrow.Ensures.pure ⟨h, rfl, .refl s, by simp⟩
  | cons r requests ih =>
    intro s h fair
    show Narrow.Ensures _ s (r.run >>= fun _ => requests.forM Request.run) _
    refine ((h.request (fair r (by simp))).of_models ?_).bind ?_
    · exact fun θ ⟨admits, holds⟩ => ⟨admits, holds r (by simp)⟩
    · rintro _ t ⟨sound, subst, shrinks, admits⟩
      have fair' (q : Request) (mem : q ∈ requests) : q.Fair K t.subst := by
        rw [subst]
        exact fair q (by simp [mem])
      refine ((ih t sound fair').of_models fun θ model => ?_).mono ?_
      · exact ⟨(admits θ).mpr ⟨model.1, model.2 r (by simp)⟩, fun q mem => model.2 q (by simp [mem])⟩
      · rintro _ u ⟨sound', subst', shrinks', admits'⟩
        refine ⟨sound', subst'.trans subst, shrinks.trans shrinks', fun θ => ?_⟩
        rw [admits', admits, and_assoc, List.forall_mem_cons]

/-- A narrowing that adds `E`, goes on to a fixpoint and is written back. -/
theorem refines_runToSubst {T : Term → Prop} {E : (Var → Term) → Prop} {m : Narrow Unit}
    {subst : Subst} (h : subst.OrderlyIn K T) (ints : ∀ n, isValue n = true → T (.int n))
    (run : Narrow.Ensures (fun θ => (K.readings θ ∧ subst.Admits θ) ∧ E θ) (Solver.new subst) m fun _ t =>
      t.Steady K ∧ t.subst = subst ∧ (Solver.new subst).Shrinks t ∧
        ∀ θ, t.Admits K θ ↔ (K.readings θ ∧ subst.Admits θ) ∧ E θ) :
    Subst.Solves (subst.Refines K T)
      (fun t θ => K.readings θ ∧ t.Admits θ) Fault.IsOverflow subst E
      ((Solver.new subst).runToSubst do m; Narrow.fixpoint) := by
  have whole := run.bind (f := fun _ => Narrow.fixpoint) (R := fun _ t => (∃ u, t.toSubst? = .ok u ∧
      subst.Refines K T u ∧
        ∀ θ, K.readings θ ∧ u.Admits θ ↔ (K.readings θ ∧ subst.Admits θ) ∧ E θ)) ?_
  · unfold Solver.runToSubst EStateM.run
    unfold Narrow.Ensures at whole
    split at whole
    · rename_i t ended
      obtain ⟨u, written, refines, exact_⟩ := whole
      rw [ended]
      dsimp only
      rw [written]
      exact ⟨refines, refines.extends_, exact_⟩
    · rename_i ended
      rw [ended]
      exact fun θ model holds => whole θ ⟨model, holds⟩
    · rename_i ended
      rw [ended]
      exact whole
    · rename_i ended
      exact whole.elim
  · rintro _ t ⟨sound, same, shrinks, admits⟩
    refine (sound.fixpoint.of_models fun θ model => (admits θ).mpr model).mono ?_
    rintro _ u ⟨steady, admits', shrinks', quiet⟩
    obtain ⟨v, written, back, good, describes⟩ := steady.toSubst? quiet
    refine ⟨v, written, back.refines h ints steady (shrinks.trans shrinks') good, fun θ => ?_⟩
    rw [← describes, admits', admits]

end Solver

namespace Subst

variable {K : Scope} {T : Term → Prop} {s : Subst}

/-- The answer to requests adds just the requests to what a substitution says, and
    leaves no more values to any variable. -/
theorem OrderlyIn.solveAll_refines (h : s.OrderlyIn K T) (ints : ∀ n, isValue n = true → T (.int n))
    (requests : List Request) (fair : ∀ r ∈ requests, r.Fair K s) :
    Solves (s.Refines K T) (fun t θ => K.readings θ ∧ t.Admits θ) Fault.IsOverflow s (fun θ => ∀ r ∈ requests, r.HoldsOf θ) (s.solveAll requests) := by
  have requested := h.orderly.steady_new.requests requests _ fair
  simp only [h.orderly.admits_new] at requested
  exact Solver.refines_runToSubst h ints requested

/-- The answer to requests adds just the requests to what a substitution says. -/
theorem OrderlyIn.solveAll (h : s.OrderlyIn K T) (ints : ∀ n, isValue n = true → T (.int n))
    (requests : List Request) (fair : ∀ r ∈ requests, r.Fair K s) :
    s.Adds K T (fun θ => ∀ r ∈ requests, r.HoldsOf θ) (s.solveAll requests) :=
  (h.solveAll_refines ints requests fair).mono fun _ refines => refines.good

theorem run_posts (ps : List Propagator) : ∀ s : Solver,
    (ps.map Request.post).forM Request.run s = .ok () (ps.foldl (fun s p => (s.post p).2) s) := by
  induction ps with
  | nil => exact fun s => rfl
  | cons p ps ih => exact fun s => ih (s.post p).2

/-- The propagators may be posted before the run. It is stated for any run, since
    nothing needs to be known of it. -/
theorem runToSubst_posts (ps : List Propagator) (m : Narrow Unit) (s : Solver) :
    s.runToSubst (do (ps.map Request.post).forM Request.run; m) =
      (ps.foldl (fun s p => (s.post p).2) s).runToSubst m := by
  have run : (do (ps.map Request.post).forM Request.run; m : Narrow Unit) s =
      m (ps.foldl (fun s p => (s.post p).2) s) := by
    show EStateM.bind ((ps.map Request.post).forM Request.run) (fun _ => m) s = _
    unfold EStateM.bind
    rw [run_posts]
  unfold Solver.runToSubst EStateM.run
  rw [run]

theorem solveWith_eq (s : Subst) (ps : List Propagator) :
    s.solveWith ps = s.solveAll (ps.map .post) :=
  (runToSubst_posts ps Narrow.fixpoint (Solver.new s)).symm

theorem solveReduced_eq (s : Subst) (v : Var) (d : Domain) :
    s.solveReduced v d = s.solveAll [.reduce v d] := by
  have run : (do [Request.reduce v d].forM Request.run; Narrow.fixpoint : Narrow Unit) =
      (do Narrow.reduce v d; Narrow.fixpoint) := by
    show (do (do Narrow.reduce v d; pure ⟨⟩); Narrow.fixpoint : Narrow Unit) = _
    rw [bind_assoc]
    simp only [pure_bind]
  unfold solveReduced solveAll
  rw [run]

/-- Known propagators that are posted are added to what a substitution says. -/
theorem OrderlyIn.solveWith (h : s.OrderlyIn K T) (ints : ∀ n, isValue n = true → T (.int n))
    {ps : List Propagator} (known : ∀ p ∈ ps, K.known p) :
    s.Adds K T (fun θ => ∀ p ∈ ps, p.val.HoldsOf θ) (s.solveWith ps) := by
  rw [solveWith_eq]
  refine (h.solveAll ints (ps.map .post) fun r mem => ?_).congr fun θ _ => ?_
  · obtain ⟨p, in_ps, rfl⟩ := List.mem_map.mp mem
    exact known p in_ps
  · simp only [List.forall_mem_map]
    exact Iff.rfl

theorem OrderlyIn.solveReduced (h : s.OrderlyIn K T) (ints : ∀ n, isValue n = true → T (.int n))
    {v : Var} {d : Domain} (canonical : d.Canonical) (full : d = .unbounded → s.Integral K v) :
    s.Adds K T (fun θ => d.Holds (θ v)) (s.solveReduced v d) := by
  rw [solveReduced_eq]
  refine (h.solveAll ints [.reduce v d] fun r mem => ?_).congr fun θ _ => ?_
  · rw [List.mem_singleton.mp mem]
    exact ⟨canonical, full⟩
  · simp [Request.HoldsOf]

end Subst

end ConstraintLogic
