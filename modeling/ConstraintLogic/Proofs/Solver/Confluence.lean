import ConstraintLogic.Proofs.Solver.Idempotence

/-!
# Requests in another order

The order in which requests are made decides which propagator runs first, and with it
the domains that a propagator starts from. Two orders describe the same readings when
both come to a fixpoint, but they need not describe them by the same domains, and one of
them can end in a contradiction that the other does not find.

Results:
* `Solver.Equivalent`: two solvers describe the same models.
* `Solver.Accord`: two runs agree as far as models go.
* `Subst.Produced.settle_perm`: requests in two orders come to that.
* `Subst.exists_order_differs`: the domains can differ, and so can the outcome.
-/

namespace ConstraintLogic

namespace Solver

variable {K : Scope} {M : (Var → Term) → Prop} {s t u : Solver} {v : Var} {n : Int}

/-- Every value in the domain of the variable is its value in a reading of `M`. -/
def Full (M : (Var → Term) → Prop) (s : Solver) (v : Var) : Prop :=
  ∀ n ∈ (s.domain v).1, ∃ θ, M θ ∧ (θ v).IsValue ∧ (θ v).number = n

/-- Both solvers describe the readings of `M` and no others that count. So a value that a
    variable takes in one of them is in both of its domains, a domain of such values is the
    smaller one, and a variable that has one value in both has the same one. -/
structure Equivalent (K : Scope) (M : (Var → Term) → Prop) (t u : Solver) : Prop where
  admits : ∀ θ, (t.Admits K θ ↔ M θ) ∧ (u.Admits K θ ↔ M θ)
  taken : ∀ θ, M θ → ∀ v, (θ v).IsValue → (θ v).number ∈ (t.domain v).1 ∧ (θ v).number ∈ (u.domain v).1
  least : ∀ v n, (t.Full M v → n ∈ (t.domain v).1 → n ∈ (u.domain v).1) ∧
    (u.Full M v → n ∈ (u.domain v).1 → n ∈ (t.domain v).1)
  full : ∀ v, t.Full M v → u.Full M v → (t.domain v).1 = (u.domain v).1
  solved : (∃ θ, M θ) → ∀ v n m, (t.domain v).1.solution = some n → (u.domain v).1.solution = some m → n = m

/-- Two runs that are to describe the readings of `M`: where both end they are equivalent,
    one ends in a conflict only if there is no such reading, and it is stopped by nothing
    but an overflow. -/
structure Accord (K : Scope) (M : (Var → Term) → Prop) (r r' : EStateM.Result Halt Solver Unit) : Prop where
  ok : ∀ t u, r = .ok () t → r' = .ok () u → Equivalent K M t u
  conflict : ∀ t, r = .error .conflict t ∨ r' = .error .conflict t → ∀ θ, ¬M θ
  stop : ∀ why t, r = .error (.stop why) t ∨ r' = .error (.stop why) t → ∃ f, why = .fault f ∧ f.IsOverflow

/-- A variable with one value is read as that value. -/
theorem Admits.eq_of_solution {θ : Var → Term} (h : t.Admits K θ) (steady : t.Steady K)
    (solved : (t.domain v).1.solution = some n) : θ v = .int n := by
  rw [(steady.domain v).1] at solved
  have only := (steady.canonical_peek v).solution_eq_some_iff.mp solved
  cases found : t.resolve v with
  | free w =>
    rw [peek_of_free found] at solved only
    rw [reading_of_free h.binding found]
    rcases h.domain w (steady.unbound_of_free found) with full | holds
    · rw [full] at solved
      cases solved
    · obtain ⟨m, read, _, mem⟩ := holds
      rw [read, (only m).mp mem]
  | value m =>
    rw [reading_of_value h.binding found]
    have mem : m ∈ t.peek v := by
      rw [peek, found]
      exact Domain.mem_singleton.mpr rfl
    rw [(only m).mp mem]
  | other =>
    have mem := (only n).mpr rfl
    rw [peek, found] at mem
    exact absurd mem (Domain.not_mem_empty n)

/-- Two solvers that admit the readings of `M` and no others are equivalent. -/
theorem equivalent (left : t.Steady K) (right : u.Steady K) (admits : ∀ θ, t.Admits K θ ↔ M θ)
    (admits' : ∀ θ, u.Admits K θ ↔ M θ) : Equivalent K M t u := by
  have taken {x : Solver} (steady : x.Steady K) (models : ∀ θ, M θ → x.Admits K θ) (θ : Var → Term) (model : M θ)
      (v : Var) (value : (θ v).IsValue) : (θ v).number ∈ (x.domain v).1 := by
    rw [(steady.domain v).1]
    exact (models θ model).mem_peek steady.base.acyclic value
  have taken_t := taken left fun θ => (admits θ).mpr
  have taken_u := taken right fun θ => (admits' θ).mpr
  have least_t (v : Var) (n : Int) (full : t.Full M v) (mem : n ∈ (t.domain v).1) : n ∈ (u.domain v).1 := by
    obtain ⟨θ, model, value, rfl⟩ := full n mem
    exact taken_u θ model v value
  have least_u (v : Var) (n : Int) (full : u.Full M v) (mem : n ∈ (u.domain v).1) : n ∈ (t.domain v).1 := by
    obtain ⟨θ, model, value, rfl⟩ := full n mem
    exact taken_t θ model v value
  have canonical {x : Solver} (steady : x.Steady K) (v : Var) : (x.domain v).1.Canonical := by
    rw [(steady.domain v).1]
    exact steady.canonical_peek v
  refine ⟨fun θ => ⟨admits θ, admits' θ⟩, fun θ model v value => ⟨taken_t θ model v value, taken_u θ model v value⟩,
    fun v n => ⟨least_t v n, least_u v n⟩, fun v full full' => ?_, fun ⟨θ, model⟩ v n m solved solved' => ?_⟩
  · exact (canonical left v).ext (canonical right v) fun n => ⟨least_t v n full, least_u v n full'⟩
  · have read := ((admits θ).mpr model).eq_of_solution left solved
    rw [((admits' θ).mpr model).eq_of_solution right solved'] at read
    cases read
    rfl

/-- Two runs accord that describe the readings of `M` where they end. -/
theorem accord_of_ensures {m m' : Narrow Unit}
    (left : Narrow.Ensures M s m fun _ t => t.Steady K ∧ ∀ θ, t.Admits K θ ↔ M θ)
    (right : Narrow.Ensures M s m' fun _ t => t.Steady K ∧ ∀ θ, t.Admits K θ ↔ M θ) : Accord K M (m s) (m' s) := by
  refine ⟨fun t u ended ended' => ?_, fun t ended => ?_, fun why t ended => ?_⟩
  · unfold Narrow.Ensures at left right
    rw [ended] at left
    rw [ended'] at right
    exact equivalent left.1 right.1 left.2 right.2
  · unfold Narrow.Ensures at left right
    rcases ended with ended | ended
    · rw [ended] at left
      exact left
    · rw [ended] at right
      exact right
  · have stopped {m : Narrow Unit} (ended : m s = .error (.stop why) t)
        (run : Narrow.Ensures M s m fun _ t => t.Steady K ∧ ∀ θ, t.Admits K θ ↔ M θ) :
        ∃ f, why = .fault f ∧ f.IsOverflow := by
      unfold Narrow.Ensures at run
      rw [ended] at run
      cases why with
      | fault f => exact ⟨f, rfl, run⟩
      | exhausted => exact run.elim
    rcases ended with ended | ended
    · exact stopped ended left
    · exact stopped ended right

end Solver

namespace Subst

variable {s : Subst} {requests requests' : List Request}

/-- What can be asked for can be asked for in another order. -/
theorem Takes.perm (takes : s.Takes requests) (order : requests.Perm requests') : s.Takes requests' where
  canonical v d mem := takes.canonical v d (order.mem_iff.mpr mem)
  proper p mem := takes.proper p (order.mem_iff.mpr mem)
  stamped p mem := takes.stamped p (order.mem_iff.mpr mem)
  coherent p q mem mem' := takes.coherent p q (order.mem_iff.mpr mem) (mem'.imp_left order.mem_iff.mpr)

theorem requestScope_perm (order : requests.Perm requests') : s.requestScope requests = s.requestScope requests' := by
  simp only [requestScope, order.mem_iff]

/-- On a substitution that goals produce, requests that are made in two orders, each
    followed by a fixpoint, come to the same models: those that satisfy the requests. -/
theorem Produced.settle_perm (h : s.Produced) (takes : s.Takes requests) (order : requests.Perm requests') :
    Solver.Accord (s.requestScope requests) (fun θ => s.Models θ ∧ ∀ r ∈ requests, r.HoldsOf θ)
      (Narrow.settle requests (Solver.new s)) (Narrow.settle requests' (Solver.new s)) := by
  have other := h.ensures_settle (takes.perm order)
  simp only [← requestScope_perm order, ← order.mem_iff] at other
  exact Solver.accord_of_ensures ((h.ensures_settle takes).mono fun _ _ ⟨steady, _, admits⟩ => ⟨steady, admits⟩)
    (other.mono fun _ _ ⟨steady, _, admits⟩ => ⟨steady, admits⟩)

/-! ## Orders that come to different ends -/

/-- Variables `_0` to `_(n-1)` and the identities below `k`, which are given out. -/
def vacant (n k : Nat) : Subst := { (empty.freshMany n).2 with supply := k }

theorem produced_vacant (n k : Nat) : (vacant n k).Produced := by
  refine ⟨fun _ _ => .fail, .reserve k fun _ => .succeed, n, 0, .unit (vacant n k), fun _ _ _ => trivial,
    fun _ => ⟨fun _ => False, fun _ => False.elim, fun _ _ => False.elim, trivial⟩, ?_, .here⟩
  show Except.ok (Series.unit { (empty.freshMany n).2 with supply := 0 + k }) = _
  simp only [vacant, Nat.zero_add]

/-- Domains for some variables, and then propagators. -/
def arrange (ds : List (Var × Domain)) (ps : List Propagator) : List Request :=
  ds.map (fun d => .reduce d.1 d.2) ++ ps.map .post

theorem arrange_perm (ds : List (Var × Domain)) {ps qs : List Propagator} (order : ps.Perm qs) :
    (arrange ds ps).Perm (arrange ds qs) :=
  (order.map Request.post).append_left _

theorem takes_arrange {n k : Nat} {ds : List (Var × Domain)} {ps : List Propagator}
    (canonical : ∀ d ∈ ds, d.2.Canonical) (proper : ∀ p ∈ ps, p.val.Proper) (stamped : ∀ p ∈ ps, p.stamp < k)
    (coherent : ∀ p ∈ ps, ∀ q ∈ ps, p.stamp = q.stamp → p = q) : (vacant n k).Takes (arrange ds ps) := by
  have posted {p : Propagator} (mem : .post p ∈ arrange ds ps) : p ∈ ps := by simpa [arrange] using mem
  refine ⟨fun v d mem => ?_, fun p mem => proper p (posted mem), fun p mem => stamped p (posted mem),
    fun p q mem mem' same => ?_⟩
  · obtain ⟨mem, _⟩ : (v, d) ∈ ds ∧ True := by simpa [arrange] using mem
    exact canonical (v, d) mem
  · rcases mem' with mem' | ⟨v, stored⟩
    · exact coherent p (posted mem) q (posted mem') same
    · have unstored : (vacant n k).storedWatchers v = [] := rfl
      rw [unstored] at stored
      cases stored

/-- The differences `_0 - 5 = _1` and `_2 = _1`, where `_1` and `_2` have greatest integers. -/
def differences : List Propagator := [⟨0, .plusConst ⟨0⟩ (-5) ⟨1⟩⟩, ⟨1, .plusConst ⟨2⟩ 0 ⟨1⟩⟩]

/-- Ten and eleven greatest integers. -/
def greatest : List (Var × Domain) :=
  [(⟨1⟩, .interval (maxValue - 10) maxValue), (⟨2⟩, .interval (maxValue - 9) maxValue)]

theorem takes_differences : (vacant 3 2).Takes (arrange greatest differences) :=
  takes_arrange (by simp [greatest, Domain.Canonical, minValue, maxValue])
    (by simp [differences, Relation.Proper, isValue, minValue, maxValue]) (by decide) (by decide)

/-- The two differences are posted in either order. -/
theorem settle_perm_differences :
    (vacant 3 2).Produced ∧ (vacant 3 2).Takes (arrange greatest differences) ∧
      (arrange greatest differences).Perm (arrange greatest differences.reverse) ∧
      Solver.Accord ((vacant 3 2).requestScope (arrange greatest differences))
        (fun θ => (vacant 3 2).Models θ ∧ ∀ r ∈ arrange greatest differences, r.HoldsOf θ)
        (Narrow.settle (arrange greatest differences) (Solver.new (vacant 3 2)))
        (Narrow.settle (arrange greatest differences.reverse) (Solver.new (vacant 3 2))) := by
  have order := arrange_perm greatest (List.reverse_perm differences).symm
  exact ⟨produced_vacant 3 2, takes_differences, order, (produced_vacant 3 2).settle_perm takes_differences order⟩

/-- The sums `_0 + _1 = _2` and `_3 + _0 = _4`. -/
def sums : List Propagator := [⟨0, .sum ⟨0⟩ ⟨1⟩ ⟨2⟩⟩, ⟨1, .sum ⟨3⟩ ⟨0⟩ ⟨4⟩⟩]

/-- `_0` and `_1` are even, and their sum is 3 or 9. -/
def uneven : List (Var × Domain) :=
  [(⟨0⟩, evens), (⟨1⟩, evens), (⟨2⟩, .values [3, 9]), (⟨3⟩, .interval 0 500), (⟨4⟩, .interval 502 2000)]

theorem takes_sums : (vacant 5 2).Takes (arrange uneven sums) := by
  refine takes_arrange ?_ (by simp [sums, Relation.Proper]) (by decide) (by decide)
  simp only [uneven, List.forall_mem_cons]
  exact ⟨canonical_evens, canonical_evens, Domain.canonical_values (by decide),
    by simp [Domain.Canonical, minValue, maxValue], by simp [Domain.Canonical, minValue, maxValue], by simp⟩

/-- The order in which propagators are posted shows. The domains can differ, since a
    difference is cut to integers of 64 bits by the domain that it finds first. And one order
    can end in a contradiction where the other does not: a sum becomes a table if its
    domains are small when it runs, and it does not run again because of what it narrows
    itself. -/
theorem exists_order_differs :
    (∃ s ds ps qs t u v, s.Produced ∧ s.Takes (arrange ds ps) ∧ ps.Perm qs ∧
      Narrow.settle (arrange ds ps) (Solver.new s) = .ok () t ∧
      Narrow.settle (arrange ds qs) (Solver.new s) = .ok () u ∧ (t.domain v).1 ≠ (u.domain v).1) ∧
    ∃ s ds ps qs t u, s.Produced ∧ s.Takes (arrange ds ps) ∧ ps.Perm qs ∧
      Narrow.settle (arrange ds ps) (Solver.new s) = .error .conflict t ∧
      Narrow.settle (arrange ds qs) (Solver.new s) = .ok () u := by
  constructor
  · refine ⟨vacant 3 2, greatest, differences, differences.reverse,
      leftBy (Narrow.settle (arrange greatest differences) (Solver.new (vacant 3 2))),
      leftBy (Narrow.settle (arrange greatest differences.reverse) (Solver.new (vacant 3 2))), ⟨1⟩,
      produced_vacant 3 2, takes_differences, (List.reverse_perm _).symm, eq_ok_of_succeeds ?_,
      eq_ok_of_succeeds ?_, ?_⟩ <;> decide +kernel
  · exact ⟨vacant 5 2, uneven, sums, sums.reverse,
      leftBy (Narrow.settle (arrange uneven sums) (Solver.new (vacant 5 2))),
      leftBy (Narrow.settle (arrange uneven sums.reverse) (Solver.new (vacant 5 2))),
      produced_vacant 5 2, takes_sums, (List.reverse_perm _).symm, eq_error_of_conflicts (by decide +kernel),
      eq_ok_of_succeeds (by decide +kernel)⟩

end Subst

end ConstraintLogic
