import ConstraintLogic.Proofs.Subst.Vacancy
import ConstraintLogic.Proofs.Unification.MostGeneral

/-!
# Enumerating the elements of a list

On a substitution without attributes each element of a list without variables is tried in
turn, with a tail of its own, and gives one answer if the term can be read as it. A variable
that is unbound can be read as each element, and a term without variables as no element but
itself, so the answers count the occurrences.

Results:
* `Subst.MayRead`: a reading that agrees with the bindings reads the term so.
* `Goal.finite_first`: the head of a list.
* `Goal.finite_member`: the elements that the term may be read as.
* `Goal.member_enumerates`: membership enumerates occurrences.
-/

namespace ConstraintLogic

theorem Term.ground_of_mem {e : Term} : ∀ {es : List Term}, (Term.ofList es).vars = [] → e ∈ es → e.vars = []
  | x :: es, ground, mem => by
    obtain ⟨ground_x, ground_es⟩ := Term.ground_pair.mp (show (Term.pair x (.ofList es)).vars = [] from ground)
    rcases List.mem_cons.mp mem with rfl | mem
    · exact ground_x
    · exact Term.ground_of_mem ground_es mem

namespace Subst

variable {s t u : Subst} {θ : Var → Term} {v hd tl : Var} {a b x e l tail : Term}

/-! ## What a term may be read as -/

/-- What is read without variables is read so by all readings that agree. -/
theorem Agrees.expand_of_ground (h : s.Agrees θ) (ground : (s.walkDeep a).vars = []) : a.expand θ = s.walkDeep a := by
  rw [← h.expand_walkDeep a, Term.expand_of_ground ground]

/-- A reading that agrees with the bindings reads the term so. -/
def MayRead (s : Subst) (x e : Term) : Prop := ∃ θ, s.Agrees θ ∧ x.expand θ = e

/-- An unbound variable may be read as any term without variables. -/
theorem Acyclic.mayRead_of_var (acyclic : s.Acyclic) (leads : s.walk x = .var v) (ground : e.vars = []) : s.MayRead x e := by
  have unbound := acyclic.get?_of_walk leads
  have absent : s.occurs v e = false := by
    rw [Bool.eq_false_iff, Ne, occurs_iff, walkDeep, Term.expand_of_ground ground, ground]
    exact List.not_mem_nil
  have acyclic' := acyclic.bindBare unbound absent
  have agrees := acyclic'.agrees_image.of_extends (Extends.bindBare unbound e)
  refine ⟨_, agrees, ?_⟩
  rw [← agrees.expand_walk x, leads]
  calc (s.bindBare v e).walkDeep (.var v) = (s.bindBare v e).walkDeep e :=
        acyclic'.walkDeep_of_bound (by rw [get?_bindBare, if_pos rfl])
    _ = e := Term.expand_of_ground ground _

/-- What is read without variables is read in one way. -/
theorem Acyclic.mayRead_iff_of_ground (acyclic : s.Acyclic) (ground : (s.walkDeep x).vars = []) :
    s.MayRead x e ↔ s.walkDeep x = e := by
  constructor
  · rintro ⟨θ, agrees, rfl⟩
    exact (agrees.expand_of_ground ground).symm
  · rintro rfl
    exact ⟨_, acyclic.agrees_image, rfl⟩

/-- The reading of a variable that is still to be allocated does not matter to a term. -/
theorem Owns.expand_update (h : s.Owns x) (new : s.next ≤ v.index) (b : Term) :
    x.expand (Function.update θ v b) = x.expand θ := by
  refine Term.expand_congr fun w mem => Function.update_of_ne ?_ _ _
  rintro rfl
  exact Nat.not_lt.mpr new (h w mem)

/-- The reading of a variable that is still to be allocated does not matter to the bindings. -/
theorem Allocated.agrees_update (h : s.Allocated) (new : s.next ≤ v.index) (agrees : s.Agrees θ) (b : Term) :
    s.Agrees (Function.update θ v b) := by
  intro w c bound
  have owned : s.Owns (.var w) := owns_var.mpr (h.occurs w (.bound bound))
  have owned' : s.Owns c := h.of_bound bound
  calc Function.update θ v b w = θ w := owned.expand_update new b
    _ = c.expand θ := agrees w c bound
    _ = c.expand (Function.update θ v b) := (owned'.expand_update new b).symm

/-! ## Unification without attributes -/

/-- Unification without attributes solves an equation. -/
theorem Bare.unify_solves (bare : s.Bare) (acyclic : s.Acyclic) (a b : Term) :
    Solves (fun t => t.Bare ∧ t.Acyclic) Agrees (fun _ => False) s (fun θ => a.expand θ = b.expand θ) (s.unify a b) := by
  have narrow (v : Var) (t : Term) (bound : s.get? v = some t) : t.width ≤ max s.width (max a.width b.width) :=
    Nat.le_trans (s.mentioned v t bound).2 (Nat.le_max_left _ _)
  have solved := (bareLaws (max s.width (max a.width b.width))).unify ⟨bare, acyclic, narrow⟩
    (by omega : a.width ≤ _) (by omega : b.width ≤ _)
  exact solved.mono fun t below => ⟨below.bare, below.acyclic⟩

/-- A term and a new variable are made the parts of a pair without variables if the term may
    be read as its head. -/
theorem Neat.unify_head (h : s.Neat) (bare : s.Bare) (owned : s.Owns x) (ground : (s.walkDeep l).vars = [])
    (read : s.walkDeep l = .pair e tail) :
    (s.MayRead x e → ∃ t, (s.freshMany 1).2.unify (.pair x (.var ⟨s.next⟩)) l = .ok t ∧ s.Extends t ∧ t.Acyclic ∧
      t.walkDeep x = e) ∧
    (¬s.MayRead x e → (s.freshMany 1).2.unify (.pair x (.var ⟨s.next⟩)) l = .error .conflict) := by
  have reads {θ : Var → Term} (agrees : s.Agrees θ) : l.expand θ = .pair e tail :=
    (agrees.expand_of_ground ground).trans read
  have solved := Bare.unify_solves (s := (s.freshMany 1).2) bare h.acyclic (.pair x (.var ⟨s.next⟩)) l
  match (s.freshMany 1).2.unify (.pair x (.var ⟨s.next⟩)) l, solved with
  | .ok t, ⟨good, ext, exact_⟩ =>
    obtain ⟨agrees, same⟩ := (exact_ _).mp good.2.agrees_image
    have agrees' : s.Agrees (t.image t.size) := agrees
    have head : t.walkDeep x = e := (Term.pair.inj (same.trans (reads agrees'))).1
    exact ⟨fun _ => ⟨t, rfl, ext, good.2, head⟩, fun never => absurd ⟨_, agrees', head⟩ never⟩
  | .error .conflict, empty =>
    refine ⟨fun may => ?_, fun _ => rfl⟩
    obtain ⟨θ, agrees, same⟩ := may
    have agrees' := h.allocated.agrees_update (v := ⟨s.next⟩) (Nat.le_refl _) agrees tail
    refine absurd ?_ (empty _ agrees')
    show (Term.pair x (.var ⟨s.next⟩)).expand _ = l.expand _
    rw [reads agrees', Term.expand, owned.expand_update (Nat.le_refl _), same, Term.expand, Function.update_self]

/-- Two new variables are made the parts of a pair without variables, and what other terms
    may be read as stays the same. -/
theorem Neat.unify_tail (h : s.Neat) (bare : s.Bare) (ground : (s.walkDeep l).vars = []) (read : s.walkDeep l = .pair e tail) :
    ∃ t, ((s.freshMany 1).2.freshMany 1).2.unify (.pair (.var ⟨s.next + 1⟩) (.var ⟨s.next⟩)) l = .ok t ∧ t.Neat ∧ t.Bare ∧
      s.Extends t ∧ s.next < t.next ∧ t.walkDeep (.var ⟨s.next⟩) = tail ∧
      ∀ x, s.Owns x → ∀ e, t.MayRead x e ↔ s.MayRead x e := by
  have once := Touches.allocate h 1
  have fresh := once.trans (Touches.allocate once.toNeat 1)
  have spare : ((s.freshMany 1).2.freshMany 1).2.Spare [⟨s.next + 1⟩, ⟨s.next⟩] :=
    once.toNeat.spare_freshMany (h.spare_freshMany ⟨by simp, by simp, by simp⟩ 1) 1
  have read' := (fresh.walkDeep_of_ground ground).trans read
  obtain ⟨t, unified, touches, -, read_tl⟩ := fresh.toNeat.take_apart spare (by rw [read', ← read, ground]) read'
  have solved := Bare.unify_solves (s := ((s.freshMany 1).2.freshMany 1).2) bare h.acyclic
    (.pair (.var ⟨s.next + 1⟩) (.var ⟨s.next⟩)) l
  rw [unified] at solved
  obtain ⟨good, -, exact_⟩ := solved
  have more := fresh.trans touches
  refine ⟨t, unified, more.toNeat, good.1, more.extends_, Nat.lt_of_lt_of_le (show s.next < s.next + 1 + 1 by omega) touches.next, read_tl,
    fun x owned e' => ?_⟩
  constructor
  · rintro ⟨θ, agrees, same⟩
    exact ⟨θ, agrees.of_extends more.extends_, same⟩
  · rintro ⟨θ, agrees, rfl⟩
    -- The reading is made to read the two variables as the parts of the pair.
    have agrees₁ := h.allocated.agrees_update (v := ⟨s.next⟩) (Nat.le_refl _) agrees tail
    have agrees₂ := h.allocated.agrees_update (v := ⟨s.next + 1⟩) (Nat.le_succ _) agrees₁ e
    refine ⟨_, (exact_ _).mpr ⟨agrees₂, ?_⟩, ?_⟩
    · show (Term.pair (.var ⟨s.next + 1⟩) (.var ⟨s.next⟩)).expand _ = l.expand _
      rw [agrees₂.expand_of_ground ground, read]
      simp [Term.expand]
    · rw [owned.expand_update (Nat.le_succ _), owned.expand_update (Nat.le_refl _)]

end Subst

open Subst

namespace Goal

variable {program : Program} {s : Subst} {x l e tail : Term} {as bs : Multiset Subst}

/-! ## Searches for an element -/

/-- The answers of membership are those of its two clauses. The second clause has a tail of
    its own, and a head. -/
theorem finite_member_clauses (here : (first l x).Finite program s as)
    (behind : (conj (rest l (.var ⟨s.next⟩)) (member x (.var ⟨s.next⟩))).Finite program (s.freshMany 1).2 bs) :
    (member x l).Finite program s (as + bs) :=
  .call (.both (.suspend here) (.suspend (.fresh behind)))

/-- Nothing is an element of the empty list. -/
theorem finite_member_nil (walked : s.walk l = .nil) : (member x l).Finite program s 0 := by
  have here : (s.freshMany 1).2.unify (.pair x (.var ⟨s.next⟩)) l = .error .conflict :=
    unify_pair_of_nil (by rw [walk_freshMany, walked])
  have behind : ((s.freshMany 1).2.freshMany 1).2.unify (.pair (.var ⟨s.next + 1⟩) (.var ⟨s.next⟩)) l = .error .conflict :=
    unify_pair_of_nil (by rw [walk_freshMany, walk_freshMany, walked])
  exact finite_member_clauses (.fresh (Finite.eq_of_conflict here)) (.conj_of_none (.fresh (Finite.eq_of_conflict behind)))

variable (program) in
open scoped Classical in
/-- The head of a list is an answer if the term may be read as it. -/
theorem finite_first (h : s.Neat) (bare : s.Bare) (owned : s.Owns x) (ground : (s.walkDeep l).vars = [])
    (read : s.walkDeep l = .pair e tail) :
    ∃ as : Multiset Subst, (first l x).Finite program s as ∧ (∀ t ∈ as, s.Extends t ∧ t.Acyclic) ∧
      as.map (·.walkDeep x) = if s.MayRead x e then {e} else 0 := by
  obtain ⟨may, never⟩ := h.unify_head bare owned ground read
  by_cases readable : s.MayRead x e
  · obtain ⟨t, unified, ext, acyclic, head⟩ := may readable
    exact ⟨{t}, .fresh (Finite.eq_of_ok unified), by simp [ext, acyclic], by simp [readable, head]⟩
  · exact ⟨0, .fresh (Finite.eq_of_conflict (never readable)), by simp, by simp [readable]⟩

variable (program) in
open scoped Classical in
/-- There is one answer for each element of a list without variables that the term may be
    read as, and the answer reads the term so. -/
theorem finite_member (es : List Term) : ∀ {s : Subst} {l : Term}, s.Neat → s.Bare → s.Owns x → s.walkDeep l = .ofList es →
    (Term.ofList es).vars = [] →
    ∃ as : Multiset Subst, (member x l).Finite program s as ∧ (∀ t ∈ as, s.Extends t ∧ t.Acyclic) ∧
      as.map (·.walkDeep x) = (es : Multiset Term).filter (s.MayRead x) := by
  induction es with
  | nil =>
    intro s l h _ _ read _
    exact ⟨0, finite_member_nil (h.acyclic.walk_of_nil read), by simp, by simp⟩
  | cons e es ih =>
    intro s l h bare owned read ground
    have ground' : (s.walkDeep l).vars = [] := by rw [read, ground]
    obtain ⟨as, here, grown, found⟩ := finite_first program h bare owned ground' read
    obtain ⟨t, unified, neat, bare', ext, next, read_tail, same⟩ := h.unify_tail bare ground' read
    obtain ⟨bs, behind, grown', found'⟩ := ih neat bare' (fun v mem => Nat.lt_trans (owned v mem) next) read_tail
      (Term.ground_pair.mp ground).2
    refine ⟨as + bs, finite_member_clauses here (.conj_of_one (.fresh (Finite.eq_of_ok unified)) behind), fun u mem => ?_, ?_⟩
    · rcases Multiset.mem_add.mp mem with mem | mem
      · exact grown u mem
      · exact ⟨ext.trans (grown' u mem).1, (grown' u mem).2⟩
    · rw [Multiset.map_add, found, found', Multiset.filter_congr fun e _ => same x owned e, ← Multiset.cons_coe]
      by_cases readable : s.MayRead x e
      · rw [if_pos readable, Multiset.filter_cons_of_pos _ readable, Multiset.singleton_add]
      · rw [if_neg readable, Multiset.filter_cons_of_neg _ readable, zero_add]

/-- Membership enumerates occurrences. On a substitution without attributes the search for
    an element of a list without variables is finite. An unbound variable takes the elements,
    each as often as it occurs, and a term without variables is found as often as it occurs. -/
theorem member_enumerates (bare : s.Bare) (acyclic : s.Acyclic) (allocated : s.Allocated) (owned : ∀ v ∈ x.vars, v.index < s.next)
    {es : List Term} (read : s.walkDeep l = .ofList es) (ground : (Term.ofList es).vars = []) :
    ∃ as : Multiset Subst, ComesTo program (member x l) s as ∧
      (∀ v, s.walk x = .var v → as.map (·.walkDeep x) = es) ∧
      ((s.walkDeep x).vars = [] → as.card = es.count (s.walkDeep x)) := by
  classical
  obtain ⟨as, finite, -, found⟩ := finite_member program es ⟨acyclic, allocated⟩ bare owned read ground
  refine ⟨as, finite.comesTo as rfl, fun v leads => ?_, fun ground_x => ?_⟩
  · rw [found, Multiset.filter_eq_self]
    exact fun e mem => acyclic.mayRead_of_var leads (Term.ground_of_mem ground (Multiset.mem_coe.mp mem))
  · calc as.card = (as.map (·.walkDeep x)).card := (Multiset.card_map _ as).symm
      _ = ((es : Multiset Term).filter (s.walkDeep x = ·)).card := by
        rw [found, Multiset.filter_congr fun e _ => acyclic.mayRead_iff_of_ground ground_x]
      _ = es.count (s.walkDeep x) := by rw [← Multiset.countP_eq_card_filter, ← Multiset.coe_count, Multiset.count]

/-- The list of 7, 8 and 7 is searched for a new variable and for 7. -/
theorem member_enumerates_repeated :
    let program : Program := fun _ _ => .fail
    let s := (Subst.empty.freshMany 1).2
    let es : List Term := [.int 7, .int 8, .int 7]
    (∃ as : Multiset Subst, ComesTo program (member (.var ⟨0⟩) (.ofList es)) s as ∧ as.map (·.walkDeep (.var ⟨0⟩)) = es) ∧
    ∃ as : Multiset Subst, ComesTo program (member (.int 7) (.ofList es)) s as ∧ as.card = 2 := by
  intro program s es
  have bare : s.Bare := fun v => attributes_empty v
  have acyclic : s.Acyclic := acyclic_empty
  have allocated : s.Allocated := allocated_empty.grow rfl rfl (Nat.zero_le _)
  have read : s.walkDeep (.ofList es) = .ofList es := rfl
  obtain ⟨as, comes, taken, -⟩ := @member_enumerates program s (.var ⟨0⟩) _ bare acyclic allocated (by decide) es read rfl
  obtain ⟨bs, comes', -, counted⟩ := @member_enumerates program s (.int 7) _ bare acyclic allocated (by decide) es read rfl
  exact ⟨⟨as, comes, taken ⟨0⟩ rfl⟩, bs, comes', counted rfl⟩

end Goal

end ConstraintLogic
