import ConstraintLogic.Proofs.Constraint.BindingOrder
import ConstraintLogic.Proofs.Goal.Truth
import ConstraintLogic.Proofs.Solver.Idempotence
import ConstraintLogic.Proofs.Subst.Vacancy

/-!
# Appending lists

What appending finds is told level by level. Each level takes one element and has three
variables of its own, which are vacant. A list without variables is taken apart in all ways,
and it is put before any term, whatever attributes there are elsewhere. Whatever the modes
of its arguments are, an answer is a concatenation.

Results:
* `Subst.Neat.unify_onto`: a vacant variable is made equal to any term.
* `Goal.finite_append_onto`, `Goal.finite_append_from`: searches for the whole and for the
  parts.
* `Goal.append_concatenates`: appending is concatenation.
-/

namespace ConstraintLogic

namespace Subst

variable {s t : Subst} {v w q : Var} {b out : Term} {a : Attribute}

/-! ## The last equation -/

/-- An attribute that moves to a vacant variable finds no other one there. -/
theorem moveAttr_vacant (vacant : s.Vacant v) (a : Attribute) :
    moveAttr v (s, []) a = .ok (s.setAttr v a, if s.hasAttrs v then [a] else []) := by
  have none : s.getAttr v a.name = Option.none := by rw [getAttr, vacant.bare, Attributes.get?_empty]
  unfold moveAttr
  simp only [vacant.walk, none]
  rfl

/-- An attribute that stands alone has nothing to be checked against. -/
theorem settleAt_alone (vacant : s.Vacant v) (a : Attribute) : settleAt v (s.setAttr v a) a = .ok (s.setAttr v a) := by
  have walked : (s.setAttr v a).walk (.var v) = .var v := by rw [walk_setAttr, vacant.walk]
  unfold settleAt
  rw [walked]
  cases a <;> simp [settle, recheck, Attributes.set, vacant.bare]

/-- The lower of two variables takes the attribute of the higher one, if it has none. -/
theorem identify_below (vacant : s.Vacant q) (lower : q.index < w.index)
    (few : (s.attributes w).toList.length ≤ 1) :
    ∃ t, s.identify w q = .ok t ∧ t.bindings = (s.bindBare w (.var q)).bindings := by
  have differ : w ≠ q := fun same => by
    rw [same] at lower
    exact Nat.lt_irrefl _ lower
  have vacant' : (s.bindBare w (.var q)).Vacant q :=
    ⟨by rw [get?_bindBare, if_neg differ, vacant.unbound], by rw [attributes_bindBare, if_neg differ, vacant.bare]⟩
  rw [identify_eq, if_neg (Nat.lt_asymm lower), retire]
  cases listed : (s.attributes w).toList with
  | nil => exact ⟨_, rfl, rfl⟩
  | cons a rest =>
    obtain rfl : rest = [] := List.eq_nil_of_length_eq_zero (by
      rw [listed, List.length_cons] at few
      omega)
    refine ⟨(s.bindBare w (.var q)).setAttr q a, ?_, rfl⟩
    rw [moveAll_cons, moveAttr_vacant vacant']
    split
    · show settleAt q _ a >>= _ = _
      rw [settleAt_alone vacant']
      rfl
    · rfl

/-- The higher of two variables is bound to the lower one, and nothing moves if it has no
    attributes. -/
theorem identify_above (vacant : s.Vacant q) (upper : w.index < q.index) :
    s.identify w q = .ok (s.bindBare q (.var w)) := by
  have none : (s.attributes q).toList = [] := by rw [vacant.bare]; rfl
  rw [identify_eq, if_pos upper, retire, none]
  rfl

/-- Whichever of the two variables is bound to the other, both read alike then. -/
theorem Acyclic.identify_vacant (acyclic : s.Acyclic) (unbound : s.get? w = none) (vacant : s.Vacant q) (differ : w ≠ q)
    (few : q.index < w.index → (s.attributes w).toList.length ≤ 1) :
    ∃ t, s.identify w q = .ok t ∧ s.Extends t ∧ t.Acyclic ∧ t.walkDeep (.var q) = t.walkDeep (.var w) := by
  rcases Nat.lt_trichotomy q.index w.index with lower | same | upper
  · obtain ⟨t, made, bindings⟩ := identify_below vacant lower (few lower)
    have get (v : Var) : t.get? v = (s.bindBare w (.var q)).get? v := by rw [get?, get?, bindings]
    have acyclic' : t.Acyclic := by
      obtain ⟨rank, falls⟩ := acyclic.bindBare unbound (occurs_var_of_ne vacant.unbound differ)
      refine ⟨rank, fun v u step => ?_⟩
      obtain ⟨c, bound, mem⟩ := step
      exact falls v u ⟨c, (get v).symm.trans bound, mem⟩
    refine ⟨t, made, fun v c bound => (get v).trans (Extends.bindBare unbound _ v c bound), acyclic', ?_⟩
    exact (acyclic'.walkDeep_of_bound (by rw [get, get?_bindBare, if_pos rfl])).symm
  · exact absurd (congrArg Var.mk same).symm differ
  · have acyclic' := acyclic.bindBare vacant.unbound (occurs_var_of_ne unbound differ.symm)
    exact ⟨_, identify_above vacant upper, Extends.bindBare vacant.unbound (.var w), acyclic',
      acyclic'.walkDeep_of_bound (by rw [get?_bindBare, if_pos rfl])⟩

/-- A vacant variable is made equal to any term that it does not occur in, except that more
    than one attribute may stand in the way of a variable above it. -/
theorem Neat.unify_onto (h : s.Neat) (named : s.Owns b) (named' : s.Owns out) (leads : s.walk out = .var q)
    (vacant : s.Vacant q) (absent : q ∉ (s.walkDeep b).vars)
    (few : ∀ w, s.walk b = .var w → q.index < w.index → (s.attributes w).toList.length ≤ 1) :
    ∃ t, s.unify b out = .ok t ∧ s.Extends t ∧ t.Acyclic ∧ t.walkDeep out = t.walkDeep b := by
  by_cases var_b : ∃ w, s.walk b = .var w
  · obtain ⟨w, leads'⟩ := var_b
    have differ : w ≠ q := by
      rintro rfl
      exact absent (h.acyclic.mem_of_walk leads')
    obtain ⟨t, made, ext, acyclic, alike⟩ :=
      h.acyclic.identify_vacant (h.acyclic.get?_of_walk leads') vacant differ (few w leads')
    have agrees := acyclic.agrees_image.of_extends ext
    refine ⟨t, ?_, ext, acyclic, ?_⟩
    · rw [unify_of_ends (by simp [leads]), leads, leads', unifyEnds, if_neg (by simpa using differ)]
      exact made
    · calc t.walkDeep out = t.walkDeep (s.walk out) := (agrees.expand_walk out).symm
        _ = t.walkDeep (s.walk b) := by rw [leads, leads', alike]
        _ = t.walkDeep b := agrees.expand_walk b
  · obtain ⟨t, -, unified, touches, alike⟩ := h.fill named' named leads vacant (fun w walked => var_b ⟨w, walked⟩) absent
    exact ⟨t, unified, touches.extends_, touches.acyclic, alike⟩

/-! ## One level of a list -/

/-- What is read as a cell stays one, and its head stays what it is if it has no variables. -/
theorem Acyclic.walkDeep_cell {c x : Term} (acyclic : t.Acyclic) (ext : s.Extends t) (ground : x.vars = [])
    (read : s.walkDeep b = .pair x (s.walkDeep c)) : t.walkDeep b = .pair x (t.walkDeep c) := by
  have agrees := acyclic.agrees_image.of_extends ext
  have read_b : (s.walkDeep b).expand (t.image t.size) = t.walkDeep b := agrees.expand_walkDeep b
  have read_c : (s.walkDeep c).expand (t.image t.size) = t.walkDeep c := agrees.expand_walkDeep c
  rw [← read_b, read, Term.expand, Term.expand_of_ground ground, read_c]

namespace Neat

variable {x y l : Term} {c d r p : Var}

/-- A variable is made the empty list, and another one what is left then. -/
theorem end_from (h : s.Neat) (spare : s.Spare [p, q]) (owns_l : s.Owns l) (owns_b : s.Owns b) (leads_l : s.walk l = .var p)
    (leads_b : s.walk b = .var q) (ground : (s.walkDeep out).vars = []) :
    ∃ m t, s.unify l .nil = .ok m ∧ m.unify b out = .ok t ∧ s.Extends t ∧ t.Acyclic ∧ t.walkDeep l = .nil ∧
      t.walkDeep b = s.walkDeep out := by
  have differ : q ≠ p := Ne.symm (by simpa using spare.distinct)
  have vacant_q := spare.vacant q (by simp)
  obtain ⟨m, unified, -, touches, read_l⟩ := h.fill owns_l (b := .nil) (by simp [Owns]) leads_l
    (spare.vacant p (by simp)) (by simp [walk_of_not_var]) (by simp)
  have read := touches.walkDeep_of_ground ground
  have ground' : (m.walkDeep out).vars = [] := by rw [read, ground]
  obtain ⟨t, unified', -, touches', read_b⟩ := touches.toNeat.fill (touches.owns owns_b)
    (touches.toNeat.owns_of_ground ground') (touches.walk leads_b vacant_q (by simpa using differ))
    (touches.vacant vacant_q (by simpa using differ)) (touches.acyclic.walk_ne_var ground') (by simp [ground'])
  refine ⟨m, t, unified, unified', (touches.trans touches').extends_, touches'.acyclic, ?_, ?_⟩
  · rw [touches'.acyclic.alike_of_extends touches'.extends_ read_l, walkDeep_nil]
  · rw [read_b, touches'.walkDeep_of_ground ground', read]

/-- A list is taken apart, and its head starts what a variable is made. -/
theorem level_onto (h : s.Neat) (spare : s.Spare [c, d, r, q]) (named : s.Owns out) (leads : s.walk out = .var q)
    (ground : (s.walkDeep l).vars = []) (read : s.walkDeep l = .pair x y) :
    ∃ m t, s.unify (.pair (.var c) (.var d)) l = .ok m ∧ m.unify (.pair (.var c) (.var r)) out = .ok t ∧
      s.Touches [c, d, q] t ∧ t.walkDeep (.var d) = y ∧ t.walkDeep out = .pair x (t.walkDeep (.var r)) := by
  have distinct := spare.distinct
  simp only [List.nodup_cons, List.mem_cons, List.not_mem_nil, or_false, not_or] at distinct
  obtain ⟨⟨-, c_r, c_q⟩, ⟨d_r, d_q⟩, r_q, -⟩ := distinct
  obtain ⟨ground_x, ground_y⟩ := Term.ground_pair.mp (read ▸ ground)
  obtain ⟨m, unified, touches, read_c, read_d⟩ := h.take_apart (x := c) (y := d) (spare.sublist (by simp)) ground read
  have spare' : m.Spare [r, q] := (spare.sublist (.cons _ (.cons _ (.refl _)))).of_touches touches (by
    simp [Ne.symm c_r, Ne.symm d_r, Ne.symm c_q, Ne.symm d_q])
  have vacant_r := spare'.vacant r (by simp)
  have vacant_q := spare'.vacant q (by simp)
  have leads' := touches.walk leads (spare.vacant q (by simp)) (by simp [Ne.symm c_q, Ne.symm d_q])
  have read_cell : m.walkDeep (.pair (.var c) (.var r)) = .pair x (.var r) := by
    rw [walkDeep_pair, read_c, vacant_r.walkDeep]
  have owns_c : m.Owns (.var c) := owns_var.mpr (Nat.lt_of_lt_of_le (spare.named c (by simp)) touches.next)
  obtain ⟨t, -, unified', touches', alike⟩ := touches.toNeat.fill (touches.owns named)
    (owns_pair.mpr ⟨owns_c, owns_var.mpr (spare'.named r (by simp))⟩) leads' vacant_q
    (by simp [walk_of_not_var]) (by
      rw [read_cell]
      simp [ground_x, Ne.symm r_q])
  refine ⟨m, t, unified, unified', touches.trans touches', ?_, ?_⟩
  · rw [touches'.walkDeep_of_ground (by rw [read_d, ground_y]), read_d]
  · rw [alike, walkDeep_pair, touches'.walkDeep_of_ground (by rw [read_c, ground_x]), read_c]

/-- A variable is made a pair, whose head starts a list that is taken apart. -/
theorem level_from (h : s.Neat) (spare : s.Spare [c, d, r, p]) (named : s.Owns l) (leads : s.walk l = .var p)
    (ground : (s.walkDeep out).vars = []) :
    ∃ m, s.unify (.pair (.var c) (.var d)) l = .ok m ∧
      (s.walkDeep out = .nil → m.unify (.pair (.var c) (.var r)) out = .error .conflict) ∧
      ∀ x y, s.walkDeep out = .pair x y → ∃ t, m.unify (.pair (.var c) (.var r)) out = .ok t ∧
        s.Touches [p, c, r] t ∧ t.walkDeep (.var r) = y ∧ t.walkDeep l = .pair x (t.walkDeep (.var d)) := by
  have distinct := spare.distinct
  simp only [List.nodup_cons, List.mem_cons, List.not_mem_nil, or_false, not_or] at distinct
  obtain ⟨⟨c_d, c_r, c_p⟩, ⟨d_r, d_p⟩, r_p, -⟩ := distinct
  have vacant_c := spare.vacant c (by simp)
  have vacant_d := spare.vacant d (by simp)
  obtain ⟨m, -, unified, touches, alike⟩ := h.fill named
    (owns_pair.mpr ⟨owns_var.mpr (spare.named c (by simp)), owns_var.mpr (spare.named d (by simp))⟩) leads
    (spare.vacant p (by simp)) (by simp [walk_of_not_var]) (by
      simp [vacant_c.walkDeep, vacant_d.walkDeep, Ne.symm c_p, Ne.symm d_p])
  have read := touches.walkDeep_of_ground ground
  have spare' : m.Spare [c, r] := by
    have rest : s.Spare [c, r] := spare.sublist (.cons_cons _ (.cons _ (by simp)))
    exact rest.of_touches touches (by simp [c_p, r_p])
  refine ⟨m, unified, fun empty => ?_, fun x y pair => ?_⟩
  · exact unify_pair_of_nil (touches.acyclic.walk_of_nil (read.trans empty))
  · obtain ⟨t, unified', touches', read_c, read_r⟩ := touches.toNeat.take_apart spare' (read ▸ ground) (read.trans pair)
    refine ⟨t, unified', touches.trans touches', read_r, ?_⟩
    rw [touches'.acyclic.alike_of_extends touches'.extends_ alike, walkDeep_pair, read_c]

end Neat

end Subst

open Subst

/-! ## Searches for a concatenation -/

namespace Goal

variable {program : Program} {s : Subst} {l b out : Term} {as bs : Multiset Subst}

/-- The answers of appending are those of its two clauses. The second clause has three
    variables of its own. -/
theorem finite_append (ended : (conj (null l) (eq b out)).Finite program s as)
    (onward : (conj (cons (.var ⟨s.next⟩) (.var ⟨s.next + 1⟩) l)
      (conj (cons (.var ⟨s.next⟩) (.var ⟨s.next + 2⟩) out)
        (append (.var ⟨s.next + 1⟩) b (.var ⟨s.next + 2⟩)))).Finite program (s.freshMany 3).2 bs) :
    (append l b out).Finite program s (as + bs) :=
  .call (.both (.suspend ended) (.suspend (.fresh onward)))

/-- Only the first clause is for the empty list. -/
theorem finite_append_of_nil (walked : s.walk l = .nil) (ended : (eq b out).Finite program s as) :
    (append l b out).Finite program s as := by
  have onward : (s.freshMany 3).2.unify (.pair (.var ⟨s.next⟩) (.var ⟨s.next + 1⟩)) l = .error .conflict :=
    unify_pair_of_nil (by rw [walk_freshMany, walked])
  exact add_zero as ▸
    finite_append (.conj_of_one (.eq_of_ok (unify_nil_of_nil walked)) ended) (.conj_of_none (.eq_of_conflict onward))

/-- Only the second clause is for pairs. -/
theorem finite_append_of_pair {head tail : Term} (walked : s.walk l = .pair head tail)
    (onward : (conj (cons (.var ⟨s.next⟩) (.var ⟨s.next + 1⟩) l)
      (conj (cons (.var ⟨s.next⟩) (.var ⟨s.next + 2⟩) out)
        (append (.var ⟨s.next + 1⟩) b (.var ⟨s.next + 2⟩)))).Finite program (s.freshMany 3).2 as) :
    (append l b out).Finite program s as :=
  zero_add as ▸ finite_append (.conj_of_none (.eq_of_conflict (unify_nil_of_pair walked))) onward

variable (program) in
/-- A variable takes what a list without variables is followed by. -/
theorem finite_append_onto (xs : List Term) : ∀ {s : Subst} {l out : Term} {q : Var}, s.Neat → s.Spare [q] → s.Owns b →
    s.Owns out → s.walk out = .var q → q ∉ (s.walkDeep b).vars → s.walkDeep l = .ofList xs → (Term.ofList xs).vars = [] →
    (xs = [] → ∀ w, s.walk b = .var w → q.index < w.index → (s.attributes w).toList.length ≤ 1) →
    ∃ t, (append l b out).Finite program s {t} ∧ s.Extends t ∧ t.Acyclic ∧
      t.walkDeep out = .listOnto xs (t.walkDeep b) := by
  induction xs with
  | nil =>
    intro s l out q h spare owns_b owns_out leads absent read _ few
    have walked := h.acyclic.walk_of_nil read
    have vacant := spare.vacant q (by simp)
    obtain ⟨t, unified, ext, acyclic, alike⟩ := h.unify_onto owns_b owns_out leads vacant absent (few rfl)
    exact ⟨t, finite_append_of_nil walked (.eq_of_ok unified), ext, acyclic, alike⟩
  | cons x xs ih =>
    intro s l out q h spare owns_b owns_out leads absent read ground _
    have fresh := Touches.allocate h 3
    have spare' : (s.freshMany 3).2.Spare [⟨s.next⟩, ⟨s.next + 1⟩, ⟨s.next + 2⟩, q] := h.spare_freshMany spare 3
    have read' := (fresh.walkDeep_of_ground (by rw [read]; exact ground)).trans read
    obtain ⟨m, t, unified, unified', touches, read_d, read_out⟩ := fresh.toNeat.level_onto spare' (fresh.owns owns_out)
      (fresh.walk leads (spare.vacant q (by simp)) (by simp)) (by rw [read']; exact ground) read'
    obtain ⟨ground_x, ground_xs⟩ := Term.ground_pair.mp ground
    -- The rest of the list is appended to a variable that is new, and that `b` is not read to mention.
    have more := fresh.trans touches
    have new (i : Nat) : (⟨s.next + i⟩ : Var) ∉ (s.walkDeep b).vars := h.not_mem_of_new owns_b (Nat.le_add_right _ _)
    have read_b : t.walkDeep b = s.walkDeep b := by
      refine more.walkDeep h.acyclic fun v mem found => ?_
      simp only [List.nil_append, List.mem_cons, List.not_mem_nil, or_false] at found
      rcases found with rfl | rfl | rfl
      · exact new 0 mem
      · exact new 1 mem
      · exact absent mem
    have spare_r : t.Spare [⟨s.next + 2⟩] := by
      have last : (s.freshMany 3).2.Spare [⟨s.next + 2⟩, q] := spare'.sublist (.cons _ (.cons _ (.refl _)))
      exact (last.sublist (by simp)).of_touches touches (by simpa using last.distinct)
    obtain ⟨u, finite, ext, acyclic, read_r⟩ := ih more.toNeat spare_r (more.owns owns_b)
      (owns_var.mpr (spare_r.named _ (by simp))) (spare_r.vacant _ (by simp)).walk (read_b ▸ new 2) read_d ground_xs
      fun _ w walked above => by
        have less := h.owns_walkDeep owns_b w (read_b ▸ more.acyclic.mem_of_walk walked)
        exact absurd (Nat.lt_trans above less) (by simp)
    refine ⟨u, ?_, more.extends_.trans ext, acyclic, ?_⟩
    · obtain ⟨head, tail, walked, -, -⟩ := h.acyclic.walk_of_pair (by rw [read]; exact ground) read
      exact finite_append_of_pair walked (.conj_of_one (.eq_of_ok unified) (.conj_of_one (.eq_of_ok unified') finite))
    · rw [acyclic.walkDeep_cell ext ground_x read_out, read_r]
      rfl

/-- The parts of a list before and after each position. -/
def splits (xs : List Term) : List (Term × Term) :=
  (List.range (xs.length + 1)).map fun i => (.ofList (xs.take i), .ofList (xs.drop i))

theorem splits_cons (x : Term) (xs : List Term) :
    splits (x :: xs) = (.nil, .ofList (x :: xs)) :: (splits xs).map fun parts => (.pair x parts.1, parts.2) := by
  unfold splits
  rw [List.length_cons, List.range_succ_eq_map, List.map_cons, List.map_map, List.map_map]
  rfl

variable (program) in
/-- One level of taking a list apart. The first clause gives the whole list to `b`. The
    second one starts `l` with the first element and goes on with the rest. -/
theorem append_from_step {p q : Var} (h : s.Neat) (spare : s.Spare [p, q]) (owns_l : s.Owns l) (owns_b : s.Owns b)
    (leads_l : s.walk l = .var p) (leads_b : s.walk b = .var q) (ground : (s.walkDeep out).vars = []) :
    ∃ t, s.Extends t ∧ t.Acyclic ∧ t.walkDeep l = .nil ∧ t.walkDeep b = s.walkDeep out ∧
      (s.walkDeep out = .nil → (append l b out).Finite program s {t}) ∧
      ∀ x y, s.walkDeep out = .pair x y → ∃ m, m.Neat ∧ s.Extends m ∧ m.Spare [⟨s.next + 1⟩, q] ∧ m.Owns b ∧
        m.walk b = .var q ∧ m.walkDeep (.var ⟨s.next + 2⟩) = y ∧
        m.walkDeep l = .pair x (m.walkDeep (.var ⟨s.next + 1⟩)) ∧
        ∀ bs, (append (.var ⟨s.next + 1⟩) b (.var ⟨s.next + 2⟩)).Finite program m bs →
          (append l b out).Finite program s ({t} + bs) := by
  obtain ⟨m, t, unified, unified', ext, acyclic, read_l, read_b⟩ := h.end_from spare owns_l owns_b leads_l leads_b ground
  have ended : (conj (null l) (eq b out)).Finite program s {t} := .conj_of_one (.eq_of_ok unified) (.eq_of_ok unified')
  have fresh := Touches.allocate h 3
  have spare' : (s.freshMany 3).2.Spare [⟨s.next⟩, ⟨s.next + 1⟩, ⟨s.next + 2⟩, p, q] := h.spare_freshMany spare 3
  have read := fresh.walkDeep_of_ground ground
  obtain ⟨u, split, fails, goes⟩ := fresh.toNeat.level_from
    (spare'.sublist (.cons_cons _ (.cons_cons _ (.cons_cons _ (by simp))))) (fresh.owns owns_l)
    (fresh.walk leads_l (spare.vacant p (by simp)) (by simp)) (by rw [read, ground])
  refine ⟨t, ext, acyclic, read_l, read_b, fun empty => ?_, fun x y pair => ?_⟩
  · have clash := fails (read.trans empty)
    exact add_zero ({t} : Multiset Subst) ▸
      finite_append ended (.conj_of_one (.eq_of_ok split) (.conj_of_none (.eq_of_conflict clash)))
  · obtain ⟨v, joined, touches, read_r, read_cell⟩ := goes x y (read.trans pair)
    have more := fresh.trans touches
    have distinct := spare'.distinct
    simp only [List.nodup_cons, List.mem_cons, List.not_mem_nil, or_false, not_or] at distinct
    obtain ⟨⟨c_d, -, -, c_q⟩, ⟨d_r, d_p, -⟩, ⟨-, r_q⟩, p_q, -⟩ := distinct
    have outside : q ∉ ([p, ⟨s.next⟩, ⟨s.next + 2⟩] : List Var) := by simp [Ne.symm p_q, Ne.symm c_q, Ne.symm r_q]
    have rest : v.Spare [⟨s.next + 1⟩, q] := by
      refine (spare'.sublist (.cons _ (.cons_cons _ (.cons _ (.cons _ (.refl _)))))).of_touches touches ?_
      simp only [List.forall_mem_cons]
      exact ⟨by simp [d_p, Ne.symm c_d, d_r], outside, by simp⟩
    exact ⟨v, more.toNeat, more.extends_, rest, more.owns owns_b, more.walk leads_b (spare.vacant q (by simp)) outside,
      read_r, read_cell, fun bs finite =>
        finite_append ended (.conj_of_one (.eq_of_ok split) (.conj_of_one (.eq_of_ok joined) finite))⟩

variable (program) in
/-- Two different vacant variables take the parts of a list without variables, in all ways. -/
theorem finite_append_from (xs : List Term) : ∀ {s : Subst} {l b out : Term} {p q : Var}, s.Neat → s.Spare [p, q] →
    s.Owns l → s.Owns b → s.walk l = .var p → s.walk b = .var q → s.walkDeep out = .ofList xs →
    (Term.ofList xs).vars = [] →
    ∃ as : Multiset Subst, (append l b out).Finite program s as ∧ (∀ t ∈ as, s.Extends t ∧ t.Acyclic) ∧
      as.map (fun t => (t.walkDeep l, t.walkDeep b)) = ↑(splits xs) := by
  induction xs with
  | nil =>
    intro s l b out p q h spare owns_l owns_b leads_l leads_b read ground
    obtain ⟨t, ext, acyclic, read_l, read_b, finite, -⟩ :=
      append_from_step program h spare owns_l owns_b leads_l leads_b (by rw [read]; exact ground)
    refine ⟨{t}, finite read, by simp [ext, acyclic], ?_⟩
    rw [Multiset.map_singleton, read_l, read_b, read]
    rfl
  | cons x xs ih =>
    intro s l b out p q h spare owns_l owns_b leads_l leads_b read ground
    obtain ⟨ground_x, ground_xs⟩ := Term.ground_pair.mp ground
    obtain ⟨t, ext, acyclic, read_l, read_b, -, goes⟩ :=
      append_from_step program h spare owns_l owns_b leads_l leads_b (by rw [read]; exact ground)
    -- The prefix goes on with a new variable, and the suffix is still to be found.
    obtain ⟨m, neat, more, rest, owns_m, leads_m, read_r, read_cell, finite⟩ := goes x (.ofList xs) read
    obtain ⟨bs, finite', grown, found⟩ := ih neat rest (owns_var.mpr (rest.named _ (by simp))) owns_m
      (rest.vacant _ (by simp)).walk leads_m read_r ground_xs
    refine ⟨{t} + bs, finite bs finite', fun u mem => ?_, ?_⟩
    · rcases Multiset.mem_add.mp mem with mem | mem
      · rw [Multiset.mem_singleton.mp mem]
        exact ⟨ext, acyclic⟩
      · exact ⟨more.trans (grown u mem).1, (grown u mem).2⟩
    · have onward : bs.map (fun u => (u.walkDeep l, u.walkDeep b)) =
          (bs.map fun u => (u.walkDeep (.var ⟨s.next + 1⟩), u.walkDeep b)).map fun parts => (.pair x parts.1, parts.2) := by
        rw [Multiset.map_map]
        refine Multiset.map_congr rfl fun u mem => ?_
        rw [(grown u mem).2.walkDeep_cell (grown u mem).1 ground_x read_cell]
        rfl
      rw [Multiset.map_add, Multiset.map_singleton, onward, found, read_l, read_b, read, splits_cons]
      rfl

/-- Appending is concatenation. On substitutions whose variables have all been allocated, two
    variables that are unbound and have no attributes take the parts of a list without
    variables in all ways, once each. One such variable takes what the list is followed by,
    once; only if the list is empty and `b` stands for a variable above it, more than one
    attribute may stand in the way. And whatever is appended, each answer that is reached
    reads `out` as the elements of `l` followed by `b`. -/
theorem append_concatenates (acyclic : s.Acyclic) (allocated : s.Allocated) :
    (∀ (l : Term) (xs : List Term) (p q : Var), p ≠ q → p.index < s.next → q.index < s.next → s.Vacant p → s.Vacant q →
      s.walkDeep l = .ofList xs → (Term.ofList xs).vars = [] →
      ∃ as : Multiset Subst, ComesTo program (append (.var p) (.var q) l) s as ∧
        as.map (fun t => (t.walkDeep (.var p), t.walkDeep (.var q))) = ↑(splits xs)) ∧
    (∀ (l b : Term) (xs : List Term) (q : Var), q.index < s.next → s.Vacant q → (∀ v ∈ b.vars, v.index < s.next) →
      s.occurs q b = false → s.walkDeep l = .ofList xs → (Term.ofList xs).vars = [] →
      (xs = [] → ∀ w, s.walk b = .var w → q.index < w.index → (s.attributes w).toList.length ≤ 1) →
      ∃ t, ComesTo program (append l b (.var q)) s {t} ∧ t.walkDeep (.var q) = .listOnto xs (t.walkDeep b)) ∧
    (program.Fair → s.Produced → ∀ l b out : Term, l.Sized → b.Sized → out.Sized → ∀ allowance answers t,
      (append l b out).apply (program.context allowance) s = .ok answers →
      answers.Reaches (program.context allowance).interp t →
      ∃ xs, t.walkDeep l = .ofList xs ∧ t.walkDeep out = .listOnto xs (t.walkDeep b)) := by
  have h : s.Neat := ⟨acyclic, allocated⟩
  refine ⟨fun l xs p q differ less_p less_q vacant_p vacant_q read ground => ?_,
    fun l b xs q less vacant owned absent read ground few => ?_,
    fun fair produced l b out sized_l sized_b sized_out allowance answers t applied reached => ?_⟩
  · have spare : s.Spare [p, q] := ⟨by simpa using differ, by simp [vacant_p, vacant_q], by simp [less_p, less_q]⟩
    obtain ⟨as, finite, -, found⟩ := finite_append_from program xs h spare (owns_var.mpr less_p)
      (owns_var.mpr less_q) vacant_p.walk vacant_q.walk read ground
    exact ⟨as, finite.comesTo as rfl, found⟩
  · have spare : s.Spare [q] := ⟨by simp, by simp [vacant], by simp [less]⟩
    have apart : q ∉ (s.walkDeep b).vars := fun mem => by
      rw [(occurs_iff s q b).mpr mem] at absent
      cases absent
    obtain ⟨t, finite, -, -, found⟩ := finite_append_onto program xs h spare owned (owns_var.mpr less)
      vacant.walk apart read ground few
    exact ⟨t, finite.comesTo _ rfl, found⟩
  · have stated : (append l b out).Fair fun _ => False := by
      show ∀ a ∈ [l, b, out], a.Sized
      simp [sized_l, sized_b, sized_out]
    have yields := yields_of_reaches applied reached
    have good := yields.orderly fair stated produced.orderly
    exact yields.holdsOf fair stated produced.orderly produced.complete _ good.acyclic.agrees_image

/-- On three new variables, a list of two integers is taken apart in three ways, and it is
    put before a variable. -/
theorem append_concatenates_pair :
    let program : Program := fun _ _ => .fail
    let s := (Subst.empty.freshMany 3).2
    let l : Term := .ofList [.int 7, .int 8]
    (∃ as : Multiset Subst, ComesTo program (append (.var ⟨0⟩) (.var ⟨1⟩) l) s as ∧
      as.map (fun t => (t.walkDeep (.var ⟨0⟩), t.walkDeep (.var ⟨1⟩))) =
        {(.nil, l), (.ofList [.int 7], .ofList [.int 8]), (l, .nil)}) ∧
    (∃ t, ComesTo program (append l (.var ⟨2⟩) (.var ⟨0⟩)) s {t} ∧
      t.walkDeep (.var ⟨0⟩) = .pair (.int 7) (.pair (.int 8) (t.walkDeep (.var ⟨2⟩)))) ∧
    ∀ allowance answers t, (append (.var ⟨0⟩) (.var ⟨1⟩) (.var ⟨2⟩)).apply (program.context allowance) s = .ok answers →
      answers.Reaches (program.context allowance).interp t →
      ∃ xs, t.walkDeep (.var ⟨0⟩) = .ofList xs ∧ t.walkDeep (.var ⟨2⟩) = .listOnto xs (t.walkDeep (.var ⟨1⟩)) := by
  intro program s l
  have acyclic : s.Acyclic := acyclic_empty
  have allocated : s.Allocated := allocated_empty.grow rfl rfl (Nat.zero_le _)
  have vacant (v : Var) : s.Vacant v := ⟨get?_empty v, attributes_empty v⟩
  obtain ⟨parts, onto, attests⟩ := @append_concatenates program s acyclic allocated
  refine ⟨parts l [.int 7, .int 8] ⟨0⟩ ⟨1⟩ (by decide) (by decide) (by decide) (vacant _) (vacant _) rfl rfl, ?_,
    attests (fun _ _ _ => trivial) (produced_freshMany 3) _ _ _ trivial trivial trivial⟩
  exact onto l (.var ⟨2⟩) [.int 7, .int 8] ⟨0⟩ (by decide) (vacant _) (by decide) (by decide) rfl rfl nofun

theorem not_comesTo_one {program : Program} {g : Goal} {s t : Subst} (none : g.Finite program s 0) :
    ¬ComesTo program g s {t} := by
  rintro ⟨n, comes⟩
  obtain ⟨m, comes'⟩ := none.comesTo 0 rfl
  have same := (comes (max n m) (by omega)).unique (comes' (max n m) (by omega))
  exact absurd same (by simp)

/-- A variable with a domain is not made a list. And two even integers have no odd sum, but
    it takes a further run of the relation to find that out: it is run when the sum becomes
    one with a variable below it. -/
theorem append_onto_attributed :
    (∃ s : Subst, (narrow ⟨0⟩ (.range 1 5)).Derives (fun _ _ => .fail) (Subst.empty.freshMany 1).2 s ∧
      s.get? ⟨0⟩ = none ∧ s.occurs ⟨0⟩ .nil = false ∧
      ∀ (program : Program) t, ¬ComesTo program (append (.ofList [.int 7]) .nil (.var ⟨0⟩)) s {t}) ∧
    ∃ s : Subst, (conjAll [narrow ⟨1⟩ evens, narrow ⟨2⟩ evens, narrow ⟨3⟩ (.values [3, 9]),
        post (.sum ⟨1⟩ ⟨2⟩ ⟨3⟩)]).Derives (fun _ _ => .fail) (Subst.empty.freshMany 4).2 s ∧
      s.Vacant ⟨0⟩ ∧ s.occurs ⟨0⟩ (.var ⟨3⟩) = false ∧
      ∀ (program : Program) t, ¬ComesTo program (append .nil (.var ⟨3⟩) (.var ⟨0⟩)) s {t} := by
  constructor
  · let s := ((Subst.empty.freshMany 1).2.solveReduced ⟨0⟩ (.range 1 5)).toOption.getD .empty
    let m := ((s.freshMany 3).2.unify (.pair (.var ⟨1⟩) (.var ⟨2⟩)) (.ofList [.int 7])).toOption.getD .empty
    have split : (s.freshMany 3).2.unify (.pair (.var ⟨1⟩) (.var ⟨2⟩)) (.ofList [.int 7]) = .ok m :=
      eq_ok_of_isSome (by decide +kernel)
    have refused : m.unify (.pair (.var ⟨1⟩) (.var ⟨3⟩)) (.var ⟨0⟩) = .error .conflict := eq_conflict (by decide +kernel)
    have next : s.next = 1 := by decide +kernel
    have walked : s.walk (.ofList [.int 7]) = .pair (.int 7) .nil := walk_of_not_var nofun
    refine ⟨s, .narrow (eq_ok_of_isSome (by decide +kernel)), by decide +kernel, by decide +kernel,
      fun program t => not_comesTo_one (finite_append_of_pair walked ?_)⟩
    rw [next]
    exact .conj_of_one (.eq_of_ok split) (.conj_of_none (.eq_of_conflict refused))
  · let s₁ := ((Subst.empty.freshMany 4).2.solveReduced ⟨1⟩ evens).toOption.getD .empty
    let s₂ := (s₁.solveReduced ⟨2⟩ evens).toOption.getD .empty
    let s₃ := (s₂.solveReduced ⟨3⟩ (.values [3, 9])).toOption.getD .empty
    let stamped := s₃.stamped (Relation.sum ⟨1⟩ ⟨2⟩ ⟨3⟩)
    let s := (stamped.2.solveWith [stamped.1]).toOption.getD .empty
    have derived : (conjAll [narrow ⟨1⟩ evens, narrow ⟨2⟩ evens, narrow ⟨3⟩ (.values [3, 9]),
        post (.sum ⟨1⟩ ⟨2⟩ ⟨3⟩)]).Derives (fun _ _ => .fail) (Subst.empty.freshMany 4).2 s :=
      .conj (m := s₁) (.narrow (eq_ok_of_isSome (by decide +kernel)))
        (.conj (m := s₂) (.narrow (eq_ok_of_isSome (by decide +kernel)))
          (.conj (m := s₃) (.narrow (eq_ok_of_isSome (by decide +kernel)))
            (.post (eq_ok_of_isSome (by decide +kernel)))))
    have refused : s.unify (.var ⟨3⟩) (.var ⟨0⟩) = .error .conflict := eq_conflict (by decide +kernel)
    exact ⟨s, derived, ⟨by decide +kernel, by decide +kernel⟩, by decide +kernel,
      fun program t => not_comesTo_one (finite_append_of_nil (walk_of_not_var nofun) (.eq_of_conflict refused))⟩

end Goal

end ConstraintLogic
