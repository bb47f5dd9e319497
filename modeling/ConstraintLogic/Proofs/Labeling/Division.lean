import ConstraintLogic.Proofs.Series.Plays
import ConstraintLogic.Proofs.Unification.Equations

/-!
# Dividing readings

A goal that can hold in several ways has several answers, and every reading that it
leaves belongs to just one of them. The answers are a series, so that this is said
of what the series shows once it is read to its end.

Results:
* `Answers.Parts`: the answers of a list divide the readings `M`.
* `Answers.Divides`: the answers that an attempt shows divide the readings `M`.
* `Answers.Divides.append`: alternatives that exclude each other.
-/

namespace ConstraintLogic.Answers

variable {I : Interp Task Goal Subst} {P : Subst → Prop} {D : Subst → (Var → Term) → Prop}
variable {F : Fault → Prop} {M N : (Var → Term) → Prop} {ts us : List Subst}

/-- Each of the readings `M`, and no other reading, is admitted by one of the answers,
    and by one of them only. -/
structure Parts (P : Subst → Prop) (D : Subst → (Var → Term) → Prop) (M : (Var → Term) → Prop)
    (ts : List Subst) : Prop where
  good : ∀ t ∈ ts, P t
  covers : ∀ θ, M θ ↔ ∃ t ∈ ts, D t θ
  apart : ts.Pairwise fun t u => ∀ θ, D t θ → ¬D u θ

theorem Parts.congr (h : Parts P D M ts) (same : ∀ θ, M θ ↔ N θ) : Parts P D N ts :=
  ⟨h.good, fun θ => (same θ).symm.trans (h.covers θ), h.apart⟩

theorem Parts.perm (h : Parts P D M ts) (perm : us.Perm ts) : Parts P D M us where
  good t mem := h.good t (perm.mem_iff.mp mem)
  covers θ := by
    rw [h.covers θ]
    exact exists_congr fun t => and_congr_left fun _ => perm.mem_iff.symm
  apart := (perm.symm.pairwise_iff fun apart θ admits admits' => apart θ admits' admits).mp h.apart

theorem parts_nil (none : ∀ θ, ¬M θ) : Parts P D M [] :=
  ⟨by simp, fun θ => by simp [none θ], .nil⟩

theorem parts_singleton {t : Subst} (good : P t) (same : ∀ θ, D t θ ↔ M θ) : Parts P D M [t] :=
  ⟨by simpa using good, fun θ => by simp [same], List.pairwise_singleton _ _⟩

/-- Readings of two kinds that exclude each other. -/
theorem Parts.append (h : Parts P D M ts) (h' : Parts P D N us) (exclude : ∀ θ, M θ → ¬N θ) :
    Parts P D (fun θ => M θ ∨ N θ) (ts ++ us) where
  good t mem := (List.mem_append.mp mem).elim (h.good t) (h'.good t)
  covers θ := by
    simp only [h.covers, h'.covers, List.mem_append, or_and_right, exists_or]
  apart := by
    refine List.pairwise_append.mpr ⟨h.apart, h'.apart, fun t mem u mem' θ admits admits' => ?_⟩
    exact exclude θ ((h.covers θ).mpr ⟨t, mem, admits⟩) ((h'.covers θ).mpr ⟨u, mem', admits'⟩)

/-! ## Series of answers -/

/-- The answers that an attempt shows divide the readings `M`, or a fault of the kind
    `F` stops it. -/
def Divides (I : Interp Task Goal Subst) (P : Subst → Prop) (D : Subst → (Var → Term) → Prop)
    (F : Fault → Prop) (M : (Var → Term) → Prop) (r : Except Stop Answers) : Prop :=
  ∃ ts out, Series.PlaysOut I r ts out ∧ (∀ t ∈ ts, P t) ∧
    match out with
    | none => Parts P D M ts
    | some (.fault f) => F f
    | some .exhausted => False

theorem Divides.congr {r : Except Stop Answers} (h : Divides I P D F M r) (same : ∀ θ, M θ ↔ N θ) :
    Divides I P D F N r := by
  obtain ⟨ts, out, plays, good, divided⟩ := h
  refine ⟨ts, out, plays, good, ?_⟩
  match out, divided with
  | none, parts => exact parts.congr same
  | some (.fault f), fault => exact fault

theorem divides_fault {f : Fault} (fault : F f) : Divides I P D F M (.error (.fault f)) :=
  ⟨[], some (.fault f), ⟨rfl, rfl⟩, by simp, fault⟩

theorem divides_empty (none : ∀ θ, ¬M θ) : Divides I P D F M (.ok .empty) :=
  ⟨[], Option.none, ⟨0, .ended⟩, by simp, parts_nil none⟩

theorem divides_unit {t : Subst} (good : P t) (same : ∀ θ, D t θ ↔ M θ) :
    Divides I P D F M (.ok (.unit t)) :=
  ⟨[t], none, ⟨1, .element .ended⟩, by simpa using good, parts_singleton good same⟩

/-- A suspension shows what is behind it. -/
theorem Divides.suspend {w : Work Task Goal Subst} (h : Divides I P D F M (w.run I)) :
    Divides I P D F M (.ok (.suspend w)) := by
  obtain ⟨ts, out, plays, divided⟩ := h
  exact ⟨ts, out, plays.suspend, divided⟩

/-- Both series together show the readings of both kinds. -/
theorem Divides.append {s t : Answers} (h : Divides I P D F M (.ok s)) (h' : Divides I P D F N (.ok t))
    (exclude : ∀ θ, M θ → ¬N θ) : Divides I P D F (fun θ => M θ ∨ N θ) (.ok (s.append t)) := by
  obtain ⟨ts, out, ⟨n, plays⟩, good, divided⟩ := h
  obtain ⟨us, out', ⟨m, plays'⟩, good', divided'⟩ := h'
  obtain ⟨k, cs, d, whole, joins⟩ := plays.append plays'
  refine ⟨cs, d, ⟨k, whole⟩, fun t mem => (joins.subset t mem).elim (good t) (good' t), ?_⟩
  match d, joins with
  | none, joins =>
    obtain ⟨rfl, rfl, perm⟩ := joins.ends rfl
    exact (divided.append divided' exclude).perm perm
  | some why, joins =>
    rcases joins.stops why rfl with rfl | rfl
    · match why, divided with
      | .fault f, fault => exact fault
    · match why, divided' with
      | .fault f, fault => exact fault

end ConstraintLogic.Answers
