import ConstraintLogic.Proofs.Series.Plays
import ConstraintLogic.Proofs.Unification.Equations
import Mathlib.Data.Multiset.Bind

/-!
# What series tell

What is found in a series may be told without the order in which it is found: that an
element is among those that come up, or that the series ends and which elements it has,
each as often as it comes up. Interleaving adds what two series tell, and it makes no
difference to it which side goes first, or which of them is waited for.

Results:
* `Verdict`: an element comes up, or these are all that come up.
* `Verdict.Both`, `Verdict.Each`: what is told of interleaved series.
* `Verdict.Fits`: two verdicts that may be told of one series.
* `Series.Tells`, `Work.Tells`: what a series tells, by what the codes in it tell.
* `Work.tells_of_run`, `Series.tells_forceReady`, `Series.tells_forceDeep`,
  `Series.Plays.tells`: what a search finds is what the series told.
-/

namespace ConstraintLogic

/-! ## Verdicts -/

/-- What may be told of a series. -/
inductive Verdict (α : Type) where
  /-- The element comes up. -/
  | has (a : α)
  /-- The series ends, and these are its elements. -/
  | all (as : Multiset α)

namespace Verdict

variable {α β : Type}

/-- What is told of two series together. -/
def Both (P Q : Verdict α → Prop) : Verdict α → Prop
  | has a => P (has a) ∨ Q (has a)
  | all as => ∃ bs cs, P (all bs) ∧ Q (all cs) ∧ as = bs + cs

/-- What is told of the series of all elements of a series together. In the pairs, the
    elements of the first stand with those of their own series. -/
def Each (P : Verdict α → Prop) (B : α → Verdict β → Prop) : Verdict β → Prop
  | has b => ∃ a, P (has a) ∧ B a (has b)
  | all bs => ∃ L : Multiset (α × Multiset β),
    P (all (L.map Prod.fst)) ∧ (∀ p ∈ L, B p.1 (all p.2)) ∧ bs = L.bind Prod.snd

/-- What is told of the series of one element. -/
def Sole (a : α) : Verdict α → Prop
  | has b => b = a
  | all as => as = {a}

/-- Two verdicts on one series. -/
def Fits : Verdict α → Verdict α → Prop
  | has _, has _ => True
  | has a, all as => a ∈ as
  | all as, has a => a ∈ as
  | all as, all bs => as = bs

/-- All verdicts of the kind fit the one. -/
def Only (P : Verdict α → Prop) (v : Verdict α) : Prop := ∀ w, P w → v.Fits w

variable {P P' Q Q' R : Verdict α → Prop} {B B' : α → Verdict β → Prop} {v w : Verdict α}

theorem Both.mono (h : Both P Q v) (left : ∀ w, P w → P' w) (right : ∀ w, Q w → Q' w) : Both P' Q' v := by
  cases v with
  | has a => exact h.imp (left _) (right _)
  | all as =>
    obtain ⟨bs, cs, first, second, sum⟩ := h
    exact ⟨bs, cs, left _ first, right _ second, sum⟩

theorem Both.swap (h : Both P Q v) : Both Q P v := by
  cases v with
  | has a => exact h.symm
  | all as =>
    obtain ⟨bs, cs, first, second, rfl⟩ := h
    exact ⟨cs, bs, second, first, add_comm bs cs⟩

theorem both_assoc (h : Both P (Both Q R) v) : Both (Both P Q) R v := by
  cases v with
  | has a => exact or_assoc.mpr h
  | all as =>
    obtain ⟨bs, _, first, ⟨cs, ds, second, third, rfl⟩, rfl⟩ := h
    exact ⟨bs + cs, ds, ⟨bs, cs, first, second, rfl⟩, third, (add_assoc bs cs ds).symm⟩

/-- What is told of the series of an element, and of those of the others, is told of them
    all. -/
theorem each_cons {a : α} {v : Verdict β} (h : Both (B a) (Each P B) v) : Each (Both (Sole a) P) B v := by
  cases v with
  | has b =>
    rcases h with here | ⟨c, first, second⟩
    · exact ⟨a, .inl rfl, here⟩
    · exact ⟨c, .inr first, second⟩
  | all bs =>
    obtain ⟨cs, _, here, ⟨L, first, each, rfl⟩, rfl⟩ := h
    refine ⟨(a, cs) ::ₘ L, ?_, ?_, (Multiset.cons_bind (a, cs) L Prod.snd).symm⟩
    · rw [Multiset.map_cons]
      exact ⟨{a}, L.map Prod.fst, rfl, first, rfl⟩
    · rintro p mem
      rcases Multiset.mem_cons.mp mem with rfl | mem
      · exact here
      · exact each p mem

theorem Each.mono {v : Verdict β} (h : Each P B v) (source : ∀ w, P w → P' w) (image : ∀ a w, B a w → B' a w) :
    Each P' B' v := by
  cases v with
  | has b =>
    obtain ⟨a, first, second⟩ := h
    exact ⟨a, source _ first, image a _ second⟩
  | all bs =>
    obtain ⟨L, first, each, sum⟩ := h
    exact ⟨L, source _ first, fun p mem => image p.1 _ (each p mem), sum⟩

theorem Sole.fits {a : α} (h : Sole a v) (h' : Sole a w) : v.Fits w := by
  cases v with
  | has b =>
    cases w with
    | has c => trivial
    | all as =>
      cases h
      cases h'
      exact Multiset.mem_singleton_self a
  | all as =>
    cases w with
    | has c =>
      cases h
      cases h'
      exact Multiset.mem_singleton_self a
    | all bs =>
      cases h
      cases h'
      rfl

/-- Nothing but the end fits to the end. -/
theorem not_fits_none (differ : v ≠ all 0) : ¬(all 0).Fits v := by
  cases v with
  | has a => exact Multiset.notMem_zero a
  | all as => exact fun same => differ (congrArg all (Eq.symm same))

theorem not_none_fits (differ : v ≠ all 0) : ¬v.Fits (all 0) := by
  cases v with
  | has a => exact Multiset.notMem_zero a
  | all as => exact fun same => differ (congrArg all same)

theorem only_has_both {a : α} (h : Only P (has a)) : Only (Both P Q) (has a) := by
  rintro (b | as) told
  · trivial
  · obtain ⟨bs, cs, first, _, rfl⟩ := told
    exact Multiset.mem_add.mpr (.inl (h _ first))

theorem only_all_both {as bs : Multiset α} (h : Only P (all as)) (h' : Only Q (all bs)) :
    Only (Both P Q) (all (as + bs)) := by
  rintro (b | cs) told
  · exact Multiset.mem_add.mpr (told.imp (h _) (h' _))
  · obtain ⟨ds, es, first, second, rfl⟩ := told
    have left : as = ds := h _ first
    have right : bs = es := h' _ second
    exact congrArg₂ (· + ·) left right

theorem only_has_each {a : α} {b : β} (h : Only P (has a)) (h' : Only (B a) (has b)) : Only (Each P B) (has b) := by
  rintro (c | bs) told
  · trivial
  · obtain ⟨L, first, each, rfl⟩ := told
    obtain ⟨⟨_, cs⟩, mem, rfl⟩ := Multiset.mem_map.mp (h _ first)
    have within : b ∈ cs := h' _ (each _ mem)
    exact Multiset.mem_bind.mpr ⟨_, mem, within⟩

/-- Pairs whose first parts are the same elements, and whose second parts are determined
    by the first, have the same second parts. -/
theorem bind_eq_of_fst_eq {L L' : Multiset (α × Multiset β)} (source : L.map Prod.fst = L'.map Prod.fst)
    (same : ∀ p ∈ L, ∀ q ∈ L', p.1 = q.1 → p.2 = q.2) : L.bind Prod.snd = L'.bind Prod.snd := by
  classical
  let image (a : α) : Multiset β := if h : ∃ q ∈ L', q.1 = a then h.choose.2 else 0
  have read {M : Multiset (α × Multiset β)} (partner : ∀ p ∈ M, ∃ q ∈ L', q.1 = p.1)
      (same : ∀ p ∈ M, ∀ q ∈ L', p.1 = q.1 → p.2 = q.2) : M.bind Prod.snd = (M.map Prod.fst).bind image := by
    rw [Multiset.bind_map]
    refine Multiset.bind_congr fun p mem => ?_
    obtain ⟨mem', fst⟩ := (partner p mem).choose_spec
    simp only [image, partner p mem, dif_pos]
    exact same p mem _ mem' fst.symm
  have partner (p : α × Multiset β) (mem : p ∈ L) : ∃ q ∈ L', q.1 = p.1 :=
    Multiset.mem_map.mp (source ▸ Multiset.mem_map_of_mem Prod.fst mem)
  have partner' (p : α × Multiset β) (mem : p ∈ L') : ∃ q ∈ L, q.1 = p.1 :=
    Multiset.mem_map.mp (source ▸ Multiset.mem_map_of_mem Prod.fst mem)
  rw [read partner same, source]
  refine (read (fun p mem => ⟨p, mem, rfl⟩) fun p mem q mem' fst => ?_).symm
  -- Equal first parts in the second multiset are compared by way of the first one.
  obtain ⟨r, in_L, fst'⟩ := partner' p mem
  exact (same r in_L p mem fst').symm.trans (same r in_L q mem' (fst'.trans fst))

theorem only_all_each {L : Multiset (α × Multiset β)} (h : Only P (all (L.map Prod.fst)))
    (each : ∀ p ∈ L, Only (B p.1) (all p.2)) : Only (Each P B) (all (L.bind Prod.snd)) := by
  rintro (b | bs) told
  · obtain ⟨a, first, second⟩ := told
    obtain ⟨p, mem, rfl⟩ := Multiset.mem_map.mp (h _ first)
    exact Multiset.mem_bind.mpr ⟨p, mem, each p mem _ second⟩
  · obtain ⟨L', first, each', rfl⟩ := told
    refine bind_eq_of_fst_eq (h _ first) fun p mem q mem' same => ?_
    exact each p mem _ (same ▸ each' q mem')

end Verdict

open Verdict

/-! ## What series tell -/

variable {κ β α : Type}

mutual

/-- The verdict on a series, if `T` says what the computations tell and `B` what the
    functions make of an element. -/
def Series.Tells (T : κ → Verdict α → Prop) (B : β → α → Verdict α → Prop) :
    Series κ β α → Verdict α → Prop
  | .empty, v => v = .all 0
  | .cons a rest, v => Both (Sole a) (rest.Tells T B) v
  | .suspend w, v => w.Tells T B v
  | .pending w, v => w.Tells T B v

/-- The verdict on the series that the work delivers. -/
def Work.Tells (T : κ → Verdict α → Prop) (B : β → α → Verdict α → Prop) : Work κ β α → Verdict α → Prop
  | .done s, v => s.Tells T B v
  | .start k, v => T k v
  | .thenAppend w s, v => Both (w.Tells T B) (s.Tells T B) v
  | .ontoAppend s w, v => Both (s.Tells T B) (w.Tells T B) v
  | .thenBind w f, v => Each (w.Tells T B) (B f) v

end

/-- What the series tell that the codes deliver has been told of the codes. -/
structure Interp.Told (T : κ → Verdict α → Prop) (B : β → α → Verdict α → Prop) (I : Interp κ β α) : Prop where
  start : ∀ k s v, I.start k = .ok s → s.Tells T B v → T k v
  bind : ∀ f a s v, I.bind f a = .ok s → s.Tells T B v → B f a v

variable {T : κ → Verdict α → Prop} {B : β → α → Verdict α → Prop} {I : Interp κ β α}
variable {s t : Series κ β α} {v : Verdict α}

namespace Series

theorem tells_append (h : (s.append t).Tells T B v) : Both (s.Tells T B) (t.Tells T B) v := by
  cases s with
  | empty =>
    cases v with
    | has a => exact .inr h
    | all as => exact ⟨0, as, rfl, h, (zero_add as).symm⟩
  | cons a rest => exact both_assoc h
  | suspend w => exact h.swap
  | pending w =>
    cases t with
    | empty =>
      cases v with
      | has a => exact .inl h
      | all as => exact ⟨as, 0, h, rfl, (add_zero as).symm⟩
    | _ => exact h

theorem tells_bindWith {f : β} {run : α → Except Stop (Series κ β α)}
    (each : ∀ a u v, run a = .ok u → u.Tells T B v → B f a v) (bound : s.bindWith run f = .ok t)
    (h : t.Tells T B v) : Each (s.Tells T B) (B f) v := by
  cases s with
  | empty =>
    cases bound
    cases h
    exact ⟨0, rfl, by simp, by simp⟩
  | cons a rest =>
    obtain ⟨u, first, same⟩ := exists_of_bind_ok bound
    cases same
    have told := (tells_append h).mono (fun w => each a u w first) fun _ => id
    exact each_cons told
  | suspend w =>
    cases bound
    exact h
  | pending w =>
    cases bound
    exact h

end Series

/-- Work delivers what has been told of it. -/
theorem Work.tells_of_run (told : I.Told T B) : ∀ (w : Work κ β α) {s : Series κ β α} {v : Verdict α},
    w.run I = .ok s → s.Tells T B v → w.Tells T B v
  | .done s, _, _, run, h => by
    cases run
    exact h
  | .start k, s, v, run, h => told.start k s v run h
  | .thenAppend w t, _, _, run, h => by
    obtain ⟨u, inner, same⟩ := exists_of_bind_ok run
    cases same
    exact (Series.tells_append h).mono (fun _ => Work.tells_of_run told w inner) fun _ => id
  | .ontoAppend t w, _, _, run, h => by
    obtain ⟨u, inner, same⟩ := exists_of_bind_ok run
    cases same
    exact (Series.tells_append h).mono (fun _ => id) fun _ => Work.tells_of_run told w inner
  | .thenBind w f, _, v, run, h => by
    obtain ⟨u, inner, bound⟩ := exists_of_bind_ok run
    exact (Series.tells_bindWith (fun a u v => told.bind f a u v) bound h).mono
      (fun _ => Work.tells_of_run told w inner) fun _ _ => id

namespace Series

theorem tells_forceReady (told : I.Told T B) (n : Nat) (run : s.forceReady I n = .ok t) (h : t.Tells T B v) :
    s.Tells T B v :=
  of_forceReady (P := fun s => s.Tells T B v) (fun w _ => w.tells_of_run told) n run h

theorem tells_forceDeep (told : I.Told T B) (n : Nat) (run : s.forceDeep I n = .ok t) (h : t.Tells T B v) :
    s.Tells T B v :=
  of_forceDeep (P := fun s => s.Tells T B v) (fun w _ => w.tells_of_run told) (fun w _ => w.tells_of_run told) n run h

/-- The elements that a series shows to its end are those that it tells. -/
theorem Plays.tells (told : I.Told T B) {n : Nat} {as : List α} {e : Option Stop} (h : Plays I n s as e)
    (ended : e = none) : s.Tells T B (.all as) := by
  induction h with
  | ended => rfl
  | @element n a rest as e _ ih => exact ⟨{a}, as, rfl, ih ended, rfl⟩
  | forced run _ ih => exact Work.tells_of_run told _ run (ih ended)
  | awaited run _ ih => exact Work.tells_of_run told _ run (ih ended)
  | failed _ => cases ended
  | lost _ => cases ended

end Series

end ConstraintLogic
