import ConstraintLogic.Proofs.Unification.Rounds
import ConstraintLogic.Term.ListBuilder

/-!
# Deep reading as a normal form

Reading a term deeply follows its spine in a loop, collects what the heads are read as in a
builder, and calls itself for the heads. Where bindings are acyclic the loop and all nested
calls come to an end, and what is left is a normal form: no bound variable is in it, and to
read it again changes nothing. The occurs check looks for a variable in this form, and a
binding that has passed the check leaves the normal form of a term a representative of it.

Results:
* `Subst.walkDeepWithin`: deep reading in rounds.
* `Subst.Acyclic.walkDeepWithin`: it comes to an end.
* `Subst.Acyclic.get?_of_mem_walkDeep`, `Subst.Acyclic.walkDeep_walkDeep`: normal forms.
* `Subst.Acyclic.walkDeep_normalizes`: all of it together, with the occurs check.
-/

namespace ConstraintLogic

@[simp] theorem ListBuilder.buildOnto_empty (t : Term) : ({} : ListBuilder).buildOnto t = t := rfl

/-- The last item is the head of what the others are consed onto. -/
@[simp] theorem ListBuilder.buildOnto_push (items : ListBuilder) (t tail : Term) :
    (items.push t).buildOnto tail = items.buildOnto (.pair t tail) := by
  simp [buildOnto, Term.listOnto]

namespace Subst

/-- Reads the rest of a list deeply, in less than `n` rounds for the spine and for each nested
    list: the items before have been read. -/
def walkDeepWithin (s : Subst) : Nat → ListBuilder → Term → Attempt Term
  | 0, _, _ => .error .exhausted
  | n + 1, items, t => do
    match ← s.walkWithin n t with
    | .pair h t => do
      let item ← s.walkDeepWithin n {} h
      s.walkDeepWithin n (items.push item) t
    | last => return items.buildOnto last

open Attempt (Finishes)

variable {ι α : Type} {R : α → Prop} {r : Attempt α} {s t : Subst} {a : Term} {v w : Var}

/-! ## Reading ends -/

/-- A term that walks to no pair is read by the walk. -/
theorem Acyclic.walkDeep_of_not_pair (h : s.Acyclic) (not_pair : ∀ d e, s.walk a ≠ .pair d e) :
    s.walkDeep a = s.walk a := by
  rw [← h.walkDeep_walk]
  cases walked : s.walk a with
  | var v => exact walkDeep_eq_of_unbound (by simpa using h.get?_of_walk walked)
  | pair d e => exact absurd walked (not_pair d e)
  | _ => rfl

/-- Reading gets done with the rest of a list. The induction is on what the rest is read as:
    the bindings that are followed on the way make it no smaller. -/
theorem Acyclic.walkDeepWithin_onto (h : s.Acyclic) (read : Term) : ∀ (items : ListBuilder) (a : Term),
    s.walkDeep a = read → Finishes (· = items.buildOnto read) (fun (_ : ι) n => s.walkDeepWithin n items a)
      (.ok (items.buildOnto read)) := by
  have leaf {items : ListBuilder} {a : Term} (not_pair : ∀ d e, s.walk a ≠ .pair d e) :
      Finishes (· = items.buildOnto (s.walkDeep a)) (fun (_ : ι) n => s.walkDeepWithin n items a)
        (.ok (items.buildOnto (s.walkDeep a))) := by
    rw [h.walkDeep_of_not_pair not_pair]
    refine Finishes.succ (h.finishes_walk ?_) fun _ _ => rfl
    cases walked : s.walk a with
    | pair d e => exact absurd walked (not_pair d e)
    | _ => exact .ok rfl
  induction read with
  | pair d e ih_d ih_e =>
    intro items a reads
    by_cases pair : ∃ b c, s.walk a = .pair b c
    · obtain ⟨b, c, walked⟩ := pair
      rw [← h.walkDeep_walk, walked] at reads
      obtain ⟨reads_b, reads_c⟩ : s.walkDeep b = d ∧ s.walkDeep c = e := Term.pair.inj reads
      refine Finishes.succ (h.finishes_walk ?_) fun _ _ => rfl
      simp only [walked]
      refine Finishes.bind (k := fun _ => _) (ih_d {} b reads_b) fun item same => ?_
      rw [same, ListBuilder.buildOnto_empty, ← ListBuilder.buildOnto_push]
      exact ih_e (items.push d) c reads_c
    · exact reads ▸ leaf fun b c walked => pair ⟨b, c, walked⟩
  | _ =>
    intro items a reads
    refine reads ▸ leaf fun b c walked => ?_
    rw [← h.walkDeep_walk, walked] at reads
    cases reads

/-- Deep reading comes to its end. -/
theorem Acyclic.walkDeepWithin (h : s.Acyclic) (a : Term) :
    Finishes (· = s.walkDeep a) (fun (_ : ι) n => s.walkDeepWithin n {} a) (.ok (s.walkDeep a)) :=
  h.walkDeepWithin_onto (s.walkDeep a) {} a rfl

/-! ## Normal forms -/

/-- What is read deeply has no bound variable. -/
theorem Acyclic.get?_of_mem_walkDeep (h : s.Acyclic) (mem : w ∈ (s.walkDeep a).vars) : s.get? w = none := by
  obtain ⟨_, _, mem⟩ := Term.mem_vars_expand.mp mem
  exact h.get?_of_mem_image mem

/-- What has been read is read as it is. -/
theorem Acyclic.walkDeep_walkDeep (h : s.Acyclic) (a : Term) : s.walkDeep (s.walkDeep a) = s.walkDeep a :=
  walkDeep_eq_of_unbound fun _ => h.get?_of_mem_walkDeep

/-- Reading with fewer bindings first makes no difference. -/
theorem Acyclic.walkDeep_of_extends (h : t.Acyclic) (ext : s.Extends t) (a : Term) :
    t.walkDeep (s.walkDeep a) = t.walkDeep a :=
  (h.agrees_image.of_extends ext).expand_walkDeep a

/-- Acyclicity is a property of the bindings. -/
theorem Acyclic.of_bindings (h : s.Acyclic) (same : t.bindings = s.bindings) : t.Acyclic := by
  obtain ⟨rank, falls⟩ := h
  refine ⟨rank, fun v w ⟨b, bound, mem⟩ => falls v w ⟨b, ?_, mem⟩⟩
  rwa [get?, same] at bound

/-- Deep reading normalizes. Its loop ends, also for the nested heads; no bound variable is
    left, and reading again changes nothing. The occurs check, whose loop ends as well, finds
    just the variables of the normal form. Where it finds an unbound variable `v` nowhere in
    `a`, binding `v` to `a` makes no cycle, whatever comes of the attributes, and what a term
    was read as before is read as the term itself is. -/
theorem Acyclic.walkDeep_normalizes (h : s.Acyclic) :
    (∀ a, (∃ n₀, ∀ n, n₀ ≤ n → s.walkDeepWithin n {} a = .ok (s.walkDeep a)) ∧
      (∀ w ∈ (s.walkDeep a).vars, s.isBound w = false) ∧ s.walkDeep (s.walkDeep a) = s.walkDeep a) ∧
    ∀ v a, s.isBound v = false →
      (∃ n₀, ∀ n, n₀ ≤ n → s.occursWithin v n [a] = .ok (s.occurs v a)) ∧
      (s.occurs v a = true ↔ v ∈ (s.walkDeep a).vars) ∧
      (s.occurs v a = false → ∀ t : Subst, t.bindings = (s.bind v a).bindings →
        t.Acyclic ∧ ∀ b, t.walkDeep b = t.walkDeep (s.walkDeep b)) := by
  refine ⟨fun a => ⟨?_, fun w mem => ?_, h.walkDeep_walkDeep a⟩,
    fun v a free => ⟨?_, s.occurs_iff v a, fun absent t same => ?_⟩⟩
  · obtain ⟨n₀, comes⟩ := (h.walkDeepWithin (ι := Unit) a).comes
    exact ⟨n₀, comes ()⟩
  · simp [isBound, h.get?_of_mem_walkDeep mem]
  · obtain ⟨n₀, comes⟩ := (h.occursWithin (ι := Unit) v [a]).comes
    exact ⟨n₀, fun n le => by simpa using comes () n le⟩
  · have unbound : s.get? v = none := by simpa [isBound] using free
    have acyclic : t.Acyclic := (h.bind unbound absent).of_bindings same
    have ext : s.Extends t := fun w b bound => by
      rw [get?, same]
      exact Extends.bind unbound a w b bound
    exact ⟨acyclic, fun b => (acyclic.walkDeep_of_extends ext b).symm⟩

/-- The spine of `_0` crosses the binding of `_2`, and its last item that of `_3`. Then `_1` is
    bound to a list in which it does not occur. -/
theorem walkDeep_normalizes_crossing :
    let s := ((empty.bind ⟨0⟩ (.pair (.var ⟨1⟩) (.var ⟨2⟩))).bind ⟨2⟩ (.ofList [.var ⟨3⟩])).bind ⟨3⟩ (.var ⟨4⟩)
    let form : Term := .ofList [.var ⟨1⟩, .var ⟨4⟩]
    let t := s.bind ⟨1⟩ (.ofList [.var ⟨3⟩])
    s.Acyclic ∧ (∃ n₀, ∀ n, n₀ ≤ n → s.walkDeepWithin n {} (.var ⟨0⟩) = .ok form) ∧ s.walkDeep form = form ∧
      s.isBound ⟨1⟩ = false ∧ s.occurs ⟨1⟩ (.var ⟨0⟩) = true ∧ s.occurs ⟨1⟩ (.ofList [.var ⟨3⟩]) = false ∧
      t.Acyclic ∧ t.walkDeep (.var ⟨0⟩) = t.walkDeep form ∧
      t.walkDeep form = .ofList [.ofList [.var ⟨4⟩], .var ⟨4⟩] := by
  intro s form t
  have acyclic : s.Acyclic :=
    ((acyclic_empty.bind (by decide) (by decide +kernel)).bind (by decide) (by decide +kernel)).bind (by decide)
      (by decide +kernel)
  have read : s.walkDeep (.var ⟨0⟩) = form := by decide +kernel
  obtain ⟨forms, checks⟩ := acyclic.walkDeep_normalizes
  obtain ⟨ends, -, again⟩ := forms (.var ⟨0⟩)
  obtain ⟨-, found, -⟩ := checks ⟨1⟩ (.var ⟨0⟩) (by decide)
  obtain ⟨-, -, absent⟩ := checks ⟨1⟩ (.ofList [.var ⟨3⟩]) (by decide)
  obtain ⟨acyclic', same⟩ := absent (by decide +kernel) t rfl
  rw [read] at ends again found
  exact ⟨acyclic, ends, again, by decide, found.mpr (by decide +kernel), by decide +kernel, acyclic',
    read ▸ same (.var ⟨0⟩), by decide +kernel⟩

end Subst

end ConstraintLogic
