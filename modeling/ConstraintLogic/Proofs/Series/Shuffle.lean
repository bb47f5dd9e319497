import ConstraintLogic.Proofs.Series.Plays
import ConstraintLogic.Series.Numbers

/-!
# Iterating interleaved series

Interleaving two series that come to an end loses nothing, doubles nothing and keeps the
order of each: what is read is a shuffle of both. Where every element is replaced by a
series, what is read is a shuffle of all these series.

Results:
* `Series.Iterates`: what the calls for the next element give.
* `Series.Plays.iterates`: they give what the series shows.
* `Series.iterates_shuffle`: interleaving shuffles.
-/

namespace ConstraintLogic.Series

variable {κ β α : Type} {I : Interp κ β α} {n m : Nat} {s t : Series κ β α} {as bs : List α}

/-- With an allowance that is enough, the calls for the next element give the elements of
    the list one by one, and then no more. -/
def Iterates (I : Interp κ β α) (s : Series κ β α) (as : List α) : Prop :=
  ∃ n, ∀ m, n ≤ m → ∀ count,
    s.pull I m count = .ok ((as.take count).map some ++ List.replicate (count - as.length) none)

theorem Delivers.plays (h : Delivers I s as) : ∃ n, Plays I n s as none := by
  induction h with
  | ended => exact ⟨0, .ended⟩
  | element _ ih =>
    obtain ⟨n, plays⟩ := ih
    exact ⟨n + 1, .element plays⟩
  | forced run _ ih =>
    obtain ⟨n, plays⟩ := ih
    exact ⟨n + 1, .forced run plays⟩
  | awaited run _ ih =>
    obtain ⟨n, plays⟩ := ih
    exact ⟨n + 1, .awaited run plays⟩

/-- What a call for the next element finds in a series that shows the elements of a list
    and ends: the first of them, with the others behind it, or nothing. -/
def NextOf (I : Interp κ β α) (n : Nat) : List α → Except Stop (Option (α × Series κ β α)) → Prop
  | [], r => r = .ok none
  | a :: rest, r => ∃ k t, k ≤ n ∧ Plays I k t rest none ∧ r = .ok (some (a, t))

theorem Plays.next (h : Plays I n s as none) (m : Nat) (enough : n < m) : NextOf I n as (s.next I m) := by
  obtain ⟨k, t, le, forced, plays⟩ := h.forceDeep rfl m enough
  rw [Series.next, forced]
  rcases forceDeep_cases m forced with rfl | ⟨a, rest, rfl⟩
  · cases plays
    rfl
  · cases plays with
    | element plays => exact ⟨_, rest, Nat.le_of_succ_le le, plays, rfl⟩

theorem Plays.take_go (as : List α) : ∀ {n : Nat} {s : Series κ β α} (count : Nat) (taken : List α),
    Plays I n s as none → n < m → take.go I m count s taken = .ok (taken.reverse ++ as.take count) := by
  induction as with
  | nil =>
    rintro n s (_ | count) taken plays enough
    · simp [take.go]
    · have ended : s.next I m = .ok none := plays.next m enough
      rw [take.go, ended, List.take_nil, List.append_nil]
      rfl
  | cons a as ih =>
    rintro n s (_ | count) taken plays enough
    · simp [take.go]
    · obtain ⟨k, t, le, rest, found⟩ := plays.next m enough
      rw [take.go, found, List.take_succ_cons, List.append_cons, ← List.reverse_cons]
      exact ih count (a :: taken) rest (Nat.lt_of_le_of_lt le enough)

/-- The calls for the next element give what the series shows. -/
theorem Plays.iterates (h : Plays I n s as none) : Iterates I s as := by
  refine ⟨n + 1, fun m enough count => ?_⟩
  have taken : s.take I m count = .ok (as.take count) := Plays.take_go as count [] h enough
  have missing : count - (as.take count).length = count - as.length := by
    rw [List.length_take]
    omega
  rw [pull, taken, ← missing]
  rfl

/-- Two series that come to an end are read in their interleaving as a shuffle of both, and
    the series of the elements of one are read as a shuffle of them all. -/
theorem iterates_shuffle (I : Interp κ β α) :
    (∀ s t as bs, Delivers I s as → Delivers I t bs → ∃ cs, Shuffle as bs cs ∧ Iterates I (s.append t) cs) ∧
    ∀ s as f (image : α → List α), Delivers I s as →
      (∀ a ∈ as, ∃ t, I.bind f a = .ok t ∧ Delivers I t (image a)) →
      ∃ t cs, s.bindWith (I.bind f) f = .ok t ∧ Shuffles (as.map image) cs ∧ cs.Perm (as.flatMap image) ∧
        Iterates I t cs := by
  refine ⟨fun s t as bs hs ht => ?_, fun s as f image hs each => ?_⟩
  · obtain ⟨n, plays⟩ := hs.plays
    obtain ⟨m, plays'⟩ := ht.plays
    obtain ⟨k, cs, d, whole, joins⟩ := plays.append plays'
    cases d with
    | some why => exact absurd (joins.stops why rfl) (by simp)
    | none => exact ⟨cs, (joins.shuffles rfl).2.2, whole.iterates⟩
  · obtain ⟨n, plays⟩ := hs.plays
    let out (_ : α) : Option Stop := none
    have shown (a : α) (mem : a ∈ as) : PlaysOut I (I.bind f a) (image a) (out a) := by
      obtain ⟨t, made, ht⟩ := each a mem
      rw [made]
      exact ht.plays
    obtain ⟨cs, d, whole, _, ends, stops⟩ := plays.bindWith_shuffles shown
    cases d with
    | some why => exact absurd (stops why rfl) (by simp [out])
    | none =>
      have shuffled := (ends rfl).2.2
      cases made : s.bindWith (I.bind f) f with
      | error why =>
        rw [made] at whole
        exact absurd whole.2 (by simp)
      | ok t =>
        rw [made] at whole
        obtain ⟨k, plays⟩ := whole
        exact ⟨t, cs, rfl, shuffled, List.flatMap_def ▸ shuffled.perm, plays.iterates⟩

/-- A branch with 1 and 2 that is waited for and a suspended 3: interleaved they are read as
    a shuffle, and so are the doubled elements of the branch. -/
theorem iterates_shuffle_numbers :
    let s : Numbers := .pending (.done (.ofList [1, 2]))
    let t : Numbers := .suspend (.start (.planned 0 (.list [3])))
    Delivers numbers s [1, 2] ∧ Delivers numbers t [3] ∧
      (∃ cs, Shuffle [1, 2] [3] cs ∧ Iterates numbers (s.append t) cs) ∧
      ∃ u cs, s.bindWith (numbers.bind .dup) .dup = .ok u ∧ Shuffles [[1, 1], [2, 2]] cs ∧
        cs.Perm [1, 1, 2, 2] ∧ Iterates numbers u cs := by
  intro s t
  have hs : Delivers numbers s [1, 2] := .awaited rfl (delivers_ofList [1, 2])
  have ht : Delivers numbers t [3] := .forced rfl (delivers_ofList [3])
  have shuffle := iterates_shuffle numbers
  exact ⟨hs, ht, shuffle.1 s t _ _ hs ht,
    shuffle.2 s _ .dup (fun n => [n, n]) hs fun n _ => ⟨_, rfl, delivers_ofList [n, n]⟩⟩

end ConstraintLogic.Series
