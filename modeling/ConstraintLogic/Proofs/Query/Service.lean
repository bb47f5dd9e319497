import ConstraintLogic.Engine
import ConstraintLogic.Proofs.Search.Allowance
import ConstraintLogic.Proofs.Subst.Exactness
import ConstraintLogic.Proofs.Unification.Equations

/-!
# Consuming answers

An engine reads the series of its goal and stops at its limit. Whatever is asked of one
engine, call after call, is served from the same elements, the first ones of the series:
each is used once, by the call that comes to it, and what lies behind the limit is never
forced.

Results:
* `Reads`: what reading on and on gives; `Reads.unique`: there is one such list.
* `Series.Takes`: the first elements of a series; `Series.takes_some_iff`: `take` returns them.
* `Engine.reads_iff`: an engine reads the elements of its stream, up to its limit.
* `Engine.reads_of_serve`, `Engine.serve_of_reads`: calls are served from what the engine reads.
* `Query.serves_first`: queries are served from the first elements of the series of the goal.
-/

namespace ConstraintLogic

/-! ## Reading on -/

section Reading

variable {σ α : Type} {next next' : σ → Except Stop (Option (α × σ))} {k : Option Nat} {s : σ} {as bs : List α}

/-- Reading on from a state, at most `k` times if there is a bound, delivers the elements of
    the list: the reading ends at the bound, or where there is no further element. -/
def Reads (next : σ → Except Stop (Option (α × σ))) : Option Nat → σ → List α → Prop
  | k, s, [] => k = some 0 ∨ next s = .ok none
  | k, s, a :: as => k ≠ some 0 ∧ ∃ rest, next s = .ok (some (a, rest)) ∧ Reads next (k.map (· - 1)) rest as

theorem reads_zero : Reads next (some 0) s as ↔ as = [] := by
  cases as <;> simp [Reads]

theorem reads_of_ended (ended : next s = .ok none) : Reads next k s as ↔ as = [] := by
  cases as <;> simp [Reads, ended]

theorem reads_of_found {a : α} {rest : σ} (found : next s = .ok (some (a, rest))) (room : k ≠ some 0) :
    Reads next k s as ↔ ∃ others, as = a :: others ∧ Reads next (k.map (· - 1)) rest others := by
  cases as with
  | nil => simp [Reads, found, room]
  | cons b as =>
    simp only [Reads, found, Except.ok.injEq, Option.some.injEq, Prod.mk.injEq]
    constructor
    · rintro ⟨-, _, ⟨rfl, rfl⟩, others⟩
      exact ⟨as, rfl, others⟩
    · rintro ⟨_, same, others⟩
      cases same
      exact ⟨room, rest, ⟨rfl, rfl⟩, others⟩

/-- There is one list that reading delivers. -/
theorem Reads.unique (h : Reads next k s as) (h' : Reads next k s bs) : as = bs := by
  induction as generalizing k s bs with
  | nil =>
    rcases h with rfl | ended
    · exact (reads_zero.mp h').symm
    · exact ((reads_of_ended ended).mp h').symm
  | cons a as ih =>
    obtain ⟨room, rest, found, others⟩ := h
    obtain ⟨bs, rfl, others'⟩ := (reads_of_found found room).mp h'
    rw [ih others others']

theorem Reads.mono (continues : ∀ s, Continues (next s) (next' s)) (h : Reads next k s as) : Reads next' k s as := by
  induction as generalizing k s with
  | nil => exact h.imp_right (continues s).ok
  | cons a as ih =>
    obtain ⟨room, rest, found, others⟩ := h
    exact ⟨room, rest, (continues s).ok found, ih others⟩

/-- With a bound, the first elements are read of all there are. -/
theorem Reads.take (h : Reads next none s as) (n : Nat) : Reads next (some n) s (as.take n) := by
  induction as generalizing n s with
  | nil =>
    rcases h with none | ended
    · cases none
    · rw [List.take_nil]
      exact .inr ended
  | cons a as ih =>
    obtain ⟨-, rest, found, others⟩ := h
    cases n with
    | zero => exact .inl rfl
    | succ n => exact ⟨by simp, rest, found, ih others n⟩

end Reading

/-! ## Reading a series -/

namespace Series

variable {κ β α : Type} {I J : Interp κ β α} {n m : Nat} {s : Series κ β α} {k : Option Nat} {as : List α}

/-- The elements that iterating the series gives: the first `k` of them, or all of them if
    there is no bound. -/
def Takes (I : Interp κ β α) (s : Series κ β α) (k : Option Nat) (as : List α) : Prop :=
  ∃ n, Reads (next I n) k s as

theorem next_suspend (w : Work κ β α) : (suspend w).next I (n + 1) = w.run I >>= next I n :=
  bind_assoc _ _ _

theorem next_pending (w : Work κ β α) : (pending w).next I (n + 1) = w.run I >>= next I n :=
  bind_assoc _ _ _

theorem continues_next (h : I.Continues J) (le : n ≤ m) (s : Series κ β α) :
    Continues (s.next I n) (s.next J m) :=
  (continues_forceDeep h s le).bind fun _ => .refl _

theorem reads_of_take_go (count : Nat) : ∀ {s : Series κ β α} {taken xs : List α},
    take.go I n count s taken = .ok xs → ∃ as, Reads (next I n) (some count) s as ∧ xs = taken.reverse ++ as := by
  induction count with
  | zero =>
    intro s taken xs run
    cases run
    exact ⟨[], .inl rfl, by simp⟩
  | succ count ih =>
    intro s taken xs run
    obtain ⟨found, eq, run⟩ := exists_of_bind_ok run
    cases found with
    | none =>
      cases run
      exact ⟨[], .inr eq, by simp⟩
    | some found =>
      obtain ⟨as, reads, rfl⟩ := ih run
      exact ⟨found.1 :: as, ⟨by simp, found.2, eq, reads⟩, by simp⟩

theorem take_go_of_reads (as : List α) : ∀ {count : Nat} {s : Series κ β α} {taken : List α},
    Reads (next I n) (some count) s as → take.go I n count s taken = .ok (taken.reverse ++ as) := by
  induction as with
  | nil =>
    rintro (_ | count) s taken h
    · simp [take.go]
    · rcases h with zero | ended
      · cases zero
      · rw [take.go, ended]
        exact congrArg Except.ok (List.append_nil _).symm
  | cons a as ih =>
    rintro (_ | count) s taken ⟨room, rest, found, others⟩
    · exact absurd rfl room
    · rw [take.go, found]
      exact (ih others).trans (by simp)

/-- With a bound, the elements are those that `take` returns. -/
theorem takes_some_iff {count : Nat} : s.Takes I (some count) as ↔ ∃ n, s.take I n count = .ok as := by
  constructor
  · rintro ⟨n, reads⟩
    exact ⟨n, take_go_of_reads as reads⟩
  · rintro ⟨n, run⟩
    obtain ⟨as, reads, rfl⟩ := reads_of_take_go count run
    exact ⟨n, reads⟩

end Series

/-! ## Reading an engine -/

/-- The lesser one of two bounds either of which may be missing. -/
abbrev lesser (k l : Option Nat) : Option Nat := Option.merge min k l

theorem lesser_eq_zero {k l : Option Nat} : lesser k l = some 0 ↔ k = some 0 ∨ l = some 0 := by
  cases k <;> cases l <;> simp [lesser, Option.merge]

theorem lesser_pred (k l : Option Nat) :
    (lesser k l).map (· - 1) = lesser (k.map (· - 1)) (l.map (· - 1)) := by
  cases k <;> cases l <;> simp [lesser, Option.merge]
  omega

namespace Engine

variable {e e' : Engine} {n : Nat} {k : Option Nat} {as : List Subst} {a : Subst}

/-- The number of answers that may still be given, if there is a limit. -/
def remaining (e : Engine) : Option Nat := e.limit.map (· - e.emitted)

theorem limitReached_iff : e.limitReached = true ↔ e.remaining = some 0 := by
  simp [limitReached, remaining, Option.any_eq_true, Nat.sub_eq_zero_iff_le]

/-- The engine when an answer has been taken and `rest` is to come. -/
def after (e : Engine) (rest : Answers) : Engine := { e with stream := rest, emitted := e.emitted + 1 }

/-- The engine when all answers have been taken. -/
def spent (e : Engine) : Engine := { e with stream := .empty }

theorem remaining_after (e : Engine) (rest : Answers) : (e.after rest).remaining = e.remaining.map (· - 1) := by
  simp [remaining, after, Function.comp_def, Nat.sub_sub]

theorem nextWithin_of_limitReached (reached : e.limitReached = true) : nextWithin (n + 1) e = (.ok none, e.spent) := by
  simp [nextWithin, step, reached, spent]

/-- What a search for the next answer comes to, as its stream goes on. -/
def Follows (e : Engine) : Except Stop (Option (Subst × Answers)) → Except Stop (Option Subst) × Engine → Prop
  | .ok (some (a, rest)), r => r = (.ok (some a), e.after rest)
  | .ok none, r => r = (.ok none, e.spent)
  | .error why, r => r.1 = .error why

/-- A node that is forced or waited for is a step of the engine as of its stream. -/
theorem Follows.forced {w : Work Task Goal Subst}
    (each : ∀ stream, Follows { e with stream } (stream.next e.interp n) (nextWithin n { e with stream }))
    (stepped : e.step = match w.run e.interp with
      | .ok stream => (.ok .again, { e with stream })
      | .error why => (.error why, { e with stream := .empty })) :
    e.Follows (w.run e.interp >>= Series.next e.interp n) (nextWithin (n + 1) e) := by
  rw [nextWithin, stepped]
  cases w.run e.interp with
  | error why => rfl
  | ok stream => exact each stream

/-- Below the limit, an engine goes on as its stream does. -/
theorem follows_nextWithin (n : Nat) : ∀ {e : Engine}, e.limitReached = false →
    e.Follows (e.stream.next e.interp n) (nextWithin n e) := by
  induction n with
  | zero => exact fun _ => rfl
  | succ n ih =>
    intro e more
    have each (stream : Answers) := ih (e := { e with stream }) more
    cases node : e.stream with
    | empty =>
      have same : e.spent = e := by rw [spent, ← node]
      show nextWithin (n + 1) e = (.ok none, e.spent)
      simp [nextWithin, step, more, node, same]
    | cons a rest =>
      show nextWithin (n + 1) e = (.ok (some a), e.after rest)
      simp [nextWithin, step, more, node, after]
    | suspend w =>
      rw [Series.next_suspend]
      exact .forced each (by rw [step, more, node]; rfl)
    | pending w =>
      rw [Series.next_pending]
      exact .forced each (by rw [step, more, node]; rfl)

theorem Follows.eq_none {found : Except Stop (Option (Subst × Answers))} {r : Except Stop (Option Subst) × Engine}
    (h : e.Follows found r) : r = (.ok none, e') ↔ found = .ok none ∧ e' = e.spent := by
  rcases found with why | _ | ⟨b, rest⟩ <;> simp only [Follows] at h
  · simp [Prod.ext_iff, h]
  · simp [h, eq_comm]
  · simp [h]

theorem Follows.eq_some {found : Except Stop (Option (Subst × Answers))} {r : Except Stop (Option Subst) × Engine}
    (h : e.Follows found r) :
    r = (.ok (some a), e') ↔ ∃ rest, found = .ok (some (a, rest)) ∧ e' = e.after rest := by
  rcases found with why | _ | ⟨b, rest⟩ <;> simp only [Follows] at h
  · simp [Prod.ext_iff, h]
  · simp [h]
  · simp [h, eq_comm]

theorem nextSubst_of_limitReached (reached : e.limitReached = true) (able : 0 < e.allowance) :
    e.nextSubst = (.ok none, e.spent) := by
  obtain ⟨n, same⟩ := Nat.exists_eq_succ_of_ne_zero (Nat.ne_of_gt able)
  rw [nextSubst, same]
  exact nextWithin_of_limitReached reached

/-- There is no next answer at the limit, and where the stream ends. -/
theorem nextSubst_eq_none (able : 0 < e.allowance) : e.nextSubst = (.ok none, e') ↔
    (e.remaining = some 0 ∨ e.stream.next e.interp e.allowance = .ok none) ∧ e' = e.spent := by
  rw [← limitReached_iff]
  cases reached : e.limitReached with
  | true => simp [nextSubst_of_limitReached reached able, eq_comm]
  | false => simp [nextSubst, (follows_nextWithin e.allowance reached).eq_none]

/-- The next answer is the next element of the stream, below the limit. -/
theorem nextSubst_eq_some (able : 0 < e.allowance) : e.nextSubst = (.ok (some a), e') ↔ e.remaining ≠ some 0 ∧
    ∃ rest, e.stream.next e.interp e.allowance = .ok (some (a, rest)) ∧ e' = e.after rest := by
  rw [Ne, ← limitReached_iff]
  cases reached : e.limitReached with
  | true => simp [nextSubst_of_limitReached reached able]
  | false => simp [nextSubst, (follows_nextWithin e.allowance reached).eq_some]

/-- One answer taken off the engine. -/
def read (e : Engine) : Except Stop (Option (Subst × Engine)) :=
  e.nextSubst.1.map (·.map (·, e.nextSubst.2))

theorem read_eq_none : e.read = .ok none ↔ ∃ e', e.nextSubst = (.ok none, e') := by
  rcases next : e.nextSubst with ⟨why | _ | a, e'⟩ <;> simp [read, next, Except.map]

theorem read_eq_some : e.read = .ok (some (a, e')) ↔ e.nextSubst = (.ok (some a), e') := by
  rcases next : e.nextSubst with ⟨why | _ | a, e'⟩ <;> simp [read, next, Except.map]

/-- An engine reads the elements of its stream, up to its limit. -/
theorem reads_iff (able : 0 < e.allowance) :
    Reads read k e as ↔ Reads (Series.next e.interp e.allowance) (lesser e.remaining k) e.stream as := by
  induction as generalizing e k with
  | nil =>
    simp only [Reads, read_eq_none, nextSubst_eq_none able, lesser_eq_zero, exists_and_left, exists_eq, and_true]
    tauto
  | cons a as ih =>
    simp only [Reads, read_eq_some, nextSubst_eq_some able, Ne, lesser_eq_zero, lesser_pred, not_or]
    constructor
    · rintro ⟨asked, _, ⟨more, rest, found, rfl⟩, others⟩
      have others := (ih (e := e.after rest) able).mp others
      rw [remaining_after] at others
      exact ⟨⟨more, asked⟩, rest, found, others⟩
    · rintro ⟨⟨more, asked⟩, rest, found, others⟩
      refine ⟨asked, e.after rest, ⟨more, rest, found, rfl⟩, (ih (e := e.after rest) able).mpr ?_⟩
      rw [remaining_after]
      exact others

/-! ## Calls -/

/-- What can be asked of an engine. -/
inductive Call where
  /-- The term of the next answer. -/
  | next
  /-- The substitution of the next answer. -/
  | nextSubst
  /-- The next answer with the constraints that it leaves. -/
  | nextAnswer
  /-- The terms of all answers that are left. -/
  | collect
  /-- The number of answers that are left. -/
  | count
deriving DecidableEq, Repr

/-- What an engine replies. -/
inductive Reply where
  | term (t : Option Term)
  | subst (s : Option Subst)
  | answer (a : Option Answer)
  | terms (ts : List Term)
  | number (n : Nat)

/-- One call. -/
def call (e : Engine) : Call → Except Stop Reply × Engine
  | .next => e.next.map (·.map .term) id
  | .nextSubst => e.nextSubst.map (·.map .subst) id
  | .nextAnswer => e.nextAnswer.map (·.map .answer) id
  | .collect => e.collect.map (·.map .terms) id
  | .count => e.count.map (·.map .number) id

/-- Calls one after another, up to the first that stops. -/
def serve : List Call → Engine → Except Stop (List Reply) × Engine
  | [], e => (.ok [], e)
  | c :: calls, e =>
    match e.call c with
    | (.ok reply, e) => (serve calls e).map (·.map (reply :: ·)) id
    | (.error why, e) => (.error why, e)

namespace Call

/-- The call is for one answer, not for all. -/
def single : Call → Bool
  | collect | count => false
  | _ => true

/-- The reply to a call out of the answers to come, and the answers that it leaves. -/
def reads (query : Var) : Call → List Subst → Reply × List Subst
  | next, as => (.term (as.head?.map fun s => s.walkDeep (.var query)), as.tail)
  | nextSubst, as => (.subst as.head?, as.tail)
  | nextAnswer, as =>
    (.answer (as.head?.map fun s => ⟨s.walkDeep (.var query), s.residual (s.walkDeep (.var query))⟩), as.tail)
  | collect, as => (.terms (as.map fun s => s.walkDeep (.var query)), [])
  | count, as => (.number as.length, [])

/-- The replies to calls one after another. -/
def readAll (query : Var) : List Call → List Subst → List Reply
  | [], _ => []
  | c :: calls, as => (c.reads query as).1 :: readAll query calls (c.reads query as).2

/-- The number of answers that the calls use if there are as many, with no bound if one of
    them asks for all. -/
def demand : List Call → Option Nat
  | [] => some 0
  | c :: calls => if c.single then (demand calls).map (· + 1) else none

end Call

section Serving

variable {c : Call} {calls : List Call} {r : Except Stop (Option Subst)} {reply : Reply} {replies : List Reply}

theorem able_of_nextSubst {found : Option Subst} (h : e.nextSubst = (.ok found, e')) : 0 < e.allowance := by
  rcases Nat.eq_zero_or_pos e.allowance with zero | able
  · rw [nextSubst, zero] at h
    cases h
  · exact able

/-- When there was no next answer, there is none ever after. -/
theorem nextSubst_again (h : e.nextSubst = (.ok none, e')) : e'.nextSubst = (.ok none, e') := by
  have able := able_of_nextSubst h
  obtain ⟨-, rfl⟩ := (nextSubst_eq_none able).mp h
  obtain ⟨n, same⟩ := Nat.exists_eq_succ_of_ne_zero (Nat.ne_of_gt able)
  have ends : Series.next e.interp e.allowance .empty = .ok none := by
    rw [same]
    rfl
  exact (nextSubst_eq_none (e := e.spent) able).mpr ⟨.inr ends, rfl⟩

theorem query_nextSubst {found : Option Subst} (h : e.nextSubst = (.ok found, e')) :
    e'.query = e.query ∧ e'.allowance = e.allowance := by
  have able := able_of_nextSubst h
  cases found with
  | none =>
    obtain ⟨-, rfl⟩ := (nextSubst_eq_none able).mp h
    exact ⟨rfl, rfl⟩
  | some a =>
    obtain ⟨-, rest, -, rfl⟩ := (nextSubst_eq_some able).mp h
    exact ⟨rfl, rfl⟩

theorem reads_of_again (h : e.nextSubst = (.ok none, e)) : Reads read k e as ↔ as = [] :=
  reads_of_ended (read_eq_none.mpr ⟨e, h⟩)

/-- What an engine reads are elements of its stream, whatever its allowance. -/
theorem reads_stream (h : Reads read k e as) :
    Reads (Series.next e.interp e.allowance) (lesser e.remaining k) e.stream as := by
  rcases Nat.eq_zero_or_pos e.allowance with zero | able
  · cases as with
    | nil =>
      rcases h with rfl | ended
      · exact .inl (lesser_eq_zero.mpr (.inr rfl))
      · obtain ⟨e', none⟩ := read_eq_none.mp ended
        exact absurd (able_of_nextSubst none) (by omega)
    | cons a as =>
      obtain ⟨-, e', found, -⟩ := h
      exact absurd (able_of_nextSubst (read_eq_some.mp found)) (by omega)
  · exact (reads_iff able).mp h

/-- Collecting reads all answers that are left. -/
theorem reads_of_collectWith (n : Nat) : ∀ {e : Engine} {taken ts : List Term},
    collectWith next n e taken = (.ok ts, e') → e'.nextSubst = (.ok none, e') ∧ e'.query = e.query ∧
      ∃ as, Reads read none e as ∧ as.length < n ∧ ts = taken.reverse ++ as.map e.answerTerm := by
  induction n with
  | zero =>
    intro e taken ts run
    cases run
  | succ n ih =>
    intro e taken ts run
    rw [collectWith] at run
    rcases found : e.nextSubst with ⟨why | _ | a, e₁⟩ <;> simp only [next, found, Except.map, Option.map] at run
    · cases run
    · cases run
      exact ⟨nextSubst_again found, (query_nextSubst found).1, [], .inr (read_eq_none.mpr ⟨_, found⟩),
        Nat.succ_pos n, by simp⟩
    · obtain ⟨again, query, as, reads, few, rfl⟩ := ih run
      have same := (query_nextSubst found).1
      refine ⟨again, query.trans same, a :: as, ⟨by simp, e₁, read_eq_some.mpr found, reads⟩,
        Nat.succ_lt_succ few, ?_⟩
      simp [answerTerm, same]

/-- Answers that are left and can be read can be collected. -/
theorem collectWith_of_reads (as : List Subst) : ∀ {n : Nat} {e : Engine} (taken : List Term),
    Reads read none e as → as.length < n → ∃ e', e'.nextSubst = (.ok none, e') ∧ e'.query = e.query ∧
      collectWith next n e taken = (.ok (taken.reverse ++ as.map e.answerTerm), e') := by
  induction as with
  | nil =>
    rintro (_ | n) e taken h enough
    · cases enough
    · obtain ⟨e', found⟩ := read_eq_none.mp (h.resolve_left (by simp))
      refine ⟨e', nextSubst_again found, (query_nextSubst found).1, ?_⟩
      simp [collectWith, next, found, Except.map]
  | cons a as ih =>
    rintro (_ | n) e taken ⟨-, e₁, found, others⟩ enough
    · cases enough
    · have found := read_eq_some.mp found
      have same := (query_nextSubst found).1
      obtain ⟨e', again, query, run⟩ := ih (e.answerTerm a :: taken) others (Nat.lt_of_succ_lt_succ enough)
      refine ⟨e', again, query.trans same, ?_⟩
      simp only [collectWith, next, found, Except.map, Option.map, run]
      simp [answerTerm, same]

theorem call_of_single (single : c.single = true) : e.call c = (.ok reply, e') ↔
    ∃ found, e.nextSubst = (.ok found, e') ∧ reply = (c.reads e.query found.toList).1 := by
  have shown : e.call c = e.nextSubst.map (·.map fun found => (c.reads e.query found.toList).1) id := by
    rcases found : e.nextSubst with ⟨why | _ | a, e₁⟩ <;> cases c <;>
      simp_all [call, next, nextAnswer, Call.reads, Call.single, Except.map, answerTerm]
  rw [shown]
  rcases e.nextSubst with ⟨why | found, e₁⟩ <;> simp [Except.map, eq_comm, and_comm]

theorem Call.readAll_of_single (single : c.single = true) (query : Var) (as : List Subst) :
    readAll query (c :: calls) as = (c.reads query as.head?.toList).1 :: readAll query calls as.tail := by
  cases c <;> cases as <;> simp_all [readAll, Call.reads, Call.single]

theorem Call.readAll_of_all (all : c.single = false) (query : Var) (as : List Subst) :
    readAll query (c :: calls) as = (c.reads query as).1 :: readAll query calls [] := by
  cases c <;> simp_all [readAll, Call.reads, Call.single]

theorem exists_collect_of_call (all : c.single = false) (run : e.call c = (.ok reply, e')) :
    ∃ ts, e.collect = (.ok ts, e') ∧ ∀ as : List Subst, ts = as.map e.answerTerm → reply = (c.reads e.query as).1 := by
  rcases found : e.collect with ⟨why | ts, e₁⟩ <;> cases c <;> simp only [Call.single, Bool.true_eq_false] at all <;>
    simp only [call, count, found, Except.map, Prod.map, id, Prod.mk.injEq, reduceCtorEq, false_and] at run
  all_goals
    obtain ⟨same, rfl⟩ := run
    cases same
    refine ⟨ts, rfl, ?_⟩
    rintro as rfl
    simp [Call.reads, answerTerm]

theorem call_of_collect (all : c.single = false) (run : e.collect = (.ok (as.map e.answerTerm), e')) :
    e.call c = (.ok (c.reads e.query as).1, e') := by
  cases c <;> simp only [Call.single, Bool.true_eq_false] at all <;>
    simp [call, count, run, Except.map, Call.reads, answerTerm]

theorem serve_cons_eq_ok : serve (c :: calls) e = (.ok replies, e') ↔
    ∃ reply e₁ others, e.call c = (.ok reply, e₁) ∧ serve calls e₁ = (.ok others, e') ∧ replies = reply :: others := by
  rw [serve]
  rcases e.call c with ⟨why | reply, e₁⟩
  · simp
  · rcases served : serve calls e₁ with ⟨why | others, e₂⟩ <;> simp [served, Except.map, eq_comm, and_comm]

/-- Calls are served from what the engine reads. -/
theorem reads_of_serve (calls : List Call) : ∀ {e : Engine} {replies : List Reply},
    serve calls e = (.ok replies, e') →
    ∃ as, Reads read (Call.demand calls) e as ∧ replies = Call.readAll e.query calls as := by
  induction calls with
  | nil =>
    intro e replies run
    cases run
    exact ⟨[], .inl rfl, rfl⟩
  | cons c calls ih =>
    intro e replies run
    obtain ⟨reply, e₁, others, called, served, rfl⟩ := serve_cons_eq_ok.mp run
    obtain ⟨as, reads, rfl⟩ := ih served
    cases single : c.single with
    | true =>
      obtain ⟨_ | a, found, rfl⟩ := (call_of_single single).mp called
      · have none := (reads_of_again (nextSubst_again found)).mp reads
        refine ⟨[], .inr (read_eq_none.mpr ⟨_, found⟩), ?_⟩
        rw [Call.readAll_of_single single, none, (query_nextSubst found).1]
        rfl
      · refine ⟨a :: as, ⟨?_, e₁, read_eq_some.mpr found, ?_⟩, ?_⟩
        · simp [Call.demand, single]
        · simpa [Call.demand, single, Function.comp_def] using reads
        · rw [Call.readAll_of_single single, (query_nextSubst found).1]
          rfl
    | false =>
      obtain ⟨ts, collected, replied⟩ := exists_collect_of_call single called
      obtain ⟨again, query, left, reads', -, rfl⟩ := reads_of_collectWith e.allowance collected
      have none := (reads_of_again again).mp reads
      refine ⟨left, by simpa [Call.demand, single] using reads', ?_⟩
      rw [Call.readAll_of_all single, replied left rfl, none, query]

/-- Calls are served as soon as the answers that they use can be read. -/
theorem serve_of_reads (calls : List Call) : ∀ {e : Engine} (as : List Subst),
    Reads read (Call.demand calls) e as → as.length < e.allowance →
    ∃ e', serve calls e = (.ok (Call.readAll e.query calls as), e') := by
  induction calls with
  | nil => exact fun _ _ _ => ⟨_, rfl⟩
  | cons c calls ih =>
    intro e as reads enough
    cases single : c.single with
    | true =>
      cases as with
      | nil =>
        obtain ⟨e₁, found⟩ := read_eq_none.mp (reads.resolve_left (by simp [Call.demand, single]))
        obtain ⟨query, same⟩ := query_nextSubst found
        obtain ⟨e', served⟩ := ih [] ((reads_of_again (nextSubst_again found)).mpr rfl) (by rw [same]; exact enough)
        rw [query] at served
        exact ⟨e', serve_cons_eq_ok.mpr ⟨_, e₁, _, (call_of_single single).mpr ⟨_, found, rfl⟩, served,
          Call.readAll_of_single single e.query _⟩⟩
      | cons a as =>
        obtain ⟨-, e₁, found, others⟩ := reads
        have found := read_eq_some.mp found
        obtain ⟨query, same⟩ := query_nextSubst found
        obtain ⟨e', served⟩ := ih as (by simpa [Call.demand, single, Function.comp_def] using others)
          (by rw [same]; exact Nat.lt_of_succ_lt enough)
        rw [query] at served
        exact ⟨e', serve_cons_eq_ok.mpr ⟨_, e₁, _, (call_of_single single).mpr ⟨_, found, rfl⟩, served,
          Call.readAll_of_single single e.query _⟩⟩
    | false =>
      rw [Call.demand, single] at reads
      obtain ⟨e₁, again, query, collected⟩ := collectWith_of_reads as [] reads enough
      obtain ⟨e', served⟩ := ih [] ((reads_of_again again).mpr rfl) (Nat.zero_lt_of_lt (able_of_nextSubst again))
      rw [query] at served
      exact ⟨e', serve_cons_eq_ok.mpr ⟨_, e₁, _, call_of_collect single collected, served,
        Call.readAll_of_all single e.query as⟩⟩

end Serving

end Engine

/-! ## Queries -/

/-- The goal whose answers are given. -/
def QueryConfig.goal (config : QueryConfig) (g : Goal) : Goal :=
  if config.labelAnswers then .conj g .labelAll else g

namespace Query

open Engine
open Subst (eq_ok_of_isSome)

variable {program : Program} {config : QueryConfig} {goal : Var → Goal} {k : Option Nat} {as : List Subst} {n : Nat}

/-- Iterating the series of the goal gives the answers of the list: the first `k` of them,
    or all of them if there is no bound. -/
def Takes (program : Program) (config : QueryConfig) (goal : Var → Goal) (k : Option Nat) (as : List Subst) : Prop :=
  ∃ n answers, (config.goal (goal Subst.empty.fresh.1)).apply (program.context n) Subst.empty.fresh.2 = .ok answers ∧
    answers.Takes (program.context n).interp k as

theorem start_eq_ok {allowance : Nat} {e : Engine} : Engine.start program allowance config goal = .ok e ↔
    ∃ answers, (config.goal (goal Subst.empty.fresh.1)).apply (program.context allowance) Subst.empty.fresh.2 =
        .ok answers ∧
      e = ⟨(program.context allowance).interp, allowance, answers, Subst.empty.fresh.1, config.limit, 0⟩ := by
  show (config.goal (goal Subst.empty.fresh.1)).apply (program.context allowance) Subst.empty.fresh.2 >>= _ = _ ↔ _
  cases (config.goal (goal Subst.empty.fresh.1)).apply (program.context allowance) Subst.empty.fresh.2 with
  | error why => simp [bind, Except.bind]
  | ok answers => simp [bind, Except.bind, pure, Except.pure, Subst.fresh, eq_comm]

/-- What has been taken with some allowance is read by every engine with a larger one. -/
theorem Takes.start (h : Takes program config goal k as) : ∃ enough, ∀ allowance, enough ≤ allowance →
    as.length < allowance ∧ ∃ e, Engine.start program allowance config goal = .ok e ∧
      e.allowance = allowance ∧ e.remaining = config.limit ∧ e.query = Subst.empty.fresh.1 ∧
      Reads (Series.next e.interp e.allowance) k e.stream as := by
  obtain ⟨n, answers, applied, m, reads⟩ := h
  refine ⟨max (max n m) (as.length + 1), fun allowance le => ?_⟩
  have continues : (program.context n).Continues (program.context allowance) := program.continues_context (by omega)
  have more : m ≤ allowance := by omega
  have applied := (Goal.continues_apply continues _ _).ok applied
  exact ⟨by omega, _, start_eq_ok.mpr ⟨answers, applied, rfl⟩, rfl, by simp [remaining], rfl,
    reads.mono fun s => Series.continues_next continues.interp more s⟩

/-- There is one list of answers that is taken. -/
theorem Takes.unique {bs : List Subst} (h : Takes program config goal k as) (h' : Takes program config goal k bs) :
    as = bs := by
  obtain ⟨n, starts⟩ := h.start
  obtain ⟨m, starts'⟩ := h'.start
  obtain ⟨-, e, started, -, -, -, reads⟩ := starts (max n m) (by omega)
  obtain ⟨-, e', started', -, -, -, reads'⟩ := starts' (max n m) (by omega)
  rw [started, Except.ok.injEq] at started'
  subst started'
  exact reads.unique reads'

/-- A query with a limit gives the first of the answers that it gives without. -/
theorem run_take {allowance : Nat} {all : List Term} (run : Query.run program allowance none goal = .ok all) (l : Nat) :
    Query.run program allowance (some l) goal = .ok (all.take l) := by
  obtain ⟨e, started, collected⟩ := exists_of_bind_ok run
  obtain ⟨answers, applied, rfl⟩ := start_eq_ok.mp started
  obtain ⟨-, -, as, reads, few, rfl⟩ := reads_of_collectWith allowance (Prod.ext collected rfl)
  let limited : Engine := ⟨(program.context allowance).interp, allowance, answers, Subst.empty.fresh.1, some l, 0⟩
  have able : 0 < allowance := Nat.zero_lt_of_lt few
  have first : Reads Engine.read none limited (as.take l) :=
    (reads_iff (e := limited) able).mpr ((reads_stream reads).take l)
  obtain ⟨e', -, -, run⟩ := collectWith_of_reads (n := allowance) (as.take l) [] first
    (by rw [List.length_take]; omega)
  have started : Engine.start program allowance { limit := some l } goal = .ok limited :=
    start_eq_ok.mpr ⟨answers, applied, rfl⟩
  show (Engine.start program allowance { limit := some l } goal >>= fun e => e.collect.1) = _
  rw [started]
  show (Engine.collectWith Engine.next allowance limited []).1 = _
  rw [run]
  exact congrArg Except.ok List.map_take

/-- A query collects the answers up to the limit as soon as they can be had. -/
theorem Takes.run (h : Takes program { limit := k } goal k as) : ∃ enough, ∀ allowance, enough ≤ allowance →
    Query.run program allowance k goal = .ok (as.map fun s => s.walkDeep (.var Subst.empty.fresh.1)) := by
  obtain ⟨enough, starts⟩ := h.start
  refine ⟨enough, fun allowance le => ?_⟩
  obtain ⟨few, e, started, same, remaining, query, reads⟩ := starts allowance le
  have reads : Reads Engine.read none e as := by
    rw [reads_iff (by omega), remaining]
    simpa [lesser] using reads
  obtain ⟨e', -, -, run⟩ := collectWith_of_reads (n := e.allowance) as [] reads (by omega)
  show (Engine.start program allowance { limit := k } goal >>= fun e => e.collect.1) = _
  rw [started]
  show (Engine.collectWith Engine.next e.allowance e []).1 = _
  simp [run, answerTerm, query]

/-- An engine is a bounded reader of the series of its goal, whose elements are determined.
    Whatever is asked of it, call after call, is served from the first answers of the series,
    up to the limit, and is served as soon as these can be had; there is nothing more after the
    first lack of an answer, nor at the limit, whatever is left there; and a query with a limit
    gives the first of the answers that it gives without. -/
theorem serves_first (program : Program) (config : QueryConfig) (goal : Var → Goal) :
    (∀ k as bs, Takes program config goal k as → Takes program config goal k bs → as = bs) ∧
    (∀ allowance e calls replies e', Engine.start program allowance config goal = .ok e →
      e.serve calls = (.ok replies, e') →
      ∃ as, Takes program config goal (lesser config.limit (Call.demand calls)) as ∧
        replies = Call.readAll e.query calls as) ∧
    (∀ calls as, Takes program config goal (lesser config.limit (Call.demand calls)) as →
      ∃ enough, ∀ allowance, enough ≤ allowance → ∃ e e', Engine.start program allowance config goal = .ok e ∧
        e.serve calls = (.ok (Call.readAll e.query calls as), e')) ∧
    (∀ (e e' : Engine) calls, e.nextSubst = (.ok none, e') →
      (e'.serve calls).1 = .ok (Call.readAll e.query calls [])) ∧
    (∀ (e : Engine) calls, e.limitReached = true → 0 < e.allowance →
      (e.serve calls).1 = .ok (Call.readAll e.query calls [])) ∧
    (∀ allowance all l, Query.run program allowance none goal = .ok all →
      Query.run program allowance (some l) goal = .ok (all.take l)) ∧
    ∀ l as, Takes program { limit := some l } goal (some l) as →
      ∃ enough, ∀ allowance, enough ≤ allowance →
        Query.run program allowance (some l) goal = .ok (as.map fun s => s.walkDeep (.var Subst.empty.fresh.1)) := by
  refine ⟨fun k as bs => Takes.unique, fun allowance e calls replies e' started served => ?_, fun calls as takes => ?_,
    fun e e' calls none => ?_, fun e calls reached able => ?_, fun allowance all l run => run_take run l,
    fun l as takes => takes.run⟩
  · obtain ⟨as, reads, rfl⟩ := reads_of_serve calls served
    obtain ⟨answers, applied, rfl⟩ := start_eq_ok.mp started
    have reads := reads_stream reads
    exact ⟨as, ⟨allowance, answers, applied, allowance, by simpa [remaining] using reads⟩, rfl⟩
  · obtain ⟨enough, starts⟩ := takes.start
    refine ⟨enough, fun allowance le => ?_⟩
    obtain ⟨few, e, started, same, remaining, -, reads⟩ := starts allowance le
    rw [← remaining, ← reads_iff (by omega)] at reads
    obtain ⟨e', served⟩ := serve_of_reads calls as reads (by omega)
    exact ⟨e, e', started, served⟩
  · obtain ⟨query, same⟩ := query_nextSubst none
    obtain ⟨e₁, served⟩ := serve_of_reads calls [] ((reads_of_again (nextSubst_again none)).mpr rfl)
      (by rw [same]; exact able_of_nextSubst none)
    rw [served, query]
  · have none := nextSubst_of_limitReached reached able
    obtain ⟨e₁, served⟩ := serve_of_reads calls []
      ((reads_of_ended (read_eq_none.mpr ⟨_, none⟩)).mpr rfl) able
    rw [served]

/-- Two answers are read before a search that never yields another one, one by its term and
    one by its number. -/
theorem serves_first_never :
    let program : Program := fun _ _ => .never
    let goal : Var → Goal := fun q => .disj (.eq (.var q) (.int 7)) (.disj (.eq (.var q) (.int 8)) .never)
    let config : QueryConfig := { limit := some 2 }
    let calls : List Call := [.next, .count, .next]
    let waiting : Engine :=
      ⟨(program.context 5).interp, 5, .suspend (.start (.apply .never .empty)), ⟨0⟩, some 3, 3⟩
    (∃ enough, ∀ allowance, enough ≤ allowance → ∃ e e', Engine.start program allowance config goal = .ok e ∧
      e.serve calls = (.ok [.term (some (.int 7)), .number 1, .term none], e')) ∧
    (∃ enough, ∀ allowance, enough ≤ allowance →
      Query.run program allowance (some 2) goal = .ok [.int 7, .int 8]) ∧
    (∃ e e' replies as, Engine.start program 20 config goal = .ok e ∧ e.serve calls = (.ok replies, e') ∧
      Takes program config goal (some 2) as ∧ replies = Call.readAll e.query calls as) ∧
    (waiting.serve calls).1 = .ok [.term none, .number 0, .term none] ∧
    (waiting.spent.serve calls).1 = .ok [.term none, .number 0, .term none] ∧
    Query.run program 20 (some 1) (fun q => .disj (.eq (.var q) (.int 7)) (.eq (.var q) (.int 8))) = .ok [.int 7] := by
  intro program goal config calls waiting
  obtain ⟨-, sound, complete, ended, limited, -, run⟩ := serves_first program config goal
  let c := program.context 20
  let found := ((config.goal (goal ⟨0⟩)).apply c Subst.empty.fresh.2).toOption.getD .empty
  let as := (found.take c.interp 20 2).toOption.getD []
  have takes : Takes program config goal (some 2) as :=
    ⟨20, found, eq_ok_of_isSome (by decide +kernel),
      Series.takes_some_iff.mpr ⟨20, eq_ok_of_isSome (by decide +kernel)⟩⟩
  have terms : (as.map fun s => s.walkDeep (.var ⟨0⟩)) = [.int 7, .int 8] := by decide +kernel
  have replied : Call.readAll ⟨0⟩ calls as = [.term (some (.int 7)), .number 1, .term none] := by
    obtain ⟨a, rest, same, first, others⟩ := List.map_eq_cons_iff.mp terms
    obtain ⟨b, rest, rfl, -, others⟩ := List.map_eq_cons_iff.mp others
    rw [same, List.map_eq_nil_iff.mp others]
    simp [calls, Call.readAll, Call.reads, first]
  refine ⟨?_, ?_, ?_, ?_, ?_, ?_⟩
  · obtain ⟨enough, serves⟩ := complete calls as takes
    refine ⟨enough, fun allowance le => ?_⟩
    obtain ⟨e, e', started, served⟩ := serves allowance le
    obtain ⟨answers, -, same⟩ := start_eq_ok.mp started
    have query : e.query = ⟨0⟩ := by rw [same]; rfl
    rw [query, replied] at served
    exact ⟨e, e', started, served⟩
  · obtain ⟨enough, runs⟩ := run 2 as takes
    exact ⟨enough, fun allowance le => (runs allowance le).trans (congrArg Except.ok terms)⟩
  · let e := (Engine.start program 20 config goal).toOption.getD waiting
    have started : Engine.start program 20 config goal = .ok e := eq_ok_of_isSome (by decide +kernel)
    have served : (e.serve calls).1 = .ok ((e.serve calls).1.toOption.getD []) := eq_ok_of_isSome (by decide +kernel)
    obtain ⟨bs, taken, replies⟩ := sound 20 e calls _ _ started (Prod.ext served rfl)
    exact ⟨e, _, _, bs, started, Prod.ext served rfl, taken, replies⟩
  · exact limited waiting calls (by decide) (by decide)
  · exact ended waiting.spent waiting.spent calls rfl
  · let either : Var → Goal := fun q => .disj (.eq (.var q) (.int 7)) (.eq (.var q) (.int 8))
    let all := (Query.run program 20 none either).toOption.getD []
    have same : all = [.int 7, .int 8] := by decide +kernel
    obtain ⟨-, -, -, -, -, shorten, -⟩ := serves_first program config either
    exact (shorten 20 all 1 (eq_ok_of_isSome (by decide +kernel))).trans (by rw [same]; rfl)

end Query

end ConstraintLogic
