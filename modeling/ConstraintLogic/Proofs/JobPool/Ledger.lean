import ConstraintLogic.JobPool.Run
import Mathlib.Data.Multiset.Range
import Mathlib.Algebra.BigOperators.Group.Multiset.Basic
import Mathlib.Logic.Relation
import Mathlib.Tactic.Abel

/-!
# The accounts of a job pool

Jobs change their place between the common queue, the queues of the workers and the jobs in
progress, but every step of a pool is one of a few entries in a ledger that does not know the
places: a job is handed in, is taken, does something or ends. What has been observed so far
makes, with what is still to come of the jobs that wait and of those in progress, what comes of
the forest of jobs that was handed in; this is so at the start, and every entry keeps it.

Results:
* `Job.forest`: the jobs that come to be handed in; `Job.events`: what comes of a job.
* `Ledger.Step`: the entries; `Ledger.Balanced.step`: they keep the balance.
* `JobPool.does_of_move`: what a step of a pool does; `JobPool.Does.books`: it is made of entries.
* `JobPool.Reaches.runs_each_once`: every job is run once and counted.
-/

namespace ConstraintLogic

/-! ## What comes of jobs -/

/-- What can be observed of a pool, one at a time. -/
inductive Event where
  /-- A job was handed in. -/
  | submitted
  /-- A job ran to its end. -/
  | completed
  /-- A job failed. -/
  | failed
  /-- A job recorded an integer. -/
  | recorded (n : Int)
deriving DecidableEq

/-- The integer that an event records. -/
def Event.value? : Event → Option Int
  | recorded n => some n
  | _ => none

mutual

/-- The job that the action hands in, and all that come to be handed in below it. -/
def Action.handsIn : Action → List Job
  | .submit job => job :: Job.below job
  | _ => []

/-- The jobs that come to be handed in when the job is performed, by itself and by those it
    hands in. Nothing comes behind a failure. -/
def Job.below : Job → List Job
  | [] => []
  | .fail :: _ => []
  | a :: rest => a.handsIn ++ Job.below rest

end

namespace Job

/-- The forest of the jobs: they and all that come to be handed in below them. -/
def forest (jobs : List Job) : List Job := jobs.flatMap fun job => job :: below job

/-- The job fails. -/
def fails : Job → Bool
  | [] => false
  | .fail :: _ => true
  | _ :: rest => fails rest

/-- The integers that the job itself records, up to a failure. -/
def records : Job → List Int
  | [] => []
  | .fail :: _ => []
  | .record n :: rest => n :: records rest
  | _ :: rest => records rest

/-- What is observed of the job itself when it is run. -/
def own (job : Job) : Multiset Event :=
  (bif fails job then .failed else .completed) ::ₘ ((records job).map Event.recorded : List Event)

/-- What is observed of a job that is handed in: that it is, and what it does itself. -/
def share (job : Job) : Multiset Event := {.submitted} + own job

/-- What is observed when the job is run and everything that comes to be handed in below it. -/
def events (job : Job) : Multiset Event := own job + ((below job).map share).sum

variable {job rest : Job} {n : Int}

@[simp] theorem events_nil : events [] = {.completed} := by
  simp [events, own, below, fails, records]

@[simp] theorem events_fail : events (.fail :: rest) = {.failed} := by
  simp [events, own, below, fails, records]

@[simp] theorem events_record : events (.record n :: rest) = {.recorded n} + events rest := by
  simp only [events, own, below, Action.handsIn, List.nil_append, fails, records, List.map_cons, ← Multiset.cons_coe,
    ← Multiset.singleton_add]
  abel

@[simp] theorem events_await : events (.await :: rest) = events rest := by
  simp [events, own, below, Action.handsIn, fails, records]

@[simp] theorem events_submit : events (.submit job :: rest) = {.submitted} + (events job + events rest) := by
  simp only [events, share, own, below, Action.handsIn, List.cons_append, fails, records, List.map_cons,
    List.map_append, List.sum_cons, List.sum_append, ← Multiset.singleton_add]
  abel

end Job

/-! ## The ledger of a pool -/

/-- What a pool comes to, without the places where the jobs are. -/
structure Ledger where
  /-- The jobs that are still to be handed in from outside. -/
  handing : List Job
  /-- The jobs that wait in a queue. -/
  queued : Multiset Ticket
  /-- What the jobs in progress have still to do. -/
  running : Multiset Job
  /-- The numbers of the jobs that were begun. -/
  begun : Multiset Nat
  /-- The number of jobs handed in. -/
  submitted : Nat
  /-- What has been observed. -/
  seen : Multiset Event

namespace Ledger

/-- A job is handed in under the next number. -/
def enter (L : Ledger) (job : Job) : Ledger :=
  { L with
    queued := ⟨L.submitted, job⟩ ::ₘ L.queued
    submitted := L.submitted + 1
    seen := .submitted ::ₘ L.seen }

/-- What a step of a pool does to the ledger. -/
inductive Step : Ledger → Ledger → Prop
  /-- A job is handed in from outside. -/
  | handIn {L : Ledger} {job rest} (next : L.handing = job :: rest) : Step L { L.enter job with handing := rest }
  /-- A job that waits is begun. -/
  | take {L : Ledger} {ticket queued} (waits : L.queued = ticket ::ₘ queued) :
    Step L { L with queued, running := ticket.job ::ₘ L.running, begun := ticket.number ::ₘ L.begun }
  /-- A job hands in another. -/
  | submit {L : Ledger} {job rest running} (goes : L.running = (.submit job :: rest) ::ₘ running) :
    Step L { L.enter job with running := rest ::ₘ running }
  /-- A job records an integer. -/
  | record {L : Ledger} {n rest running} (goes : L.running = (.record n :: rest) ::ₘ running) :
    Step L { L with running := rest ::ₘ running, seen := .recorded n ::ₘ L.seen }
  /-- A job that has waited goes on. -/
  | goOn {L : Ledger} {rest running} (goes : L.running = (.await :: rest) ::ₘ running) :
    Step L { L with running := rest ::ₘ running }
  /-- A job comes to its end. -/
  | complete {L : Ledger} {running} (goes : L.running = [] ::ₘ running) :
    Step L { L with running, seen := .completed ::ₘ L.seen }
  /-- A job fails. -/
  | fail {L : Ledger} {rest running} (goes : L.running = (.fail :: rest) ::ₘ running) :
    Step L { L with running, seen := .failed ::ₘ L.seen }

variable {L M : Ledger} {jobs : List Job}

/-- The ledger is balanced: each number is that of a job that waits or of one that was begun,
    and what has been observed makes, with what the jobs that wait and those in progress have
    still to come, what comes of the jobs handed in from outside. -/
structure Balanced (jobs : List Job) (L : Ledger) : Prop where
  numbers : L.begun + L.queued.map Ticket.number = Multiset.range L.submitted
  events : ∃ handed, jobs = handed ++ L.handing ∧
    L.seen + ((L.queued.map fun t => t.job.events).sum + (L.running.map Job.events).sum) =
      (handed.map fun job => {.submitted} + job.events).sum
  counted : L.seen.count .submitted = L.submitted

theorem Balanced.step (h : L.Balanced jobs) (step : Step L M) : M.Balanced jobs := by
  obtain ⟨numbers, ⟨handed, all, events⟩, counted⟩ := h
  cases step with
  | @handIn job rest next =>
    refine ⟨?_, ⟨handed ++ [job], by simp [all, next], ?_⟩, ?_⟩
    · simp [enter, Multiset.range_succ, ← numbers]
    · simp only [List.map_append, List.sum_append, ← events, enter, Multiset.map_cons, Multiset.sum_cons,
        List.map_singleton, List.sum_singleton]
      rw [← Multiset.singleton_add]
      abel
    · simp [enter, counted]
  | take waits =>
    refine ⟨?_, ⟨handed, all, ?_⟩, counted⟩
    · simp [← numbers, waits]
    · rw [← events, waits]
      simp only [Multiset.map_cons, Multiset.sum_cons]
      abel
  | submit goes =>
    refine ⟨?_, ⟨handed, all, ?_⟩, ?_⟩
    · simp [enter, Multiset.range_succ, ← numbers]
    · rw [← events, goes]
      simp only [enter, Multiset.map_cons, Multiset.sum_cons, Job.events_submit]
      rw [← Multiset.singleton_add]
      abel
    · simp [enter, counted]
  | record goes =>
    refine ⟨numbers, ⟨handed, all, ?_⟩, by simp [counted]⟩
    rw [← events, goes]
    simp only [Multiset.map_cons, Multiset.sum_cons, Job.events_record]
    rw [← Multiset.singleton_add]
    abel
  | goOn goes =>
    refine ⟨numbers, ⟨handed, all, ?_⟩, counted⟩
    rw [← events, goes]
    simp only [Multiset.map_cons, Multiset.sum_cons, Job.events_await]
  | complete goes =>
    refine ⟨numbers, ⟨handed, all, ?_⟩, by simp [counted]⟩
    rw [← events, goes]
    simp only [Multiset.map_cons, Multiset.sum_cons, Job.events_nil]
    rw [← Multiset.singleton_add]
    abel
  | fail goes =>
    refine ⟨numbers, ⟨handed, all, ?_⟩, by simp [counted]⟩
    rw [← events, goes]
    simp only [Multiset.map_cons, Multiset.sum_cons, Job.events_fail]
    rw [← Multiset.singleton_add]
    abel

theorem Balanced.steps (h : L.Balanced jobs) (steps : Relation.TransGen Step L M) : M.Balanced jobs := by
  induction steps with
  | single step => exact h.step step
  | tail _ step ih => exact ih.step step

end Ledger

/-! ## From a pool to its ledger -/

namespace JobPool

variable {p q : JobPool} {site : Site} {i : Nat}

/-- The jobs that wait in the queues of a pool. -/
def queued (p : JobPool) : List Ticket := p.injector ++ p.workers.flatMap Worker.queue

/-- The jobs in progress in a pool. -/
def running (p : JobPool) : List Frame := p.outside ++ p.workers.flatMap Worker.stack

/-- What has been observed of a pool. -/
def seen (p : JobPool) : Multiset Event :=
  Multiset.replicate p.submitted .submitted + Multiset.replicate p.completed .completed +
    Multiset.replicate p.failed .failed + ((p.entries.map fun e => .recorded e.value : List Event) : Multiset Event)

/-- The ledger of a pool. -/
def ledger (p : JobPool) : Ledger where
  handing := p.handing
  queued := p.queued
  running := p.running.map Frame.todo
  begun := p.begun
  submitted := p.submitted
  seen := p.seen

/-- The pool has the site. -/
def Has (p : JobPool) : Site → Prop
  | .outside => True
  | .worker i => i < p.workers.length

/-- One worker is changed, and the others keep what they have. -/
theorem exists_flatMap_modify {γ : Type} {ws : List Worker} {i : Nat} {w : Worker} (g : Worker → List γ)
    (found : ws[i]? = some w) : ∃ rest : Multiset γ, (ws.flatMap g : Multiset γ) = g w + rest ∧
      ∀ f, ((ws.modify i f).flatMap g : Multiset γ) = g (f w) + rest := by
  induction ws generalizing i with
  | nil => cases found
  | cons v ws ih =>
    cases i with
    | zero =>
      cases found
      exact ⟨ws.flatMap g, rfl, fun f => rfl⟩
    | succ i =>
      obtain ⟨rest, same, changed⟩ := ih found
      refine ⟨g v + rest, ?_, fun f => ?_⟩
      · rw [List.flatMap_cons, ← Multiset.coe_add, same]
        abel
      · rw [List.modify_succ_cons, List.flatMap_cons, ← Multiset.coe_add, changed]
        abel

theorem flatMap_modify_of_eq {γ : Type} (g : Worker → List γ) {f : Worker → Worker} (same : ∀ w, g (f w) = g w)
    (ws : List Worker) (i : Nat) : (ws.modify i f).flatMap g = ws.flatMap g := by
  induction ws generalizing i with
  | nil => cases i <;> rfl
  | cons v ws ih => cases i <;> simp [same, ih]

theorem queued_setStack (frames : List Frame) : (p.setStack site frames).queued = p.queued := by
  cases site with
  | outside => rfl
  | worker i =>
    exact congrArg (p.injector ++ ·) (flatMap_modify_of_eq Worker.queue (f := fun w => { w with stack := frames })
      (fun _ => rfl) p.workers i)

theorem running_setQueue (tickets : List Ticket) : (p.setQueue i tickets).running = p.running :=
  congrArg (p.outside ++ ·) (flatMap_modify_of_eq Worker.stack (f := fun w => { w with queue := tickets })
    (fun _ => rfl) p.workers i)

theorem exists_queue (has : p.Has (.worker i)) : ∃ rest : Multiset Ticket,
    (p.queued : Multiset Ticket) = p.queue i + rest ∧
    ∀ tickets, ((p.setQueue i tickets).queued : Multiset Ticket) = tickets + rest := by
  have found := List.getElem?_eq_getElem has
  obtain ⟨rest, same, changed⟩ := exists_flatMap_modify Worker.queue found
  refine ⟨p.injector + rest, ?_, fun tickets => ?_⟩
  · rw [queued, queue, found, ← Multiset.coe_add, same]
    exact add_left_comm _ _ _
  · rw [queued, setQueue, ← Multiset.coe_add, changed]
    exact add_left_comm _ _ _

theorem exists_stack (has : p.Has site) : ∃ rest : Multiset Frame, (p.running : Multiset Frame) = p.stack site + rest ∧
    ∀ frames, ((p.setStack site frames).running : Multiset Frame) = frames + rest := by
  cases site with
  | outside => exact ⟨p.workers.flatMap Worker.stack, rfl, fun _ => rfl⟩
  | worker i =>
    have found := List.getElem?_eq_getElem has
    obtain ⟨rest, same, changed⟩ := exists_flatMap_modify Worker.stack found
    refine ⟨p.outside + rest, ?_, fun frames => ?_⟩
    · rw [running, stack, found, ← Multiset.coe_add, same]
      exact add_left_comm _ _ _
    · rw [running, setStack, ← Multiset.coe_add, changed]
      exact add_left_comm _ _ _

/-- Other jobs in progress at a site change nothing else in the ledger. -/
theorem ledger_setStack (has : p.Has site) : ∃ rest : Multiset Job,
    p.ledger.running = ((p.stack site).map Frame.todo : List Job) + rest ∧
    ∀ frames : List Frame, (p.setStack site frames).ledger =
      { p.ledger with running := (frames.map Frame.todo : List Job) + rest } := by
  obtain ⟨rest, same, changed⟩ := exists_stack has
  have running (q : JobPool) {frames : List Frame} (eq : (q.running : Multiset Frame) = frames + rest) :
      q.ledger.running = (frames.map Frame.todo : List Job) + rest.map Frame.todo := by
    rw [ledger, ← Multiset.map_coe, eq, Multiset.map_add, Multiset.map_coe]
  refine ⟨rest.map Frame.todo, running p same, fun frames => ?_⟩
  rw [← running _ (changed frames), ledger, ledger, queued_setStack]
  cases site <;> rfl

/-- Another queue of a worker changes nothing else in the ledger. -/
theorem ledger_setQueue (has : p.Has (.worker i)) : ∃ rest : Multiset Ticket,
    p.ledger.queued = p.queue i + rest ∧
    ∀ tickets : List Ticket, (p.setQueue i tickets).ledger = { p.ledger with queued := tickets + rest } := by
  obtain ⟨rest, same, changed⟩ := exists_queue has
  refine ⟨rest, same, fun tickets => ?_⟩
  rw [← changed tickets, ledger, ledger, running_setQueue]
  rfl

/-- Another common queue changes nothing else in the ledger. -/
theorem ledger_injector (p : JobPool) : ∃ rest : Multiset Ticket, p.ledger.queued = p.injector + rest ∧
    ∀ tickets : List Ticket, ({ p with injector := tickets } : JobPool).ledger =
      { p.ledger with queued := tickets + rest } :=
  ⟨p.workers.flatMap Worker.queue, rfl, fun _ => rfl⟩

theorem ledger_begin (has : p.Has site) (ticket : Ticket) : (p.begin site ticket).ledger =
    { p.ledger with
      running := ticket.job ::ₘ p.ledger.running
      begun := ticket.number ::ₘ p.ledger.begun } := by
  obtain ⟨rest, same, changed⟩ := ledger_setStack (p := { p with begun := ticket.number :: p.begun }) has
  have same : p.ledger.running = ((p.stack site).map Frame.todo : List Job) + rest := same
  rw [begin, changed, same, ← Multiset.cons_add, Multiset.cons_coe]
  rfl

theorem has_setStack (frames : List Frame) {other : Site} (has : p.Has other) : (p.setStack site frames).Has other := by
  cases site <;> cases other <;> simp_all [Has, setStack]

theorem has_setQueue (tickets : List Ticket) (has : p.Has site) : (p.setQueue i tickets).Has site := by
  cases site <;> simp_all [Has, setQueue]

theorem has_of_stack {frame : Frame} {below : List Frame} (found : p.stack site = frame :: below) : p.Has site := by
  cases site with
  | outside => trivial
  | worker i =>
    by_contra absent
    simp [stack, List.getElem?_eq_none (Nat.le_of_not_lt absent)] at found

theorem has_of_queue {ticket : Ticket} {rest : List Ticket} (found : p.queue i = ticket :: rest) :
    p.Has (.worker i) := by
  by_contra absent
  simp [queue, List.getElem?_eq_none (Nat.le_of_not_lt absent)] at found

theorem has_of_mayTake (may : p.mayTake i = true) : p.Has (.worker i) := by
  by_contra absent
  simp [mayTake, List.getElem?_eq_none (Nat.le_of_not_lt absent)] at may

theorem seen_submit (p : JobPool) :
    ({ p with submitted := p.submitted + 1 } : JobPool).seen = .submitted ::ₘ p.seen := by
  rw [seen, seen, Multiset.replicate_succ, ← Multiset.singleton_add, ← Multiset.singleton_add]
  abel

/-- The pool in which one more job has been handed in and has not been put anywhere yet. -/
def counted (p : JobPool) : JobPool := { p with submitted := p.submitted + 1 }

theorem ledger_counted (p : JobPool) :
    p.counted.ledger = { p.ledger with submitted := p.submitted + 1, seen := .submitted ::ₘ p.ledger.seen } := by
  rw [ledger, counted, seen_submit]
  rfl

/-- A queue with one more job at its end is that of a pool in which the job is entered. -/
theorem ledger_counted_of_queue {tickets : List Ticket} {rest : Multiset Ticket}
    (waits : p.ledger.queued = tickets + rest) (job : Job) :
    { p.counted.ledger with queued := ((tickets ++ [⟨p.submitted, job⟩] : List Ticket) : Multiset Ticket) + rest } =
      p.ledger.enter job := by
  have last : ((tickets ++ [⟨p.submitted, job⟩] : List Ticket) : Multiset Ticket) + rest =
      ⟨p.submitted, job⟩ ::ₘ p.ledger.queued := by
    rw [waits, ← Multiset.cons_add, Multiset.cons_coe, Multiset.coe_eq_coe.mpr (List.perm_append_singleton _ _)]
  rw [ledger_counted, last]
  rfl

/-- A job that is handed in is entered, and a pool without workers takes it at once. -/
theorem ledger_submit (has : p.Has site) (job : Job) : (p.submit site job).ledger = p.ledger.enter job ∨
    (p.ledger.enter job).Step (p.submit site job).ledger := by
  unfold submit
  dsimp only
  split
  · right
    show (p.ledger.enter job).Step (p.counted.begin site ⟨p.submitted, job⟩).ledger
    rw [ledger_begin (p := p.counted) has, ledger_counted]
    exact .take rfl
  · left
    cases site with
    | outside =>
      obtain ⟨rest, waits, changed⟩ := p.counted.ledger_injector
      exact (changed _).trans (ledger_counted_of_queue (p := p) waits job)
    | worker i =>
      obtain ⟨rest, waits, changed⟩ := ledger_setQueue (p := p.counted) has
      exact (changed _).trans (ledger_counted_of_queue (p := p) waits job)

/-! ## Steps of a pool -/

/-- What a step of a pool can do. -/
inductive Does (p : JobPool) : JobPool → Prop
  /-- A job is handed in from outside. -/
  | handIn {job rest} (next : p.handing = job :: rest) : Does p ({ p with handing := rest }.submit .outside job)
  /-- A job hands in another. -/
  | submit {site f below job rest} (top : p.stack site = f :: below) (todo : f.todo = .submit job :: rest) :
    Does p ((p.setStack site
      ({ f with todo := rest, spawned := p.submitted :: f.spawned } :: below)).submit site job)
  /-- A job records an integer. -/
  | record {site f below n rest} (top : p.stack site = f :: below) (todo : f.todo = .record n :: rest) :
    Does p ({ p with entries := ⟨f.number, n, site.onWorker⟩ :: p.entries }.setStack site
      ({ f with todo := rest } :: below))
  /-- A job that has waited goes on. -/
  | goOn {site f below rest} (top : p.stack site = f :: below) (todo : f.todo = .await :: rest) :
    Does p (p.setStack site ({ f with todo := rest } :: below))
  /-- A job comes to its end. -/
  | complete {site f below} (top : p.stack site = f :: below) (todo : f.todo = []) :
    Does p ({ p with completed := p.completed + 1, ended := f.number :: p.ended }.setStack site below)
  /-- A job fails. -/
  | fail {site f below rest} (top : p.stack site = f :: below) (todo : f.todo = .fail :: rest) :
    Does p ({ p with failed := p.failed + 1, ended := f.number :: p.ended }.setStack site below)
  /-- A worker begins the first job of a queue, its own or that of a peer. -/
  | first {i peer ticket rest} (has : p.Has (.worker i)) (found : p.queue peer = ticket :: rest) :
    Does p ((p.setQueue peer rest).begin (.worker i) ticket)
  /-- A worker begins the first job of the common queue, and takes the next ones over. -/
  | batch {i n ticket rest} (has : p.Has (.worker i)) (empty : p.queue i = []) (found : p.injector = ticket :: rest) :
    Does p (({ p with injector := rest.drop n }.setQueue i (rest.take n)).begin (.worker i) ticket)

theorem does_of_act (moved : p.act? site = some q) : p.Does q := by
  unfold act? at moved
  split at moved
  · rename_i idle
    split at moved
    · rename_i job rest next
      cases moved
      exact .handIn next
    · cases moved
  · rename_i frame below top
    split at moved
    · rename_i todo
      cases moved
      exact .complete top todo
    · rename_i n rest todo
      cases moved
      exact .record top todo
    · rename_i rest todo
      cases moved
      exact .fail top todo
    · rename_i job rest todo
      cases moved
      exact .submit top todo
    · rename_i rest todo
      split at moved
      · cases moved
        exact .goOn top todo
      · cases moved

theorem does_of_move {m : Move} (moved : p.move? m = some q) : p.Does q := by
  cases m with
  | act site => exact does_of_act moved
  | pop i =>
    unfold move? pop? at moved
    dsimp only at moved
    split at moved
    · cases moved
    · rename_i ticket rest found
      split at moved
      · rename_i may
        cases moved
        exact .first (has_of_mayTake may) found
      · cases moved
  | grab i batch =>
    unfold move? grab? at moved
    dsimp only at moved
    split at moved
    · rename_i ticket rest empty found
      split at moved
      · rename_i may
        cases moved
        exact .batch (has_of_mayTake may) empty found
      · cases moved
    · cases moved
  | steal i peer =>
    unfold move? steal? at moved
    dsimp only at moved
    split at moved
    · rename_i ticket rest empty found
      split at moved
      · rename_i may
        cases moved
        exact .first (has_of_mayTake may) found
      · cases moved
    · cases moved

theorem ledger_completed (p : JobPool) (ended : List Nat) :
    ({ p with completed := p.completed + 1, ended } : JobPool).ledger =
      { p.ledger with seen := .completed ::ₘ p.ledger.seen } := by
  have same : ({ p with completed := p.completed + 1, ended } : JobPool).seen = .completed ::ₘ p.seen := by
    rw [seen, seen, Multiset.replicate_succ, ← Multiset.singleton_add, ← Multiset.singleton_add]
    abel
  rw [ledger, same]
  rfl

theorem ledger_failed (p : JobPool) (ended : List Nat) :
    ({ p with failed := p.failed + 1, ended } : JobPool).ledger =
      { p.ledger with seen := .failed ::ₘ p.ledger.seen } := by
  have same : ({ p with failed := p.failed + 1, ended } : JobPool).seen = .failed ::ₘ p.seen := by
    rw [seen, seen, Multiset.replicate_succ, ← Multiset.singleton_add, ← Multiset.singleton_add]
    abel
  rw [ledger, same]
  rfl

theorem ledger_recorded (p : JobPool) (entry : Entry) :
    ({ p with entries := entry :: p.entries } : JobPool).ledger =
      { p.ledger with seen := .recorded entry.value ::ₘ p.ledger.seen } := by
  have same : ({ p with entries := entry :: p.entries } : JobPool).seen = .recorded entry.value ::ₘ p.seen := by
    rw [seen, seen, List.map_cons, ← Multiset.cons_coe, ← Multiset.singleton_add, ← Multiset.singleton_add]
    abel
  rw [ledger, same]
  rfl

/-- The innermost job at a site is one of those in progress: the ledger when it is gone, and
    when it has something else to do. -/
theorem exists_others {frame : Frame} {below : List Frame} (busy : p.stack site = frame :: below) :
    ∃ others : Multiset Job, p.ledger.running = frame.todo ::ₘ others ∧
      (p.setStack site below).ledger = { p.ledger with running := others } ∧
      ∀ f : Frame, (p.setStack site (f :: below)).ledger = { p.ledger with running := f.todo ::ₘ others } := by
  obtain ⟨rest, running, changed⟩ := ledger_setStack (has_of_stack busy)
  refine ⟨((below.map Frame.todo : List Job) : Multiset Job) + rest, ?_, changed below, fun f => ?_⟩
  · rw [running, busy, List.map_cons, ← Multiset.cons_coe, Multiset.cons_add]
  · rw [changed, List.map_cons, ← Multiset.cons_coe, Multiset.cons_add]

/-- Entries lead from the ledger of the first pool to that of the second. -/
def Books (p q : JobPool) : Prop := Relation.TransGen Ledger.Step p.ledger q.ledger

theorem books_submit {L : Ledger} {job : Job} (has : p.Has site) (first : L.Step (p.ledger.enter job)) :
    Relation.TransGen Ledger.Step L (p.submit site job).ledger := by
  rcases ledger_submit has job with entered | taken
  · exact entered ▸ .single first
  · exact .tail (.single first) taken

theorem books_begin {ticket : Ticket} {waiting : Multiset Ticket} (has : q.Has site)
    (waits : p.ledger.queued = ticket ::ₘ waiting) (taken : q.ledger = { p.ledger with queued := waiting }) :
    p.Books (q.begin site ticket) := by
  rw [Books, ledger_begin has, taken]
  exact .single (.take waits)

/-- The first job of a queue is taken off. -/
theorem books_first {i peer : Nat} {ticket : Ticket} {rest : List Ticket} (has : p.Has (.worker i))
    (first : p.queue peer = ticket :: rest) : p.Books ((p.setQueue peer rest).begin (.worker i) ticket) := by
  obtain ⟨others, waits, changed⟩ := ledger_setQueue (has_of_queue first)
  rw [first, ← Multiset.cons_coe, Multiset.cons_add] at waits
  exact books_begin (has_setQueue rest has) waits (changed rest)

/-- The first job of the common queue is taken off, and the next ones change their place. -/
theorem books_batch {i batch : Nat} {ticket : Ticket} {rest : List Ticket} (has : p.Has (.worker i))
    (empty : p.queue i = []) (first : p.injector = ticket :: rest) :
    p.Books (({ p with injector := rest.drop batch }.setQueue i (rest.take batch)).begin (.worker i) ticket) := by
  obtain ⟨others, waits, shortened⟩ := p.ledger_injector
  obtain ⟨left, none, changed⟩ := ledger_setQueue (p := { p with injector := rest.drop batch }) has
  have none : ({ p with injector := rest.drop batch } : JobPool).ledger.queued = ↑(p.queue i) + left := none
  rw [shortened, empty, Multiset.coe_nil, zero_add] at none
  rw [first, ← Multiset.cons_coe, Multiset.cons_add] at waits
  refine books_begin (has_setQueue _ has) waits ((changed _).trans ?_)
  rw [shortened, ← none, ← add_assoc, Multiset.coe_add, List.take_append_drop]

/-- What a step of a pool does is in its ledger. -/
theorem Does.books (does : p.Does q) : p.Books q := by
  cases does with
  | handIn next => exact books_submit trivial (.handIn next)
  | submit top todo =>
    obtain ⟨others, goes, -, left⟩ := exists_others top
    rw [todo] at goes
    refine books_submit (has_setStack _ (has_of_stack top)) ?_
    rw [left]
    exact .submit goes
  | @record site f below n rest top todo =>
    obtain ⟨others, goes, -, left⟩ :=
      exists_others (p := { p with entries := ⟨f.number, n, site.onWorker⟩ :: p.entries }) top
    rw [todo, ledger_recorded] at goes
    rw [Books, left, ledger_recorded]
    exact .single (.record goes)
  | goOn top todo =>
    obtain ⟨others, goes, -, left⟩ := exists_others top
    rw [todo] at goes
    rw [Books, left]
    exact .single (.goOn goes)
  | @complete site f below top todo =>
    obtain ⟨others, goes, gone, -⟩ :=
      exists_others (p := { p with completed := p.completed + 1, ended := f.number :: p.ended }) top
    rw [todo, ledger_completed] at goes
    rw [Books, gone, ledger_completed]
    exact .single (.complete goes)
  | @fail site f below rest top todo =>
    obtain ⟨others, goes, gone, -⟩ :=
      exists_others (p := { p with failed := p.failed + 1, ended := f.number :: p.ended }) top
    rw [todo, ledger_failed] at goes
    rw [Books, gone, ledger_failed]
    exact .single (.fail goes)
  | first has found => exact books_first has found
  | batch has empty found => exact books_batch has empty found

/-! ## Runs of a pool -/

/-- Steps lead from the one pool to the other, in whatever order the workers get to them. -/
def Reaches : JobPool → JobPool → Prop := Relation.ReflTransGen fun p q => ∃ m, p.move? m = some q

variable {n : Nat} {jobs : List Job}

theorem ledger_start (n : Nat) (jobs : List Job) : (start n jobs).ledger = ⟨jobs, 0, 0, 0, 0, 0⟩ := by
  have waits : (start n jobs).queued = [] := by simp [queued, start, List.flatMap_replicate]
  have busy : (start n jobs).running = [] := by simp [running, start, List.flatMap_replicate]
  rw [ledger, waits, busy]
  rfl

theorem balanced_start (n : Nat) (jobs : List Job) : (start n jobs).ledger.Balanced jobs := by
  rw [ledger_start]
  exact ⟨rfl, ⟨[], rfl, rfl⟩, rfl⟩

/-- The books of a pool are balanced, whatever steps it has taken. -/
theorem Reaches.balanced (h : (start n jobs).Reaches p) : p.ledger.Balanced jobs := by
  induction h with
  | refl => exact balanced_start n jobs
  | tail _ moved ih =>
    obtain ⟨m, moved⟩ := moved
    exact ih.steps (does_of_move moved).books

end JobPool

/-! ## Counting -/

namespace Job

variable {job : Job} {jobs : List Job}

theorem sum_forest (jobs : List Job) :
    (jobs.map fun job => {.submitted} + job.events).sum = ((forest jobs).map share).sum := by
  induction jobs with
  | nil => rfl
  | cons job rest ih =>
    have first : {.submitted} + job.events = ((job :: job.below).map share).sum := by
      rw [List.map_cons, List.sum_cons, events, share, add_assoc]
    rw [List.map_cons, List.sum_cons, ih, first, ← List.sum_append, ← List.map_append]
    rfl

theorem count_submitted_share (job : Job) : (share job).count .submitted = 1 := by
  cases fails : job.fails <;> simp [share, own, fails, List.count_eq_zero]

theorem count_failed_share (job : Job) : (share job).count .failed = job.fails.toNat := by
  cases fails : job.fails <;> simp [share, own, fails, List.count_eq_zero]

theorem count_completed_share (job : Job) : (share job).count .completed + job.fails.toNat = 1 := by
  cases fails : job.fails <;> simp [share, own, fails, List.count_eq_zero]

/-- A forest is handed in, and each of its jobs comes to an end. -/
theorem count_forest (js : List Job) : (js.map share).sum.count .submitted = js.length ∧
    (js.map share).sum.count .failed = js.countP fails ∧
    (js.map share).sum.count .completed + js.countP fails = js.length := by
  induction js with
  | nil => exact ⟨rfl, rfl, rfl⟩
  | cons job rest ih =>
    obtain ⟨submitted, failed, completed⟩ := ih
    have one := count_completed_share job
    rw [List.map_cons, List.sum_cons, Multiset.count_add, Multiset.count_add, Multiset.count_add, count_submitted_share,
      count_failed_share, submitted, failed, List.length_cons, List.countP_cons]
    refine ⟨by omega, ?_, ?_⟩ <;> cases fails : job.fails <;> simp_all <;> omega

/-- Of jobs that were handed in before, one more comes to an end than comes to be handed in,
    for each of them. -/
theorem count_events (js : List Job) :
    (js.map events).sum.count .completed + (js.map events).sum.count .failed =
      (js.map events).sum.count .submitted + js.length := by
  induction js with
  | nil => rfl
  | cons job rest ih =>
    obtain ⟨submitted, failed, completed⟩ := count_forest job.below
    have one : job.own.count .completed + job.own.count .failed = job.own.count .submitted + 1 := by
      cases fails : job.fails <;> simp [own, fails, List.count_eq_zero]
    have first : (events job).count .completed + (events job).count .failed = (events job).count .submitted + 1 := by
      rw [events, Multiset.count_add, Multiset.count_add, Multiset.count_add]
      omega
    rw [List.map_cons, List.sum_cons, Multiset.count_add, Multiset.count_add, Multiset.count_add, List.length_cons]
    omega

theorem filterMap_forest (js : List Job) :
    (js.map share).sum.filterMap Event.value? = js.flatMap records := by
  induction js with
  | nil => rfl
  | cons job rest ih =>
    have first : (share job).filterMap Event.value? = records job := by
      cases fails : job.fails <;>
        simp [share, own, fails, Event.value?, List.filterMap_cons, List.filterMap_map, Function.comp_def]
    rw [List.map_cons, List.sum_cons, Multiset.filterMap_add, first, ih]
    rfl

end Job

namespace JobPool

variable {p : JobPool} {n : Nat} {jobs : List Job}

theorem count_seen (p : JobPool) : p.seen.count .submitted = p.submitted ∧ p.seen.count .completed = p.completed ∧
    p.seen.count .failed = p.failed := by
  simp [seen, Multiset.count_replicate]

theorem filterMap_seen (p : JobPool) : p.seen.filterMap Event.value? = p.entries.map Entry.value := by
  simp [seen, ← Multiset.coe_replicate, List.filterMap_replicate, Event.value?, List.filterMap_map, Function.comp_def]

theorem nodup_begun (h : p.ledger.Balanced jobs) : p.begun.Nodup := by
  have least : (p.begun : Multiset Nat) ≤ Multiset.range p.submitted := h.numbers ▸ Multiset.le_add_right _ _
  exact Multiset.coe_nodup.mp (Multiset.nodup_of_le least (Multiset.nodup_range _))

/-- When no job waits, all that were handed in have been begun. -/
theorem begun_of_idle (h : p.ledger.Balanced jobs) (idle : p.queued = []) : p.begun.Perm (List.range p.submitted) := by
  have begun : (p.begun : Multiset Nat) = Multiset.range p.submitted := by simpa [ledger, idle] using h.numbers
  exact Multiset.coe_eq_coe.mp begun

/-- What is to be performed: by the jobs that wait, and by those in progress. -/
def pending (p : JobPool) : List Job := p.queued.map Ticket.job ++ p.running.map Frame.todo

/-- What has been observed makes, with what is pending, what comes of the forest. -/
theorem Reaches.whole (h : (start n jobs).Reaches p) : ∃ handed, jobs = handed ++ p.handing ∧
    p.seen + (p.pending.map Job.events).sum = ((Job.forest handed).map Job.share).sum := by
  obtain ⟨-, ⟨handed, all, events⟩, -⟩ := h.balanced
  refine ⟨handed, all, ?_⟩
  rw [← Job.sum_forest, ← events]
  simp [pending, ledger, Function.comp_def]

/-- What the counters and the records show when all of the jobs have been run. -/
theorem counters_of_seen {js : List Job} (seen : p.seen = (js.map Job.share).sum) :
    p.submitted = js.length ∧ p.completed + p.failed = p.submitted ∧ p.failed = js.countP Job.fails ∧
      (p.entries.map Entry.value).Perm (js.flatMap Job.records) := by
  obtain ⟨submitted, completed, failed⟩ := p.count_seen
  obtain ⟨total, failing, rest⟩ := Job.count_forest js
  rw [← seen] at total failing rest
  refine ⟨by omega, by omega, by omega, Multiset.coe_eq_coe.mp ?_⟩
  rw [← filterMap_seen, seen, Job.filterMap_forest]

/-- Each job that was handed in waits, is in progress or has ended. -/
theorem Reaches.balance (h : (start n jobs).Reaches p) :
    p.completed + p.failed + (p.queued.length + p.running.length) = p.submitted := by
  obtain ⟨handed, all, whole⟩ := h.whole
  obtain ⟨submitted, completed, failed⟩ := p.count_seen
  obtain ⟨total, failing, rest⟩ := Job.count_forest (Job.forest handed)
  have left := Job.count_events p.pending
  rw [pending, List.length_append, List.length_map, List.length_map, ← pending] at left
  rw [← whole, Multiset.count_add] at total failing rest
  omega

/-- Every job is run once and counted. At no time was a job begun twice, and each job that was
    handed in waits, is in progress, or has ended in one of the two ways. When no job waits and
    none is in progress, then all jobs of the forest that was handed in have been run: so many
    were handed in, those that fail have failed and all others have run to their end, and what
    they record has been recorded, in some order. -/
theorem Reaches.runs_each_once (h : (start n jobs).Reaches p) :
    p.begun.Nodup ∧ p.completed + p.failed + (p.queued.length + p.running.length) = p.submitted ∧
    (p.queued = [] → p.running = [] → ∃ handed, jobs = handed ++ p.handing ∧
      p.begun.Perm (List.range p.submitted) ∧
      p.submitted = (Job.forest handed).length ∧
      p.completed + p.failed = p.submitted ∧
      p.failed = (Job.forest handed).countP Job.fails ∧
      (p.entries.map Entry.value).Perm ((Job.forest handed).flatMap Job.records)) := by
  refine ⟨nodup_begun h.balanced, h.balance, fun idle quiet => ?_⟩
  obtain ⟨handed, all, whole⟩ := h.whole
  have seen : p.seen = ((Job.forest handed).map Job.share).sum := by simpa [pending, idle, quiet] using whole
  exact ⟨handed, all, begun_of_idle h.balanced idle, counters_of_seen seen⟩

theorem move_of_step {q : JobPool} {turn : Nat} (moved : p.step? turn = some q) : ∃ m, p.move? m = some q := by
  obtain ⟨site, -, found⟩ := List.exists_of_findSome?_eq_some moved
  obtain ⟨m, -, moved⟩ := List.exists_of_findSome?_eq_some found
  exact ⟨m, moved⟩

/-- Running a pool takes steps of the pool. -/
theorem reaches_settle (turns : Nat) : ∀ p : JobPool, p.Reaches (settle turns p) := by
  induction turns with
  | zero => exact fun p => .refl
  | succ turns ih =>
    intro p
    rw [settle]
    split
    · rename_i q moved
      exact .head (move_of_step moved) (ih q)
    · exact .refl

/-- Two workers run jobs that fail, hand in others and wait for others. -/
theorem runs_each_once_two_workers : ∃ p : JobPool,
    (start 2 [.help [5, 6], .fail, .nest [.record 7, .fail]]).Reaches p ∧
    p.begun.Perm (List.range 7) ∧ p.submitted = 7 ∧ p.completed + p.failed = 7 ∧ p.failed = 2 ∧
    (p.entries.map Entry.value).Perm [5, 6, 7] := by
  let jobs : List Job := [.help [5, 6], .fail, .nest [.record 7, .fail]]
  have reached : (start 2 jobs).Reaches (run 2 jobs) := reaches_settle _ _
  have idle : (run 2 jobs).queued = [] := List.isEmpty_iff.mp (by decide +kernel)
  have quiet : (run 2 jobs).running = [] := List.isEmpty_iff.mp (by decide +kernel)
  have all : (run 2 jobs).handing = [] := List.isEmpty_iff.mp (by decide +kernel)
  obtain ⟨-, -, settled⟩ := reached.runs_each_once
  obtain ⟨handed, same, begun, submitted, ended, failed, recorded⟩ := settled idle quiet
  rw [all, List.append_nil] at same
  subst same
  have seven : (Job.forest jobs).length = 7 := by decide +kernel
  rw [seven] at submitted
  rw [submitted] at begun ended
  exact ⟨run 2 jobs, reached, begun, submitted, ended, failed, recorded⟩

end JobPool

end ConstraintLogic
