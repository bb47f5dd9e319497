import ConstraintLogic.JobPool.Job

/-!
# Job pools

A pool runs jobs on its workers. A job handed in from outside goes to a common
queue; one handed in by a worker goes to the end of that worker's own queue,
where idle peers can steal it. A worker takes jobs when it is idle, and also while
a job of its own waits for others, so that jobs nest on one worker. A pool
without workers runs each job on the spot where it is handed in. A job that fails
is counted and takes nothing with it.

Contents:
* `JobPool`: the queues, the jobs in progress and the counters.
* `JobPool.act?`: the next action of a job in progress.
* `JobPool.pop?`, `JobPool.grab?`, `JobPool.steal?`: how a worker gets a job.
* `Move`, `JobPool.move?`: one step of a pool.
-/

namespace ConstraintLogic

/-- Where code runs: outside of the pool, or on the worker with that number. -/
inductive Site where
  | outside
  | worker (i : Nat)
deriving DecidableEq, Repr

/-- The code runs on a worker. -/
def Site.onWorker : Site → Bool
  | outside => false
  | worker _ => true

/-- A job that waits in a queue, with the number under which it was handed in. -/
structure Ticket where
  /-- How many jobs had been handed in before. -/
  number : Nat
  /-- The job. -/
  job : Job

/-- A job in progress. -/
structure Frame where
  /-- The number of the job. -/
  number : Nat
  /-- The actions still to be performed. -/
  todo : List Action
  /-- The numbers of the jobs handed in so far. -/
  spawned : List Nat := []

/-- A worker (`WorkerSlot`). -/
structure Worker where
  /-- Its own queue, first job first. -/
  queue : List Ticket := []
  /-- The jobs in progress, innermost first. -/
  stack : List Frame := []

/-- What a job has recorded. -/
structure Entry where
  /-- The number of the job. -/
  number : Nat
  /-- The integer. -/
  value : Int
  /-- A worker ran the job. -/
  onWorker : Bool
deriving DecidableEq, Repr

/-- The state of a pool (`Executor`). -/
structure JobPool where
  /-- The common queue, first job first. -/
  injector : List Ticket := []
  /-- The workers. -/
  workers : List Worker
  /-- The jobs that are still to be handed in from outside. -/
  handing : List Job
  /-- The jobs in progress outside of the workers, innermost first. -/
  outside : List Frame := []
  /-- The number of jobs handed in. -/
  submitted : Nat := 0
  /-- The number of jobs that ran to their end. -/
  completed : Nat := 0
  /-- The number of jobs that failed. -/
  failed : Nat := 0
  /-- The numbers of the jobs that were begun, last first. -/
  begun : List Nat := []
  /-- The numbers of the jobs that ended, last first. -/
  ended : List Nat := []
  /-- The records, last first. -/
  entries : List Entry := []

namespace JobPool

/-- A pool of `n` workers to which the jobs are about to be handed in (`Executor::with_config`). -/
def start (n : Nat) (jobs : List Job) : JobPool where
  workers := List.replicate n {}
  handing := jobs

/-! ## Queues and jobs in progress -/

/-- The queue of a worker, first job first. -/
def queue (p : JobPool) (i : Nat) : List Ticket := (p.workers[i]?.map Worker.queue).getD []

/-- The pool with another queue of a worker. -/
def setQueue (p : JobPool) (i : Nat) (tickets : List Ticket) : JobPool :=
  { p with workers := p.workers.modify i fun w => { w with queue := tickets } }

/-- The jobs in progress at a site, innermost first. -/
def stack (p : JobPool) : Site → List Frame
  | .outside => p.outside
  | .worker i => (p.workers[i]?.map Worker.stack).getD []

/-- The pool with other jobs in progress at a site. -/
def setStack (p : JobPool) (site : Site) (frames : List Frame) : JobPool :=
  match site with
  | .outside => { p with outside := frames }
  | .worker i =>
    { p with workers := p.workers.modify i fun w => { w with stack := frames } }

/-- Begins a job at a site (`run_job`). -/
def begin (p : JobPool) (site : Site) (ticket : Ticket) : JobPool :=
  { p with begun := ticket.number :: p.begun }.setStack site
    ({ number := ticket.number, todo := ticket.job } :: p.stack site)

/-- Hands a job in at a site (`Executor::spawn`): a pool without workers begins it there, a worker
    puts it at the end of its own queue; from outside it goes to the common queue. -/
def submit (p : JobPool) (site : Site) (job : Job) : JobPool :=
  let ticket : Ticket := ⟨p.submitted, job⟩
  let p := { p with submitted := p.submitted + 1 }
  if p.workers.isEmpty then p.begin site ticket
  else
    match site with
    | .outside => { p with injector := p.injector ++ [ticket] }
    | .worker i => p.setQueue i (p.queue i ++ [ticket])

/-- The job with that number is done as far as others wait for it: it has recorded or has
    ended. -/
def isDone (p : JobPool) (number : Nat) : Bool :=
  p.ended.contains number || p.entries.any fun e => e.number = number

/-- Performs the next action of the innermost job at a site, or ends that job if it has
    none left. Waiting goes on only once all is done. Outside, the next job is handed in
    when none is in progress. -/
def act? (p : JobPool) (site : Site) : Option JobPool :=
  match p.stack site with
  | [] =>
    match site, p.handing with
    | .outside, job :: rest => some ({ p with handing := rest }.submit site job)
    | _, _ => none
  | frame :: below =>
    match frame.todo with
    | [] =>
      let p := { p with completed := p.completed + 1, ended := frame.number :: p.ended }
      some (p.setStack site below)
    | .record n :: rest =>
      let p := { p with entries := ⟨frame.number, n, site.onWorker⟩ :: p.entries }
      some (p.setStack site ({ frame with todo := rest } :: below))
    | .fail :: _ =>
      let p := { p with failed := p.failed + 1, ended := frame.number :: p.ended }
      some (p.setStack site below)
    | .submit job :: rest =>
      let frame := { frame with todo := rest, spawned := p.submitted :: frame.spawned }
      some ((p.setStack site (frame :: below)).submit site job)
    | .await :: rest =>
      if frame.spawned.all p.isDone then
        some (p.setStack site ({ frame with todo := rest } :: below))
      else none

/-! ## Taking jobs -/

/-- A worker may take a job when it is idle, or when its innermost job waits for others. -/
def mayTake (p : JobPool) (i : Nat) : Bool :=
  p.workers[i]?.any fun w =>
    match w.stack with
    | [] => true
    | { todo := .await :: _, .. } :: _ => true
    | _ => false

/-- The worker takes the first job of its own queue (`find_job`). -/
def pop? (p : JobPool) (i : Nat) : Option JobPool :=
  match p.queue i with
  | [] => none
  | ticket :: rest => if p.mayTake i then some ((p.setQueue i rest).begin (.worker i) ticket) else none

/-- The worker, whose own queue is empty, takes the first job of the common queue and moves the next
    `batch` ones to its own (`find_job`). -/
def grab? (p : JobPool) (i batch : Nat) : Option JobPool :=
  match p.queue i, p.injector with
  | [], ticket :: rest =>
    if p.mayTake i then
      some (({ p with injector := rest.drop batch }.setQueue i (rest.take batch)).begin (.worker i) ticket)
    else none
  | _, _ => none

/-- The worker, whose own queue is empty, takes the first job of a peer (`find_job`). -/
def steal? (p : JobPool) (i peer : Nat) : Option JobPool :=
  match p.queue i, p.queue peer with
  | [], ticket :: rest =>
    if p.mayTake i then some ((p.setQueue peer rest).begin (.worker i) ticket) else none
  | _, _ => none

/-! ## Steps -/

/-- The steps of a pool. -/
inductive Move where
  /-- The innermost job at a site goes on, or the next one is handed in from outside. -/
  | act (site : Site)
  /-- A worker takes a job of its own queue. -/
  | pop (i : Nat)
  /-- A worker takes a job, and a batch of further ones, from the common queue. -/
  | grab (i batch : Nat)
  /-- A worker takes a job of a peer. -/
  | steal (i peer : Nat)
deriving DecidableEq, Repr

/-- The pool after a step, if the step is possible. -/
def move? (p : JobPool) : Move → Option JobPool
  | .act site => p.act? site
  | .pop i => p.pop? i
  | .grab i batch => p.grab? i batch
  | .steal i peer => p.steal? i peer

end JobPool

end ConstraintLogic
