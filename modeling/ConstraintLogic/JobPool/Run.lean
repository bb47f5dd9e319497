import ConstraintLogic.JobPool.Basic

/-!
# Running a pool

What a pool reports does not depend on the order in which the workers get to the
jobs. So one order is as good as any: in every turn another worker is the first to
be considered, and it takes a job before it goes on with one.

Contents:
* `JobPool.step?`, `JobPool.settle`: running a pool until no step is possible.
* `JobPool.report`: the counters and records of a pool.
* `JobPool.run`: a pool that has run the jobs.
-/

namespace ConstraintLogic

/-- What a pool reports (`ExecutorStats`). -/
structure PoolReport where
  /-- The number of workers. -/
  workers : Nat
  /-- The number of jobs handed in. -/
  submitted : Nat
  /-- The number of jobs that ran to their end. -/
  completed : Nat
  /-- The number of jobs that failed. -/
  failed : Nat
  /-- The records, ascending, with whether a worker made them. -/
  records : List (Int × Bool)
deriving DecidableEq, Repr

namespace JobPool

/-- The workers whose queues hold a job. -/
def sources (p : JobPool) : List Nat :=
  p.workers.zipIdx.filterMap fun (w, i) => if w.queue.isEmpty then none else some i

/-- The ways of getting a job at a site, in order of preference (`find_job`): a worker looks in its
    own queue, in the common queue and at the peers that have jobs; outside there is none. -/
def takes (p : JobPool) (peers : List Nat) : Site → List Move
  | .outside => []
  | .worker i => .pop i :: .grab i (p.injector.length / 2) :: peers.map (.steal i)

/-- Helping out at the site begins a job (`help_one`). -/
def helps (p : JobPool) (site : Site) : Bool :=
  (p.takes p.sources site).any fun m => (p.move? m).isSome

/-- The sites in the order in which they are considered in a turn. -/
def sites (turn : Nat) (p : JobPool) : List Site :=
  let n := p.workers.length
  .outside :: (List.range n).map fun k => .worker ((turn + k) % n)

/-- The pool after the first possible step of a turn: at each site taking a job is
    tried first, and then going on with one. -/
def step? (turn : Nat) (p : JobPool) : Option JobPool :=
  let peers := p.sources
  (p.sites turn).findSome? fun site => (p.takes peers site ++ [Move.act site]).findSome? p.move?

/-- The pool after the first possible step of each turn, for at most `n` turns. -/
def settle : Nat → JobPool → JobPool
  | 0, p => p
  | n + 1, p =>
    match p.step? n with
    | some p => settle n p
    | none => p

/-- A bound on the steps of running the jobs: each is handed in, is taken and performs its
    work. -/
def turns (jobs : List Job) : Nat := jobs.foldl (fun n job => n + job.work + 2) 0

/-- `r` put into an ascending list of records. -/
def insertRecord (r : Int × Bool) : List (Int × Bool) → List (Int × Bool)
  | [] => [r]
  | q :: rest =>
    if r.1 < q.1 || (r.1 = q.1 && (!r.2 || q.2)) then r :: q :: rest
    else q :: insertRecord r rest

/-- The counters and the records of the pool (`stats`). -/
def report (p : JobPool) : PoolReport where
  workers := p.workers.length
  submitted := p.submitted
  completed := p.completed
  failed := p.failed
  records := (p.entries.map fun e => (e.value, e.onWorker)).foldr insertRecord []

/-- A pool of `n` workers that has run the jobs. -/
def run (n : Nat) (jobs : List Job) : JobPool := settle (turns jobs) (start n jobs)

end JobPool

end ConstraintLogic
