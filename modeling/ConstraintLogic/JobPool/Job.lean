/-!
# Jobs

A job records an integer, fails, hands in further jobs, or hands in jobs and helps
until all of them are done; it may do any of these in turn. A job is the list of the
actions that it performs one at a time.

Contents:
* `Action`, `Job`: what a running job does.
* `Job.record`, `Job.fail`, `Job.nest`, `Job.help`: jobs of one kind.
* `Action.work`, `Job.work`: a bound on the steps of a job and of all that it hands in.
-/

namespace ConstraintLogic

/-- What a running job does at a time. -/
inductive Action where
  /-- Records an integer. -/
  | record (n : Int)
  /-- Ends in failure; what comes behind is not performed. -/
  | fail
  /-- Hands in the job with these actions. -/
  | submit (job : List Action)
  /-- Waits until the jobs handed in so far are done, and helps out meanwhile. -/
  | await

/-- Jobs. -/
abbrev Job := List Action

namespace Job

/-- Records an integer and whether a worker runs the job. -/
def record (n : Int) : Job := [.record n]

/-- Fails. -/
def fail : Job := [.fail]

/-- Hands in further jobs. -/
def nest (jobs : List Job) : Job := jobs.map .submit

/-- Hands in a recording job for each integer and helps until all have recorded. -/
def help (ns : List Int) : Job := ns.map (fun n => .submit (record n)) ++ [.await]

end Job

mutual

/-- A bound on the steps of performing the action: a job that is handed in is taken and
    performed as well. -/
def Action.work : Action → Nat
  | .submit job => Job.work job + 2
  | _ => 1

/-- A bound on the steps of performing the job and all that it hands in, ends included. -/
def Job.work : Job → Nat
  | [] => 1
  | a :: rest => a.work + Job.work rest

end

end ConstraintLogic
