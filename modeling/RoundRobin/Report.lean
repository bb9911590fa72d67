import RoundRobin.Machine

/-!
# Reports

The report of a completed simulation: the times of every process in input order, their totals, and
the statistics that follow from them. Totals are checked sums of words; averages are doubles.
-/

namespace RoundRobin

/-- The times of one process that has retired. -/
structure Timing where
  pid : Pid
  arrival : Ticks
  burst : Ticks
  waiting : Ticks
  response : Ticks
  completion : Ticks
  cpuTime : Ticks
  dispatches : Count
  deriving DecidableEq, Inhabited

/-- The times of a job, which has to have a response and a completion. -/
def Job.timing (job : Job) : Except Fault Timing :=
  match job.response, job.completion with
  | none, _ => .error .responseMissing
  | some _, none => .error .completionMissing
  | some response, some completion =>
    .ok {
      pid := job.pid
      arrival := job.arrival
      burst := job.burst
      waiting := job.waiting
      response
      completion
      cpuTime := job.cpuTime
      dispatches := job.dispatches }

/-- The time from arrival to completion. -/
def Timing.turnaround (timing : Timing) : Except Fault Ticks :=
  timing.completion.subChecked timing.arrival

/-- The outcome of a completed simulation. -/
structure Report where
  timings : List Timing
  totalWaiting : Ticks
  totalResponse : Ticks
  makespan : Ticks
  dispatches : Count
  preemptions : Count
  deriving DecidableEq, Inhabited

namespace Report

/-- The instant at which the last process completed, or `0` if there is none. -/
def lastCompletion (timings : List Timing) : Ticks :=
  timings.foldl (fun latest t => if latest ≤ t.completion then t.completion else latest) 0

/-- Adds up the times of all processes. -/
def ofTimings (timings : List Timing) (preemptions : Count) : Except Fault Report := do
  let totalWaiting ← Word.sumChecked (timings.map (·.waiting))
  let totalResponse ← Word.sumChecked (timings.map (·.response))
  let dispatches ← Word.sumChecked (timings.map (·.dispatches))
  return {
    timings
    totalWaiting
    totalResponse
    makespan := lastCompletion timings
    dispatches
    preemptions }

/-- The report of jobs that have all finished. -/
def ofJobs (jobs : List Job) (preemptions : Count) : Except Fault Report := do
  let timings ← jobs.mapM Job.timing
  ofTimings timings preemptions

/-- A total divided by the number of processes; one division, and so one rounding. -/
def mean (total : Ticks) (count : Nat) : Float :=
  total.toFloat / (UInt64.ofNat count).toFloat

/-- The average waiting time. -/
def averageWaiting (r : Report) : Float :=
  mean r.totalWaiting r.timings.length

/-- The average response time. -/
def averageResponse (r : Report) : Float :=
  mean r.totalResponse r.timings.length

/-- The mean after one more value: it moves towards the value by one part in the new count. -/
def extendMean (mean : Float) (count : Word) (x : Word) : Float :=
  mean + (x.toFloat - mean) / (count + 1).toFloat

/-- The mean of the values one after the other, from a mean of the first `count`. -/
def runningMean (mean : Float) (count : Word) : List Word → Float
  | [] => mean
  | x :: rest => runningMean (extendMean mean count x) (count + 1) rest

/-- The average time from arrival to completion, which is not a number if there is no process. -/
def averageTurnaround (r : Report) : Except Fault Float := do
  let turnarounds ← r.timings.mapM Timing.turnaround
  if turnarounds.isEmpty then
    return 0.0 / 0.0
  else
    return runningMean 0.0 0 turnarounds

/-- The longest waiting time, which is negative infinity if there is no process. -/
def maxWaiting (r : Report) : Float :=
  r.timings.foldl
    (fun longest t => if longest < t.waiting.toFloat then t.waiting.toFloat else longest)
    (-1.0 / 0.0)

/-- The times of the first process with an identifier. -/
def timing? (r : Report) (pid : Pid) : Option Timing :=
  r.timings.find? (·.pid = pid)

end Report

end RoundRobin
