import RoundRobin.Job
import RoundRobin.ReadyQueue

/-!
# The machine

The machine is one processor, the clock, the jobs and the ready queue. Its operations move a job
from one phase to the next and refuse a move that makes no sense. They may be called in any order;
the policy that calls them in the right one is `Scheduler`.
-/

namespace RoundRobin

/-- The state of the processor and of all jobs. `current` is the job on the processor, and
`finished` counts the jobs that have retired. -/
structure Machine where
  now : Ticks := 0
  jobs : Array Job
  ready : ReadyQueue := {}
  current : Option Nat := none
  finished : Count := 0

namespace Machine

/-- A machine at instant `0` on which none of the processes has arrived. -/
def ofProcesses (processes : ProcessList) : Machine where
  jobs := (processes.map Job.ofProcess).toArray

/-- The job at a position. -/
def job (m : Machine) (i : Nat) : Except Fault Job :=
  match m.jobs[i]? with
  | some job => .ok job
  | none => .error (.indexOutOfRange m.jobs.size i)

/-- Replaces the job at a position; a position that does not exist changes nothing. -/
def setJob (m : Machine) (i : Nat) (job : Job) : Machine :=
  { m with jobs := m.jobs.setIfInBounds i job }

/-- Changes the job at a position, which has to exist. -/
def updateJob (m : Machine) (i : Nat) (change : Job → Job) : Except Fault Machine := do
  let job ← m.job i
  return m.setJob i (change job)

/-- Moves the clock forward; it stops at the greatest word. -/
def advance (m : Machine) (delta : Ticks) : Machine :=
  { m with now := m.now.satAdd delta }

/-- Lets an unarrived job into the ready queue. -/
def admitJob (m : Machine) (i : Nat) : Except Fault Machine := do
  let job ← m.job i
  Fault.require (job.phase = .unarrived) (.admittedTwice i job.phase)
  let ready ← m.ready.push i
  return { m.setJob i { job with phase := .ready } with ready }

/-- Puts the front of the ready queue on the processor, which has to be free. An empty queue
changes nothing. -/
def startNext (m : Machine) : Except Fault (Option (Nat × Machine)) := do
  Fault.require (m.current = none) .processorBusy
  match ← m.ready.pop with
  | none => return none
  | some (i, ready) =>
    let job ← m.job i
    return some (i, { m.setJob i { job with phase := .running } with ready, current := some i })

/-- Lets every queued job wait for `delta` ticks. -/
def accrueWaiting (m : Machine) (delta : Ticks) : Except Fault Machine :=
  m.ready.slots.foldlM (fun m i => m.updateJob i (·.wait delta)) m

/-- Sends the job on the processor to the back of the ready queue; it must have work left. -/
def requeueCurrent (m : Machine) : Except Fault Machine :=
  match m.current with
  | none => .error .nothingToRequeue
  | some i => do
    let job ← m.job i
    Fault.require (0 < job.remaining) (.requeuedWithoutWork i)
    let ready ← m.ready.push i
    return { m.setJob i { job with phase := .ready } with ready, current := none }

/-- Takes the job on the processor out for good; it must have no work left. It completes now. -/
def retireCurrent (m : Machine) : Except Fault (Nat × Machine) :=
  match m.current with
  | none => .error .nothingToRetire
  | some i => do
    let job ← m.job i
    Fault.require (job.remaining = 0) (.retiredWithWork i job.remaining)
    let finished ← m.finished.addChecked 1
    let retired := { job with phase := .finished, completion := some m.now }
    return (i, { m.setJob i retired with current := none, finished })

/-- No job is on the processor. -/
def isIdle (m : Machine) : Bool :=
  m.current.isNone

/-- As many jobs have retired as there are. -/
def allFinished (m : Machine) : Bool :=
  m.finished.toNat == m.jobs.size

end Machine

end RoundRobin
