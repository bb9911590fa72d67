import RoundRobin.Monitor

/-!
# The scheduler

Round robin on a machine: the front of the ready queue runs for at most one quantum, then retires or
goes to the back. Between the dispatch and the end of a slice the job stays on the processor, so
that jobs that arrive within the slice can be admitted ahead of it.
-/

namespace RoundRobin

/-- One stay on the processor: the job ran from `start` up to, not including, `finish`. -/
structure Slice where
  job : Nat
  start : Ticks
  finish : Ticks
  deriving DecidableEq, Inhabited

/-- How long the stay lasted on the clock. -/
def Slice.duration (slice : Slice) : Ticks :=
  slice.finish - slice.start

/-- A machine under round robin. `pending` holds the events since the last drain, and `touched` the
job dispatched since the last observation. -/
structure Scheduler where
  machine : Machine
  quantum : Ticks
  quantum_pos : 0 < quantum
  monitor : Monitor
  pending : Array Stamped := #[]
  preemptions : Count := 0
  touched : Option Nat := none

namespace Scheduler

/-- A scheduler over processes none of which has arrived. -/
def start (processes : ProcessList) (quantum : Ticks) (quantum_pos : 0 < quantum)
    (checks : Bool) : Scheduler where
  machine := .ofProcesses processes
  quantum
  quantum_pos
  monitor := { checks }

/-- As `start`, for a quantum that is yet to be checked. -/
def start? (processes : ProcessList) (quantum : Ticks) (checks : Bool) :
    Except Fault Scheduler :=
  if h : 0 < quantum then .ok (start processes quantum h checks) else .error .zeroQuantum

/-- Tells the monitor of an event and keeps it for the next drain. -/
def emit (s : Scheduler) (time : Ticks) (event : Event) : Scheduler :=
  { s with
    monitor := s.monitor.emit { time, event }
    pending := s.pending.push { time, event } }

/-- Admits a job. The instant is that of its arrival, which may lie within the running slice. -/
def admitJob (s : Scheduler) (i : Nat) (time : Ticks) : Except Fault Scheduler := do
  let machine ← s.machine.admitJob i
  let job ← machine.job i
  return { s with machine }.emit time (.admitted job.pid)

/-- Runs the front of the ready queue for one slice: at most one quantum, and no longer than its
work lasts. Every job still queued waits for the whole slice. An empty queue changes nothing. -/
def dispatch (s : Scheduler) : Except Fault (Option (Slice × Scheduler)) := do
  match ← s.machine.startNext with
  | none => return none
  | some (i, machine) =>
    let start := machine.now
    let job ← machine.job i
    let run := job.share s.quantum
    let served ← job.serve start s.quantum
    let machine ← (machine.setJob i served).accrueWaiting run
    let machine := machine.advance run
    let s := { s with machine, touched := some i }.emit start
      (.dispatched job.pid run job.response.isNone)
    return some ({ job := i, start, finish := machine.now }, s)

/-- Ends the slice of the job on the processor: it retires if its work is done, and is preempted
otherwise. Answers the job that retired, if one did. A free processor changes nothing. -/
def finishSlice (s : Scheduler) : Except Fault (Option Nat × Scheduler) :=
  match s.machine.current with
  | none => .ok (none, s)
  | some i => do
    let job ← s.machine.job i
    if job.remaining = 0 then
      match job.response with
      | none => .error .neverDispatched
      | some response =>
        let (_, machine) ← s.machine.retireCurrent
        return (some i,
          { s with machine }.emit s.machine.now (.retired job.pid job.waiting response))
    else
      let machine ← s.machine.requeueCurrent
      let preemptions ← s.preemptions.addChecked 1
      return (none,
        { s with machine, preemptions }.emit s.machine.now (.preempted job.pid job.remaining))

/-- Moves the clock over a gap in which nothing can run. -/
def idleUntil (s : Scheduler) (target : Ticks) : Except Fault Scheduler := do
  Fault.require (s.machine.ready.isEmpty = true) .idleWhileReady
  Fault.require (s.machine.now < target) .idleBackwards
  let machine := s.machine.advance (target - s.machine.now)
  return { s with machine }.emit s.machine.now (.idle target)

/-- Shows the machine to the monitor, together with the job dispatched since the last time. -/
def observe (s : Scheduler) : Except Fault Scheduler := do
  let monitor ← s.monitor.observe s.machine s.touched
  return { s with monitor, touched := none }

/-- Hands out the pending events and forgets them. -/
def drain (s : Scheduler) : Array Stamped × Scheduler :=
  (s.pending, { s with pending := #[] })

end Scheduler

end RoundRobin
