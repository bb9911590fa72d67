import RoundRobin.Machine
import RoundRobin.Event

/-!
# The monitor

The monitor watches a scheduler. It counts the steps, keeps the trace of events if one is asked for,
and, when its checks are on, audits the machine after every step. An audit changes nothing: it
either passes or faults.
-/

namespace RoundRobin

namespace Machine

/-- The job on the processor is running and is not queued. -/
def auditCurrent (m : Machine) : Except Fault Unit :=
  match m.current with
  | none => .ok ()
  | some i => do
    let job ← m.job i
    Fault.require (job.phase = .running) (.currentNotRunning i job.phase)
    Fault.require (m.ready.contains i = false) (.currentQueued i)

/-- A queued job is ready, has work left and has arrived. -/
def auditQueued (m : Machine) (i : Nat) : Except Fault Unit := do
  let job ← m.job i
  Fault.require (job.phase = .ready) (.queuedNotReady i job.phase)
  Fault.require (0 < job.remaining) (.queuedWithoutWork i)
  Fault.require (job.arrival ≤ m.now) (.queuedBeforeArrival i)

/-- No job is queued twice, and every queued job passes its audit. -/
def auditQueue (m : Machine) : Except Fault Unit := do
  Fault.require (m.ready.slots.length = m.ready.members.size)
    (.duplicateEntries m.ready.slots.length m.ready.members.size)
  m.ready.slots.forM m.auditQueued

/-- A job has received exactly the work that is no longer left, and has its times recorded if it is
finished. -/
def auditAccount (m : Machine) (i : Nat) : Except Fault Unit := do
  let job ← m.job i
  let accounted ← job.cpuTime.addChecked job.remaining
  Fault.require (accounted = job.burst) (.burstLost i accounted job.burst)
  Fault.require (job.phase = .finished → job.completion.isSome ∧ job.response.isSome)
    (.timingMissing i)

/-- The audit after a step. Of all accounts, only that of the job that the step dispatched is
audited: no other account can have changed. -/
def audit (m : Machine) (touched : Option Nat) : Except Fault Unit := do
  m.auditCurrent
  m.auditQueue
  match touched with
  | none => return ()
  | some i => m.auditAccount i

end Machine

/-- A step counter, the switch for the audits, and the trace, if there is one. -/
structure Monitor where
  steps : Count := 0
  checks : Bool
  trace : Option (Array Stamped) := none
  deriving Inhabited

namespace Monitor

/-- The monitor with an empty trace installed. -/
def traced (monitor : Monitor) : Monitor :=
  { monitor with trace := some #[] }

/-- Adds an event to the trace, if there is one. -/
def emit (monitor : Monitor) (stamped : Stamped) : Monitor :=
  { monitor with trace := monitor.trace.map (·.push stamped) }

/-- Counts one step and, if checks are on, audits the machine that it left. -/
def observe (monitor : Monitor) (machine : Machine) (touched : Option Nat) :
    Except Fault Monitor := do
  let steps ← monitor.steps.addChecked 1
  if monitor.checks then
    machine.audit touched
    return { monitor with steps }
  else
    return { monitor with steps }

/-- The monitor as it is written into the log. -/
def text (monitor : Monitor) : String :=
  Text.record "Observer"
    [("step", Nat.repr monitor.steps.toNat), ("check_invariants", Text.ofBool monitor.checks),
      ("tracer", Text.ofBool monitor.trace.isSome)]

end Monitor

end RoundRobin
