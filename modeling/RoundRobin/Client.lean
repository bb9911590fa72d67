import RoundRobin.Scheduler

/-!
# Clients

A client may call the operations of a scheduler, and those of its machine, in any order and with any
arguments. It does not write the fields of the machine and does not touch the queue. What a client
can do wrong is listed in `Machine.Misuse` and `Scheduler.Misuse`, each case with the fault that it
ends in.
-/

namespace RoundRobin

namespace Machine

/-- A call of an operation of the machine. -/
inductive Call where
  | admitJob (job : Nat)
  | startNext
  | requeueCurrent
  | retireCurrent
  | accrueWaiting (delta : Ticks)
  | advance (delta : Ticks)
  deriving DecidableEq, Inhabited

/-- The machine after a call. What the operation answers is left out. -/
def apply (m : Machine) : Call → Except Fault Machine
  | .admitJob i => m.admitJob i
  | .startNext => do
    match ← m.startNext with
    | none => return m
    | some (_, machine) => return machine
  | .requeueCurrent => m.requeueCurrent
  | .retireCurrent => do
    let (_, machine) ← m.retireCurrent
    return machine
  | .accrueWaiting delta => m.accrueWaiting delta
  | .advance delta => .ok (m.advance delta)

/-- A call that makes no sense in the state of the machine, and the fault that it ends in. -/
inductive Misuse (m : Machine) : Call → Fault → Prop where
  /-- Admits a job that the machine does not have. -/
  | unknownJob {i : Nat} (hjob : m.jobs.size ≤ i) :
      Misuse m (.admitJob i) (.indexOutOfRange m.jobs.size i)
  /-- Admits a job that has been admitted. -/
  | admittedTwice {i : Nat} {job : Job} (hjob : m.jobs[i]? = some job)
      (hphase : job.phase ≠ .unarrived) : Misuse m (.admitJob i) (.admittedTwice i job.phase)
  /-- Starts a job while another one is on the processor. -/
  | processorBusy (hcurrent : m.current ≠ none) : Misuse m .startNext .processorBusy
  | nothingToRequeue (hcurrent : m.current = none) : Misuse m .requeueCurrent .nothingToRequeue
  /-- Requeues a job whose work is done. -/
  | requeuedWithoutWork {i : Nat} {job : Job} (hcurrent : m.current = some i)
      (hjob : m.jobs[i]? = some job) (hwork : job.remaining = 0) :
      Misuse m .requeueCurrent (.requeuedWithoutWork i)
  | nothingToRetire (hcurrent : m.current = none) : Misuse m .retireCurrent .nothingToRetire
  /-- Retires a job whose work is not done. -/
  | retiredWithWork {i : Nat} {job : Job} (hcurrent : m.current = some i)
      (hjob : m.jobs[i]? = some job) (hwork : job.remaining ≠ 0) :
      Misuse m .retireCurrent (.retiredWithWork i job.remaining)

end Machine

namespace Scheduler

/-- A call of an operation of the scheduler, or of one of its machine. -/
inductive Call where
  | admitJob (job : Nat) (time : Ticks)
  | dispatch
  | finishSlice
  | idleUntil (target : Ticks)
  | observe
  | drain
  | onMachine (call : Machine.Call)
  deriving DecidableEq, Inhabited

/-- The scheduler after a call. What the operation answers is left out. -/
def apply (s : Scheduler) : Call → Except Fault Scheduler
  | .admitJob i time => s.admitJob i time
  | .dispatch => do
    match ← s.dispatch with
    | none => return s
    | some (_, scheduler) => return scheduler
  | .finishSlice => do
    let (_, scheduler) ← s.finishSlice
    return scheduler
  | .idleUntil target => s.idleUntil target
  | .observe => s.observe
  | .drain => .ok s.drain.2
  | .onMachine call => do
    let machine ← s.machine.apply call
    return { s with machine }

/-- The scheduler after calls one after the other. The first fault ends them. -/
def applyAll (s : Scheduler) (calls : List Call) : Except Fault Scheduler :=
  calls.foldlM apply s

theorem applyAll_nil (s : Scheduler) : s.applyAll [] = .ok s := rfl

theorem applyAll_cons (s : Scheduler) (call : Call) (calls : List Call) :
    s.applyAll (call :: calls) = s.apply call >>= fun s => s.applyAll calls := rfl

/-- A call that makes no sense in the state of the scheduler, and the fault that it ends in. -/
inductive Misuse (s : Scheduler) : Call → Fault → Prop where
  | admitJob {i : Nat} {fault : Fault} (time : Ticks)
      (hmisuse : s.machine.Misuse (.admitJob i) fault) : Misuse s (.admitJob i time) fault
  | processorBusy (hcurrent : s.machine.current ≠ none) : Misuse s .dispatch .processorBusy
  /-- Dispatches a job that was admitted ahead of its arrival. -/
  | dispatchedBeforeArrival {i : Nat} {rest : List Nat} {job : Job}
      (hcurrent : s.machine.current = none) (hslots : s.machine.ready.slots = i :: rest)
      (hjob : s.machine.jobs[i]? = some job) (hearly : s.machine.now < job.arrival) :
      Misuse s .dispatch .subOverflow
  | idleWhileReady {target : Ticks} (hslots : s.machine.ready.slots ≠ []) :
      Misuse s (.idleUntil target) .idleWhileReady
  | idleBackwards {target : Ticks} (hslots : s.machine.ready.slots = [])
      (htarget : target ≤ s.machine.now) : Misuse s (.idleUntil target) .idleBackwards
  /-- Shows the audit a job that was admitted ahead of its arrival; it is the first one queued. -/
  | queuedBeforeArrival {before after : List Nat} {i : Nat} {job : Job}
      (hchecks : s.monitor.checks = true) (hslots : s.machine.ready.slots = before ++ i :: after)
      (hbefore : ∀ k ∈ before, ∀ other, s.machine.jobs[k]? = some other →
        other.arrival ≤ s.machine.now)
      (hjob : s.machine.jobs[i]? = some job) (hearly : s.machine.now < job.arrival) :
      Misuse s .observe (.queuedBeforeArrival i)
  | onMachine {call : Machine.Call} {fault : Fault} (hmisuse : s.machine.Misuse call fault) :
      Misuse s (.onMachine call) fault

end Scheduler

end RoundRobin
