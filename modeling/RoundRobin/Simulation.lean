import RoundRobin.Scheduler
import RoundRobin.Contract

/-!
# Simulations

A simulation feeds a list of processes to a scheduler. `admitted` counts the processes that have
been let in so far; they are the first ones of the list. A step lets in what has arrived, then
either serves one slice or skips one idle gap.
-/

namespace RoundRobin

/-- A scheduler and the processes that it is fed. -/
structure Simulation where
  scheduler : Scheduler
  processes : Array Process
  admitted : Nat := 0

namespace Simulation

/-- The simulation of a process list that keeps the contract. The quantum is looked at first. -/
def start (processes : ProcessList) (config : Config) : Except Violation Simulation :=
  if h : 0 < config.quantum then
    match Contract.check processes with
    | some violation => .error violation
    | none =>
      .ok {
        scheduler := .start processes config.quantum h config.checks
        processes := processes.toArray }
  else
    .error (.invalidQuantum config.quantum)

/-- Installs an empty trace of events. -/
def traced (s : Simulation) : Simulation :=
  { s with scheduler := { s.scheduler with monitor := s.scheduler.monitor.traced } }

/-- All jobs have finished. -/
def allCompleted (s : Simulation) : Bool :=
  s.scheduler.machine.allFinished

/-- Moves the arrival of a declared process. The machine keeps its own record of arrivals. -/
def setArrival (s : Simulation) (i : Nat) (arrival : Ticks) : Except Fault Simulation :=
  match s.processes[i]? with
  | some p => .ok { s with processes := s.processes.setIfInBounds i { p with arrival } }
  | none => .error (.indexOutOfRange s.processes.size i)

/-- The next process to be admitted, if there is one left. -/
def next? (s : Simulation) : Option Process :=
  s.processes[s.admitted]?

/-- Admits the next processes for as long as their arrival passes the test, up to a limit. -/
def admitUpTo (arrived : Ticks → Bool) (s : Simulation) : Nat → Except Fault Simulation
  | 0 => .ok s
  | limit + 1 =>
    match s.next? with
    | none => .ok s
    | some p =>
      if arrived p.arrival then do
        let scheduler ← s.scheduler.admitJob s.admitted p.arrival
        admitUpTo arrived { s with scheduler, admitted := s.admitted + 1 } limit
      else
        .ok s

/-- Admits the next processes for as long as their arrival passes the test. -/
def admitWhile (arrived : Ticks → Bool) (s : Simulation) : Except Fault Simulation :=
  admitUpTo arrived s (s.processes.size - s.admitted)

/-- The arrival of the next process to be admitted, which has to exist. -/
def nextArrival (s : Simulation) : Except Fault Ticks :=
  match s.next? with
  | some p => .ok p.arrival
  | none => .error (.indexOutOfRange s.processes.size s.admitted)

/-- The rest of a step once the dispatched slice is known: what arrives within the slice is queued
ahead of the job that ran. -/
def endSlice (s : Simulation) (slice : Slice) : Except Fault Simulation := do
  let s ← s.admitWhile (· < slice.finish)
  let (_, scheduler) ← s.scheduler.finishSlice
  return { s with scheduler }

/-- The rest of a step in which nothing could be dispatched: the clock moves to the next arrival. -/
def skipGap (s : Simulation) : Except Fault Simulation := do
  let target ← s.nextArrival
  let scheduler ← s.scheduler.idleUntil target
  return { s with scheduler }

/-- Lets in what has arrived, then serves one slice, or skips a gap if there is no one to serve. -/
def proceed (s : Simulation) : Except Fault Simulation := do
  let s ← s.admitWhile (· ≤ s.scheduler.machine.now)
  match ← s.scheduler.dispatch with
  | some (slice, scheduler) => endSlice { s with scheduler } slice
  | none => s.skipGap

/-- One step, and the events since the last one. A simulation whose jobs have all finished does not
step any more. -/
def step (s : Simulation) : Except Fault (Array Stamped × Simulation) :=
  if s.allCompleted then
    .ok (#[], s)
  else do
    let s ← s.proceed
    let scheduler ← s.scheduler.observe
    let (events, scheduler) := scheduler.drain
    return (events, { s with scheduler })

/-- A number of steps, and all their events behind those of earlier ones. -/
def stepsAfter (events : Array Stamped) (s : Simulation) :
    Nat → Except Fault (Array Stamped × Simulation)
  | 0 => .ok (events, s)
  | n + 1 => do
    let (new, s) ← s.step
    stepsAfter (events ++ new) s n

/-- A number of steps, and all their events. -/
def steps (s : Simulation) (n : Nat) : Except Fault (Array Stamped × Simulation) :=
  stepsAfter #[] s n

end Simulation

end RoundRobin
