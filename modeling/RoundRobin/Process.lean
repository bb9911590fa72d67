import RoundRobin.Word

/-!
# Processes

A process is what a process list declares: an identifier, the instant at which it arrives and the
processor time it needs. The scheduler never changes a process. What changes is the phase of the job
that it gives: where that one stands between arrival and completion.
-/

namespace RoundRobin

/-- A process identifier. It labels a process in events and reports and decides nothing. -/
structure Pid where
  val : UInt32
  deriving DecidableEq, Inhabited

/-- Identifiers are written with a leading `P`. -/
def Pid.text (pid : Pid) : String :=
  "P" ++ Nat.repr pid.val.toNat

/-- One declared process. -/
structure Process where
  pid : Pid
  arrival : Ticks
  burst : Ticks
  deriving DecidableEq, Inhabited

/-- Processes in the order in which they were declared. -/
abbrev ProcessList := List Process

/-- A job is unarrived, then by turns ready and running, and at last finished. -/
inductive Phase where
  | unarrived
  | ready
  | running
  | finished
  deriving DecidableEq, Inhabited

/-- The name of a phase in messages. -/
def Phase.text : Phase → String
  | .unarrived => "Unarrived"
  | .ready => "Ready"
  | .running => "Running"
  | .finished => "Finished"

end RoundRobin
