import RoundRobin.Process

/-!
# Scheduling events

What can happen to a process, or to the idle processor, each with the instant at which it happens.
In the log an event is a record, its name and its fields in order, as in `Idle { until: 9 }`.
-/

namespace RoundRobin

namespace Text

/-- The text of a record from its name and the names and texts of its fields. -/
def record (name : String) (fields : List (String × String)) : String :=
  name ++ " \x7b " ++ ", ".intercalate (fields.map fun (field, value) => field ++ ": " ++ value) ++
    " \x7d"

/-- The text of a truth value. -/
def ofBool (b : Bool) : String :=
  if b then "true" else "false"

end Text

/-- What happens while processes are scheduled. -/
inductive Event where
  /-- A process that has arrived joined the ready queue. -/
  | admitted (pid : Pid)
  /-- A process received the processor for `slice` ticks. -/
  | dispatched (pid : Pid) (slice : Ticks) (firstRun : Bool)
  /-- A slice ended with work left, and the process went to the back of the queue. -/
  | preempted (pid : Pid) (remaining : Ticks)
  /-- A slice ended the work of a process. -/
  | retired (pid : Pid) (waiting response : Ticks)
  /-- Nothing could run, and the clock moved on to `target`. -/
  | idle (target : Ticks)
  deriving DecidableEq, Inhabited

/-- An event and the instant at which it happened. -/
structure Stamped where
  time : Ticks
  event : Event
  deriving DecidableEq, Inhabited

namespace Event

/-- The process that the event is about; an idle processor has none. -/
def pid? : Event → Option Pid
  | admitted pid => some pid
  | dispatched pid _ _ => some pid
  | preempted pid _ => some pid
  | retired pid _ _ => some pid
  | idle _ => none

/-- An identifier as a field of a record. -/
def pidField (pid : Pid) : String × String :=
  ("pid", "Pid(" ++ Nat.repr pid.val.toNat ++ ")")

/-- A time as a field of a record. -/
def ticksField (name : String) (ticks : Ticks) : String × String :=
  (name, Nat.repr ticks.toNat)

/-- The event as it is written into the log. -/
def text : Event → String
  | admitted pid => Text.record "Admitted" [pidField pid]
  | dispatched pid slice firstRun =>
    Text.record "Dispatched"
      [pidField pid, ticksField "slice" slice, ("first_run", Text.ofBool firstRun)]
  | preempted pid remaining =>
    Text.record "Preempted" [pidField pid, ticksField "remaining" remaining]
  | retired pid waiting response =>
    Text.record "Retired"
      [pidField pid, ticksField "waiting" waiting, ticksField "response" response]
  | idle target => Text.record "Idle" [ticksField "until" target]

end Event

end RoundRobin
