import RoundRobin.Process
import RoundRobin.Text.Quoted

/-!
# Input errors

What can be wrong with a file, a process list or a quantum, each with its text.
-/

namespace RoundRobin

/-- Why a file could not be read. -/
inductive ReadFailure where
  | notFound
  | notDirectory
  | isDirectory
  | other (reason : String)
  deriving DecidableEq, Inhabited

/-- The text of a read failure. -/
def ReadFailure.message : ReadFailure → String
  | notFound => "No such file or directory (os error 2)"
  | notDirectory => "Not a directory (os error 20)"
  | isDirectory => "Is a directory (os error 21)"
  | other reason => reason

/-- The numbers that a process list is made of. -/
inductive Field where
  | processCount
  | processId
  | arrivalTime
  | burstTime
  deriving DecidableEq, Inhabited

/-- The name of a number in messages. -/
def Field.name : Field → String
  | processCount => "process count"
  | processId => "process id"
  | arrivalTime => "arrival time"
  | burstTime => "burst time"

/-- What is wrong with an input. -/
inductive InputError where
  | unreadable (path : String) (failure : ReadFailure)
  /-- The data end before the number that comes next. -/
  | unexpectedEnd (expected : Field)
  /-- The number that starts at `offset` is not a 32-bit word. -/
  | overflow (offset : Nat)
  | noProcesses
  | zeroBurst (pid : Pid)
  | invalidQuantum (text : String)
  deriving DecidableEq, Inhabited

/-- The text of an input error. -/
def InputError.message : InputError → String
  | unreadable path failure => "Failed to read " ++ path ++ ": " ++ failure.message
  | unexpectedEnd expected => "Reached end of input while looking for " ++ expected.name
  | overflow offset =>
    "Integer at byte offset " ++ Nat.repr offset ++ " does not fit in 32 bits"
  | noProcesses => "Input declares zero processes"
  | zeroBurst pid => "Process " ++ pid.text ++ " has a zero burst time"
  | invalidQuantum text =>
    "Invalid quantum " ++ Text.quote text ++ ": expected a positive decimal integer"

end RoundRobin
