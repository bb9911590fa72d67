import RoundRobin.Run
import RoundRobin.ProcessList

/-!
# From text to report

The whole way from a process list and the text of a quantum to a report. A quantum is written as a
plain decimal numeral: digits only, with a value that is positive and a 64-bit word. Leading zeros
are fine. There is no report if the input cannot be read, if it breaks the contract of a simulation,
or if the simulation halts with a fault. The data are looked at before the quantum, and both before
the contract; the first failure answers.
-/

namespace RoundRobin

/-- Why there is no report. -/
inductive Failure where
  | input (error : InputError)
  | contract (violation : Violation)
  | halted (fault : Fault)
  deriving DecidableEq, Inhabited

/-- The text of a failure is that of its cause. -/
def Failure.message : Failure → String
  | input error => error.message
  | contract violation => violation.message
  | halted fault => fault.message

/-- Runs the simulation of a process list under a configuration. -/
def simulateWith (processes : ProcessList) (config : Config) : Except Failure Report :=
  match Simulation.start processes config with
  | .error violation => .error (.contract violation)
  | .ok s =>
    match s.run with
    | .error fault => .error (.halted fault)
    | .ok report => .ok report

/-- Runs the simulation of a process list with a quantum, audits on. The quantum is looked at before
the list. -/
def simulate (processes : ProcessList) (quantum : Ticks) : Except Failure Report :=
  match Config.ofQuantum quantum with
  | .error violation => .error (.contract violation)
  | .ok config => simulateWith processes config

/-- The quantum that a text stands for. -/
def Quantum.parse (text : String) : Except InputError Ticks :=
  let bytes := text.toUTF8.toList
  if bytes.isEmpty || !bytes.all Numeral.isDigit then
    .error (.invalidQuantum text)
  else
    match Numeral.below UInt64.size bytes with
    | none => .error (.invalidQuantum text)
    | some v => if v = 0 then .error (.invalidQuantum text) else .ok (UInt64.ofNat v)

namespace Pipeline

/-- The simulation of processes that were read, with a quantum that is yet to be read. -/
def prepare (processes : Except InputError ProcessList) (quantum : String) :
    Except Failure Simulation := do
  let processes ← processes.mapError .input
  let quantum ← (Quantum.parse quantum).mapError .input
  let config ← (Config.ofQuantum quantum).mapError .contract
  (Simulation.start processes config).mapError .contract

/-- The report on a process list and the text of a quantum. -/
def run (data : List UInt8) (quantum : String) : Except Failure Report := do
  let s ← prepare (ProcessList.parse data) quantum
  s.run.mapError .halted

end Pipeline

end RoundRobin
