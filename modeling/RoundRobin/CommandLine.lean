import RoundRobin.Pipeline
import RoundRobin.Decimal

/-!
# The command line

The command takes the path of a process list and a quantum, and prints the average waiting and
response times. What else it reports goes to the log, as far as the log level lets it. The level
decides nothing but which lines are logged.
-/

namespace RoundRobin

/-- How much is logged; every level logs all that the levels before it do. -/
inductive LogLevel where
  | off
  | error
  | warn
  | info
  | debug
  | trace
  deriving DecidableEq, Inhabited

namespace LogLevel

/-- The place of a level in their order. -/
def rank : LogLevel → Nat
  | off => 0
  | error => 1
  | warn => 2
  | info => 3
  | debug => 4
  | trace => 5

/-- The level with a name, in letters of either case. -/
def ofName? (name : String) : Option LogLevel :=
  match name.toLower with
  | "off" => some off
  | "error" => some error
  | "warn" => some warn
  | "info" => some info
  | "debug" => some debug
  | "trace" => some trace
  | _ => none

/-- The level that a setting asks for. Without one, warnings are logged. -/
def ofSetting (setting : Option String) : LogLevel :=
  (setting.bind ofName?).getD warn

/-- Whether lines of a level are logged. -/
def logs (setting line : LogLevel) : Bool :=
  line.rank ≤ setting.rank

end LogLevel

/-- What a command leaves behind: its exit code, its output, and the lines of its error output. -/
structure Transcript where
  exitCode : UInt8
  output : String
  errorLines : List String
  deriving DecidableEq, Inhabited

namespace CommandLine

/-- What is printed for a wrong number of arguments. -/
def usage : String :=
  "usage: rr_model <input-file> <quantum>"

/-- A line of the log, if the setting lets it through. -/
def logLine (setting level : LogLevel) (name target text : String) : List String :=
  if setting.logs level then [name ++ " " ++ target ++ ": " ++ text] else []

/-- A line at debug level. -/
def debugLine (setting : LogLevel) (target text : String) : List String :=
  logLine setting .debug "DEBUG" target text

/-- A line at trace level. -/
def traceLine (setting : LogLevel) (target text : String) : List String :=
  logLine setting .trace "TRACE" target text

/-- A number with its name, behind the text of a line. -/
def number (n : Nat) (name : String) : String :=
  " " ++ name ++ "=" ++ Nat.repr n

/-- The lines before the first step. -/
def startLines (setting : LogLevel) (s : Simulation) : List String :=
  debugLine setting "rr_model::sim::driver"
    ("starting round robin simulation" ++ number s.processes.size "processes" ++
      number s.scheduler.quantum.toNat "quantum")

/-- The lines of the events of a run. -/
def eventLines (setting : LogLevel) (s : Simulation) : List String :=
  (s.scheduler.monitor.trace.getD #[]).toList.flatMap fun stamped =>
    traceLine setting "rr_model::core::observer"
      ("sched event" ++ number stamped.time.toNat "t" ++ " event=" ++ stamped.event.text)

/-- The lines after the last step. -/
def finishLines (setting : LogLevel) (s : Simulation) (r : Report) : List String :=
  debugLine setting "rr_model::sim::driver"
    ("simulation finished" ++ number r.makespan.toNat "makespan" ++
      number r.dispatches.toNat "dispatches" ++ number r.preemptions.toNat "preemptions" ++
      number s.scheduler.monitor.steps.toNat "steps")

/-- The two averages, on a line each. -/
def summary (r : Report) : String :=
  "Average waiting time: " ++ Decimal.fixed 2 r.averageWaiting ++ "\n" ++
    "Average response time: " ++ Decimal.fixed 2 r.averageResponse ++ "\n"

/-- A run that halted with a fault. -/
def crash (output : String) (errorLines : List String) (fault : Fault) : Transcript :=
  { exitCode := 101, output, errorLines := errorLines ++ fault.message.splitOn "\n" }

/-- Prints the summary, and logs the statistics that the summary leaves out. They are worked out
only if they are logged. -/
def conclude (setting : LogLevel) (errorLines : List String) (r : Report) : Transcript :=
  if setting.logs .debug then
    match r.averageTurnaround with
    | .error fault => crash (summary r) errorLines fault
    | .ok turnaround =>
      { exitCode := 0
        output := summary r
        errorLines := errorLines ++
          debugLine setting "rr_model"
            ("Average turnaround time: " ++ Decimal.fixed 2 turnaround ++ " ticks") ++
          debugLine setting "rr_model"
            ("Longest wait: " ++ Decimal.fixed 0 r.maxWaiting ++ " ticks") }
  else
    { exitCode := 0, output := summary r, errorLines }

/-- Runs a simulation and tells what it comes to. -/
def execute (setting : LogLevel) (s : Simulation) : Transcript :=
  let started := startLines setting s
  match s.traced.complete with
  | .error fault => crash "" started fault
  | .ok done =>
    let stepped := started ++ eventLines setting done
    match done.report with
    | .error fault => crash "" stepped fault
    | .ok r => conclude setting (stepped ++ finishLines setting done r) r

/-- The command: a path and a quantum, and nothing else. -/
def run (read : String → Except ReadFailure (List UInt8)) (setting : LogLevel)
    (args : List String) : Transcript :=
  match args with
  | [path, quantum] =>
    match Pipeline.prepare (ProcessList.load read path) quantum with
    | .error failure =>
      { exitCode := 1
        output := ""
        errorLines := ("error: " ++ failure.message).splitOn "\n" }
    | .ok s => execute setting s
  | _ => { exitCode := 2, output := "", errorLines := [usage] }

end CommandLine

end RoundRobin
