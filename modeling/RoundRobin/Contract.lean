import RoundRobin.Process
import Std.Data.TreeSet

/-!
# The contract of a simulation

A simulation takes a positive quantum and a non-empty list of processes that is sorted by arrival,
in which every process has work to do and no identifier comes twice. `Violation` names what a list
breaks, and `Contract.check` finds the first violation: at the least position that has one, and of
several at one position an early arrival before missing work before a repeated identifier.
-/

namespace RoundRobin

/-- What is wrong with the input of a simulation. -/
inductive Violation where
  | emptyProcessSet
  | invalidQuantum (quantum : Ticks)
  | unsortedArrivals (index : Nat) (pid : Pid) (arrival previous : Ticks)
  | duplicatePid (pid : Pid)
  | zeroBurst (pid : Pid)
  deriving DecidableEq, Inhabited

/-- The text of a violation. -/
def Violation.message : Violation → String
  | emptyProcessSet => "Process set is empty"
  | invalidQuantum quantum => "Quantum must be at least 1, got " ++ Nat.repr quantum.toNat
  | unsortedArrivals index pid arrival previous =>
    "Arrivals must be sorted: process " ++ pid.text ++ " at index " ++ Nat.repr index ++
      " arrives at " ++ Nat.repr arrival.toNat ++ ", before " ++ Nat.repr previous.toNat
  | duplicatePid pid => "Duplicate process id " ++ pid.text
  | zeroBurst pid => "Process " ++ pid.text ++ " has a zero burst time"

/-- How a simulation is to run: the longest slice, and whether every step is audited. -/
structure Config where
  quantum : Ticks
  checks : Bool
  deriving DecidableEq, Inhabited

/-- The configuration of a quantum, with the audits switched on. A quantum of `0` is refused. -/
def Config.ofQuantum (quantum : Ticks) : Except Violation Config :=
  if quantum = 0 then .error (.invalidQuantum quantum) else .ok { quantum, checks := true }

/-- Switches the audits on or off. -/
def Config.withChecks (config : Config) (checks : Bool) : Config :=
  { config with checks }

namespace Contract

/-- What the process at `index` breaks, after a process that arrived at `previous` and with the
identifiers `seen` before it. -/
def violationAt (seen : Std.TreeSet UInt32) (previous : Ticks) (index : Nat) (p : Process) :
    Option Violation :=
  if p.arrival < previous then
    some (.unsortedArrivals index p.pid p.arrival previous)
  else if p.burst = 0 then
    some (.zeroBurst p.pid)
  else if seen.contains p.pid.val then
    some (.duplicatePid p.pid)
  else
    none

/-- The first violation among processes that start at `index`. -/
def firstViolation (seen : Std.TreeSet UInt32) (previous : Ticks) (index : Nat) :
    ProcessList → Option Violation
  | [] => none
  | p :: rest =>
    match violationAt seen previous index p with
    | some violation => some violation
    | none => firstViolation (seen.insert p.pid.val) p.arrival (index + 1) rest

/-- The first violation of a non-empty list of processes; the empty list is a violation itself. -/
def check (processes : ProcessList) : Option Violation :=
  if processes.isEmpty then some .emptyProcessSet else firstViolation ∅ 0 0 processes

end Contract

end RoundRobin
