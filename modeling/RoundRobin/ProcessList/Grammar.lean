import RoundRobin.InputError
import RoundRobin.Numeral

/-!
# The grammar of process lists

The numbers of a process list, each a longest run of digits with the place where it starts, and what
a sequence of numbers means. Values are natural numbers of any size; that they have to be 32-bit
words is a rule of its own.
-/

namespace RoundRobin.ProcessList

/-- A run of digits: where it starts, and its value. -/
structure Token where
  offset : Nat
  value : Nat
  deriving DecidableEq, Inhabited

/-- The longest runs of digits in data that start at an offset, each with its place. A digit joins
the run that starts right behind it, if there is one, and is a run of its own otherwise. -/
def digitRuns (offset : Nat) : List UInt8 → List (Nat × List UInt8)
  | [] => []
  | byte :: rest =>
    let runs := digitRuns (offset + 1) rest
    if Numeral.isDigit byte then
      match runs with
      | (start, digits) :: later =>
        if start = offset + 1 then (offset, byte :: digits) :: later
        else (offset, [byte]) :: runs
      | [] => [(offset, [byte])]
    else
      runs

/-- The tokens of the data, in order. -/
def tokens (data : List UInt8) : List Token :=
  (digitRuns 0 data).map fun (offset, digits) => { offset, value := Numeral.value digits }

/-- The next token, which has to be there and to be a 32-bit word. -/
def wordOf (expected : Field) : List Token → Except InputError (Nat × List Token)
  | [] => .error (.unexpectedEnd expected)
  | token :: rest =>
    if token.value < UInt32.size then .ok (token.value, rest) else .error (.overflow token.offset)

/-- The next processes, each of which has to have work to do. -/
def processesOf : Nat → List Token → Except InputError ProcessList
  | 0, _ => .ok []
  | count + 1, ts => do
    let (pid, ts) ← wordOf .processId ts
    let (arrival, ts) ← wordOf .arrivalTime ts
    let (burst, ts) ← wordOf .burstTime ts
    if burst = 0 then
      .error (.zeroBurst ⟨UInt32.ofNat pid⟩)
    else
      let later ← processesOf count ts
      let p := {
        pid := ⟨UInt32.ofNat pid⟩
        arrival := UInt64.ofNat arrival
        burst := UInt64.ofNat burst }
      return p :: later

/-- What a sequence of tokens means as a process list. -/
def ofTokens (ts : List Token) : Except InputError ProcessList := do
  let (count, ts) ← wordOf .processCount ts
  if count = 0 then .error .noProcesses else processesOf count ts

end RoundRobin.ProcessList
