import RoundRobin.InputError
import RoundRobin.Numeral

/-!
# Process lists

A process list is any sequence of bytes: every longest run of ASCII digits is a number, and all else
separates. The first number says how many processes follow, and each process is three numbers: its
identifier, its arrival and its burst. What comes after the last process is not looked at.
-/

namespace RoundRobin

/-- A position in the data: how many bytes lie before it, and the bytes from it on. -/
structure Reader where
  offset : Nat := 0
  rest : List UInt8
  deriving Inhabited

namespace Reader

/-- Moves to the next digit, or to the end. -/
def toDigit (r : Reader) : Reader :=
  { offset := r.offset + (r.rest.takeWhile (!Numeral.isDigit ·)).length
    rest := r.rest.dropWhile (!Numeral.isDigit ·) }

/-- The run of digits at the position. -/
def digits (r : Reader) : List UInt8 :=
  r.rest.takeWhile Numeral.isDigit

/-- Moves behind the run of digits at the position. -/
def pastDigits (r : Reader) : Reader :=
  { offset := r.offset + r.digits.length
    rest := r.rest.dropWhile Numeral.isDigit }

/-- Reads the next number, which has to be a 32-bit word. -/
def number (r : Reader) (expected : Field) : Except InputError (UInt32 × Reader) :=
  let r := r.toDigit
  if r.rest.isEmpty then
    .error (.unexpectedEnd expected)
  else
    match Numeral.below UInt32.size r.digits with
    | none => .error (.overflow r.offset)
    | some v => .ok (UInt32.ofNat v, r.pastDigits)

/-- Reads one process, which has to have work to do. -/
def process (r : Reader) : Except InputError (Process × Reader) := do
  let (pid, r) ← r.number .processId
  let (arrival, r) ← r.number .arrivalTime
  let (burst, r) ← r.number .burstTime
  if burst = 0 then
    .error (.zeroBurst ⟨pid⟩)
  else
    .ok ({ pid := ⟨pid⟩, arrival := arrival.toUInt64, burst := burst.toUInt64 }, r)

/-- Reads a number of processes behind those that were read before. -/
def processes (r : Reader) (before : Array Process) : Nat → Except InputError (Array Process)
  | 0 => .ok before
  | count + 1 => do
    let (p, r) ← r.process
    r.processes (before.push p) count

end Reader

namespace ProcessList

/-- How many processes the list has room for from the beginning, if it is read from data of a size.
The declared count is not trusted; a process takes at least five bytes. -/
def room (count size : Nat) : Nat :=
  min count (size / 5)

/-- The processes that the data declare. -/
def parse (data : List UInt8) : Except InputError ProcessList := do
  let (count, r) ← Reader.number { rest := data } .processCount
  if count = 0 then
    .error .noProcesses
  else
    let processes ← r.processes (.emptyWithCapacity (room count.toNat data.length)) count.toNat
    return processes.toList

/-- A text is read as its UTF-8 bytes. -/
def parseText (text : String) : Except InputError ProcessList :=
  parse text.toUTF8.toList

/-- The process list in a file. -/
def load (read : String → Except ReadFailure (List UInt8)) (path : String) :
    Except InputError ProcessList :=
  match read path with
  | .error failure => .error (.unreadable path failure)
  | .ok data => parse data

end ProcessList

end RoundRobin
