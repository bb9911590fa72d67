import RoundRobin.Process

/-!
# Round robin tick by tick

What round robin is, one clock tick at a time: at every instant the job whose turn is over leaves
the processor, the jobs that arrive join the queue behind it, a free processor takes the front of
the queue, and the job on it runs for one tick. Times are natural numbers and never run out.
-/

namespace RoundRobin

/-- A job on the processor, and how many ticks of its turn it has run. -/
structure OngoingTurn where
  job : Nat
  ran : Nat
  deriving DecidableEq, Inhabited

/-- One processor at one instant. `left` is the remaining work of every job, by position. -/
structure TickMachine where
  clock : Nat := 0
  ready : List Nat := []
  turn : Option OngoingTurn := none
  left : List Nat
  deriving DecidableEq, Inhabited

namespace TickMachine

/-- The machine at instant `0`, before anything has arrived. -/
def ofProcesses (processes : ProcessList) : TickMachine where
  left := processes.map (·.burst.toNat)

/-- Ends a turn that has lasted for a quantum, or whose job has no work left. A job with work left
goes to the back of the queue. -/
def release (m : TickMachine) (quantum : Nat) : TickMachine :=
  match m.turn with
  | none => m
  | some turn =>
    if m.left[turn.job]? = some 0 then
      { m with turn := none }
    else if turn.ran = quantum then
      { m with turn := none, ready := m.ready ++ [turn.job] }
    else
      m

/-- The positions of the processes that arrive at an instant, in the order of the list. -/
def arrivals (processes : ProcessList) (instant : Nat) : List Nat :=
  (processes.zipIdx.filter fun (p, _) => p.arrival.toNat == instant).map (·.2)

/-- Lets in the processes that arrive at this instant. -/
def arrive (m : TickMachine) (processes : ProcessList) : TickMachine :=
  { m with ready := m.ready ++ arrivals processes m.clock }

/-- Gives a free processor to the front of the queue. -/
def take (m : TickMachine) : TickMachine :=
  match m.turn, m.ready with
  | none, job :: rest => { m with turn := some { job, ran := 0 }, ready := rest }
  | _, _ => m

/-- The machine once it is settled who runs in the tick that begins. -/
def settle (m : TickMachine) (processes : ProcessList) (quantum : Nat) : TickMachine :=
  ((m.release quantum).arrive processes).take

/-- Lets the job on the processor run for one tick. -/
def run (m : TickMachine) : TickMachine :=
  match m.turn with
  | none => { m with clock := m.clock + 1 }
  | some turn =>
    { m with
      clock := m.clock + 1
      turn := some { turn with ran := turn.ran + 1 }
      left := m.left.modify turn.job (· - 1) }

/-- The machine at an instant, before anything happens at it. -/
def atInstant (processes : ProcessList) (quantum : Nat) : Nat → TickMachine
  | 0 => ofProcesses processes
  | t + 1 => ((atInstant processes quantum t).settle processes quantum).run

/-- The job that runs in the tick that begins at an instant; in an idle tick there is none. -/
def runner? (processes : ProcessList) (quantum t : Nat) : Option Nat :=
  ((atInstant processes quantum t).settle processes quantum).turn.map (·.job)

end TickMachine

end RoundRobin
