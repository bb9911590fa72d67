import RoundRobin.Fault
import RoundRobin.Random.Draw

/-!
# Random workloads

A workload is drawn tick by tick: at every tick a process arrives with one chance, and if it does,
its burst is short with another chance and long otherwise. The second draw is made only for a
process that arrives. Processes are numbered from `1` in the order of their arrival.
-/

namespace RoundRobin

/-- What a workload is drawn from. -/
structure Workload where
  ticks : Ticks
  arrivalChance : Float
  shortChance : Float
  short : Ticks
  long : Ticks

namespace Workload

/-- A workload in the making: how many draws have been made, and the processes so far. -/
structure Progress where
  drawn : Nat := 0
  processes : Array Process := #[]

/-- The identifier of the next process. It counts in 32-bit words, and cannot pass the last one. -/
def nextPid (processes : Array Process) : Except Fault Pid :=
  let count := UInt32.ofNat processes.size
  if count = 0xFFFFFFFF then .error .addOverflow else .ok ⟨count + 1⟩

/-- What happens at one tick. -/
def tick (w : Workload) (source : Random.Source) (time : Ticks) (p : Progress) :
    Except Fault Progress :=
  if source p.drawn w.arrivalChance then do
    let burst := if source (p.drawn + 1) w.shortChance then w.short else w.long
    let pid ← nextPid p.processes
    return {
      drawn := p.drawn + 2
      processes := p.processes.push { pid, arrival := time, burst } }
  else
    .ok { p with drawn := p.drawn + 1 }

/-- What happens in a number of ticks from an instant on. -/
def ticksFrom (w : Workload) (source : Random.Source) (time : Ticks) (p : Progress) :
    Nat → Except Fault Progress
  | 0 => .ok p
  | count + 1 => do
    let p ← w.tick source time p
    w.ticksFrom source (time + 1) p count

/-- The processes that a source of draws gives. -/
def ofSource (w : Workload) (source : Random.Source) : Except Fault ProcessList := do
  let p ← w.ticksFrom source 0 {} w.ticks.toNat
  return p.processes.toList

/-- The processes that a seed gives. -/
def generate (w : Workload) (seed : UInt64) : Except Fault ProcessList :=
  w.ofSource (.ofSeed seed)

end Workload

end RoundRobin
