import RoundRobin.Fault

/-!
# Jobs

A job is a process under way: its phase, the work that is left, and the times recorded so far. Jobs
are known by their position in the process list.
-/

namespace RoundRobin

/-- A process together with its progress. `response` is the delay between arrival and first
dispatch, and has no value before that dispatch; a response of `0` is a value like any other. -/
structure Job where
  pid : Pid
  phase : Phase
  arrival : Ticks
  burst : Ticks
  remaining : Ticks
  waiting : Ticks
  response : Option Ticks
  cpuTime : Ticks
  dispatches : Count
  completion : Option Ticks
  deriving DecidableEq, Inhabited

namespace Job

/-- The job of a process that has not arrived yet. -/
def ofProcess (p : Process) : Job where
  pid := p.pid
  phase := .unarrived
  arrival := p.arrival
  burst := p.burst
  remaining := p.burst
  waiting := 0
  response := none
  cpuTime := 0
  dispatches := 0
  completion := none

/-- The job after waiting for `delta` more ticks. -/
def wait (job : Job) (delta : Ticks) : Job :=
  { job with waiting := job.waiting.satAdd delta }

/-- What the job receives of one quantum: all of it, or what work is left. -/
def share (job : Job) (quantum : Ticks) : Ticks :=
  if quantum ≤ job.remaining then quantum else job.remaining

/-- The response time after a dispatch at `now`: only the first dispatch fixes it. -/
def responseAt (job : Job) (now : Ticks) : Except Fault Ticks :=
  match job.response with
  | some response => .ok response
  | none => now.subChecked job.arrival

/-- The job after a slice that starts at `now`. -/
def serve (job : Job) (now quantum : Ticks) : Except Fault Job := do
  let response ← job.responseAt now
  let cpuTime ← job.cpuTime.addChecked (job.share quantum)
  let dispatches ← job.dispatches.addChecked 1
  return { job with
    response := some response
    remaining := job.remaining - job.share quantum
    cpuTime
    dispatches }

theorem toNat_share (job : Job) (quantum : Ticks) :
    (job.share quantum).toNat = min quantum.toNat job.remaining.toNat := by
  simp only [share, UInt64.le_iff_toNat_le, Nat.min_def]
  split <;> rfl

/-- A slice takes off the work what the job receives. -/
theorem toNat_remaining_of_serve {job job' : Job} {now quantum : Ticks}
    (h : job.serve now quantum = .ok job') :
    job'.remaining.toNat = job.remaining.toNat - min quantum.toNat job.remaining.toNat := by
  simp only [serve, Fault.bind_eq_ok_iff, Fault.pure_eq_ok_iff] at h
  obtain ⟨_, _, _, _, _, _, rfl⟩ := h
  have hle : job.share quantum ≤ job.remaining := by
    rw [UInt64.le_iff_toNat_le, toNat_share]
    exact Nat.min_le_right _ _
  rw [UInt64.toNat_sub_of_le _ _ hle, toNat_share]

end Job

end RoundRobin
