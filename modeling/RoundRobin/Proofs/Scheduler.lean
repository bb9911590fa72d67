import RoundRobin.Proofs.Machine

/-!
# What the scheduler does

For every operation of the scheduler, what it leaves when it is called where it makes sense: the
machine, and the events that it told the monitor and kept for the next drain.
-/

namespace RoundRobin

namespace Job

/-- The event that closes the slice of a job: it retires if no work is left, and is preempted
otherwise. -/
def closing (job : Job) : Event :=
  if job.remaining = 0 then .retired job.pid job.waiting (job.response.getD 0)
  else .preempted job.pid job.remaining

end Job

/-- A machine that passes its audit is observed without a fault, whether or not checks are on. -/
theorem Monitor.observe_eq_ok {monitor : Monitor} {machine : Machine} {touched : Option Nat}
    (haudit : machine.audit touched = .ok ()) (hroom : monitor.steps.toNat + 1 < UInt64.size) :
    monitor.observe machine touched = .ok { monitor with steps := monitor.steps + 1 } := by
  have hcount : monitor.steps.addChecked 1 = .ok (monitor.steps + 1) := by
    rw [Word.addChecked_eq_ok_iff, Word.toNat_add_of_lt hroom]
  simp only [observe, hcount, haudit, Fault.ok_bind]
  split <;> rfl

namespace Scheduler

/-- `s'` has told its monitor of some events more than `s`, and keeps them for the next drain. -/
structure Emitted (s s' : Scheduler) (events : List Stamped) : Prop where
  quantum : s'.quantum = s.quantum
  pending : s'.pending.toList = s.pending.toList ++ events
  monitor : s'.monitor = events.foldl Monitor.emit s.monitor

theorem Emitted.refl (s : Scheduler) : Emitted s s [] :=
  ⟨rfl, (List.append_nil _).symm, rfl⟩

theorem Emitted.trans {s s' s'' : Scheduler} {events events' : List Stamped}
    (h : Emitted s s' events) (h' : Emitted s' s'' events') :
    Emitted s s'' (events ++ events') where
  quantum := h'.quantum.trans h.quantum
  pending := by rw [h'.pending, h.pending, List.append_assoc]
  monitor := by rw [h'.monitor, h.monitor, List.foldl_append]

variable {s : Scheduler} {i : Nat} {job : Job}

/-- What is left by the admission of a job. -/
structure Admitted (s s' : Scheduler) (i : Nat) (job : Job) (time : Ticks) : Prop where
  now : s'.machine.now = s.machine.now
  current : s'.machine.current = s.machine.current
  finished : s'.machine.finished = s.machine.finished
  size : s'.machine.jobs.size = s.machine.jobs.size
  slots : s'.machine.ready.slots = s.machine.ready.slots ++ [i]
  consistent : s'.machine.ready.Consistent
  jobs : ∀ k, s'.machine.jobs[k]? = if k = i then some job.enter else s.machine.jobs[k]?
  preemptions : s'.preemptions = s.preemptions
  touched : s'.touched = s.touched
  emitted : Emitted s s' [{ time, event := .admitted job.pid }]

theorem admitJob_admitted (time : Ticks) (hjob : s.machine.jobs[i]? = some job)
    (hphase : job.phase = .unarrived) (hq : s.machine.ready.Consistent)
    (hnew : i ∉ s.machine.ready.slots) :
    ∃ s', s.admitJob i time = .ok s' ∧ Admitted s s' i job time := by
  obtain ⟨ready, hslots, hready, hentry⟩ := Machine.admitJob_eq_ok hjob hphase hq hnew
  have hjobs := Machine.getElem?_setJob hjob job.enter
  have hentered : ({ s.machine.setJob i job.enter with ready } : Machine).job i = .ok job.enter :=
    Machine.job_eq_ok_iff.2 ((hjobs i).trans (if_pos rfl))
  refine ⟨_, by simp only [admitJob, hentry, Fault.ok_bind, hentered]; rfl, ?_⟩
  exact {
    now := rfl
    current := rfl
    finished := rfl
    size := Machine.size_setJob
    slots := hslots
    consistent := hready
    jobs := hjobs
    preemptions := rfl
    touched := rfl
    emitted := ⟨rfl, Array.toList_push, rfl⟩ }

/-- What is left by the dispatch of the job at the front, with the rest of the queue behind it. -/
structure Dispatched (s s' : Scheduler) (i : Nat) (rest : List Nat) (job : Job) : Prop where
  now : s'.machine.now = s.machine.now.satAdd (job.share s.quantum)
  current : s'.machine.current = some i
  finished : s'.machine.finished = s.machine.finished
  size : s'.machine.jobs.size = s.machine.jobs.size
  slots : s'.machine.ready.slots = rest
  consistent : s'.machine.ready.Consistent
  served : s'.machine.jobs[i]? =
    some { job.served s.machine.now s.quantum with phase := .running }
  waited : ∀ k ∈ rest, s'.machine.jobs[k]? =
    (s.machine.jobs[k]?).map (·.wait (job.share s.quantum))
  untouched : ∀ k, k ≠ i → k ∉ rest → s'.machine.jobs[k]? = s.machine.jobs[k]?
  preemptions : s'.preemptions = s.preemptions
  touched : s'.touched = some i
  emitted : Emitted s s' [{
    time := s.machine.now
    event := .dispatched job.pid (job.share s.quantum) job.response.isNone }]

theorem dispatch_dispatched {rest : List Nat} (hfree : s.machine.current = none)
    (hq : s.machine.ready.Consistent) (hslots : s.machine.ready.slots = i :: rest)
    (hjob : s.machine.jobs[i]? = some job)
    (hin : ∀ k ∈ rest, ∃ other, s.machine.jobs[k]? = some other)
    (harrival : job.arrival ≤ s.machine.now)
    (hcpu : job.cpuTime.toNat + job.remaining.toNat < UInt64.size)
    (hcount : job.dispatches.toNat + 1 < UInt64.size) :
    ∃ s', s.dispatch =
        .ok (some ({ job := i, start := s.machine.now, finish := s'.machine.now }, s')) ∧
      Dispatched s s' i rest job := by
  obtain ⟨started, hstart, hstarted⟩ := Machine.startNext_started hfree hq hslots hjob
  have hfresh := hq.not_mem_rest hslots
  have hne : ∀ k ∈ rest, k ≠ i := by
    rintro k hk rfl
    exact hfresh hk
  -- the slice is taken off the work of the job, and the rest of the queue waits
  have hserve : ({ job with phase := .running } : Job).serve s.machine.now s.quantum =
      .ok { job.served s.machine.now s.quantum with phase := .running } :=
    Job.serve_ok harrival hcpu hcount
  have hnew : i ∉ started.ready.slots := by
    rw [hstarted.slots]
    exact hfresh
  have hin' : ∀ k ∈ started.ready.slots, ∃ other, started.jobs[k]? = some other := by
    intro k hk
    rw [hstarted.slots] at hk
    rw [hstarted.others k (hne k hk)]
    exact hin k hk
  rcases Machine.accrueWaiting_setJob hstarted.job
    { job.served s.machine.now s.quantum with phase := .running } (job.share s.quantum)
    hstarted.consistent hnew hin' with ⟨jobs, hsize, hserved, hwaited, huntouched, hwait⟩
  rw [hstarted.slots] at hwaited huntouched
  refine ⟨{ s with
    machine := ({ started with jobs } : Machine).advance (job.share s.quantum)
    touched := some i }.emit s.machine.now
      (.dispatched job.pid (job.share s.quantum) job.response.isNone), ?_, ?_⟩
  · simp only [dispatch, hstart, Fault.ok_bind, Machine.job_eq_ok_iff.2 hstarted.job, hstarted.now]
    rw [hserve, Fault.ok_bind]
    change ((started.setJob i _).accrueWaiting (job.share s.quantum) >>= _) = _
    rw [hwait, Fault.ok_bind, ← hstarted.now]
    rfl
  · exact {
      now := congrArg (·.satAdd (job.share s.quantum)) hstarted.now
      current := hstarted.current
      finished := hstarted.finished
      size := hsize.trans hstarted.size
      slots := hstarted.slots
      consistent := hstarted.consistent
      served := hserved
      waited := by
        intro k hk
        rw [← hstarted.others k (hne k hk)]
        exact hwaited k hk
      untouched := by
        intro k hk hout
        rw [← hstarted.others k hk]
        exact huntouched k hk hout
      preemptions := rfl
      touched := rfl
      emitted := ⟨rfl, Array.toList_push, rfl⟩ }

theorem dispatch_nil (hfree : s.machine.current = none) (hslots : s.machine.ready.slots = []) :
    s.dispatch = .ok none := by
  simp only [dispatch, Machine.startNext_nil hfree hslots, Fault.ok_bind]
  rfl

/-- What is left by the end of a slice of the job on the processor. -/
structure Released (s s' : Scheduler) (i : Nat) (job : Job) : Prop where
  now : s'.machine.now = s.machine.now
  current : s'.machine.current = none
  finished : s'.machine.finished = s.machine.finished + (if job.remaining = 0 then 1 else 0)
  size : s'.machine.jobs.size = s.machine.jobs.size
  slots : s'.machine.ready.slots =
    s.machine.ready.slots ++ (if job.remaining = 0 then [] else [i])
  consistent : s'.machine.ready.Consistent
  jobs : ∀ k, s'.machine.jobs[k]? =
    if k = i then some (job.leave s.machine.now) else s.machine.jobs[k]?
  preemptions : s'.preemptions = s.preemptions + (if job.remaining = 0 then 0 else 1)
  touched : s'.touched = s.touched
  emitted : Emitted s s' [{ time := s.machine.now, event := job.closing }]

theorem finishSlice_released {response : Ticks} (hcurrent : s.machine.current = some i)
    (hjob : s.machine.jobs[i]? = some job) (hresponse : job.response = some response)
    (hq : s.machine.ready.Consistent) (hnew : i ∉ s.machine.ready.slots)
    (hfinished : s.machine.finished.toNat + 1 < UInt64.size)
    (hpreemptions : s.preemptions.toNat + 1 < UInt64.size) :
    ∃ retired s', s.finishSlice = .ok (retired, s') ∧ Released s s' i job := by
  by_cases hwork : job.remaining = 0
  · have hretire := Machine.retireCurrent_eq_ok hcurrent hjob hwork hfinished
    refine ⟨some i, { s with machine := {
      s.machine.setJob i { job with phase := .finished, completion := some s.machine.now } with
        current := none, finished := s.machine.finished + 1 } }.emit s.machine.now
          (.retired job.pid job.waiting response), ?_, ?_⟩
    · simp only [finishSlice, hcurrent, Machine.job_eq_ok_iff.2 hjob, Fault.ok_bind, if_pos hwork,
        hresponse, hretire]
      rfl
    · exact {
        now := rfl
        current := rfl
        finished := by rw [if_pos hwork]; rfl
        size := Machine.size_setJob
        slots := by rw [if_pos hwork, List.append_nil]; rfl
        consistent := hq
        jobs := by
          rw [Job.leave, if_pos hwork]
          exact Machine.getElem?_setJob hjob _
        preemptions := by rw [if_pos hwork, UInt64.add_zero]; rfl
        touched := rfl
        emitted := by
          rw [Job.closing, if_pos hwork, hresponse]
          exact ⟨rfl, Array.toList_push, rfl⟩ }
  · obtain ⟨ready, hslots, hready, hrequeue⟩ :=
      Machine.requeueCurrent_eq_ok hcurrent hjob hwork hq hnew
    have hcount : s.preemptions.addChecked 1 = .ok (s.preemptions + 1) := by
      rw [Word.addChecked_eq_ok_iff, Word.toNat_add_of_lt hpreemptions]
    refine ⟨none, _, by
      simp only [finishSlice, hcurrent, Machine.job_eq_ok_iff.2 hjob, Fault.ok_bind, if_neg hwork,
        hrequeue, hcount]
      rfl, ?_⟩
    exact {
      now := rfl
      current := rfl
      finished := by rw [if_neg hwork, UInt64.add_zero]; rfl
      size := Machine.size_setJob
      slots := by rw [if_neg hwork]; exact hslots
      consistent := hready
      jobs := by
        rw [Job.leave, if_neg hwork]
        exact Machine.getElem?_setJob hjob _
      preemptions := by rw [if_neg hwork]; rfl
      touched := rfl
      emitted := by
        rw [Job.closing, if_neg hwork]
        exact ⟨rfl, Array.toList_push, rfl⟩ }

/-- What is left by a skip to a later instant. -/
structure Skipped (s s' : Scheduler) (target : Ticks) : Prop where
  machine : s'.machine = { s.machine with now := target }
  preemptions : s'.preemptions = s.preemptions
  touched : s'.touched = s.touched
  emitted : Emitted s s' [{ time := s.machine.now, event := .idle target }]

theorem idleUntil_skipped {target : Ticks} (hslots : s.machine.ready.slots = [])
    (hlater : s.machine.now < target) :
    ∃ s', s.idleUntil target = .ok s' ∧ Skipped s s' target := by
  have hempty : s.machine.ready.isEmpty = true := by
    rw [ReadyQueue.isEmpty, hslots]
    rfl
  refine ⟨_, by
    simp only [idleUntil, Fault.require_of hempty, Fault.require_of hlater, Fault.ok_bind]
    rfl, ?_⟩
  have hlater' := UInt64.lt_iff_toNat_lt.1 hlater
  have hsub := UInt64.toNat_sub_of_le _ _ (UInt64.le_of_lt hlater)
  have hbound := target.toNat_lt_size
  have hnow : s.machine.now.satAdd (target - s.machine.now) = target := by
    rw [← UInt64.toNat_inj, Word.toNat_satAdd, hsub]
    omega
  exact {
    machine := by
      change s.machine.advance (target - s.machine.now) = _
      rw [Machine.advance, hnow]
    preemptions := rfl
    touched := rfl
    emitted := ⟨rfl, Array.toList_push, rfl⟩ }

/-- Observing fails when the step counter is full. -/
theorem steps_lt_of_observe {s' : Scheduler} (h : s.observe = .ok s') :
    s.monitor.steps.toNat + 1 < UInt64.size := by
  simp only [observe, Monitor.observe, Fault.bind_eq_ok_iff, Word.addChecked_eq_ok_iff] at h
  obtain ⟨_, ⟨steps, hsteps, _⟩, _⟩ := h
  have := steps.toNat_lt_size
  rw [UInt64.toNat_one] at hsteps
  omega

end Scheduler

end RoundRobin
