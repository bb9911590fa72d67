import RoundRobin.Proofs.EventStream
import RoundRobin.Run

/-!
# Identifiers are labels

Nothing in a run looks at an identifier. A change of all identifiers therefore commutes with every
operation, whether the operation succeeds or faults, and with steps and runs of any length: this
holds for any map of identifiers and from any state. Only the contract compares identifiers, and for
that the map has to keep those of the list apart. Main statement: `run_renamed`.
-/

namespace RoundRobin

/-- The process with its identifier changed. -/
def Process.rename (f : Pid → Pid) (p : Process) : Process :=
  { p with pid := f p.pid }

/-- The processes with their identifiers changed. -/
def ProcessList.rename (f : Pid → Pid) (ps : ProcessList) : ProcessList :=
  ps.map (Process.rename f)

/-- The job with its identifier changed. -/
def Job.rename (f : Pid → Pid) (job : Job) : Job :=
  { job with pid := f job.pid }

/-- The event with its identifier changed, if it has one. -/
def Event.rename (f : Pid → Pid) : Event → Event
  | admitted pid => admitted (f pid)
  | dispatched pid slice firstRun => dispatched (f pid) slice firstRun
  | preempted pid remaining => preempted (f pid) remaining
  | retired pid waiting response => retired (f pid) waiting response
  | idle target => idle target

/-- The event with its identifier changed, at the same instant. -/
def Stamped.rename (f : Pid → Pid) (e : Stamped) : Stamped :=
  { e with event := e.event.rename f }

/-- The times of a process with its identifier changed. -/
def Timing.rename (f : Pid → Pid) (timing : Timing) : Timing :=
  { timing with pid := f timing.pid }

/-- The report with the identifiers changed. -/
def Report.rename (f : Pid → Pid) (report : Report) : Report :=
  { report with timings := report.timings.map (Timing.rename f) }

/-- The machine with the identifiers of its jobs changed. -/
def Machine.rename (f : Pid → Pid) (m : Machine) : Machine :=
  { m with jobs := m.jobs.map (Job.rename f) }

/-- The monitor with the identifiers in its trace changed. -/
def Monitor.rename (f : Pid → Pid) (monitor : Monitor) : Monitor :=
  { monitor with trace := monitor.trace.map (·.map (Stamped.rename f)) }

/-- The scheduler with all identifiers changed. -/
def Scheduler.rename (f : Pid → Pid) (s : Scheduler) : Scheduler :=
  { s with
    machine := s.machine.rename f
    monitor := s.monitor.rename f
    pending := s.pending.map (Stamped.rename f) }

/-- The simulation with all identifiers changed. -/
def Simulation.rename (f : Pid → Pid) (s : Simulation) : Simulation :=
  { s with
    scheduler := s.scheduler.rename f
    processes := s.processes.map (Process.rename f) }

variable (f : Pid → Pid)

theorem Job.serve_rename (job : Job) (now quantum : Ticks) :
    (job.rename f).serve now quantum = (job.serve now quantum).map (Job.rename f) := by
  simp only [serve, Fault.map_bind]
  exact bind_congr fun response => bind_congr fun cpuTime => bind_congr fun dispatches => rfl

namespace Machine

theorem job_rename (m : Machine) (i : Nat) :
    (m.rename f).job i = (m.job i).map (Job.rename f) := by
  simp only [job, rename, Array.getElem?_map, Array.size_map]
  cases m.jobs[i]? <;> rfl

theorem setJob_rename (m : Machine) (i : Nat) (job : Job) :
    (m.rename f).setJob i (job.rename f) = (m.setJob i job).rename f := by
  simp only [setJob, rename, Array.map_setIfInBounds]

theorem updateJob_wait_rename (m : Machine) (i : Nat) (delta : Ticks) :
    (m.rename f).updateJob i (·.wait delta) = (m.updateJob i (·.wait delta)).map (rename f) := by
  simp only [updateJob, job_rename, Fault.map_bind, Fault.bind_map]
  exact bind_congr fun job => congrArg Except.ok (setJob_rename f m i (job.wait delta))

theorem admitJob_rename (m : Machine) (i : Nat) :
    (m.rename f).admitJob i = (m.admitJob i).map (rename f) := by
  simp only [admitJob, job_rename, Fault.map_bind, Fault.bind_map]
  refine bind_congr fun job => bind_congr fun _ => bind_congr fun ready => ?_
  exact congrArg (fun m : Machine => Except.ok { m with ready })
    (setJob_rename f m i { job with phase := .ready })

theorem startNext_rename (m : Machine) :
    (m.rename f).startNext =
      m.startNext.map (Option.map fun (i, m) => (i, m.rename f)) := by
  simp only [startNext, Fault.map_bind]
  refine bind_congr fun _ => bind_congr fun popped => ?_
  cases popped with
  | none => rfl
  | some popped =>
    obtain ⟨i, ready⟩ := popped
    simp only [job_rename, Fault.map_bind, Fault.bind_map]
    refine bind_congr fun job => ?_
    exact congrArg (fun m : Machine => Except.ok (some (i, { m with ready, current := some i })))
      (setJob_rename f m i { job with phase := .running })

theorem accrueWaiting_rename (m : Machine) (delta : Ticks) :
    (m.rename f).accrueWaiting delta = (m.accrueWaiting delta).map (rename f) := by
  have hfold : ∀ slots : List Nat,
      slots.foldlM (fun (m : Machine) i => m.updateJob i (·.wait delta)) (m.rename f) =
        (slots.foldlM (fun (m : Machine) i => m.updateJob i (·.wait delta)) m).map (rename f) := by
    intro slots
    induction slots generalizing m with
    | nil => rfl
    | cons i slots ih =>
      rw [List.foldlM_cons, List.foldlM_cons, updateJob_wait_rename, Fault.bind_map,
        Fault.map_bind]
      exact bind_congr fun next => ih next
  exact hfold m.ready.slots

theorem requeueCurrent_rename (m : Machine) :
    (m.rename f).requeueCurrent = m.requeueCurrent.map (rename f) := by
  unfold requeueCurrent
  rw [show (m.rename f).current = m.current from rfl]
  cases m.current with
  | none => rfl
  | some i =>
    simp only [job_rename, Fault.map_bind, Fault.bind_map]
    refine bind_congr fun job => bind_congr fun _ => bind_congr fun ready => ?_
    exact congrArg (fun m : Machine => Except.ok { m with ready, current := none })
      (setJob_rename f m i { job with phase := .ready })

theorem retireCurrent_rename (m : Machine) :
    (m.rename f).retireCurrent = m.retireCurrent.map fun (i, m) => (i, m.rename f) := by
  unfold retireCurrent
  rw [show (m.rename f).current = m.current from rfl]
  cases m.current with
  | none => rfl
  | some i =>
    simp only [job_rename, Fault.map_bind, Fault.bind_map]
    refine bind_congr fun job => bind_congr fun _ => bind_congr fun finished => ?_
    exact congrArg (fun m : Machine => Except.ok (i, { m with current := none, finished }))
      (setJob_rename f m i { job with phase := .finished, completion := some m.now })

theorem auditCurrent_rename (m : Machine) : (m.rename f).auditCurrent = m.auditCurrent := by
  unfold auditCurrent
  rw [show (m.rename f).current = m.current from rfl]
  cases m.current with
  | none => rfl
  | some i =>
    simp only [job_rename, Fault.bind_map]
    rfl

theorem auditQueued_rename (m : Machine) (i : Nat) :
    (m.rename f).auditQueued i = m.auditQueued i := by
  simp only [auditQueued, job_rename, Fault.bind_map]
  rfl

theorem auditAccount_rename (m : Machine) (i : Nat) :
    (m.rename f).auditAccount i = m.auditAccount i := by
  simp only [auditAccount, job_rename, Fault.bind_map]
  rfl

theorem remainingWork_rename (m : Machine) : (m.rename f).remainingWork = m.remainingWork := by
  simp only [remainingWork, remainders, rename, Array.toList_map, List.map_map]
  rfl

/-- An audit finds the same, since no audit names an identifier. -/
theorem audit_rename (m : Machine) (touched : Option Nat) :
    (m.rename f).audit touched = m.audit touched := by
  have hqueue : (m.rename f).auditQueue = m.auditQueue := by
    rw [auditQueue, auditQueue, show (m.rename f).auditQueued = m.auditQueued from
      funext (auditQueued_rename f m)]
    rfl
  unfold audit
  rw [auditCurrent_rename, hqueue]
  refine bind_congr fun _ => bind_congr fun _ => ?_
  cases touched with
  | none => rfl
  | some i => exact auditAccount_rename f m i

end Machine

theorem Monitor.emit_rename (monitor : Monitor) (e : Stamped) :
    (monitor.rename f).emit (e.rename f) = (monitor.emit e).rename f := by
  unfold emit rename
  cases monitor.trace <;> simp

theorem Monitor.observe_rename (monitor : Monitor) (m : Machine) (touched : Option Nat) :
    (monitor.rename f).observe (m.rename f) touched =
      (monitor.observe m touched).map (Monitor.rename f) := by
  have hchecks : (monitor.rename f).checks = monitor.checks := rfl
  simp only [observe, Machine.audit_rename, Fault.map_bind, hchecks]
  refine bind_congr fun steps => ?_
  cases monitor.checks with
  | false => rfl
  | true =>
    simp only [if_true, Fault.map_bind]
    rfl

namespace Scheduler

theorem emit_rename (s : Scheduler) (time : Ticks) (event : Event) :
    (s.rename f).emit time (event.rename f) = (s.emit time event).rename f := by
  have hmonitor := Monitor.emit_rename f s.monitor { time, event }
  simp only [emit, rename, Array.map_push, Stamped.rename] at hmonitor ⊢
  rw [hmonitor]

theorem admitJob_rename (s : Scheduler) (i : Nat) (time : Ticks) :
    (s.rename f).admitJob i time = (s.admitJob i time).map (rename f) := by
  have hmachine : (s.rename f).machine = s.machine.rename f := rfl
  simp only [admitJob, hmachine, Machine.admitJob_rename, Machine.job_rename, Fault.map_bind,
    Fault.bind_map]
  refine bind_congr fun machine => bind_congr fun job => ?_
  exact congrArg Except.ok (emit_rename f { s with machine } time (.admitted job.pid))

theorem dispatch_rename (s : Scheduler) :
    (s.rename f).dispatch =
      s.dispatch.map (Option.map fun (slice, s) => (slice, s.rename f)) := by
  have hmachine : (s.rename f).machine = s.machine.rename f := rfl
  simp only [dispatch, hmachine, Machine.startNext_rename, Fault.map_bind, Fault.bind_map]
  refine bind_congr fun started => ?_
  cases started with
  | none => rfl
  | some started =>
    obtain ⟨i, machine⟩ := started
    simp only [Option.map_some, Machine.job_rename, Fault.map_bind, Fault.bind_map]
    refine bind_congr fun job => ?_
    -- the share and the clock are read off what the map leaves as it is
    change (job.rename f).serve machine.now s.quantum >>= _ = _
    rw [Job.serve_rename, Fault.bind_map]
    refine bind_congr fun served => ?_
    rw [Machine.setJob_rename]
    change ((machine.setJob i served).rename f).accrueWaiting (job.share s.quantum) >>= _ = _
    rw [Machine.accrueWaiting_rename, Fault.bind_map]
    refine bind_congr fun waited => ?_
    exact congrArg (fun s => Except.ok (some (_, s))) (emit_rename f
      { s with machine := waited.advance (job.share s.quantum), touched := some i } machine.now
      (.dispatched job.pid (job.share s.quantum) job.response.isNone))

theorem finishSlice_rename (s : Scheduler) :
    (s.rename f).finishSlice =
      s.finishSlice.map fun (retired, s) => (retired, s.rename f) := by
  have hmachine : (s.rename f).machine = s.machine.rename f := rfl
  have hcurrent : (s.machine.rename f).current = s.machine.current := rfl
  unfold finishSlice
  rw [hmachine, hcurrent]
  cases s.machine.current with
  | none => rfl
  | some i =>
    simp only [Machine.job_rename, Fault.map_bind, Fault.bind_map]
    refine bind_congr fun job => ?_
    have hremaining : (job.rename f).remaining = job.remaining := rfl
    have hresponse : (job.rename f).response = job.response := rfl
    rw [hremaining, hresponse]
    by_cases hwork : job.remaining = 0
    · rw [if_pos hwork, if_pos hwork]
      cases job.response with
      | none => rfl
      | some response =>
        simp only [Machine.retireCurrent_rename, Fault.map_bind, Fault.bind_map]
        refine bind_congr fun retired => ?_
        exact congrArg (fun s => Except.ok (_, s))
          (emit_rename f { s with machine := retired.2 } _ (.retired job.pid job.waiting response))
    · rw [if_neg hwork, if_neg hwork]
      simp only [Machine.requeueCurrent_rename, Fault.map_bind, Fault.bind_map]
      refine bind_congr fun machine => bind_congr fun preemptions => ?_
      exact congrArg (fun s => Except.ok (_, s)) (emit_rename f
        { s with machine, preemptions } _ (.preempted job.pid job.remaining))

theorem idleUntil_rename (s : Scheduler) (target : Ticks) :
    (s.rename f).idleUntil target = (s.idleUntil target).map (rename f) := by
  simp only [idleUntil, Fault.map_bind]
  refine bind_congr fun _ => bind_congr fun _ => ?_
  exact congrArg Except.ok (emit_rename f
    { s with machine := s.machine.advance (target - s.machine.now) } _ (.idle target))

theorem observe_rename (s : Scheduler) : (s.rename f).observe = s.observe.map (rename f) := by
  simp only [observe, Fault.map_bind]
  change (s.monitor.rename f).observe (s.machine.rename f) s.touched >>= _ = _
  rw [Monitor.observe_rename, Fault.bind_map]
  rfl

theorem drain_rename (s : Scheduler) :
    (s.rename f).drain = (s.drain.1.map (Stamped.rename f), s.drain.2.rename f) := by
  simp only [drain, rename, Array.map_empty]

end Scheduler

namespace Simulation

theorem next?_rename (s : Simulation) : (s.rename f).next? = s.next?.map (Process.rename f) :=
  Array.getElem?_map

theorem size_processes_rename (s : Simulation) :
    (s.rename f).processes.size = s.processes.size :=
  Array.size_map

theorem admitUpTo_rename (arrived : Ticks → Bool) (limit : Nat) (s : Simulation) :
    (s.rename f).admitUpTo arrived limit = (s.admitUpTo arrived limit).map (rename f) := by
  induction limit generalizing s with
  | zero => rfl
  | succ limit ih =>
    unfold admitUpTo
    rw [next?_rename]
    cases s.next? with
    | none => rfl
    | some p =>
      have harrival : (p.rename f).arrival = p.arrival := rfl
      simp only [Option.map_some, harrival]
      by_cases htime : arrived p.arrival = true
      · rw [if_pos htime, if_pos htime, Fault.map_bind]
        change (s.scheduler.rename f).admitJob s.admitted p.arrival >>= _ = _
        rw [Scheduler.admitJob_rename, Fault.bind_map]
        exact bind_congr fun scheduler => ih { s with scheduler, admitted := s.admitted + 1 }
      · rw [if_neg htime, if_neg htime]
        rfl

theorem admitWhile_rename (arrived : Ticks → Bool) (s : Simulation) :
    (s.rename f).admitWhile arrived = (s.admitWhile arrived).map (rename f) := by
  rw [admitWhile, size_processes_rename]
  exact admitUpTo_rename f arrived _ s

theorem nextArrival_rename (s : Simulation) : (s.rename f).nextArrival = s.nextArrival := by
  unfold nextArrival
  rw [next?_rename, size_processes_rename]
  cases s.next? <;> rfl

theorem endSlice_rename (s : Simulation) (slice : Slice) :
    (s.rename f).endSlice slice = (s.endSlice slice).map (rename f) := by
  simp only [endSlice, admitWhile_rename, Fault.map_bind, Fault.bind_map]
  refine bind_congr fun late => ?_
  change (late.scheduler.rename f).finishSlice >>= _ = _
  rw [Scheduler.finishSlice_rename, Fault.bind_map]
  rfl

theorem skipGap_rename (s : Simulation) : (s.rename f).skipGap = s.skipGap.map (rename f) := by
  simp only [skipGap, nextArrival_rename, Fault.map_bind]
  refine bind_congr fun target => ?_
  change (s.scheduler.rename f).idleUntil target >>= _ = _
  rw [Scheduler.idleUntil_rename, Fault.bind_map]
  rfl

theorem proceed_rename (s : Simulation) : (s.rename f).proceed = s.proceed.map (rename f) := by
  simp only [proceed, admitWhile_rename, Fault.map_bind, Fault.bind_map]
  change s.admitWhile (· ≤ s.scheduler.machine.now) >>= _ = _
  refine bind_congr fun mid => ?_
  change (mid.scheduler.rename f).dispatch >>= _ = _
  rw [Scheduler.dispatch_rename, Fault.bind_map]
  refine bind_congr fun dispatched => ?_
  cases dispatched with
  | none => exact skipGap_rename f mid
  | some dispatched => exact endSlice_rename f { mid with scheduler := dispatched.2 } dispatched.1

theorem allCompleted_rename (s : Simulation) : (s.rename f).allCompleted = s.allCompleted := by
  have hsize : (s.rename f).scheduler.machine.jobs.size = s.scheduler.machine.jobs.size :=
    Array.size_map
  rw [allCompleted, Machine.allFinished, hsize]
  rfl

/-- A step commutes with a change of identifiers. -/
theorem step_rename (s : Simulation) :
    (s.rename f).step =
      s.step.map fun (events, s) => (events.map (Stamped.rename f), s.rename f) := by
  unfold step
  rw [allCompleted_rename]
  cases s.allCompleted with
  | true => simp only [if_true, Except.map, Array.map_empty]
  | false =>
    simp only [Bool.false_eq_true, if_false, proceed_rename, Fault.map_bind, Fault.bind_map]
    refine bind_congr fun left => ?_
    change (left.scheduler.rename f).observe >>= _ = _
    rw [Scheduler.observe_rename, Fault.bind_map]
    refine bind_congr fun scheduler => ?_
    rw [Scheduler.drain_rename]
    rfl

theorem stepsAfter_rename (events : Array Stamped) (s : Simulation) (n : Nat) :
    stepsAfter (events.map (Stamped.rename f)) (s.rename f) n =
      (stepsAfter events s n).map fun (events, s) =>
        (events.map (Stamped.rename f), s.rename f) := by
  induction n generalizing events s with
  | zero => rfl
  | succ n ih =>
    rw [stepsAfter, stepsAfter, step_rename, Fault.bind_map, Fault.map_bind]
    refine bind_congr fun result => ?_
    simp only [← Array.map_append]
    exact ih (events ++ result.1) result.2

/-- Any number of steps commutes with a change of identifiers. -/
theorem steps_rename (s : Simulation) (n : Nat) :
    (s.rename f).steps n =
      (s.steps n).map fun (events, s) => (events.map (Stamped.rename f), s.rename f) := by
  have h := stepsAfter_rename f #[] s n
  rwa [Array.map_empty] at h

theorem work_rename (s : Simulation) : (s.rename f).work = s.work := by
  have hgap : (s.rename f).gapAhead = s.gapAhead := by
    unfold gapAhead
    rw [next?_rename]
    cases s.next? <;> rfl
  have hwork : (s.rename f).scheduler.machine.remainingWork =
      s.scheduler.machine.remainingWork := s.scheduler.machine.remainingWork_rename f
  rw [work, hgap, size_processes_rename, hwork]
  rfl

theorem completeWithin_rename (s : Simulation) (limit : Nat) :
    (s.rename f).completeWithin limit = (s.completeWithin limit).map (rename f) := by
  induction limit generalizing s with
  | zero => rfl
  | succ limit ih =>
    unfold completeWithin
    rw [allCompleted_rename]
    cases s.allCompleted with
    | true => rfl
    | false =>
      simp only [Bool.false_eq_true, if_false, step_rename, Fault.map_bind, Fault.bind_map]
      exact bind_congr fun result => ih result.2

end Simulation

theorem Job.timing_rename (job : Job) :
    (job.rename f).timing = job.timing.map (Timing.rename f) := by
  obtain ⟨pid, phase, arrival, burst, remaining, waiting, response, cpuTime, dispatches,
    completion⟩ := job
  cases response with
  | none => rfl
  | some response => cases completion <;> rfl

theorem Report.ofTimings_rename (timings : List Timing) (preemptions : Count) :
    ofTimings (timings.map (Timing.rename f)) preemptions =
      (ofTimings timings preemptions).map (rename f) := by
  have hlast : lastCompletion (timings.map (Timing.rename f)) = lastCompletion timings :=
    List.foldl_map
  simp only [ofTimings, List.map_map, hlast, Fault.map_bind]
  rfl

theorem Report.ofJobs_rename (jobs : List Job) (preemptions : Count) :
    ofJobs (jobs.map (Job.rename f)) preemptions = (ofJobs jobs preemptions).map (rename f) := by
  have htimings : (jobs.map (Job.rename f)).mapM Job.timing =
      (jobs.mapM Job.timing).map (List.map (Timing.rename f)) := by
    induction jobs with
    | nil => rfl
    | cons job jobs ih =>
      simp only [List.map_cons, List.mapM_cons, Job.timing_rename, ih, Fault.map_bind,
        Fault.bind_map]
      rfl
  rw [ofJobs, htimings, Fault.bind_map, ofJobs, Fault.map_bind]
  exact bind_congr fun timings => ofTimings_rename f timings preemptions

namespace Simulation

/-- A complete run commutes with a change of identifiers, and so does its report. -/
theorem run_rename (s : Simulation) : (s.rename f).run = s.run.map (Report.rename f) := by
  rw [run, complete, work_rename, completeWithin_rename, Fault.bind_map, run, Fault.map_bind]
  refine bind_congr fun s => ?_
  have hjobs : (s.rename f).scheduler.machine.jobs.toList =
      s.scheduler.machine.jobs.toList.map (Job.rename f) := Array.toList_map
  rw [report, hjobs]
  exact Report.ofJobs_rename f _ _

theorem tracedIf_rename (s : Simulation) (trace : Bool) :
    (s.rename f).tracedIf trace = (s.tracedIf trace).rename f := by
  cases trace with
  | false => rfl
  | true => simp only [tracedIf, traced, rename, Scheduler.rename, Monitor.rename, Monitor.traced,
      if_true, Option.map_some, Array.map_empty]

end Simulation

variable {f} {ps : ProcessList}

/-- A list keeps the contract under new identifiers that keep its processes apart. -/
theorem Contract.Kept.rename (h : Kept ps)
    (hf : ∀ p ∈ ps, ∀ q ∈ ps, f p.pid = f q.pid → p.pid = q.pid) :
    Kept (ProcessList.rename f ps) where
  ne_nil := fun hnil => h.ne_nil (List.map_eq_nil_iff.1 hnil)
  sorted := List.pairwise_map.2 h.sorted
  burst_pos := List.forall_mem_map.2 h.burst_pos
  distinct := by
    rw [ProcessList.rename, List.pairwise_map]
    exact h.distinct.imp_of_mem fun hp hq hne heq => hne (hf _ hp _ hq heq)

namespace Simulation

variable {config : Config} {s : Simulation}

/-- The list with new identifiers is accepted too, and starts the simulation with these
identifiers. -/
theorem start_rename (hstart : start ps config = .ok s)
    (hf : ∀ p ∈ ps, ∀ q ∈ ps, f p.pid = f q.pid → p.pid = q.pid) :
    start (ProcessList.rename f ps) config = .ok (s.rename f) := by
  obtain ⟨hquantum, hkept, rfl⟩ := start_eq_ok_iff.1 hstart
  refine start_eq_ok_iff.2 ⟨hquantum, hkept.rename hf, ?_⟩
  -- a job is made of its process field by field, so the two changes commute
  have hjobs : (List.map Job.ofProcess ps).toArray.map (Job.rename f) =
      (List.map Job.ofProcess (ProcessList.rename f ps)).toArray := by
    rw [List.map_toArray, List.map_map, ProcessList.rename, List.map_map]
    rfl
  simp only [rename, Scheduler.rename, Scheduler.start, Machine.rename, Machine.ofProcesses,
    Monitor.rename, hjobs, List.map_toArray, Option.map_none]
  rfl

/-- Identifiers are labels only. New identifiers that keep the processes of an accepted list apart
leave it accepted, and the run is that of the list with the identifiers changed: after any number of
steps, with or without a trace, the state and the events are the same up to identifiers, a fault is
the same fault, and a report has the same times and totals. So the processes are admitted in the
order of the list whatever they are called. -/
theorem run_renamed (hstart : start ps config = .ok s)
    (hf : ∀ p ∈ ps, ∀ q ∈ ps, f p.pid = f q.pid → p.pid = q.pid) (trace : Bool) :
    start (ProcessList.rename f ps) config = .ok (s.rename f) ∧
      (∀ n, ((s.rename f).tracedIf trace).steps n =
        ((s.tracedIf trace).steps n).map fun (events, t) =>
          (events.map (Stamped.rename f), t.rename f)) ∧
      ((s.rename f).tracedIf trace).run = (s.tracedIf trace).run.map (Report.rename f) ∧
      ∀ n events t, s.steps n = .ok (events, t) →
        events.toList.filter (·.event.isAdmission) = admissions ps 0 t.admitted := by
  refine ⟨start_rename hstart hf, fun n => ?_, ?_, fun n events t hrun => ?_⟩
  · rw [tracedIf_rename, steps_rename]
  · rw [tracedIf_rename, run_rename]
  · have hreaches := (orderly_start hstart).run (kept_of_start hstart) hrun
    exact (Streamed.reaches hstart hreaches.1).admissions_eq

/-- Two processes arrive together, and the one with the smaller identifier stands behind. -/
def rivals : ProcessList :=
  [{ pid := ⟨5⟩, arrival := 0, burst := 3 }, { pid := ⟨3⟩, arrival := 0, burst := 2 },
    { pid := ⟨2⟩, arrival := 1, burst := 1 }]

/-- The last two bits of an identifier. They keep `rivals` apart, and put the two that arrive
together in the other order. -/
def lastBits (pid : Pid) : Pid :=
  ⟨pid.val % 4⟩

theorem run_renamed_rivals :
    (∀ p ∈ rivals, ∀ q ∈ rivals, lastBits p.pid = lastBits q.pid → p.pid = q.pid) ∧
      ∃ s, start rivals { quantum := 2, checks := true } = .ok s ∧
        start (ProcessList.rename lastBits rivals) { quantum := 2, checks := true } =
          .ok (s.rename lastBits) ∧
        (∀ n, ((s.rename lastBits).tracedIf true).steps n =
          ((s.tracedIf true).steps n).map fun (events, t) =>
            (events.map (Stamped.rename lastBits), t.rename lastBits)) ∧
        ((s.rename lastBits).tracedIf true).run =
          (s.tracedIf true).run.map (Report.rename lastBits) ∧
        ∀ n events t, s.steps n = .ok (events, t) →
          events.toList.filter (·.event.isAdmission) = admissions rivals 0 t.admitted := by
  have hstart : start rivals { quantum := 2, checks := true } = .ok _ := rfl
  have hf : ∀ p ∈ rivals, ∀ q ∈ rivals, lastBits p.pid = lastBits q.pid → p.pid = q.pid := by
    decide
  exact ⟨hf, _, hstart, run_renamed hstart hf true⟩

end Simulation

end RoundRobin
