import RoundRobin.Proofs.Coherence

/-!
# Any client is safe

Whatever a client calls, in any order and with any arguments, either the call is one of the misuses
listed in `Misuse` and faults as it says there, or it succeeds and leaves the state coherent. By
induction on the calls, every state that a client can reach is well formed, and the first fault of a
client is that of a misuse (`any_client_safe`). So none of the faults that only a broken queue, a
broken account or a full counter could cause is within reach.
-/

namespace RoundRobin

namespace Machine

/-- What a client can rely on between calls. The ready jobs are exactly the queued ones. -/
structure WellFormed (ps : ProcessList) (m : Machine) : Prop where
  size : m.jobs.size = ps.length
  queued : ∀ i ∈ m.ready.slots, m.ready.slots.count i = 1 ∧
    ∃ job, m.jobs[i]? = some job ∧ job.phase = .ready ∧ 0 < job.remaining
  ready : ∀ (i : Nat) job, m.jobs[i]? = some job → job.phase = .ready → i ∈ m.ready.slots
  current : ∀ i, m.current = some i → i ∉ m.ready.slots ∧
    ∃ job, m.jobs[i]? = some job ∧ job.phase = .running
  finished : m.finished.toNat = m.jobs.toList.countP (fun job => job.phase = .finished)
  recorded : ∀ (i : Nat) job, m.jobs[i]? = some job → job.phase = .finished →
    job.remaining = 0 ∧ job.response.isSome ∧ job.completion.isSome
  accounts : ∀ (i : Nat) p, ps[i]? = some p → ∃ job, m.jobs[i]? = some job ∧ job.Accounts p

variable {ps : ProcessList} {n : Nat} {m m' : Machine} {call : Call} {fault : Fault}

theorem Coherent.wellFormed (h : m.Coherent ps n) : m.WellFormed ps where
  size := h.size
  queued := by
    intro i hi
    obtain ⟨job, hjob, hphase⟩ := h.job_of_queued hi
    obtain ⟨_, _, _, hstanding, _⟩ := h.of_job hjob
    refine ⟨?_, job, hjob, hphase, hstanding.work (.inr hphase)⟩
    rw [h.consistent.nodup.count, if_pos hi]
  ready := by
    intro i job hjob hphase
    obtain ⟨_, _, _, hstanding, _⟩ := h.of_job hjob
    exact hstanding.queued_iff.2 hphase
  current := by
    intro i hcurrent
    obtain ⟨job, hjob⟩ := h.job_of_lt (h.current_lt i hcurrent)
    obtain ⟨hphase, hnew⟩ := h.running_of_current hcurrent hjob
    exact ⟨hnew, job, hjob, hphase⟩
  finished := h.finished
  recorded := by
    intro i job hjob hphase
    obtain ⟨_, _, _, hstanding, _⟩ := h.of_job hjob
    obtain ⟨hzero, hcompletion⟩ := hstanding.finished hphase
    exact ⟨hzero, hstanding.response hzero, hcompletion⟩
  accounts := by
    intro i p hp
    obtain ⟨job, hjob, haccounts, _⟩ := h.standing i p hp
    exact ⟨job, hjob, haccounts⟩

/-- A misuse faults as it says, in whatever state the machine is. -/
theorem Misuse.apply_eq (h : m.Misuse call fault) : m.apply call = .error fault := by
  cases h with
  | unknownJob hjob =>
    simp only [apply, Machine.admitJob, Machine.job, Array.getElem?_eq_none hjob, Fault.error_bind]
  | admittedTwice hjob hphase =>
    simp only [apply, Machine.admitJob, job_eq_ok_iff.2 hjob, Fault.ok_bind,
      Fault.require_of_not hphase, Fault.error_bind]
  | processorBusy hcurrent =>
    simp only [apply, Machine.startNext, Fault.require_of_not hcurrent, Fault.error_bind]
  | nothingToRequeue hcurrent =>
    simp only [apply, Machine.requeueCurrent, hcurrent]
  | requeuedWithoutWork hcurrent hjob hwork =>
    have hnot : ¬ 0 < (0 : Ticks) := by simp
    simp only [apply, Machine.requeueCurrent, hcurrent, job_eq_ok_iff.2 hjob, Fault.ok_bind, hwork,
      Fault.require_of_not hnot, Fault.error_bind]
  | nothingToRetire hcurrent =>
    simp only [apply, Machine.retireCurrent, hcurrent, Fault.error_bind]
  | retiredWithWork hcurrent hjob hwork =>
    simp only [apply, Machine.retireCurrent, hcurrent, job_eq_ok_iff.2 hjob, Fault.ok_bind,
      Fault.require_of_not hwork, Fault.error_bind]

/-- A call is a misuse, or it succeeds and keeps the machine coherent. -/
theorem Coherent.apply_cases (h : m.Coherent ps n) (hroom : n + 1 < UInt64.size) (call : Call) :
    (∃ fault, m.Misuse call fault) ∨ ∃ m', m.apply call = .ok m' ∧ m'.Coherent ps (n + 1) := by
  have hstill := h.mono (Nat.le_succ n)
  cases call with
  | admitJob i =>
    cases hjob : m.jobs[i]? with
    | none => exact .inl ⟨_, .unknownJob (Array.getElem?_eq_none_iff.1 hjob)⟩
    | some job =>
      by_cases hphase : job.phase = .unarrived
      · exact .inr (h.admitJob hjob hphase)
      · exact .inl ⟨_, .admittedTwice hjob hphase⟩
  | startNext =>
    by_cases hcurrent : m.current = none
    · cases hslots : m.ready.slots with
      | nil => exact .inr ⟨m, by simp only [apply, startNext_nil hcurrent hslots]; rfl, hstill⟩
      | cons i rest =>
        obtain ⟨m', hstart, hm'⟩ := h.startNext hcurrent hslots
        exact .inr ⟨m', by simp only [apply, hstart]; rfl, hm'⟩
    · exact .inl ⟨_, .processorBusy hcurrent⟩
  | requeueCurrent =>
    cases hcurrent : m.current with
    | none => exact .inl ⟨_, .nothingToRequeue hcurrent⟩
    | some i =>
      obtain ⟨job, hjob⟩ := h.job_of_lt (h.current_lt i hcurrent)
      by_cases hwork : job.remaining = 0
      · exact .inl ⟨_, .requeuedWithoutWork hcurrent hjob hwork⟩
      · exact .inr (h.requeueCurrent hcurrent hjob hwork)
  | retireCurrent =>
    cases hcurrent : m.current with
    | none => exact .inl ⟨_, .nothingToRetire hcurrent⟩
    | some i =>
      obtain ⟨job, hjob⟩ := h.job_of_lt (h.current_lt i hcurrent)
      by_cases hwork : job.remaining = 0
      · obtain ⟨m', hretire, hm'⟩ := h.retireCurrent hroom hcurrent hjob hwork
        exact .inr ⟨m', by simp only [apply, hretire]; rfl, hm'⟩
      · exact .inl ⟨_, .retiredWithWork hcurrent hjob hwork⟩
  | accrueWaiting delta => exact .inr (h.accrueWaiting delta)
  | advance delta => exact .inr ⟨_, rfl, h.setNow (Word.le_satAdd m.now delta)⟩

end Machine

namespace Scheduler

/-- What holds of the scheduler of `ps` after a number of calls. -/
structure Coherent (ps : ProcessList) (calls : Nat) (s : Scheduler) : Prop where
  machine : s.machine.Coherent ps calls
  touched_lt : ∀ i, s.touched = some i → i < ps.length
  preemptions_le : s.preemptions.toNat ≤ calls
  steps_le : s.monitor.steps.toNat ≤ calls

variable {ps : ProcessList} {n : Nat} {s s' : Scheduler} {call : Call} {fault : Fault}

theorem coherent_start (hburst : ∀ p ∈ ps, 0 < p.burst) (quantum : Ticks) (hquantum : 0 < quantum)
    (checks : Bool) : (start ps quantum hquantum checks).Coherent ps 0 where
  machine := Machine.coherent_ofProcesses hburst
  touched_lt := by simp [start]
  preemptions_le := by simp [start]
  steps_le := by simp [start]

namespace Coherent

/-- Whatever happens to the machine, an operation that runs no job and counts nothing keeps the rest
of the scheduler. -/
theorem withMachine (h : s.Coherent ps n) {machine : Machine} (hm : machine.Coherent ps (n + 1)) :
    Coherent ps (n + 1) { s with machine } where
  machine := hm
  touched_lt := h.touched_lt
  preemptions_le := Nat.le_succ_of_le h.preemptions_le
  steps_le := Nat.le_succ_of_le h.steps_le

theorem emit (h : s.Coherent ps n) (time : Ticks) (event : Event) :
    (s.emit time event).Coherent ps n :=
  { h with }

/-- The front of the queue runs, if it has arrived. -/
theorem dispatch {i : Nat} {rest : List Nat} {job : Job} (h : s.Coherent ps n)
    (hroom : n + 1 < UInt64.size) (hfree : s.machine.current = none)
    (hslots : s.machine.ready.slots = i :: rest) (hjob : s.machine.jobs[i]? = some job)
    (harrival : job.arrival ≤ s.machine.now) :
    ∃ slice s', s.dispatch = .ok (some (slice, s')) ∧ s'.Coherent ps (n + 1) := by
  obtain ⟨p, hp, haccounts, hstanding, hcount⟩ := h.machine.of_job hjob
  have hcpu : job.cpuTime.toNat + job.remaining.toNat < UInt64.size := by
    rw [haccounts.spent]
    exact p.burst.toNat_lt_size
  have hin : ∀ k ∈ rest, ∃ other, s.machine.jobs[k]? = some other := by
    intro k hk
    exact h.machine.job_of_lt (h.machine.queue_lt k (by simp [hslots, hk]))
  have hdispatches : job.dispatches.toNat + 1 < UInt64.size := by omega
  obtain ⟨s', hdispatch, hs'⟩ := dispatch_dispatched hfree h.machine.consistent hslots hjob hin
    harrival hcpu hdispatches
  have hphase := hstanding.queued_iff.1 (by simp [hslots])
  have hnow : s.machine.now ≤ s'.machine.now := hs'.now ▸ Word.le_satAdd _ _
  have hchanges : s.machine.Changes s'.machine i job
      { job.served s.machine.now s.quantum with phase := .running } := {
    size := hs'.size
    now := hnow
    consistent := hs'.consistent
    old := hjob
    job := hs'.served
    others := by
      intro k other hk hother
      by_cases hrest : k ∈ rest
      · rw [hs'.waited k hrest, hother]
        exact ⟨_, rfl⟩
      · exact ⟨_, (hs'.untouched k hk hrest).trans hother⟩
    queued := fun k hk => by simp [hs'.slots, hslots, hk]
    current := fun k hk => by simp [hs'.current, hfree, Ne.symm hk] }
  have hstanding' : s'.machine.Standing i
      { job.served s.machine.now s.quantum with phase := .running } := {
    queued_iff := by simp [hs'.slots, h.machine.consistent.not_mem_rest hslots]
    current_iff := by simp [hs'.current]
    work := by simp
    response := fun _ => rfl
    finished := by simp
    arrived := fun _ => UInt64.le_trans harrival hnow }
  refine ⟨_, s', hdispatch, ?_⟩
  exact {
    machine := h.machine.changes hchanges (by simp [hphase])
      (fun _ haccounts => { haccounts.served s.machine.now s.quantum hdispatches with })
      hstanding' (Nat.le_of_eq (Word.toNat_add_of_lt hdispatches)) (by simp [hs'.finished])
    touched_lt := by
      simp only [hs'.touched, Option.some.injEq, forall_eq']
      exact (List.getElem?_eq_some_iff.1 hp).1
    preemptions_le := by
      rw [hs'.preemptions]
      exact Nat.le_succ_of_le h.preemptions_le
    steps_le := by
      rw [hs'.emitted.monitor]
      exact Nat.le_succ_of_le h.steps_le }

/-- The end of a slice never faults: the processor is free, or its job goes back into the queue, or
it is done and has been dispatched. -/
theorem finishSlice (h : s.Coherent ps n) (hroom : n + 1 < UInt64.size) :
    ∃ retired s', s.finishSlice = .ok (retired, s') ∧ s'.Coherent ps (n + 1) := by
  cases hcurrent : s.machine.current with
  | none =>
    refine ⟨none, s, by simp only [Scheduler.finishSlice, hcurrent], ?_⟩
    exact h.withMachine (h.machine.mono (Nat.le_succ n))
  | some i =>
    obtain ⟨job, hjob⟩ := h.machine.job_of_lt (h.machine.current_lt i hcurrent)
    by_cases hwork : job.remaining = 0
    · obtain ⟨_, _, _, hstanding, _⟩ := h.machine.of_job hjob
      obtain ⟨response, hresponse⟩ := Option.isSome_iff_exists.1 (hstanding.response hwork)
      obtain ⟨machine, hretire, hm⟩ := h.machine.retireCurrent hroom hcurrent hjob hwork
      refine ⟨some i, _, ?_, (h.withMachine hm).emit s.machine.now
        (.retired job.pid job.waiting response)⟩
      simp only [Scheduler.finishSlice, hcurrent, Machine.job_eq_ok_iff.2 hjob, Fault.ok_bind,
        if_pos hwork, hresponse, hretire]
      rfl
    · obtain ⟨machine, hrequeue, hm⟩ := h.machine.requeueCurrent hcurrent hjob hwork
      have hle := h.preemptions_le
      have hlt : s.preemptions.toNat + 1 < UInt64.size := by omega
      have hcount : s.preemptions.addChecked 1 = .ok (s.preemptions + 1) := by
        rw [Word.addChecked_eq_ok_iff, Word.toNat_add_of_lt hlt]
      have hs' : Coherent ps (n + 1) { s with machine, preemptions := s.preemptions + 1 } :=
        { h.withMachine hm with
          preemptions_le := by
            change (s.preemptions + 1).toNat ≤ n + 1
            rw [Word.toNat_add_of_lt hlt]
            exact Nat.succ_le_succ hle }
      refine ⟨none, _, ?_, hs'.emit s.machine.now (.preempted job.pid job.remaining)⟩
      simp only [Scheduler.finishSlice, hcurrent, Machine.job_eq_ok_iff.2 hjob, Fault.ok_bind,
        if_neg hwork, hrequeue, hcount]
      rfl

theorem idleUntil {target : Ticks} (h : s.Coherent ps n) (hslots : s.machine.ready.slots = [])
    (hlater : s.machine.now < target) :
    ∃ s', s.idleUntil target = .ok s' ∧ s'.Coherent ps (n + 1) := by
  obtain ⟨s', hidle, hs'⟩ := idleUntil_skipped hslots hlater
  refine ⟨s', hidle, ?_⟩
  exact {
    machine := by
      rw [hs'.machine]
      exact h.machine.setNow (UInt64.le_of_lt hlater)
    touched_lt := by
      rw [hs'.touched]
      exact h.touched_lt
    preemptions_le := by
      rw [hs'.preemptions]
      exact Nat.le_succ_of_le h.preemptions_le
    steps_le := by
      rw [hs'.emitted.monitor]
      exact Nat.le_succ_of_le h.steps_le }

/-- An observation that the audit does not stop counts one step. -/
theorem observe (h : s.Coherent ps n) (hroom : n + 1 < UInt64.size)
    (haudit : s.monitor.checks = true → s.machine.audit s.touched = .ok ()) :
    ∃ s', s.observe = .ok s' ∧ s'.Coherent ps (n + 1) := by
  have hle := h.steps_le
  have hlt : s.monitor.steps.toNat + 1 < UInt64.size := by omega
  have hcount : s.monitor.steps.addChecked 1 = .ok (s.monitor.steps + 1) := by
    rw [Word.addChecked_eq_ok_iff, Word.toNat_add_of_lt hlt]
  refine ⟨{ s with
    monitor := { s.monitor with steps := s.monitor.steps + 1 }, touched := none }, ?_, ?_⟩
  · simp only [Scheduler.observe, Monitor.observe, hcount, Fault.ok_bind]
    split
    · next hchecks =>
      rw [haudit hchecks]
      rfl
    · rfl
  · exact {
      machine := h.machine.mono (Nat.le_succ n)
      touched_lt := by simp
      preemptions_le := Nat.le_succ_of_le h.preemptions_le
      steps_le := by
        change (s.monitor.steps + 1).toNat ≤ n + 1
        rw [Word.toNat_add_of_lt hlt]
        exact Nat.succ_le_succ hle }

end Coherent

/-- A misuse faults as it says. The queue has to be intact for the two faults that are about a job
admitted ahead of its arrival. -/
theorem Coherent.apply_misuse (h : s.Coherent ps n) (hroom : n + 1 < UInt64.size)
    (hmisuse : s.Misuse call fault) : s.apply call = .error fault := by
  cases hmisuse with
  | admitJob time hmisuse =>
    have hentry := hmisuse.apply_eq
    rw [Machine.apply] at hentry
    simp only [apply, Scheduler.admitJob, hentry, Fault.error_bind]
  | processorBusy hcurrent =>
    simp only [apply, Scheduler.dispatch, Machine.startNext, Fault.require_of_not hcurrent,
      Fault.error_bind]
  | @dispatchedBeforeArrival i rest job hcurrent hslots hjob hearly =>
    obtain ⟨_, _, _, hstanding, _⟩ := h.machine.of_job hjob
    have hresponse : job.response = none := by
      rw [← Option.not_isSome_iff_eq_none]
      exact fun hsome => UInt64.not_le.2 hearly (hstanding.arrived hsome)
    obtain ⟨m', hstart, hstarted⟩ :=
      Machine.startNext_started hcurrent h.machine.consistent hslots hjob
    have hserve : { job with phase := .running }.serve m'.now s.quantum = .error .subOverflow := by
      apply Job.serve_eq_error
      · exact hresponse
      · rwa [hstarted.now]
    simp only [apply, Scheduler.dispatch, hstart, Fault.ok_bind,
      Machine.job_eq_ok_iff.2 hstarted.job, hserve, Fault.error_bind]
  | idleWhileReady hslots =>
    have hempty : ¬ s.machine.ready.isEmpty = true := by
      simpa [ReadyQueue.isEmpty] using hslots
    simp only [apply, Scheduler.idleUntil, Fault.require_of_not hempty, Fault.error_bind]
  | idleBackwards hslots htarget =>
    have hempty : s.machine.ready.isEmpty = true := by simp [ReadyQueue.isEmpty, hslots]
    simp only [apply, Scheduler.idleUntil, Fault.require_of hempty, Fault.ok_bind,
      Fault.require_of_not (UInt64.not_lt.2 htarget), Fault.error_bind]
  | queuedBeforeArrival hchecks hslots hbefore hjob hearly =>
    have haudit := h.machine.audit_eq_error h.touched_lt hslots hbefore hjob hearly
    have hle := h.steps_le
    have hcount : s.monitor.steps.addChecked 1 = .ok (s.monitor.steps + 1) := by
      rw [Word.addChecked_eq_ok_iff, Word.toNat_add_of_lt (by rw [UInt64.toNat_one]; omega)]
    simp only [apply, Scheduler.observe, Monitor.observe, hcount, Fault.ok_bind, hchecks, if_true,
      haudit, Fault.error_bind]
  | onMachine hmisuse => simp only [apply, hmisuse.apply_eq, Fault.error_bind]

/-- A call is a misuse, or it succeeds and keeps the scheduler coherent. -/
theorem Coherent.apply_cases (h : s.Coherent ps n) (hroom : n + 1 < UInt64.size) (call : Call) :
    (∃ fault, s.Misuse call fault) ∨ ∃ s', s.apply call = .ok s' ∧ s'.Coherent ps (n + 1) := by
  have hstill := h.withMachine (h.machine.mono (Nat.le_succ n))
  cases call with
  | admitJob i time =>
    rcases h.machine.apply_cases hroom (.admitJob i) with ⟨fault, hmisuse⟩ | ⟨machine, hentry, hm⟩
    · exact .inl ⟨fault, .admitJob time hmisuse⟩
    · rw [Machine.apply] at hentry
      have hlt : i < ps.length := by
        obtain ⟨job, hjob, _⟩ := Fault.bind_eq_ok_iff.1 hentry
        rw [← h.machine.size]
        exact (Array.getElem?_eq_some_iff.1 (Machine.job_eq_ok_iff.1 hjob)).1
      obtain ⟨job, hjob⟩ := hm.job_of_lt hlt
      refine .inr ⟨_, ?_, (h.withMachine hm).emit time (.admitted job.pid)⟩
      simp only [apply, Scheduler.admitJob, hentry, Fault.ok_bind, Machine.job_eq_ok_iff.2 hjob]
      rfl
  | dispatch =>
    by_cases hcurrent : s.machine.current = none
    · cases hslots : s.machine.ready.slots with
      | nil => exact .inr ⟨s, by simp only [apply, dispatch_nil hcurrent hslots]; rfl, hstill⟩
      | cons i rest =>
        obtain ⟨job, hjob, _⟩ := h.machine.job_of_queued (i := i) (by simp [hslots])
        by_cases harrival : job.arrival ≤ s.machine.now
        · obtain ⟨slice, s', hdispatch, hs'⟩ :=
            h.dispatch hroom hcurrent hslots hjob harrival
          exact .inr ⟨s', by simp only [apply, hdispatch]; rfl, hs'⟩
        · exact .inl ⟨_, .dispatchedBeforeArrival hcurrent hslots hjob
            (UInt64.not_le.1 harrival)⟩
    · exact .inl ⟨_, .processorBusy hcurrent⟩
  | finishSlice =>
    obtain ⟨retired, s', hfinish, hs'⟩ := h.finishSlice hroom
    exact .inr ⟨s', by simp only [apply, hfinish]; rfl, hs'⟩
  | idleUntil target =>
    by_cases hslots : s.machine.ready.slots = []
    · by_cases hlater : s.machine.now < target
      · exact .inr (h.idleUntil hslots hlater)
      · exact .inl ⟨_, .idleBackwards hslots (UInt64.not_lt.1 hlater)⟩
    · exact .inl ⟨_, .idleWhileReady hslots⟩
  | observe =>
    rcases Machine.queue_cases s.machine s.machine.ready.slots with
      harrived | ⟨before, i, after, job, hslots, hbefore, hjob, hearly⟩
    · exact .inr (h.observe hroom fun _ => h.machine.audit_eq_ok h.touched_lt harrived)
    · by_cases hchecks : s.monitor.checks = true
      · exact .inl ⟨_, .queuedBeforeArrival hchecks hslots hbefore hjob hearly⟩
      · exact .inr (h.observe hroom fun hon => absurd hon hchecks)
  | drain => exact .inr ⟨_, rfl, { hstill with }⟩
  | onMachine call =>
    rcases h.machine.apply_cases hroom call with ⟨fault, hmisuse⟩ | ⟨machine, happly, hm⟩
    · exact .inl ⟨fault, .onMachine hmisuse⟩
    · exact .inr ⟨_, by simp only [apply, happly]; rfl, h.withMachine hm⟩

/-- A call faults exactly if it is a misuse. -/
theorem Coherent.apply_eq_error_iff (h : s.Coherent ps n) (hroom : n + 1 < UInt64.size) :
    s.apply call = .error fault ↔ s.Misuse call fault := by
  refine ⟨fun herror => ?_, h.apply_misuse hroom⟩
  rcases h.apply_cases hroom call with ⟨fault', hmisuse⟩ | ⟨s', hok, _⟩
  · rw [h.apply_misuse hroom hmisuse, Except.error.injEq] at herror
    exact herror ▸ hmisuse
  · simp [hok] at herror

theorem Coherent.apply_ok (h : s.Coherent ps n) (hroom : n + 1 < UInt64.size)
    (hok : s.apply call = .ok s') : s'.Coherent ps (n + 1) := by
  rcases h.apply_cases hroom call with ⟨fault, hmisuse⟩ | ⟨next, hnext, hcoherent⟩
  · simp [h.apply_misuse hroom hmisuse] at hok
  · rw [hok, Except.ok.injEq] at hnext
    exact hnext ▸ hcoherent

/-- Calls that go through keep the scheduler coherent. -/
theorem Coherent.applyAll {calls : List Call} (h : s.Coherent ps n)
    (hroom : n + calls.length < UInt64.size) (hrun : s.applyAll calls = .ok s') :
    s'.Coherent ps (n + calls.length) := by
  induction calls generalizing s n with
  | nil =>
    rw [applyAll_nil, Except.ok.injEq] at hrun
    exact hrun ▸ h
  | cons call calls ih =>
    rw [List.length_cons] at hroom ⊢
    rw [applyAll_cons] at hrun
    obtain ⟨next, hnext, hrest⟩ := Fault.bind_eq_ok_iff.1 hrun
    have hcoherent := h.apply_ok (by omega) hnext
    have hcalls := ih hcoherent (by omega) hrest
    rwa [Nat.add_assoc, Nat.add_comm 1] at hcalls

/-- The first fault of a sequence of calls is that of the call that ends it. -/
theorem applyAll_eq_error_iff {calls : List Call} :
    s.applyAll calls = .error fault ↔ ∃ before call after s',
      calls = before ++ call :: after ∧ s.applyAll before = .ok s' ∧
        s'.apply call = .error fault := by
  induction calls generalizing s with
  | nil => simp [applyAll_nil]
  | cons call calls ih =>
    rw [applyAll_cons]
    cases hcall : s.apply call with
    | error fault' =>
      rw [Fault.error_bind, Except.error.injEq]
      constructor
      · rintro rfl
        exact ⟨[], call, calls, s, rfl, rfl, hcall⟩
      · rintro ⟨before, call', after, s', hsplit, hbefore, herror⟩
        cases before with
        | nil =>
          rw [List.nil_append, List.cons.injEq] at hsplit
          rw [applyAll_nil, Except.ok.injEq] at hbefore
          rw [← hbefore, ← hsplit.1, hcall, Except.error.injEq] at herror
          exact herror
        | cons first before =>
          rw [List.cons_append, List.cons.injEq] at hsplit
          simp [applyAll_cons, ← hsplit.1, hcall, Fault.error_bind] at hbefore
    | ok next =>
      rw [Fault.ok_bind, ih]
      constructor
      · rintro ⟨before, call', after, s', rfl, hbefore, herror⟩
        refine ⟨call :: before, call', after, s', rfl, ?_, herror⟩
        rw [applyAll_cons, hcall]
        exact hbefore
      · rintro ⟨before, call', after, s', hsplit, hbefore, herror⟩
        cases before with
        | nil =>
          rw [List.nil_append, List.cons.injEq] at hsplit
          rw [applyAll_nil, Except.ok.injEq] at hbefore
          simp [← hbefore, ← hsplit.1, hcall] at herror
        | cons first before =>
          rw [List.cons_append, List.cons.injEq] at hsplit
          obtain ⟨rfl, rfl⟩ := hsplit
          rw [applyAll_cons, hcall, Fault.ok_bind] at hbefore
          exact ⟨before, call', after, s', rfl, hbefore, herror⟩

/-- Fewer than `2 ^ 64` calls by any client, in any order and with any arguments: as long as they go
through, the machine is well formed. They fault exactly if, after some of them have gone through,
the next one is a misuse, and then with the fault of that misuse. -/
theorem any_client_safe {ps : ProcessList} (hburst : ∀ p ∈ ps, 0 < p.burst) (quantum : Ticks)
    (hquantum : 0 < quantum) (checks : Bool) (calls : List Call)
    (hcalls : calls.length < UInt64.size) :
    (∀ s, (start ps quantum hquantum checks).applyAll calls = .ok s → s.machine.WellFormed ps) ∧
      ∀ fault, (start ps quantum hquantum checks).applyAll calls = .error fault ↔
        ∃ before call after s, calls = before ++ call :: after ∧
          (start ps quantum hquantum checks).applyAll before = .ok s ∧ s.Misuse call fault := by
  have hstart := coherent_start hburst quantum hquantum checks
  constructor
  · intro s hrun
    have hs := hstart.applyAll (by omega) hrun
    exact hs.machine.wellFormed
  · intro fault
    rw [applyAll_eq_error_iff]
    refine exists_congr fun before => exists_congr fun call => exists_congr fun after =>
      exists_congr fun s => and_congr_right fun hsplit => and_congr_right fun hbefore => ?_
    have hlen : before.length + 1 ≤ calls.length := by
      rw [hsplit, List.length_append, List.length_cons]
      omega
    have hs := hstart.applyAll (by omega) hbefore
    exact hs.apply_eq_error_iff (by omega)

/-- A client that admits the second process ahead of its arrival, while the first one is on the
processor, and so ahead of it in the queue. -/
def aheadOfArrival : List Call :=
  [.admitJob 0 0, .dispatch, .admitJob 1 9, .finishSlice, .observe]

theorem any_client_safe_aheadOfArrival :
    ∃ s, (start [⟨⟨1⟩, 0, 3⟩, ⟨⟨2⟩, 9, 1⟩] 2 (by decide) true).applyAll
        (aheadOfArrival.take 4) = .ok s ∧ s.machine.WellFormed [⟨⟨1⟩, 0, 3⟩, ⟨⟨2⟩, 9, 1⟩] ∧
      ∃ before call after s, aheadOfArrival = before ++ call :: after ∧
        (start [⟨⟨1⟩, 0, 3⟩, ⟨⟨2⟩, 9, 1⟩] 2 (by decide) true).applyAll before = .ok s ∧
          s.Misuse call (.queuedBeforeArrival 1) := by
  have hrun : (start [⟨⟨1⟩, 0, 3⟩, ⟨⟨2⟩, 9, 1⟩] 2 (by decide) true).applyAll
      (aheadOfArrival.take 4) = .ok _ := rfl
  have hfault : (start [⟨⟨1⟩, 0, 3⟩, ⟨⟨2⟩, 9, 1⟩] 2 (by decide) true).applyAll aheadOfArrival =
      .error (.queuedBeforeArrival 1) := rfl
  refine ⟨_, hrun, ?_, ?_⟩
  · exact (any_client_safe (by decide) 2 (by decide) true _ (by decide)).1 _ hrun
  · exact ((any_client_safe (by decide) 2 (by decide) true _ (by decide)).2 _).1 hfault

end Scheduler

end RoundRobin
