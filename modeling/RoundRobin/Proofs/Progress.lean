import RoundRobin.Proofs.Admission

/-!
# A sound simulation steps

From a sound state that has work left, a step meets no fault up to its audit: it serves one slice
(`Sound.proceed_stages`, `Stages.serves`) or skips one gap (`Sound.proceed_skips`).
-/

namespace RoundRobin

namespace Simulation

variable {ps : ProcessList} {s s' : Simulation}

/-- The counters that a step may raise have room for one more. -/
structure Room (s : Simulation) : Prop where
  dispatches : ∀ i job, s.job? i = some job → job.dispatches.toNat + 1 < UInt64.size
  finished : s.machine.finished.toNat + 1 < UInt64.size
  preemptions : s.scheduler.preemptions.toNat + 1 < UInt64.size

theorem toNat_add_ite {a : Word} {c : Prop} [Decidable c] (h : a.toNat + 1 < UInt64.size) :
    (a + (if c then 1 else 0)).toNat = a.toNat + (if c then 1 else 0) := by
  split
  · exact Word.toNat_add_of_lt h
  · exact Word.toNat_add_of_lt (by rw [UInt64.toNat_zero]; omega)

/-- The job on the processor while its slice lasts. -/
def running (job : Job) (start quantum : Ticks) : Job :=
  { job.enter.served start quantum with phase := .running }

theorem leave_running (job : Job) (start finish quantum : Ticks) :
    (running job start quantum).leave finish = (job.served start quantum).leave finish := rfl

/-- The four stages of a step that gives a turn to a job: the pass at the start (up to `mid`), the
dispatch (up to `scheduler`), the pass over the arrivals within the slice (up to `last`), and the
end of the slice (up to `ended`). -/
structure Stages (ps : ProcessList) (s : Simulation) (turn : Turn) (mid : Simulation)
    (scheduler : Scheduler) (last : Simulation) (ended : Scheduler) : Prop where
  process : ps[turn.position]? = some turn.process
  job : s.job? turn.position = some turn.job
  pid : turn.job.pid = turn.process.pid
  room : s.Room
  early : Admits ps (s.now.toNat + 1) s.admitted turn.early
  passed : Passed ps s turn.early mid
  line : mid.queue = turn.position :: turn.rest
  lt_early : ∀ k ∈ mid.queue, k < turn.early
  entered : ∀ k ∈ mid.queue, mid.job? k = (s.job? k).map Job.enter
  dispatched : mid.scheduler.Dispatched scheduler turn.position turn.rest turn.job.enter
  late : Admits ps scheduler.machine.now.toNat turn.early turn.late
  passed' : Passed ps { mid with scheduler } turn.late last
  released : last.scheduler.Released ended turn.position (running turn.job s.now s.quantum)

namespace Stages

variable {turn : Turn} {mid last : Simulation} {scheduler ended : Scheduler}

theorem mem_line (h : Stages ps s turn mid scheduler last ended) {k : Nat}
    (hk : k = turn.position ∨ k ∈ turn.rest) : k ∈ mid.queue := by
  rw [h.line, List.mem_cons]
  exact hk

theorem now_last (h : Stages ps s turn mid scheduler last ended) :
    ended.machine.now = scheduler.machine.now :=
  h.released.now.trans h.passed'.now

theorem now_dispatched (h : Stages ps s turn mid scheduler last ended) :
    scheduler.machine.now = s.now.satAdd (turn.run s.quantum) := by
  have hnow : mid.scheduler.machine.now = s.now := h.passed.now
  have hquantum : mid.scheduler.quantum = s.quantum := h.passed.emitted.quantum
  rw [h.dispatched.now, hnow, hquantum]
  rfl

/-- The jobs after the pass over the arrivals within the slice. -/
theorem job_last (h : Stages ps s turn mid scheduler last ended) (k : Nat) :
    last.job? k = if turn.early ≤ k ∧ k < turn.late then (scheduler.machine.jobs[k]?).map Job.enter
      else scheduler.machine.jobs[k]? := by
  rw [h.passed'.jobs k]
  simp only [h.passed.admitted]

/-- The jobs after the step, other than the one that had the turn. -/
theorem job_ended (h : Stages ps s turn mid scheduler last ended) {k : Nat}
    (hk : k ≠ turn.position) : ended.machine.jobs[k]? =
      if turn.early ≤ k ∧ k < turn.late then (scheduler.machine.jobs[k]?).map Job.enter
      else scheduler.machine.jobs[k]? := by
  rw [h.released.jobs k, if_neg hk]
  exact h.job_last k

/-- A job that is not in line and was not let in is as it was before the step. -/
theorem job_dispatched (h : Stages ps s turn mid scheduler last ended) {k : Nat}
    (hposition : k ≠ turn.position) (hrest : k ∉ turn.rest) :
    scheduler.machine.jobs[k]? = s.job? k := by
  rw [h.dispatched.untouched k hposition hrest]
  change mid.job? k = _
  have hle := h.early.le
  rw [h.passed.jobs k, if_neg]
  rintro ⟨hge, hlt⟩
  have hmem : k ∈ mid.queue := by
    rw [h.passed.queue, List.mem_append, List.mem_range'_1]
    exact .inr ⟨hge, by omega⟩
  rw [h.line, List.mem_cons] at hmem
  exact hmem.elim hposition hrest

theorem remaining_eq_zero_iff (_h : Stages ps s turn mid scheduler last ended) :
    (running turn.job s.now s.quantum).remaining = 0 ↔ turn.Ends s.quantum := by
  change (turn.job.served s.now s.quantum).remaining = 0 ↔ _
  exact Job.remaining_served_eq_zero_iff

theorem serves (h : Stages ps s turn mid scheduler last ended) :
    Serves ps s turn { last with scheduler := ended } where
  frame := {
    processes := h.passed'.processes.trans h.passed.processes
    quantum := h.released.emitted.quantum.trans (h.passed'.emitted.quantum.trans
      (h.dispatched.emitted.quantum.trans h.passed.emitted.quantum))
    free := h.released.current
    consistent := h.released.consistent
    size := h.released.size.trans (h.passed'.size.trans (h.dispatched.size.trans h.passed.size)) }
  early := h.early
  late := by
    change Admits ps ended.machine.now.toNat _ _
    rw [h.now_last]
    exact h.late
  line := h.passed.queue.symm.trans h.line
  process := h.process
  job := h.job
  now := h.now_last.trans h.now_dispatched
  admitted := h.passed'.admitted
  queue := by
    change ended.machine.ready.slots = _
    have hslots : scheduler.machine.ready.slots = turn.rest := h.dispatched.slots
    have hqueue : last.scheduler.machine.ready.slots =
        turn.rest ++ List.range' turn.early (turn.late - turn.early) := by
      rw [← hslots, ← h.passed.admitted]
      exact h.passed'.queue
    rw [h.released.slots, hqueue]
    by_cases hends : turn.Ends s.quantum
    · rw [if_pos (h.remaining_eq_zero_iff.2 hends), if_pos hends]
    · rw [if_neg (mt h.remaining_eq_zero_iff.1 hends), if_neg hends]
  served := by
    change ended.machine.jobs[turn.position]? =
      some ((turn.job.served s.now s.quantum).leave ended.machine.now)
    rw [h.released.jobs, if_pos rfl, h.released.now, leave_running]
  waited := by
    intro k hk
    have hlt := h.lt_early k (h.mem_line (.inr hk))
    have hfresh : k ≠ turn.position := by
      rintro rfl
      have hnodup : mid.queue.Nodup := h.passed.consistent.nodup
      rw [h.line] at hnodup
      exact (List.nodup_cons.1 hnodup).1 hk
    have hquantum : mid.scheduler.quantum = s.quantum := h.passed.emitted.quantum
    change ended.machine.jobs[k]? = _
    rw [h.job_ended hfresh, if_neg (by omega), h.dispatched.waited k hk, hquantum]
    change (mid.job? k).map _ = _
    rw [h.entered k (h.mem_line (.inr hk)), Option.map_map]
    rfl
  entered := by
    intro k hge hlt
    have hout : ¬ (k = turn.position ∨ k ∈ turn.rest) := fun hk => by
      have := h.lt_early k (h.mem_line hk)
      omega
    rw [not_or] at hout
    change ended.machine.jobs[k]? = _
    rw [h.job_ended hout.1, if_pos ⟨hge, hlt⟩, h.job_dispatched hout.1 hout.2]
  untouched := by
    intro k hposition hrest hrange
    change ended.machine.jobs[k]? = _
    rw [h.job_ended hposition, if_neg (by omega), h.job_dispatched hposition hrest]
  finished := by
    have hfinished : last.machine.finished = s.machine.finished :=
      h.passed'.finished.trans (h.dispatched.finished.trans h.passed.finished)
    change ended.machine.finished.toNat = _
    rw [h.released.finished]
    change (last.machine.finished + _).toNat = _
    rw [hfinished, toNat_add_ite h.room.finished]
    simp only [h.remaining_eq_zero_iff]
  preemptions := by
    have hpreemptions : last.scheduler.preemptions = s.scheduler.preemptions :=
      h.passed'.preemptions.trans (h.dispatched.preemptions.trans h.passed.preemptions)
    change ended.preemptions.toNat = _
    rw [h.released.preemptions, hpreemptions]
    simp only [h.remaining_eq_zero_iff]
    split
    · rw [UInt64.add_zero, Nat.add_zero]
    · exact Word.toNat_add_of_lt h.room.preemptions
  dispatches_lt := h.room.dispatches turn.position turn.job h.job

theorem emitted (h : Stages ps s turn mid scheduler last ended) :
    s.scheduler.Emitted ended (turn.events ps s { last with scheduler := ended }) := by
  have hnow : mid.scheduler.machine.now = s.now := h.passed.now
  have hquantum : mid.scheduler.quantum = s.quantum := h.passed.emitted.quantum
  have hlast : last.scheduler.machine.now = ended.machine.now := h.released.now.symm
  have hdispatched := h.dispatched.emitted
  have hlate := h.passed'.emitted
  have hreleased := h.released.emitted
  rw [hnow, hquantum] at hdispatched
  rw [hlast] at hreleased
  simp only [h.passed.admitted] at hlate
  have hall := h.passed.emitted.trans (hdispatched.trans (hlate.trans hreleased))
  rw [Turn.events, Turn.opening, ← h.pid, List.append_assoc]
  exact hall

theorem touched (h : Stages ps s turn mid scheduler last ended) :
    ended.touched = some turn.position :=
  h.released.touched.trans (h.passed'.touched.trans h.dispatched.touched)

end Stages

/-- What the pass at the start of a step leaves when there is a job in line. -/
structure Opened (ps : ProcessList) (s : Simulation) (early : Nat) (mid : Simulation) (i : Nat)
    (rest : List Nat) : Prop where
  admits : Admits ps (s.now.toNat + 1) s.admitted early
  passed : Passed ps s early mid
  line : mid.queue = i :: rest

section Opened

variable {early i : Nat} {mid last : Simulation} {rest : List Nat} {scheduler : Scheduler}
  {job : Job}

theorem Opened.mem_queue (ho : Opened ps s early mid i rest) {k : Nat} (hk : k = i ∨ k ∈ rest) :
    k ∈ mid.queue := by
  rw [ho.line, List.mem_cons]
  exact hk

theorem Opened.not_mem_rest (ho : Opened ps s early mid i rest) : i ∉ rest := by
  have hnodup : mid.queue.Nodup := ho.passed.consistent.nodup
  rw [ho.line] at hnodup
  exact (List.nodup_cons.1 hnodup).1

theorem Sound.lt_early_of_mem (h : s.Sound ps) (ho : Opened ps s early mid i rest) {k : Nat}
    (hk : k = i ∨ k ∈ rest) : k < early :=
  (h.job_of_line ho.admits ho.passed (ho.mem_queue hk)).1

/-- The job at the front is dispatched. -/
theorem Sound.dispatches (h : s.Sound ps) (hroom : s.Room) (ho : Opened ps s early mid i rest) :
    ∃ p job scheduler, ps[i]? = some p ∧ s.job? i = some job ∧ job.pid = p.pid ∧
      mid.scheduler.dispatch = .ok (some (
        { job := i, start := mid.scheduler.machine.now, finish := scheduler.machine.now },
        scheduler)) ∧
      mid.scheduler.Dispatched scheduler i rest job.enter := by
  rcases h.job_of_line ho.admits ho.passed (ho.mem_queue (.inl rfl)) with
    ⟨_, p, job, hp, hjob, haccounts, hentered, harrival⟩
  have hin : ∀ k ∈ rest, ∃ other, mid.scheduler.machine.jobs[k]? = some other := by
    intro k hrest
    rcases h.job_of_line ho.admits ho.passed (ho.mem_queue (.inr hrest)) with
      ⟨_, _, other, _, _, _, hother, _⟩
    exact ⟨_, hother⟩
  have harrived : job.enter.arrival ≤ mid.now := by
    rw [ho.passed.now]
    exact harrival
  have hcpu : job.enter.cpuTime.toNat + job.enter.remaining.toNat < UInt64.size := by
    have hburst := p.burst.toNat_lt_size
    change job.cpuTime.toNat + job.remaining.toNat < _
    rw [haccounts.spent]
    exact hburst
  rcases Scheduler.dispatch_dispatched (ho.passed.current.trans h.free) ho.passed.consistent
    ho.line hentered hin harrived hcpu (hroom.dispatches i job hjob) with
    ⟨scheduler, hdispatch, hdispatched⟩
  exact ⟨p, job, scheduler, hp, hjob, haccounts.pid, hdispatch, hdispatched⟩

/-- What arrives within the slice is let in. -/
theorem Sound.admits_within (h : s.Sound ps) (hk : Contract.Kept ps)
    (ho : Opened ps s early mid i rest) (hd : mid.scheduler.Dispatched scheduler i rest job) :
    ∃ late last,
      ({ mid with scheduler } : Simulation).admitWhile (· < scheduler.machine.now) = .ok last ∧
      Admits ps scheduler.machine.now.toNat early late ∧
      Passed ps { mid with scheduler } late last := by
  have hle := ho.admits.le
  -- neither the first pass nor the dispatch touched the jobs that are still to be let in
  have hahead : ∀ k p, ps[k]? = some p → mid.admitted ≤ k →
      scheduler.machine.jobs[k]? = some (.ofProcess p) ∧ k ∉ scheduler.machine.ready.slots := by
    intro k p hp hge
    rw [ho.passed.admitted] at hge
    have hout : ¬ (k = i ∨ k ∈ rest) := fun hmem =>
      absurd (h.lt_early_of_mem ho hmem) (Nat.not_lt_of_le hge)
    rw [not_or] at hout
    have hjob := ho.passed.jobs k
    rw [if_neg (by omega), (h.job_of_ahead hp (Nat.le_trans hle hge)).1] at hjob
    rw [hd.untouched k hout.1 hout.2, hd.slots]
    exact ⟨hjob, hout.2⟩
  rcases admitWhile_passed (s := { mid with scheduler }) hk
    (fun x : Ticks => decide_eq_true_iff.trans UInt64.lt_iff_toNat_lt)
    (ho.passed.processes.trans h.processes) (ho.passed.admitted ▸ ho.admits.le_length)
    hd.consistent hahead with ⟨late, last, hlast, hlate, hpassed⟩
  simp only [ho.passed.admitted] at hlate
  exact ⟨late, last, hlast, hlate, hpassed⟩

/-- The slice ends. -/
theorem Opened.finishes (ho : Opened ps s early mid i rest) (hroom : s.Room) (hlt : i < early)
    (hd : mid.scheduler.Dispatched scheduler i rest job.enter) {late : Nat}
    (hl : Passed ps { mid with scheduler } late last) :
    ∃ retired ended, last.scheduler.finishSlice = .ok (retired, ended) ∧
      last.scheduler.Released ended i (running job s.now s.quantum) := by
  have hnow : mid.scheduler.machine.now = s.now := ho.passed.now
  have hquantum : mid.scheduler.quantum = s.quantum := ho.passed.emitted.quantum
  have hrunning : last.job? i = some (running job s.now s.quantum) := by
    have hserved := hd.served
    rw [hnow, hquantum] at hserved
    rw [hl.jobs i, if_neg (by simp only [ho.passed.admitted]; omega)]
    exact hserved
  have hnew : i ∉ last.queue := by
    have hslots : scheduler.machine.ready.slots = rest := hd.slots
    rw [hl.queue]
    simp only [ho.passed.admitted, queue, hslots, List.mem_append, List.mem_range'_1]
    rintro (hrest | hrange)
    · exact ho.not_mem_rest hrest
    · omega
  have hfinished : last.machine.finished = s.machine.finished :=
    hl.finished.trans (hd.finished.trans ho.passed.finished)
  have hpreemptions : last.scheduler.preemptions = s.scheduler.preemptions :=
    hl.preemptions.trans (hd.preemptions.trans ho.passed.preemptions)
  apply Scheduler.finishSlice_released (hl.current.trans hd.current) hrunning rfl hl.consistent hnew
  · change last.machine.finished.toNat + 1 < _
    rw [hfinished]
    exact hroom.finished
  · rw [hpreemptions]
    exact hroom.preemptions

/-- With a job in line, a step goes through the four stages of its turn. -/
theorem Sound.proceed_stages (h : s.Sound ps) (hk : Contract.Kept ps) (hroom : s.Room)
    (hmid : s.admitWhile (· ≤ s.now) = .ok mid) (ho : Opened ps s early mid i rest) :
    ∃ turn scheduler last ended, Stages ps s turn mid scheduler last ended ∧
      s.proceed = .ok { last with scheduler := ended } := by
  rcases h.dispatches hroom ho with ⟨p, job, scheduler, hp, hjob, hpid, hdispatch, hdispatched⟩
  rcases h.admits_within hk ho hdispatched with ⟨late, last, hlast, hlate, hpassed⟩
  have hlt := h.lt_early_of_mem ho (.inl rfl)
  rcases ho.finishes hroom hlt hdispatched hpassed with ⟨retired, ended, hfinish, hreleased⟩
  have hline : ∀ k ∈ mid.queue, k < early ∧ mid.job? k = (s.job? k).map Job.enter := by
    intro k hmem
    rcases h.job_of_line ho.admits ho.passed hmem with ⟨hlt, _, other, _, hother, _, hentered, _⟩
    rw [hother, Option.map_some]
    exact ⟨hlt, hentered⟩
  refine ⟨⟨i, rest, p, job, early, late⟩, scheduler, last, ended, ?_, ?_⟩
  · exact {
      process := hp
      job := hjob
      pid := hpid
      room := hroom
      early := ho.admits
      passed := ho.passed
      line := ho.line
      lt_early := fun k hmem => (hline k hmem).1
      entered := fun k hmem => (hline k hmem).2
      dispatched := hdispatched
      late := hlate
      passed' := hpassed
      released := hreleased }
  · simp only [proceed, hmid, Fault.ok_bind, hdispatch, endSlice, hlast, hfinish]
    rfl

end Opened

/-- With no job in line, a step moves the clock to the next arrival, which is later than now. -/
theorem Sound.proceed_skips (h : s.Sound ps) {early : Nat} {mid : Simulation} {p : Process}
    (hmid : s.admitWhile (· ≤ s.now) = .ok mid)
    (hearly : Admits ps (s.now.toNat + 1) s.admitted early) (hpassed : Passed ps s early mid)
    (hline : mid.queue = []) (hp : ps[s.admitted]? = some p) :
    ∃ s', s.proceed = .ok s' ∧ Skips ps s p s' ∧
      s.scheduler.Emitted s'.scheduler [{ time := s.now, event := .idle p.arrival }] ∧
      s'.scheduler.touched = s.scheduler.touched := by
  have hqueue := hpassed.queue
  rw [hline, eq_comm, List.append_eq_nil_iff, List.range'_eq_nil_iff] at hqueue
  rcases hqueue with ⟨hempty, hnone⟩
  have hsame : mid = s := hpassed.unchanged (by have := hearly.le; omega)
  subst hsame
  have hlater : mid.now < p.arrival := by
    have := hearly.ahead _ p hp (by omega)
    rw [UInt64.lt_iff_toNat_lt]
    omega
  rcases Scheduler.idleUntil_skipped hline hlater with ⟨scheduler, hidle, hskipped⟩
  have hmachine := hskipped.machine
  refine ⟨{ mid with scheduler }, ?_, ?_, hskipped.emitted, hskipped.touched⟩
  · have hnext : mid.nextArrival = .ok p.arrival := by
      rw [nextArrival, next?_eq h.processes, hp]
    simp only [proceed, hmid, Fault.ok_bind, Scheduler.dispatch_nil h.free hline, skipGap, hnext,
      hidle]
    rfl
  · exact {
      frame := {
        processes := rfl
        quantum := hskipped.emitted.quantum
        free := (congrArg (·.current) hmachine).trans h.free
        consistent := by
          change scheduler.machine.ready.Consistent
          rw [hmachine]
          exact h.consistent
        size := congrArg (·.jobs.size) hmachine }
      empty := hline
      next := hp
      later := hlater
      machine := hmachine
      admitted := rfl
      preemptions := hskipped.preemptions }

/-- All jobs have finished exactly if each of them is in its last phase. -/
theorem Sound.allCompleted_iff_phase (h : s.Sound ps) :
    s.allCompleted = true ↔ ∀ i job, s.job? i = some job → job.phase = .finished := by
  have hcount : s.allCompleted = true ↔
      ∀ job ∈ s.machine.jobs.toList, decide (job.phase = .finished) = true := by
    rw [allCompleted, Machine.allFinished, beq_iff_eq, h.finished, ← List.countP_eq_length]
    rfl
  simp only [hcount, decide_eq_true_eq, List.mem_iff_getElem?, Array.getElem?_toList]
  constructor
  · intro hall i job hjob
    exact hall job ⟨i, hjob⟩
  · rintro hall job ⟨i, hjob⟩
    exact hall i job hjob

/-- All jobs have finished exactly if all processes were let in and none is queued. -/
theorem Sound.allCompleted_iff (h : s.Sound ps) :
    s.allCompleted = true ↔ s.admitted = ps.length ∧ s.queue = [] := by
  rw [h.allCompleted_iff_phase]
  constructor
  · intro hfinished
    constructor
    · apply Nat.le_antisymm h.admitted_le
      apply Nat.le_of_not_lt
      intro hlt
      have hp : ps[s.admitted]? = some ps[s.admitted] := List.getElem?_eq_getElem hlt
      have hjob := (h.job_of_ahead hp (Nat.le_refl _)).1
      exact Phase.noConfusion (hfinished _ _ hjob)
    · apply List.eq_nil_iff_forall_not_mem.2
      intro k hk
      rcases h.ready_of_mem hk with ⟨_, job, _, hjob, hphase, _⟩
      rw [hfinished _ _ hjob] at hphase
      cases hphase
  · rintro ⟨hadmitted, hempty⟩ k job hjob
    have hlt : k < ps.length := h.size ▸ (Array.getElem?_eq_some_iff.1 hjob).1
    rcases h.finished_of_not_mem (List.getElem?_eq_getElem hlt) (by omega) (by simp [hempty]) with
      ⟨job', _, hjob', hphase, _⟩
    rw [hjob, Option.some.injEq] at hjob'
    rw [hjob', hphase]

theorem Sound.lt_admitted_of_completed (h : s.Sound ps) (hdone : s.allCompleted = true) {i : Nat}
    {p : Process} (hp : ps[i]? = some p) : i < s.admitted := by
  rw [(h.allCompleted_iff.1 hdone).1]
  exact (List.getElem?_eq_some_iff.1 hp).1

end Simulation

end RoundRobin
