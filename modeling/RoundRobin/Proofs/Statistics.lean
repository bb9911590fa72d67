import RoundRobin.Proofs.Totals

/-!
# The statistics of a report

What a report counts is kept in three places: in the jobs, in the counters of the scheduler and in
the events. A process that retires hands its times out once, and they never change afterwards
(`Reaches.retirements_perm`). Every round ends with a preemption or a retirement
(`Reaches.turns_add_roundsAhead`). So at the end of a run all places agree (`report_accounts`).
-/

namespace RoundRobin

/-- The times that a process hands out when it retires. -/
structure Retirement where
  pid : Pid
  waiting : Ticks
  response : Ticks

/-- What the event says of a process that retires, if it is a retirement. -/
def Event.retirement? : Event → Option Retirement
  | .retired pid waiting response => some { pid, waiting, response }
  | _ => none

/-- What the retirements of a run say, in the order of the events. -/
def retirements (events : List Stamped) : List Retirement :=
  events.filterMap (·.event.retirement?)

/-- What a completed job has handed out. -/
def Job.retirement? (job : Job) : Option Retirement :=
  job.completion.map fun _ =>
    { pid := job.pid, waiting := job.waiting, response := job.response.getD 0 }

/-- What a timing says of the retirement of its process. -/
def Timing.retirement (timing : Timing) : Retirement where
  pid := timing.pid
  waiting := timing.waiting
  response := timing.response

/-- The process that a timing is about. -/
def Timing.process (timing : Timing) : Process where
  pid := timing.pid
  arrival := timing.arrival
  burst := timing.burst

theorem Job.retirement?_leave {job : Job} (hopen : job.completion = none) (finish : Ticks) :
    (job.leave finish).retirement? = job.closing.retirement? := by
  unfold leave closing
  split
  · rfl
  · change job.completion.map _ = none
    rw [hopen, Option.map_none]

theorem Job.retirement?_of_timing {job : Job} {timing : Timing} (h : job.timing = .ok timing) :
    job.retirement? = some timing.retirement := by
  obtain ⟨response, completion, hresponse, hcompletion, rfl⟩ := exists_of_timing h
  rw [retirement?, hcompletion, hresponse]
  rfl

/-- An entry that takes the place of an absent one joins those that are present. -/
theorem filterMap_set_perm {α : Type} {l : List (Option α)} {i : Nat} (hi : l[i]? = some none)
    (a : Option α) : ((l.set i a).filterMap id).Perm (l.filterMap id ++ a.toList) := by
  induction l generalizing i with
  | nil => cases hi
  | cons b rest ih =>
    cases i with
    | zero =>
      rw [List.getElem?_cons_zero, Option.some.injEq] at hi
      subst hi
      cases a with
      | none =>
        rw [Option.toList_none, List.append_nil]
        exact .refl _
      | some a => exact (List.perm_append_singleton a (rest.filterMap id)).symm
    | succ i =>
      rw [List.getElem?_cons_succ] at hi
      rw [List.set_cons_succ]
      cases b with
      | none => exact ih hi
      | some b => exact (ih hi).cons b

/-- A map over a list that goes through hands on what its values hold. -/
theorem Fault.filterMap_of_mapM {α β γ : Type} {f : α → Except Fault β} {g : α → Option γ}
    {g' : β → γ} (hg : ∀ a b, f a = .ok b → g a = some (g' b)) {l : List α} {bs : List β}
    (h : l.mapM f = .ok bs) : l.filterMap g = bs.map g' := by
  induction l generalizing bs with
  | nil =>
    cases h
    rfl
  | cons a rest ih =>
    simp only [List.mapM_cons, Fault.bind_eq_ok_iff, Fault.pure_eq_ok_iff] at h
    obtain ⟨b, hb, tail, htail, rfl⟩ := h
    rw [List.filterMap_cons_some (hg a b hb), List.map_cons, ih htail]

namespace Simulation

variable {ps : ProcessList} {s s' : Simulation} {turn : Turn} {events new : List Stamped}

/-- The timings at the end of a run are those of the processes, in the order of the list. -/
theorem Sound.processes_of_mapM (h : s.Sound ps) {timings : List Timing}
    (htimings : s.machine.jobs.toList.mapM Job.timing = .ok timings) :
    timings.map Timing.process = ps := by
  have hlen := length_of_mapM h htimings
  apply List.ext_getElem?
  intro i
  rw [List.getElem?_map]
  cases hp : ps[i]? with
  | none =>
    have hle := List.getElem?_eq_none_iff.1 hp
    rw [List.getElem?_eq_none_iff.2 (by omega), Option.map_none]
  | some p =>
    obtain ⟨job, timing, _, hentry, htiming, haccounts⟩ := h.timing_of_mapM htimings hp
    obtain ⟨_, _, _, _, rfl⟩ := Job.exists_of_timing htiming
    rw [hentry, Option.map_some, Timing.process, haccounts.pid, haccounts.arrival,
      haccounts.burst]

/-- An identifier is found at the position of its process. -/
theorem find?_timing (hk : Contract.Kept ps) {timings : List Timing}
    (htimings : timings.map Timing.process = ps) {i : Nat} {p : Process} {timing : Timing}
    (hp : ps[i]? = some p) (hentry : timings[i]? = some timing) :
    timings.find? (·.pid = p.pid) = some timing := by
  have hprocess : ∀ (j : Nat) (t : Timing), timings[j]? = some t → ps[j]? = some t.process := by
    intro j t ht
    rw [← htimings, List.getElem?_map, ht, Option.map_some]
  have hsame := hprocess i timing hentry
  rw [hp, Option.some.injEq] at hsame
  obtain ⟨hlt, hget⟩ := List.getElem?_eq_some_iff.1 hentry
  rw [List.find?_eq_some_iff_getElem]
  refine ⟨?_, i, hlt, hget, fun j hj => ?_⟩
  · rw [decide_eq_true_iff, hsame]
    rfl
  · rw [Bool.not_eq_true', decide_eq_false_iff_not]
    intro hpid
    have hother := hprocess j _ (List.getElem?_eq_getElem (by omega))
    have := hk.eq_of_pid_eq hother hp hpid
    omega

theorem find?_timing_eq_none {timings : List Timing} (htimings : timings.map Timing.process = ps)
    {pid : Pid} (hpid : ∀ p ∈ ps, p.pid ≠ pid) : timings.find? (·.pid = pid) = none := by
  rw [List.find?_eq_none]
  intro timing hmem
  rw [decide_eq_true_iff]
  apply hpid timing.process
  rw [← htimings]
  exact List.mem_map_of_mem hmem

/-- A job that does not have the turn hands out what it had handed out before. -/
theorem Serves.retirement?_other (h : Serves ps s turn s') (hk : Contract.Kept ps)
    (hsound : s.Sound ps) {i : Nat} {old job : Job} (hother : i ≠ turn.position)
    (hbefore : s.job? i = some old) (hafter : s'.job? i = some job) :
    job.retirement? = old.retirement? := by
  rcases h.job_cases hafter with ⟨hposition, _⟩ | ⟨_, old', hbefore', hunserved⟩
  · exact absurd hposition hother
  rw [hbefore, Option.some.injEq] at hbefore'
  cases hcompletion : old.completion with
  | none =>
    rw [Job.retirement?, Job.retirement?, hunserved.completion, ← hbefore', hcompletion]
    rfl
  | some completion =>
    have hlt : i < ps.length := hsound.size ▸ (Array.getElem?_eq_some_iff.1 hbefore).1
    have hp : ps[i]? = some ps[i] := List.getElem?_eq_getElem hlt
    rw [(Moves.serves turn h).job_of_completed hk hsound hp hbefore hcompletion,
      Option.some.injEq] at hafter
    rw [hafter]

/-- A turn that ends the work of its job hands out the times of the job. -/
theorem Serves.retirements_perm (h : Serves ps s turn s') (hk : Contract.Kept ps)
    (hsound : s.Sound ps)
    (hold : (retirements events).Perm (s.machine.jobs.toList.filterMap Job.retirement?)) :
    (retirements (events ++ turn.events ps s s')).Perm
      (s'.machine.jobs.toList.filterMap Job.retirement?) := by
  have hopen : (turn.job.served s.now s.quantum).completion = none :=
    (hsound.eligible hk h h.process).completion
  have hnew : retirements (turn.events ps s s') =
      (turn.job.served s.now s.quantum).closing.retirement?.toList :=
    turn.filterMap_events fun _ _ => rfl
  -- before its turn, the job had handed out nothing
  have hnone : (s.machine.jobs.toList.map Job.retirement?)[turn.position]? = some none := by
    have hjob : s.machine.jobs.toList[turn.position]? = some turn.job :=
      Array.getElem?_toList.trans h.job
    rw [List.getElem?_map, hjob, Option.map_some, Job.retirement?,
      show turn.job.completion = none from hopen, Option.map_none]
  have hset := h.map_jobs fun _ _ _ hother hbefore hafter =>
    h.retirement?_other hk hsound hother hbefore hafter
  have hread : ∀ l : List Job, l.filterMap Job.retirement? =
      (l.map Job.retirement?).filterMap id := fun l => by
    rw [List.filterMap_map]
    rfl
  rw [retirements, List.filterMap_append]
  change (retirements events ++ retirements (turn.events ps s s')).Perm _
  rw [hnew, hread, hset, Job.retirement?_leave hopen]
  rw [hread] at hold
  exact (hold.append_right _).trans (filterMap_set_perm hnone _).symm

/-- Every process that has completed has handed out its times once, and they are as they were then.
-/
theorem Reaches.retirements_perm {config : Config} (hstart : start ps config = .ok s)
    (hr : Reaches ps s events s') :
    (retirements events).Perm (s'.machine.jobs.toList.filterMap Job.retirement?) := by
  have hk := kept_of_start hstart
  induction hr with
  | refl =>
    have hnone : s.machine.jobs.toList.filterMap Job.retirement? = [] := by
      obtain ⟨_, _, rfl⟩ := start_eq_ok_iff.1 hstart
      rw [List.filterMap_eq_nil_iff]
      intro job hmem
      obtain ⟨p, _, rfl⟩ := List.mem_map.1 hmem
      rfl
    rw [hnone]
    exact .refl _
  | snoc hr hm ih =>
    cases hm with
    | serves turn h => exact h.retirements_perm hk (hr.sound hstart) ih
    | skips p h =>
      rw [retirements, List.filterMap_append]
      change (retirements _ ++ []).Perm _
      rw [List.append_nil, h.machine]
      exact ih

/-- A turn takes one round off those ahead, and ends with a retirement or with a preemption. -/
theorem Moves.turns_add_roundsAhead (hm : Moves ps s new s') (hk : Contract.Kept ps)
    (hsound : s.Sound ps) :
    s'.machine.finished.toNat + s'.scheduler.preemptions.toNat + s'.roundsAhead =
      s.machine.finished.toNat + s.scheduler.preemptions.toNat + s.roundsAhead := by
  cases hm with
  | serves turn h =>
    have hrounds := h.roundsAhead_add_one (hsound.eligible hk h h.process).work
    rw [h.finished, h.preemptions]
    split <;> omega
  | skips p h =>
    have hfinished : s'.machine.finished = s.machine.finished := congrArg (·.finished) h.machine
    rw [hfinished, h.preemptions, h.roundsAhead_eq]

/-- Together with the rounds ahead, the retirements and preemptions so far are all rounds. -/
theorem Reaches.turns_add_roundsAhead {config : Config} (hstart : start ps config = .ok s)
    (hr : Reaches ps s events s') :
    s'.machine.finished.toNat + s'.scheduler.preemptions.toNat + s'.roundsAhead =
      ps.totalRounds config.quantum := by
  have hk := kept_of_start hstart
  induction hr with
  | refl =>
    rw [roundsAhead_start hstart]
    obtain ⟨_, _, rfl⟩ := start_eq_ok_iff.1 hstart
    exact Nat.zero_add _
  | snoc hr hm ih =>
    rw [hm.turns_add_roundsAhead hk (hr.sound hstart)]
    exact ih

section Completed

variable {config : Config} {timings : List Timing}

/-- At the end of a run, every process has received its work in as many slices as it has rounds. -/
theorem Reaches.timing_eq (hstart : start ps config = .ok s) (hr : Reaches ps s events s')
    (hdone : s'.allCompleted = true)
    (htimings : s'.machine.jobs.toList.mapM Job.timing = .ok timings) {i : Nat} {p : Process}
    (hp : ps[i]? = some p) :
    ∃ timing, timings[i]? = some timing ∧ timing.cpuTime = p.burst ∧
      timing.dispatches.toNat = p.rounds config.quantum := by
  have hsound := hr.sound hstart
  obtain ⟨job, timing, hjob, hentry, htiming, haccounts⟩ := hsound.timing_of_mapM htimings hp
  obtain ⟨job', _, hjob', _, _, hremaining, _⟩ := hsound.timing_of_completed hdone htimings hp
  rw [hjob, Option.some.injEq] at hjob'
  subst hjob'
  have hspent := haccounts.spent
  rw [hremaining, UInt64.toNat_zero, Nat.add_zero, UInt64.toNat_inj] at hspent
  have hrounds := hr.dispatches_eq hstart hp hjob hremaining
  obtain ⟨_, _, _, _, rfl⟩ := Job.exists_of_timing htiming
  exact ⟨_, hentry, hspent, hrounds⟩

/-- At the end of a run, every process has retired once, and all other rounds were preempted. -/
theorem Reaches.preemptions_add_length (hstart : start ps config = .ok s)
    (hr : Reaches ps s events s') (hdone : s'.allCompleted = true) :
    s'.scheduler.preemptions.toNat + ps.length = ps.totalRounds config.quantum := by
  have hsound := hr.sound hstart
  have hturns := hr.turns_add_roundsAhead hstart
  have hfinished : s'.machine.finished.toNat = ps.length :=
    (beq_iff_eq.1 hdone).trans hsound.size
  rw [hsound.roundsAhead_of_completed hdone] at hturns
  omega

/-- What the retirements say adds up to what the timings say. -/
theorem Reaches.sum_retirements (hstart : start ps config = .ok s) (hr : Reaches ps s events s')
    (htimings : s'.machine.jobs.toList.mapM Job.timing = .ok timings) (f : Retirement → Nat) :
    (timings.map (f ·.retirement)).sum = ((retirements events).map f).sum := by
  have hretired := hr.retirements_perm hstart
  rw [Fault.filterMap_of_mapM (fun _ _ => Job.retirement?_of_timing) htimings] at hretired
  have hsum := (hretired.map f).sum_nat
  rw [List.map_map] at hsum
  exact hsum.symm

end Completed

/-- What a report says of the run that it is made at the end of. -/
structure Statistics (ps : ProcessList) (quantum : Ticks) (events : List Stamped)
    (fin : Simulation) (report : Report) : Prop where
  processes : report.timings.map Timing.process = ps
  found : ∀ (i : Nat) (p : Process), ps[i]? = some p → ∃ timing, report.timings[i]? = some timing ∧
    report.timing? p.pid = some timing ∧ timing.cpuTime = p.burst ∧
    timing.dispatches.toNat = p.rounds quantum
  unknown : ∀ pid, (∀ p ∈ ps, p.pid ≠ pid) → report.timing? pid = none
  dispatches : report.dispatches.toNat = ps.totalRounds quantum
  preemptions : report.preemptions.toNat + ps.length = report.dispatches.toNat
  waiting : report.totalWaiting.toNat = (report.timings.map (·.waiting.toNat)).sum
  waiting_retired : report.totalWaiting.toNat = ((retirements events).map (·.waiting.toNat)).sum
  response : report.totalResponse.toNat = (report.timings.map (·.response.toNat)).sum
  response_retired : report.totalResponse.toNat = ((retirements events).map (·.response.toNat)).sum
  makespan : report.makespan = fin.now

/-- The report of a run accounts for the processes, the jobs, the counters and the events at its
end, also when the clock has stopped on the way. -/
theorem report_accounts {config : Config} {report : Report} (hstart : start ps config = .ok s)
    (hreport : s.run = .ok report) :
    ∃ n events fin, s.steps n = .ok (events, fin) ∧ fin.allCompleted = true ∧
      s.complete = .ok fin ∧ Statistics ps config.quantum events.toList fin report := by
  have hk := kept_of_start hstart
  obtain ⟨n, events, fin, timings, hsteps, hdone, hcomplete, hreaches, htimings, htotals⟩ :=
    exists_timings_of_run hstart hreport
  have hsound := (sound_start hstart).reaches hk hreaches
  have hprocesses := hsound.processes_of_mapM htimings
  have hcount : report.dispatches.toNat = ps.totalRounds config.quantum := by
    rw [htotals.dispatches, hreaches.map_dispatches hstart hdone htimings]
    rfl
  refine ⟨n, events, fin, hsteps, hdone, hcomplete, ?_⟩
  exact {
    processes := htotals.timings_eq ▸ hprocesses
    found := by
      intro i p hp
      obtain ⟨timing, hentry, hcpuTime, hrounds⟩ := hreaches.timing_eq hstart hdone htimings hp
      rw [Report.timing?, htotals.timings_eq]
      exact ⟨timing, hentry, find?_timing hk hprocesses hp hentry, hcpuTime, hrounds⟩
    unknown := by
      intro pid hpid
      rw [Report.timing?, htotals.timings_eq]
      exact find?_timing_eq_none hprocesses hpid
    dispatches := hcount
    preemptions := by
      rw [htotals.preemptions_eq, hcount]
      exact hreaches.preemptions_add_length hstart hdone
    waiting := htotals.timings_eq ▸ htotals.waiting
    waiting_retired := htotals.waiting.trans
      (hreaches.sum_retirements hstart htimings (·.waiting.toNat))
    response := htotals.timings_eq ▸ htotals.response
    response_retired := htotals.response.trans
      (hreaches.sum_retirements hstart htimings (·.response.toNat))
    makespan := htotals.makespan.trans (hreaches.lastCompletion_eq_now hstart hdone htimings) }

theorem report_accounts_lastArrivals :
    ∃ s report, start lastArrivals { quantum := 4, checks := true } = .ok s ∧
      s.run = .ok report ∧
      ∃ n events fin, s.steps n = .ok (events, fin) ∧ fin.allCompleted = true ∧
        s.complete = .ok fin ∧ Statistics lastArrivals 4 events.toList fin report := by
  obtain ⟨s, report, hstart, hreport⟩ : ∃ s report,
      start lastArrivals { quantum := 4, checks := true } = .ok s ∧ s.run = .ok report :=
    ⟨_, _, rfl, rfl⟩
  exact ⟨s, report, hstart, hreport, report_accounts hstart hreport⟩

end Simulation

end RoundRobin
