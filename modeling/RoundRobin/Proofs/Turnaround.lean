import RoundRobin.Proofs.Statistics

/-!
# From arrival to completion

A process needs at least its burst from its arrival to its completion, but the clock stops at the
greatest word. So a process completes no earlier than its arrival and its burst add up to, or at the
greatest word (`turnaround_of_run`), and the times recorded are less than a burst apart exactly for
the processes that the clock could not have served in time (`run_beyondClock`).
-/

namespace RoundRobin

namespace Simulation

variable {ps : ProcessList} {s s' : Simulation} {events new : List Stamped}

/-- By now, or by its completion, every process that has arrived has had the time to receive what it
has received, unless the clock has stopped. -/
def Elapsed (ps : ProcessList) (s : Simulation) : Prop :=
  ∀ i p job, ps[i]? = some p → s.job? i = some job → p.arrival ≤ s.now →
    min (p.arrival.toNat + job.cpuTime.toNat) Word.top.toNat ≤
      (job.completion.getD s.now).toNat

namespace Elapsed

/-- A process that has received nothing needs to have arrived only. -/
theorem of_unserved {p : Process} {job : Job} {now : Ticks} (hcpu : job.cpuTime = 0)
    (hopen : job.completion = none) (harrived : p.arrival ≤ now) :
    min (p.arrival.toNat + job.cpuTime.toNat) Word.top.toNat ≤
      (job.completion.getD now).toNat := by
  have hle := UInt64.le_iff_toNat_le.1 harrived
  rw [hcpu, hopen, Option.getD_none, UInt64.toNat_zero]
  omega

theorem serves {turn : Turn} (he : Elapsed ps s) (hm : Serves ps s turn s')
    (hk : Contract.Kept ps) (hsound : s.Sound ps) : Elapsed ps s' := by
  intro i p job hp hjob harrived
  have htop := Word.toNat_top
  have hnow := hm.toNat_now
  cases hsound.fate hk hm hp hjob with
  | served hposition hready =>
    have hbefore := he i p turn.job hp (hposition ▸ hm.job) hready.arrived
    rw [hready.completion, Option.getD_none] at hbefore
    rw [Job.cpuTime_leave, Job.toNat_cpuTime_served hready.accounts,
      Job.getD_completion_leave hready.completion]
    change _ ≤ s'.now.toNat
    have hrun : turn.job.share s.quantum = turn.run s.quantum := rfl
    rw [hrun]
    omega
  | @waited old _ hold hready =>
    have hbefore := he i p old hp hold hready.arrived
    rw [hready.completion, Option.getD_none] at hbefore
    have hopen : (old.enter.wait (turn.run s.quantum)).completion = none := hready.completion
    have hle := hm.now_le
    rw [hopen, Option.getD_none]
    exact Nat.le_trans hbefore hle
  | entered => exact of_unserved rfl rfl harrived
  | completed _ hlt hold hcompletion =>
    have hbefore := he i p job hp hold (hsound.arrived i p hp hlt)
    rw [hcompletion] at hbefore ⊢
    exact hbefore
  | ahead => exact of_unserved rfl rfl harrived

theorem skips {next : Process} (he : Elapsed ps s) (hm : Skips ps s next s')
    (hsound : s.Sound ps) : Elapsed ps s' := by
  intro i p job hp hjob harrived
  rw [hm.job_eq i] at hjob
  by_cases hbefore : p.arrival ≤ s.now
  · have hreceived := he i p job hp hjob hbefore
    have hnow : s'.now = next.arrival := congrArg (·.now) hm.machine
    have hlater := UInt64.lt_iff_toNat_lt.1 hm.later
    cases hcompletion : job.completion with
    | none =>
      rw [hcompletion, Option.getD_none] at hreceived
      rw [Option.getD_none, hnow]
      omega
    | some completion =>
      rw [hcompletion] at hreceived
      exact hreceived
  · -- a process that arrives within the gap is still as declared
    have hahead : s.admitted ≤ i := by
      apply Nat.le_of_not_lt
      intro hlt
      exact hbefore (hsound.arrived i p hp hlt)
    obtain rfl := hsound.eq_of_ahead hp hahead hjob
    exact of_unserved rfl rfl harrived

theorem start {config : Config} (hstart : start ps config = .ok s) : Elapsed ps s := by
  intro i p job hp hjob harrived
  have hahead : s.admitted ≤ i := by
    rw [admitted_of_start hstart]
    exact Nat.zero_le i
  obtain rfl := (sound_start hstart).eq_of_ahead hp hahead hjob
  exact of_unserved rfl rfl harrived

theorem reaches_of (he : Elapsed ps s) (hsound : s.Sound ps) (hk : Contract.Kept ps)
    (hr : Reaches ps s events s') : Elapsed ps s' := by
  induction hr with
  | refl => exact he
  | snoc hr hm ih =>
    have hbefore := hsound.reaches hk hr
    cases hm with
    | serves turn hm => exact ih.serves hm hk hbefore
    | skips next hm => exact ih.skips hm hbefore

theorem reaches {config : Config} (hstart : Simulation.start ps config = .ok s)
    (hr : Reaches ps s events s') : Elapsed ps s' :=
  (start hstart).reaches_of (sound_start hstart) (kept_of_start hstart) hr

/-- The timings of jobs that have all finished show no completion before the arrival. -/
theorem arrival_le_completion (he : Elapsed ps s) (hsound : s.Sound ps)
    (hdone : s.allCompleted = true) {timings : List Timing}
    (htimings : s.machine.jobs.toList.mapM Job.timing = .ok timings) :
    ∀ timing ∈ timings, timing.arrival ≤ timing.completion := by
  intro timing hmem
  obtain ⟨i, hentry⟩ := List.getElem?_of_mem hmem
  have hp : ps[i]? = some timing.process := by
    rw [← hsound.processes_of_mapM htimings, List.getElem?_map, hentry, Option.map_some]
  have harrived := hsound.arrived i _ hp (hsound.lt_admitted_of_completed hdone hp)
  obtain ⟨job, timing', hjob, hentry', _, _, _, hcompletion, _⟩ :=
    hsound.timing_of_completed hdone htimings hp
  rw [hentry, Option.some.injEq] at hentry'
  subst hentry'
  have hreceived := he i _ job hp hjob harrived
  rw [hcompletion, Option.getD_some] at hreceived
  have htop := Word.toNat_top
  have hfirst := timing.arrival.toNat_lt_size
  have hsame : timing.process.arrival = timing.arrival := rfl
  rw [hsame] at hreceived
  rw [UInt64.le_iff_toNat_le]
  omega

end Elapsed

/-- In the report of a run, every process has received its burst and has completed at an instant no
earlier than its arrival and its burst add up to, or else at the greatest word. Its completion is
less than its burst after its arrival exactly if they add up to more than that. -/
theorem turnaround_of_run {config : Config} {report : Report} (hstart : start ps config = .ok s)
    (hreport : s.run = .ok report) {i : Nat} {p : Process} (hp : ps[i]? = some p) :
    ∃ timing, report.timings[i]? = some timing ∧ timing.pid = p.pid ∧ timing.cpuTime = p.burst ∧
      p.arrival ≤ timing.completion ∧
      min (p.arrival.toNat + p.burst.toNat) Word.top.toNat ≤ timing.completion.toNat ∧
      (p.burst.toNat ≤ timing.completion.toNat - p.arrival.toNat ↔
        p.arrival.toNat + p.burst.toNat < UInt64.size) := by
  have hk := kept_of_start hstart
  obtain ⟨_, _, fin, timings, _, hdone, _, hreaches, htimings, htotals⟩ :=
    exists_timings_of_run hstart hreport
  have hsound := (sound_start hstart).reaches hk hreaches
  obtain ⟨hall, _⟩ := hsound.allCompleted_iff.1 hdone
  have hlt := (List.getElem?_eq_some_iff.1 hp).1
  have harrived := hsound.arrived i p hp (by omega)
  obtain ⟨job, timing, hjob, hentry, haccounts, hremaining, _, hcompletion, hpid, _⟩ :=
    hsound.timing_of_completed hdone htimings hp
  obtain ⟨timing', hentry', hcpuTime, _⟩ := hreaches.timing_eq hstart hdone htimings hp
  rw [hentry, Option.some.injEq] at hentry'
  subst hentry'
  have helapsed := Elapsed.reaches hstart hreaches i p job hp hjob harrived
  have hspent := haccounts.spent
  rw [hremaining, UInt64.toNat_zero, Nat.add_zero] at hspent
  rw [hcompletion, Option.getD_some, hspent] at helapsed
  have htop := Word.toNat_top
  have hfirst := p.arrival.toNat_lt_size
  have hlast := timing.completion.toNat_lt_size
  have hle : p.arrival.toNat ≤ timing.completion.toNat := by omega
  refine ⟨timing, htotals.timings_eq ▸ hentry, hpid, hcpuTime, UInt64.le_iff_toNat_le.2 hle,
    helapsed, ?_⟩
  omega

theorem turnaround_of_run_lastArrivals :
    ∃ s report, start lastArrivals { quantum := 4, checks := true } = .ok s ∧
      s.run = .ok report ∧ lastArrivals[1]? = some ⟨⟨2⟩, Word.top, 3⟩ ∧
      ∃ timing, report.timings[1]? = some timing ∧ timing.pid = ⟨2⟩ ∧ timing.cpuTime = 3 ∧
        Word.top ≤ timing.completion ∧
        min (Word.top.toNat + UInt64.toNat 3) Word.top.toNat ≤ timing.completion.toNat ∧
        (UInt64.toNat 3 ≤ timing.completion.toNat - Word.top.toNat ↔
          Word.top.toNat + UInt64.toNat 3 < UInt64.size) := by
  obtain ⟨s, report, hstart, hreport⟩ : ∃ s report,
      start lastArrivals { quantum := 4, checks := true } = .ok s ∧ s.run = .ok report :=
    ⟨_, _, rfl, rfl⟩
  have hsecond : lastArrivals[1]? = some ⟨⟨2⟩, Word.top, 3⟩ := rfl
  exact ⟨s, report, hstart, hreport, hsecond, turnaround_of_run hstart hreport hsecond⟩

/-- A process that arrives at the greatest word. -/
def beyondClock : ProcessList :=
  [{ pid := ⟨1⟩, arrival := Word.top, burst := 2 }]

/-- It receives its two ticks and completes at the instant of its arrival. -/
theorem run_beyondClock :
    ∃ s report, start beyondClock { quantum := 4, checks := true } = .ok s ∧
      s.run = .ok report ∧ ∃ timing, report.timings = [timing] ∧ timing.cpuTime = timing.burst ∧
        ¬ timing.burst.toNat ≤ timing.completion.toNat - timing.arrival.toNat := by
  refine ⟨_, _, rfl, rfl, _, rfl, rfl, ?_⟩
  decide

end Simulation

end RoundRobin
