import RoundRobin.Proofs.Runs

/-!
# What a step touches

The monitor audits the account of the job that it is told about and of no other. That is enough: a
step changes the account of the job that has the turn only, and names this job (`Footprint`). The
audit of any other account therefore ends as it would have ended before the step
(`Footprint.auditAccount_eq`), and the accounts of all jobs pass as soon as the account of the named
job does (`Footprint.audits_iff`). Main statement: `step_touches_one`.
-/

namespace RoundRobin

/-- A job that still counts as the same in an audit: it has not been served, has its burst, and is
finished exactly if it was. -/
structure Job.SameAccount (old job : Job) : Prop where
  unserved : old.Unserved job
  burst : job.burst = old.burst
  finished_iff : job.phase = .finished ↔ old.phase = .finished

/-- The audit of an account looks at nothing but the account. -/
theorem Machine.auditAccount_congr {m m' : Machine} {i : Nat} (hsize : m'.jobs.size = m.jobs.size)
    (hsame : ∀ old job, m.jobs[i]? = some old → m'.jobs[i]? = some job → old.SameAccount job) :
    m'.auditAccount i = m.auditAccount i := by
  unfold auditAccount job
  rw [hsize]
  cases hold : m.jobs[i]? with
  | none =>
    rw [Array.getElem?_eq_none_iff] at hold
    rw [Array.getElem?_eq_none_iff.2 (by omega)]
  | some old =>
    obtain ⟨hlt, _⟩ := Array.getElem?_eq_some_iff.1 hold
    have hjob : m'.jobs[i]? = some m'.jobs[i] := Array.getElem?_eq_getElem (by omega)
    have h := hsame old _ hold hjob
    rw [hjob]
    simp only [Fault.ok_bind, h.unserved.cpuTime, h.unserved.remaining, h.burst, h.finished_iff,
      h.unserved.completion, h.unserved.response]

namespace Simulation

variable {ps : ProcessList} {s s' mid left : Simulation}

/-- What a step may change of the jobs, up to its observation. The state `mid` is the one in which
the slice starts, behind the first pass over the arrivals, and `left` is the one that the monitor
gets to see. -/
structure Footprint (s mid left : Simulation) : Prop where
  size : left.machine.jobs.size = s.machine.jobs.size
  /-- No job loses what its process declares. -/
  declared : ∀ i old job, s.job? i = some old → left.job? i = some job →
    job.pid = old.pid ∧ job.arrival = old.arrival ∧ job.burst = old.burst
  /-- Only the job that is named to the monitor can have been served. -/
  untouched : ∀ i old job, s.job? i = some old → left.job? i = some job →
    left.scheduler.touched ≠ some i → old.SameAccount job
  /-- With no job queued, none is named and all are as they were. -/
  idle : mid.queue = [] → left.scheduler.touched = none ∧ left.machine.jobs = s.machine.jobs
  /-- The job at the front of the queue is the one that is named. Those behind it wait for the whole
  slice, which is as long as the event of the dispatch says, and no others wait. -/
  served : ∀ i rest, mid.queue = i :: rest → left.scheduler.touched = some i ∧ i ∉ rest ∧
    ∃ job slice, s.job? i = some job ∧ slice = job.share s.quantum ∧
      { time := s.now, event := .dispatched job.pid slice job.response.isNone } ∈
        left.scheduler.pending.toList ∧
      ∀ k before after, s.job? k = some before → left.job? k = some after →
        after.waiting = if k ∈ rest then before.waiting.satAdd slice else before.waiting

namespace Footprint

/-- The audit of an account that the step did not touch ends as it would have before the step. -/
theorem auditAccount_eq (h : Footprint s mid left) {k : Nat}
    (huntouched : left.scheduler.touched ≠ some k) :
    left.machine.auditAccount k = s.machine.auditAccount k :=
  Machine.auditAccount_congr h.size fun old job hold hjob =>
    h.untouched k old job hold hjob huntouched

/-- The job that is named is one of the machine. -/
theorem touched_lt (h : Footprint s mid left) {i : Nat}
    (htouched : left.scheduler.touched = some i) : i < left.machine.jobs.size := by
  cases hline : mid.queue with
  | nil =>
    rw [(h.idle hline).1] at htouched
    cases htouched
  | cons j rest =>
    obtain ⟨hnamed, _, job, _, hjob, _⟩ := h.served j rest hline
    rw [hnamed, Option.some.injEq] at htouched
    rw [← htouched, h.size]
    exact (Array.getElem?_eq_some_iff.1 hjob).1

/-- If all accounts passed before the step, they all pass after it as soon as the one does that is
named to the monitor. -/
theorem audits_iff (h : Footprint s mid left)
    (hbefore : ∀ k < s.machine.jobs.size, s.machine.auditAccount k = .ok ()) :
    (∀ i, left.scheduler.touched = some i → left.machine.auditAccount i = .ok ()) ↔
      ∀ k < left.machine.jobs.size, left.machine.auditAccount k = .ok () := by
  constructor
  · intro hnamed k hk
    by_cases htouched : left.scheduler.touched = some k
    · exact hnamed k htouched
    · -- this account has not changed, and it passed before the step
      rw [h.auditAccount_eq htouched]
      exact hbefore k (h.size ▸ hk)
  · intro hall i htouched
    exact hall i (h.touched_lt htouched)

end Footprint

/-- Two jobs of one process agree on what it declares. -/
theorem Sound.declared (h : s.Sound ps) (h' : s'.Sound ps) {i : Nat} {old job : Job}
    (hold : s.job? i = some old) (hjob : s'.job? i = some job) :
    job.pid = old.pid ∧ job.arrival = old.arrival ∧ job.burst = old.burst := by
  have hlt : i < ps.length := h.size ▸ (Array.getElem?_eq_some_iff.1 hold).1
  have hp : ps[i]? = some ps[i] := List.getElem?_eq_getElem hlt
  obtain ⟨old', hold', haccounts, _⟩ := h.standing i _ hp
  obtain ⟨job', hjob', haccounts', _⟩ := h'.standing i _ hp
  rw [hold, Option.some.injEq] at hold'
  rw [hjob, Option.some.injEq] at hjob'
  subst hold' hjob'
  exact ⟨haccounts'.pid.trans haccounts.pid.symm, haccounts'.arrival.trans haccounts.arrival.symm,
    haccounts'.burst.trans haccounts.burst.symm⟩

/-- A turn changes the account of its own job only. -/
theorem Serves.sameAccount {turn : Turn} (h : Serves ps s turn s') (hk : Contract.Kept ps)
    (hsound : s.Sound ps) {i : Nat} {old job : Job} (hother : i ≠ turn.position)
    (hold : s.job? i = some old) (hjob : s'.job? i = some job) : old.SameAccount job := by
  obtain ⟨_, _, hburst⟩ := hsound.declared (hsound.serves hk h) hold hjob
  have hfinished := hsound.finished_iff_of_serves hk h hother hold hjob
  rcases h.job_cases hjob with ⟨hposition, _⟩ | ⟨_, before, hbefore, hunserved⟩
  · exact absurd hposition hother
  · rw [hold, Option.some.injEq] at hbefore
    subst hbefore
    exact ⟨hunserved, hburst, hfinished⟩

/-- A turn leaves its footprint. -/
theorem Serves.footprint {turn : Turn} (h : Serves ps s turn left) (hk : Contract.Kept ps)
    (hsound : s.Sound ps) (hline : mid.queue = turn.position :: turn.rest)
    (hnamed : left.scheduler.touched = some turn.position)
    (hpending : left.scheduler.pending.toList = turn.events ps s left) :
    Footprint s mid left where
  size := h.frame.size
  declared i old job hold hjob := hsound.declared (hsound.serves hk h) hold hjob
  untouched := by
    intro i old job hold hjob huntouched
    apply h.sameAccount hk hsound _ hold hjob
    rintro rfl
    exact huntouched hnamed
  idle hempty := by
    rw [hline] at hempty
    cases hempty
  served := by
    intro i rest heq
    rw [hline, List.cons.injEq] at heq
    obtain ⟨rfl, rfl⟩ := heq
    have hfresh := (List.nodup_cons.1 (hsound.nodup_line h)).1
    have hready := hsound.eligible hk h h.process
    refine ⟨hnamed, hfresh, turn.job, turn.run s.quantum, h.job, rfl, ?_, ?_⟩
    · rw [hpending, Turn.mem_events_iff, hready.accounts.pid]
      exact .inr (.inl rfl)
    · intro k before after hbefore hafter
      obtain ⟨old, hold, hwaiting⟩ := h.waiting_eq hfresh hafter
      rw [hbefore, Option.some.injEq] at hold
      rw [hwaiting, hold]

/-- A skip leaves no footprint. -/
theorem Skips.footprint {p : Process} (h : Skips ps s p left) (hline : mid.queue = [])
    (hnamed : left.scheduler.touched = none) : Footprint s mid left := by
  have hjobs : left.machine.jobs = s.machine.jobs := congrArg (·.jobs) h.machine
  have hsame : ∀ i old job, s.job? i = some old → left.job? i = some job → job = old := by
    intro i old job hold hjob
    rw [h.job_eq i, hold, Option.some.injEq] at hjob
    exact hjob.symm
  exact {
    size := h.frame.size
    declared := by
      intro i old job hold hjob
      rw [hsame i old job hold hjob]
      exact ⟨rfl, rfl, rfl⟩
    untouched := by
      intro i old job hold hjob _
      rw [hsame i old job hold hjob]
      exact ⟨⟨rfl, rfl, rfl, rfl, rfl⟩, rfl, .rfl⟩
    idle := fun _ => ⟨hnamed, hjobs⟩
    served := by
      intro i rest heq
      rw [hline] at heq
      cases heq }

/-- A step that is observed: it lets in what has arrived (`mid`), comes to the state `left`, and
shows it to the monitor together with the job that it names. Then no job is named any more. -/
structure Shows (s mid left : Simulation) : Prop where
  admitted : s.admitWhile (· ≤ s.now) = .ok mid
  proceeded : s.proceed = .ok left
  observed : ∃ monitor,
    left.scheduler.monitor.observe left.machine left.scheduler.touched = .ok monitor ∧
      s.step = .ok (left.scheduler.pending,
        { left with
          scheduler := { left.scheduler with monitor, pending := #[], touched := none } })

/-- With work left, a step is observed, and what the monitor sees carries the footprint of one
turn. -/
theorem Orderly.shows (h : s.Orderly ps) (hk : Contract.Kept ps) (hopen : s.allCompleted = false)
    (hroom : s.scheduler.monitor.steps.toNat + 1 < UInt64.size) :
    ∃ mid left, Shows s mid left ∧ Footprint s mid left := by
  rcases h.sound.proceeds hk (h.room hroom) hopen with
    ⟨mid, events, left, hmid, hproceed, hproceeds, hemitted⟩
  obtain ⟨_, haudit⟩ := h.audited hk hproceeds
  have hsteps := steps_of_proceed hproceed
  have hpending : left.scheduler.pending.toList = events := by
    rw [hemitted.pending, h.pending]
    rfl
  refine ⟨mid, left, ?_, ?_⟩
  · have hobserve := Monitor.observe_eq_ok haudit (by rw [hsteps]; exact hroom)
    exact ⟨hmid, hproceed, _, hobserve, step_of_observe hopen hproceed hobserve⟩
  · cases hproceeds with
    | serves turn hline hnamed hm => exact hm.footprint hk h.sound hline hnamed hpending
    | skips p hline hnamed hm => exact hm.footprint hline (hnamed.trans h.touched)

/-- Each of the first `2 ^ 64 - 1` steps of a simulation goes through, starting with no job named.
If there is work left, what the step shows to the monitor carries the footprint of one turn: the
jobs other than the one named have kept their accounts, and the audits of these end as before. All
accounts then pass their audit exactly if that of the named job does. -/
theorem step_touches_one {config : Config} (hstart : start ps config = .ok s) {n : Nat}
    (hn : n + 1 < UInt64.size) :
    ∃ events t, s.steps n = .ok (events, t) ∧ t.scheduler.touched = none ∧
      ((t.allCompleted = true ∧ t.step = .ok (#[], t)) ∨
        ∃ mid left, Shows t mid left ∧ Footprint t mid left ∧
          (∀ k, left.scheduler.touched ≠ some k →
            left.machine.auditAccount k = t.machine.auditAccount k) ∧
          ((∀ i, left.scheduler.touched = some i → left.machine.auditAccount i = .ok ()) ↔
            ∀ k < left.machine.jobs.size, left.machine.auditAccount k = .ok ())) := by
  have hk := kept_of_start hstart
  have hzero : s.scheduler.monitor.steps.toNat = 0 := congrArg UInt64.toNat (steps_of_start hstart)
  obtain ⟨events, t, hrun⟩ := (orderly_start hstart).steps_ok hk n (by omega)
  obtain ⟨_, horderly, hcount⟩ := (orderly_start hstart).run hk hrun
  refine ⟨events, t, hrun, horderly.touched, ?_⟩
  cases hdone : t.allCompleted with
  | true => exact .inl ⟨rfl, step_of_completed hdone⟩
  | false =>
    obtain ⟨mid, left, hshows, hfootprint⟩ := horderly.shows hk hdone (by omega)
    refine .inr ⟨mid, left, hshows, hfootprint, fun k => hfootprint.auditAccount_eq, ?_⟩
    apply hfootprint.audits_iff
    intro k hlt
    exact horderly.sound.auditAccount (horderly.sound.size ▸ hlt)

/-- The third step gives a turn to the first process while the second one waits. -/
theorem step_touches_one_lastArrivals :
    ∃ s, start lastArrivals { quantum := 4, checks := true } = .ok s ∧ 2 + 1 < UInt64.size ∧
      ∃ events t, s.steps 2 = .ok (events, t) ∧ t.scheduler.touched = none ∧
        ((t.allCompleted = true ∧ t.step = .ok (#[], t)) ∨
          ∃ mid left, Shows t mid left ∧ Footprint t mid left ∧
            (∀ k, left.scheduler.touched ≠ some k →
              left.machine.auditAccount k = t.machine.auditAccount k) ∧
            ((∀ i, left.scheduler.touched = some i → left.machine.auditAccount i = .ok ()) ↔
              ∀ k < left.machine.jobs.size, left.machine.auditAccount k = .ok ())) := by
  have hstart : start lastArrivals { quantum := 4, checks := true } = .ok _ := rfl
  have hn : 2 + 1 < UInt64.size := by decide
  exact ⟨_, hstart, hn, step_touches_one hstart hn⟩

end Simulation

end RoundRobin
