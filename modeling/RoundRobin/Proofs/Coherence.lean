import RoundRobin.Client
import RoundRobin.Proofs.Audit

/-!
# The machine between calls

`Machine.Coherent` is what any sequence of calls keeps: where every job stands, that the queue holds
exactly the ready jobs, and that the counters have not run ahead of the calls. Unlike between the
steps of a simulation, a job may be on the processor, may be queued ahead of its arrival, and may go
to the back of the queue without having been served. A call changes one job at most and lets the
others wait (`Changes`), so each operation is checked at one position only.
-/

namespace RoundRobin

namespace Fault

theorem error_bind {α β : Type} (fault : Fault) (f : α → Except Fault β) :
    (Except.error fault >>= f) = .error fault := rfl

theorem require_of_not {condition : Prop} [Decidable condition] {fault : Fault}
    (h : ¬ condition) : require condition fault = .error fault :=
  if_neg h

/-- A loop over a list ends at the first entry that faults. -/
theorem forM_eq_error {α : Type} {f : α → Except Fault Unit} {fault : Fault} {a : α}
    (before after : List α) (hbefore : ∀ b ∈ before, f b = .ok ()) (h : f a = .error fault) :
    (before ++ a :: after).forM f = .error fault := by
  induction before with
  | nil =>
    change (f a >>= fun _ => after.forM f) = _
    rw [h, error_bind]
  | cons b before ih =>
    change (f b >>= fun _ => (before ++ a :: after).forM f) = _
    rw [hbefore b List.mem_cons_self, ok_bind]
    exact ih fun c hc => hbefore c (List.mem_cons_of_mem b hc)

end Fault

/-- The job once it has retired. -/
def Job.retired (job : Job) (finish : Ticks) : Job :=
  { job with phase := .finished, completion := some finish }

namespace Machine

/-- Where a job stands between calls. The phase says whether it is queued or on the processor; a job
that has not left the queue for good has work left or has been dispatched. -/
structure Standing (m : Machine) (i : Nat) (job : Job) : Prop where
  queued_iff : i ∈ m.ready.slots ↔ job.phase = .ready
  current_iff : m.current = some i ↔ job.phase = .running
  work : job.phase = .unarrived ∨ job.phase = .ready → 0 < job.remaining
  response : job.remaining = 0 → job.response.isSome
  finished : job.phase = .finished → job.remaining = 0 ∧ job.completion.isSome
  arrived : job.response.isSome → job.arrival ≤ m.now

/-- What holds of the machine of `ps` after a number of calls. -/
structure Coherent (ps : ProcessList) (calls : Nat) (m : Machine) : Prop where
  size : m.jobs.size = ps.length
  consistent : m.ready.Consistent
  queue_lt : ∀ i ∈ m.ready.slots, i < ps.length
  current_lt : ∀ i, m.current = some i → i < ps.length
  standing : ∀ i p, ps[i]? = some p → ∃ job, m.jobs[i]? = some job ∧ job.Accounts p ∧
    m.Standing i job ∧ job.dispatches.toNat ≤ calls
  finished : m.finished.toNat = m.jobs.toList.countP (fun job => job.phase = .finished)
  finished_le : m.finished.toNat ≤ calls

/-- What a call does that changes the job at one position: every other job stays where it stands,
and has at most waited. -/
structure Changes (m m' : Machine) (i : Nat) (old job : Job) : Prop where
  size : m'.jobs.size = m.jobs.size
  now : m.now ≤ m'.now
  consistent : m'.ready.Consistent
  old : m.jobs[i]? = some old
  job : m'.jobs[i]? = some job
  others : ∀ k other, k ≠ i → m.jobs[k]? = some other →
    ∃ waiting, m'.jobs[k]? = some { other with waiting }
  queued : ∀ k, k ≠ i → (k ∈ m'.ready.slots ↔ k ∈ m.ready.slots)
  current : ∀ k, k ≠ i → (m'.current = some k ↔ m.current = some k)

variable {ps : ProcessList} {n : Nat} {m m' : Machine} {i : Nat} {p : Process} {old job : Job}

theorem coherent_ofProcesses (hburst : ∀ p ∈ ps, 0 < p.burst) : (ofProcesses ps).Coherent ps 0 where
  size := by simp [ofProcesses]
  consistent := ReadyQueue.consistent_empty
  queue_lt := by simp [ofProcesses]
  current_lt := by simp [ofProcesses]
  standing := by
    intro i p hp
    have hpos := hburst p (List.mem_of_getElem? hp)
    refine ⟨.ofProcess p, by simp [ofProcesses, hp], Job.accounts_ofProcess p, ?_, Nat.le_refl 0⟩
    exact {
      queued_iff := by simp [ofProcesses, Job.ofProcess]
      current_iff := by simp [ofProcesses, Job.ofProcess]
      work := fun _ => hpos
      response := fun hzero => absurd hzero (UInt64.pos_iff_ne_zero.1 hpos)
      finished := by simp [Job.ofProcess]
      arrived := by simp [Job.ofProcess] }
  finished := by
    symm
    simp [ofProcesses, List.countP_eq_zero, Job.ofProcess]
  finished_le := Nat.le_refl 0

/-- A job that has only waited stands where it stood, as long as the queue and the processor have
not changed for it. -/
theorem Standing.wait (h : m.Standing i job) (waiting : Ticks) (hnow : m.now ≤ m'.now)
    (hqueued : i ∈ m'.ready.slots ↔ i ∈ m.ready.slots)
    (hcurrent : m'.current = some i ↔ m.current = some i) :
    m'.Standing i { job with waiting } where
  queued_iff := hqueued.trans h.queued_iff
  current_iff := hcurrent.trans h.current_iff
  work := h.work
  response := h.response
  finished := h.finished
  arrived hsome := UInt64.le_trans (h.arrived hsome) hnow

/-- All queued jobs have arrived, or one of them is the first that has not. -/
theorem queue_cases (m : Machine) (slots : List Nat) :
    (∀ k ∈ slots, ∀ job, m.jobs[k]? = some job → job.arrival ≤ m.now) ∨
      ∃ before i after job, slots = before ++ i :: after ∧
        (∀ k ∈ before, ∀ other, m.jobs[k]? = some other → other.arrival ≤ m.now) ∧
        m.jobs[i]? = some job ∧ m.now < job.arrival := by
  induction slots with
  | nil => exact .inl (by simp)
  | cons k rest ih =>
    by_cases hk : ∀ job, m.jobs[k]? = some job → job.arrival ≤ m.now
    · rcases ih with hall | ⟨before, i, after, job, hsplit, hbefore, hjob, hearly⟩
      · exact .inl (List.forall_mem_cons.2 ⟨hk, hall⟩)
      · exact .inr ⟨k :: before, i, after, job, congrArg (k :: ·) hsplit,
          List.forall_mem_cons.2 ⟨hk, hbefore⟩, hjob, hearly⟩
    · obtain ⟨job, hnot⟩ := Classical.not_forall.1 hk
      obtain ⟨hjob, hearly⟩ := Classical.not_imp.1 hnot
      exact .inr ⟨[], k, rest, job, rfl, by simp, hjob, UInt64.not_le.1 hearly⟩

namespace Coherent

theorem mono {n' : Nat} (h : m.Coherent ps n) (hle : n ≤ n') : m.Coherent ps n' :=
  { h with
    standing := by
      intro i p hp
      obtain ⟨job, hjob, haccounts, hstanding, hdispatches⟩ := h.standing i p hp
      exact ⟨job, hjob, haccounts, hstanding, Nat.le_trans hdispatches hle⟩
    finished_le := Nat.le_trans h.finished_le hle }

/-- Every position of the machine is one of the process list. -/
theorem of_job (h : m.Coherent ps n) (hjob : m.jobs[i]? = some job) :
    ∃ p, ps[i]? = some p ∧ job.Accounts p ∧ m.Standing i job ∧ job.dispatches.toNat ≤ n := by
  have hlt : i < ps.length := by
    rw [← h.size]
    exact (Array.getElem?_eq_some_iff.1 hjob).1
  obtain ⟨other, hother, hrest⟩ := h.standing i _ (List.getElem?_eq_getElem hlt)
  rw [hjob, Option.some.injEq] at hother
  exact ⟨ps[i], List.getElem?_eq_getElem hlt, hother ▸ hrest⟩

theorem job_of_lt (h : m.Coherent ps n) (hlt : i < ps.length) :
    ∃ job, m.jobs[i]? = some job := by
  obtain ⟨job, hjob, _⟩ := h.standing i _ (List.getElem?_eq_getElem hlt)
  exact ⟨job, hjob⟩

theorem job_of_queued (h : m.Coherent ps n) (hi : i ∈ m.ready.slots) :
    ∃ job, m.jobs[i]? = some job ∧ job.phase = .ready := by
  obtain ⟨job, hjob⟩ := h.job_of_lt (h.queue_lt i hi)
  obtain ⟨_, _, _, hstanding, _⟩ := h.of_job hjob
  exact ⟨job, hjob, hstanding.queued_iff.1 hi⟩

/-- The job on the processor is running and is not queued. -/
theorem running_of_current (h : m.Coherent ps n) (hcurrent : m.current = some i)
    (hjob : m.jobs[i]? = some job) : job.phase = .running ∧ i ∉ m.ready.slots := by
  obtain ⟨_, _, _, hstanding, _⟩ := h.of_job hjob
  have hphase := hstanding.current_iff.1 hcurrent
  refine ⟨hphase, ?_⟩
  simp [hstanding.queued_iff, hphase]

/-- A call that changes one job keeps the machine coherent if that job is. -/
theorem changes (h : m.Coherent ps n) (hc : m.Changes m' i old job) (hphase : old.phase ≠ .finished)
    (haccounts : ∀ p, old.Accounts p → job.Accounts p) (hstanding : m'.Standing i job)
    (hdispatches : job.dispatches.toNat ≤ old.dispatches.toNat + 1)
    (hfinished : m'.finished.toNat =
      m.finished.toNat + if job.phase = .finished then 1 else 0) : m'.Coherent ps (n + 1) := by
  obtain ⟨p, hp, hold, _, hcount⟩ := h.of_job hc.old
  have hlt := (List.getElem?_eq_some_iff.1 hp).1
  exact {
    size := hc.size.trans h.size
    consistent := hc.consistent
    queue_lt := by
      intro k hk
      by_cases hki : k = i
      · rwa [hki]
      · exact h.queue_lt k ((hc.queued k hki).1 hk)
    current_lt := by
      intro k hk
      by_cases hki : k = i
      · rwa [hki]
      · exact h.current_lt k ((hc.current k hki).1 hk)
    standing := by
      intro k q hq
      by_cases hki : k = i
      · subst hki
        rw [hp, Option.some.injEq] at hq
        exact ⟨job, hc.job, haccounts q (hq ▸ hold), hstanding, by omega⟩
      · obtain ⟨other, hother, haccounts', hstanding', hcount'⟩ := h.standing k q hq
        obtain ⟨waiting, hwaited⟩ := hc.others k other hki hother
        exact ⟨_, hwaited, { haccounts' with },
          hstanding'.wait waiting hc.now (hc.queued k hki) (hc.current k hki),
          Nat.le_succ_of_le hcount'⟩
    finished := by
      have hset : m'.jobs.toList.map (fun job => decide (job.phase = .finished)) = _ :=
        map_toList_eq_set hc.size hc.job fun k other waited hki hother hwaited => by
          obtain ⟨waiting, hwaited'⟩ := hc.others k other hki hother
          rw [hwaited, Option.some.injEq] at hwaited'
          rw [hwaited']
      rw [countP_of_map_eq_set hset (by rw [Array.getElem?_toList]; exact hc.old)
        (by simp [hphase]), ← h.finished, hfinished]
      simp
    finished_le := by
      have hle := h.finished_le
      rw [hfinished]
      split <;> omega }

/-- A call under which the clock moves and jobs wait, and nothing else happens. -/
theorem waits (h : m.Coherent ps n) {jobs : Array Job} {now : Ticks}
    (hsize : jobs.size = m.jobs.size) (hnow : m.now ≤ now)
    (hjobs : ∀ (k : Nat) other, m.jobs[k]? = some other →
      ∃ waiting, jobs[k]? = some { other with waiting }) :
    Coherent ps (n + 1) { m with jobs, now } where
  size := hsize.trans h.size
  consistent := h.consistent
  queue_lt := h.queue_lt
  current_lt := h.current_lt
  standing := by
    intro k q hq
    obtain ⟨other, hother, haccounts, hstanding, hcount⟩ := h.standing k q hq
    obtain ⟨waiting, hwaited⟩ := hjobs k other hother
    exact ⟨_, hwaited, { haccounts with }, hstanding.wait waiting hnow .rfl .rfl,
      Nat.le_succ_of_le hcount⟩
  finished := by
    have hphases : jobs.toList.map Job.phase = m.jobs.toList.map Job.phase := by
      apply List.ext_getElem?
      intro k
      rw [List.getElem?_map, List.getElem?_map, Array.getElem?_toList, Array.getElem?_toList]
      cases hother : m.jobs[k]? with
      | none =>
        have hle := Array.getElem?_eq_none_iff.1 hother
        rw [Array.getElem?_eq_none_iff.2 (hsize.symm ▸ hle)]
      | some other =>
        obtain ⟨waiting, hwaited⟩ := hjobs k other hother
        rw [hwaited]
        rfl
    have hcount := congrArg (List.countP fun phase => decide (phase = .finished)) hphases
    rw [List.countP_map, List.countP_map] at hcount
    exact h.finished.trans hcount.symm
  finished_le := Nat.le_succ_of_le h.finished_le

theorem admitJob (h : m.Coherent ps n) (hjob : m.jobs[i]? = some job)
    (hphase : job.phase = .unarrived) :
    ∃ m', m.admitJob i = .ok m' ∧ m'.Coherent ps (n + 1) := by
  obtain ⟨_, _, _, hstanding, _⟩ := h.of_job hjob
  have hnew : i ∉ m.ready.slots := by simp [hstanding.queued_iff, hphase]
  have hfree : m.current ≠ some i := by simp [hstanding.current_iff, hphase]
  obtain ⟨ready, hslots, hready, hentry⟩ := admitJob_eq_ok hjob hphase h.consistent hnew
  have hset := getElem?_setJob hjob job.enter
  have hchanges : m.Changes { m.setJob i job.enter with ready } i job job.enter := {
    size := size_setJob
    now := UInt64.le_refl _
    consistent := hready
    old := hjob
    job := (hset i).trans (if_pos rfl)
    others := fun k other hk hother => ⟨_, (hset k).trans ((if_neg hk).trans hother)⟩
    queued := fun k hk => by simp [hslots, hk]
    current := fun _ _ => .rfl }
  have hstanding' : Standing { m.setJob i job.enter with ready } i job.enter := {
    queued_iff := by simp [hslots, Job.enter]
    current_iff := by simp [setJob, hfree, Job.enter]
    work := fun _ => hstanding.work (.inl hphase)
    response := hstanding.response
    finished := by simp [Job.enter]
    arrived := hstanding.arrived }
  exact ⟨_, hentry, h.changes hchanges (by simp [hphase]) (fun _ haccounts => haccounts.enter)
    hstanding' (Nat.le_succ _) (by simp [setJob, Job.enter])⟩

theorem startNext {rest : List Nat} (h : m.Coherent ps n) (hfree : m.current = none)
    (hslots : m.ready.slots = i :: rest) :
    ∃ m', m.startNext = .ok (some (i, m')) ∧ m'.Coherent ps (n + 1) := by
  obtain ⟨job, hjob, hphase⟩ := h.job_of_queued (i := i) (by simp [hslots])
  obtain ⟨_, _, _, hstanding, _⟩ := h.of_job hjob
  obtain ⟨m', hstart, hstarted⟩ := startNext_started hfree h.consistent hslots hjob
  have hfresh := h.consistent.not_mem_rest hslots
  have hchanges : m.Changes m' i job { job with phase := .running } := {
    size := hstarted.size
    now := hstarted.now ▸ UInt64.le_refl _
    consistent := hstarted.consistent
    old := hjob
    job := hstarted.job
    others := fun k other hk hother => ⟨_, (hstarted.others k hk).trans hother⟩
    queued := fun k hk => by simp [hstarted.slots, hslots, hk]
    current := fun k hk => by simp [hstarted.current, hfree, Ne.symm hk] }
  have hstanding' : m'.Standing i { job with phase := .running } := {
    queued_iff := by simp [hstarted.slots, hfresh]
    current_iff := by simp [hstarted.current]
    work := by simp
    response := hstanding.response
    finished := by simp
    arrived := fun hsome => hstarted.now ▸ hstanding.arrived hsome }
  exact ⟨m', hstart, h.changes hchanges (by simp [hphase]) (fun _ haccounts => { haccounts with })
    hstanding' (Nat.le_succ _) (by simp [hstarted.finished])⟩

theorem requeueCurrent (h : m.Coherent ps n) (hcurrent : m.current = some i)
    (hjob : m.jobs[i]? = some job) (hwork : job.remaining ≠ 0) :
    ∃ m', m.requeueCurrent = .ok m' ∧ m'.Coherent ps (n + 1) := by
  obtain ⟨hphase, hnew⟩ := h.running_of_current hcurrent hjob
  obtain ⟨_, _, _, hstanding, _⟩ := h.of_job hjob
  obtain ⟨ready, hslots, hready, hrequeue⟩ :=
    requeueCurrent_eq_ok hcurrent hjob hwork h.consistent hnew
  have hset := getElem?_setJob hjob job.enter
  have hchanges :
      m.Changes { m.setJob i job.enter with ready, current := none } i job job.enter := {
    size := size_setJob
    now := UInt64.le_refl _
    consistent := hready
    old := hjob
    job := (hset i).trans (if_pos rfl)
    others := fun k other hk hother => ⟨_, (hset k).trans ((if_neg hk).trans hother)⟩
    queued := fun k hk => by simp [hslots, hk]
    current := fun k hk => by simp [hcurrent, Ne.symm hk] }
  have hstanding' :
      Standing { m.setJob i job.enter with ready, current := none } i job.enter := {
    queued_iff := by simp [hslots, Job.enter]
    current_iff := by simp [Job.enter]
    work := fun _ => UInt64.pos_iff_ne_zero.2 hwork
    response := hstanding.response
    finished := by simp [Job.enter]
    arrived := hstanding.arrived }
  exact ⟨_, hrequeue, h.changes hchanges (by simp [hphase]) (fun _ haccounts => haccounts.enter)
    hstanding' (Nat.le_succ _) (by simp [setJob, Job.enter])⟩

theorem retireCurrent (h : m.Coherent ps n) (hroom : n + 1 < UInt64.size)
    (hcurrent : m.current = some i) (hjob : m.jobs[i]? = some job) (hwork : job.remaining = 0) :
    ∃ m', m.retireCurrent = .ok (i, m') ∧ m'.Coherent ps (n + 1) := by
  obtain ⟨hphase, hnew⟩ := h.running_of_current hcurrent hjob
  obtain ⟨_, _, _, hstanding, _⟩ := h.of_job hjob
  have hfinished : m.finished.toNat + 1 < UInt64.size := by
    have := h.finished_le
    omega
  have hretire := retireCurrent_eq_ok hcurrent hjob hwork hfinished
  have hset := getElem?_setJob hjob (job.retired m.now)
  have hchanges : m.Changes
      { m.setJob i (job.retired m.now) with current := none, finished := m.finished + 1 } i job
      (job.retired m.now) := {
    size := size_setJob
    now := UInt64.le_refl _
    consistent := h.consistent
    old := hjob
    job := (hset i).trans (if_pos rfl)
    others := fun k other hk hother => ⟨_, (hset k).trans ((if_neg hk).trans hother)⟩
    queued := fun _ _ => .rfl
    current := fun k hk => by simp [hcurrent, Ne.symm hk] }
  have hstanding' : Standing
      { m.setJob i (job.retired m.now) with current := none, finished := m.finished + 1 } i
      (job.retired m.now) := {
    queued_iff := by simp [setJob, hnew, Job.retired]
    current_iff := by simp [Job.retired]
    work := by simp [Job.retired]
    response := hstanding.response
    finished := fun _ => ⟨hwork, rfl⟩
    arrived := hstanding.arrived }
  refine ⟨_, hretire, h.changes hchanges (by simp [hphase]) (fun _ haccounts => { haccounts with })
    hstanding' (Nat.le_succ _) ?_⟩
  have hretired : (job.retired m.now).phase = .finished := rfl
  rw [if_pos hretired]
  exact Word.toNat_add_of_lt hfinished

theorem accrueWaiting (h : m.Coherent ps n) (delta : Ticks) :
    ∃ m', m.accrueWaiting delta = .ok m' ∧ m'.Coherent ps (n + 1) := by
  have hin : ∀ k ∈ m.ready.slots, ∃ other, m.jobs[k]? = some other := by
    intro k hk
    exact h.job_of_lt (h.queue_lt k hk)
  obtain ⟨jobs, hsize, hjobs, hwait⟩ := accrueWaiting_eq_ok delta h.consistent hin
  refine ⟨_, hwait, h.waits hsize (UInt64.le_refl _) fun k other hother => ?_⟩
  rw [hjobs, hother]
  split
  · exact ⟨_, rfl⟩
  · exact ⟨_, rfl⟩

/-- A clock that moves on alone keeps the machine coherent. -/
theorem setNow (h : m.Coherent ps n) {now : Ticks} (hnow : m.now ≤ now) :
    Coherent ps (n + 1) { m with now } :=
  h.waits rfl hnow fun _ _ hother => ⟨_, hother⟩

/-- The audit of one queued job fails exactly if the job has not arrived. -/
theorem auditQueued (h : m.Coherent ps n) (hi : i ∈ m.ready.slots)
    (hjob : m.jobs[i]? = some job) :
    m.auditQueued i =
      if job.arrival ≤ m.now then .ok () else .error (.queuedBeforeArrival i) := by
  obtain ⟨_, _, _, hstanding, _⟩ := h.of_job hjob
  have hphase := hstanding.queued_iff.1 hi
  have hwork := hstanding.work (.inr hphase)
  simp only [Machine.auditQueued, job_eq_ok_iff.2 hjob, Fault.ok_bind, Fault.require_of hphase,
    Fault.require_of hwork]
  rfl

theorem auditCurrent (h : m.Coherent ps n) : m.auditCurrent = .ok () := by
  unfold Machine.auditCurrent
  cases hcurrent : m.current with
  | none => rfl
  | some i =>
    obtain ⟨job, hjob⟩ := h.job_of_lt (h.current_lt i hcurrent)
    obtain ⟨hphase, hnew⟩ := h.running_of_current hcurrent hjob
    have hout : m.ready.contains i = false := by
      rw [h.consistent.contains_eq, decide_eq_false_iff_not]
      exact hnew
    simp only [job_eq_ok_iff.2 hjob, Fault.ok_bind, Fault.require_of hphase, Fault.require_of hout]

theorem auditAccount (h : m.Coherent ps n) (hlt : i < ps.length) : m.auditAccount i = .ok () := by
  obtain ⟨job, hjob, haccounts, hstanding, _⟩ := h.standing i _ (List.getElem?_eq_getElem hlt)
  have hsum : job.cpuTime.addChecked job.remaining = .ok job.burst := by
    rw [Word.addChecked_eq_ok_iff, haccounts.burst]
    exact haccounts.spent.symm
  have htimes : job.phase = .finished → job.completion.isSome ∧ job.response.isSome := by
    intro hphase
    obtain ⟨hzero, hcompletion⟩ := hstanding.finished hphase
    exact ⟨hcompletion, hstanding.response hzero⟩
  simp only [Machine.auditAccount, job_eq_ok_iff.2 hjob, Fault.ok_bind, hsum,
    Fault.require_of htimes]
  rfl

/-- Nothing but a queued job that has not arrived can fail the audit. -/
theorem audit_eq (h : m.Coherent ps n) {touched : Option Nat}
    (htouched : ∀ i, touched = some i → i < ps.length) :
    m.audit touched = m.ready.slots.forM m.auditQueued := by
  simp only [Machine.audit, h.auditCurrent, Machine.auditQueue,
    Fault.require_of h.consistent.size_members.symm, Fault.ok_bind]
  cases touched with
  | none => cases m.ready.slots.forM m.auditQueued <;> rfl
  | some i =>
    simp only [h.auditAccount (htouched i rfl)]
    cases m.ready.slots.forM m.auditQueued <;> rfl

/-- A queue of jobs that have arrived passes the audit. -/
theorem audit_eq_ok (h : m.Coherent ps n) {touched : Option Nat}
    (htouched : ∀ i, touched = some i → i < ps.length)
    (harrived : ∀ k ∈ m.ready.slots, ∀ job, m.jobs[k]? = some job → job.arrival ≤ m.now) :
    m.audit touched = .ok () := by
  rw [h.audit_eq htouched]
  apply Fault.forM_of
  intro k hk
  obtain ⟨job, hjob, _⟩ := h.job_of_queued hk
  rw [h.auditQueued hk hjob, if_pos (harrived k hk job hjob)]

/-- The audit fails at the first queued job that has not arrived. -/
theorem audit_eq_error (h : m.Coherent ps n) {touched : Option Nat}
    (htouched : ∀ i, touched = some i → i < ps.length) {before after : List Nat}
    (hslots : m.ready.slots = before ++ i :: after)
    (hbefore : ∀ k ∈ before, ∀ other, m.jobs[k]? = some other → other.arrival ≤ m.now)
    (hjob : m.jobs[i]? = some job) (hearly : m.now < job.arrival) :
    m.audit touched = .error (.queuedBeforeArrival i) := by
  have hmem : ∀ k ∈ before, k ∈ m.ready.slots := by
    intro k hk
    simp [hslots, hk]
  rw [h.audit_eq htouched, hslots]
  apply Fault.forM_eq_error
  · intro k hk
    obtain ⟨other, hother, _⟩ := h.job_of_queued (hmem k hk)
    rw [h.auditQueued (hmem k hk) hother, if_pos (hbefore k hk other hother)]
  · rw [h.auditQueued (by simp [hslots]) hjob, if_neg (UInt64.not_le.2 hearly)]

end Coherent

end Machine

end RoundRobin
