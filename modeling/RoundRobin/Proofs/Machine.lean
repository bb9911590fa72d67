import RoundRobin.Scheduler

/-!
# What the operations do

For every operation of the queue, the machine and the scheduler, the state that it leaves when it is
called where it makes sense. Each lemma lists the conditions under which the operation succeeds; the
proofs about whole steps use these and never open an operation.
-/

namespace RoundRobin

namespace Fault

theorem ok_bind {α β : Type} (a : α) (f : α → Except Fault β) : (Except.ok a >>= f) = f a := rfl

theorem require_of {condition : Prop} [Decidable condition] {fault : Fault} (h : condition) :
    require condition fault = .ok () :=
  if_pos h

end Fault

namespace ReadyQueue

theorem push_ok {q : ReadyQueue} {i : Nat} (hq : q.Consistent) (hnew : i ∉ q.slots) :
    ∃ q', q.push i = .ok q' ∧ q'.slots = q.slots ++ [i] ∧ q'.Consistent := by
  obtain ⟨q', hpush⟩ := (push_eq_ok_iff hq).2 hnew
  exact ⟨q', hpush, toList_of_push hpush, hq.push hpush⟩

theorem Consistent.push_of_mem {q : ReadyQueue} {i : Nat} (hq : q.Consistent)
    (h : i ∈ q.slots) : q.push i = .error (.alreadyQueued i) := by
  rw [← hq.mem_iff, ← Std.TreeSet.contains_iff_mem] at h
  rw [ReadyQueue.push, if_pos h]

theorem pop_cons {q : ReadyQueue} {i : Nat} {rest : List Nat} (hq : q.Consistent)
    (hslots : q.slots = i :: rest) :
    ∃ q', q.pop = .ok (some (i, q')) ∧ q'.slots = rest ∧ q'.Consistent := by
  rcases pop_eq hq with ⟨hnil, _⟩ | ⟨j, q', hcons, hpop⟩
  · simp only [toList, hslots, reduceCtorEq] at hnil
  · simp only [toList, hslots, List.cons.injEq] at hcons
    obtain ⟨rfl, hrest⟩ := hcons
    exact ⟨q', hpop, hrest.symm, hq.pop hpop⟩

theorem pop_nil {q : ReadyQueue} (hslots : q.slots = []) : q.pop = .ok none := by
  unfold pop
  rw [hslots]

theorem Consistent.contains_eq {q : ReadyQueue} (hq : q.Consistent) (i : Nat) :
    q.contains i = decide (i ∈ q.slots) := by
  rw [Bool.eq_iff_iff, decide_eq_true_iff, ← hq.mem_iff]
  exact Std.TreeSet.contains_iff_mem

theorem Consistent.not_mem_rest {q : ReadyQueue} {i : Nat} {rest : List Nat} (hq : q.Consistent)
    (hslots : q.slots = i :: rest) : i ∉ rest := by
  have hnodup := hq.nodup
  rw [hslots, List.nodup_cons] at hnodup
  exact hnodup.1

/-- The set of members is as large as the queue is long. -/
theorem Consistent.size_members {q : ReadyQueue} (hq : q.Consistent) :
    q.members.size = q.slots.length := by
  have hnodup : q.members.toList.Nodup := by
    refine Std.TreeSet.distinct_toList.imp fun hne heq => hne ?_
    exact Nat.compare_eq_eq.2 heq
  have hperm : q.members.toList.Perm q.slots := by
    apply (List.perm_ext_iff_of_nodup hnodup hq.nodup).2
    intro i
    rw [Std.TreeSet.mem_toList, hq.mem_iff]
  rw [← Std.TreeSet.length_toList, hperm.length_eq]

end ReadyQueue

namespace Job

/-- The job once it is let into the queue. -/
def enter (job : Job) : Job :=
  { job with phase := .ready }

/-- The response time of a job that is dispatched at `now`, whether or not for the first time. -/
def responseFrom (job : Job) (now : Ticks) : Ticks :=
  job.response.getD (now - job.arrival)

/-- The job after a slice that starts at `now`, while it is still on the processor. -/
def served (job : Job) (now quantum : Ticks) : Job :=
  { job with
    response := some (job.responseFrom now)
    remaining := job.remaining - job.share quantum
    cpuTime := job.cpuTime + job.share quantum
    dispatches := job.dispatches + 1 }

/-- The job after its slice has ended at `finish`. -/
def leave (job : Job) (finish : Ticks) : Job :=
  if job.remaining = 0 then { job with phase := .finished, completion := some finish }
  else { job with phase := .ready }

theorem remaining_leave (job : Job) (finish : Ticks) :
    (job.leave finish).remaining = job.remaining := by
  unfold leave
  split <;> rfl

theorem dispatches_leave (job : Job) (finish : Ticks) :
    (job.leave finish).dispatches = job.dispatches := by
  unfold leave
  split <;> rfl

theorem response_leave (job : Job) (finish : Ticks) :
    (job.leave finish).response = job.response := by
  unfold leave
  split <;> rfl

theorem cpuTime_leave (job : Job) (finish : Ticks) :
    (job.leave finish).cpuTime = job.cpuTime := by
  unfold leave
  split <;> rfl

theorem waiting_leave (job : Job) (finish : Ticks) :
    (job.leave finish).waiting = job.waiting := by
  unfold leave
  split <;> rfl

theorem completion_leave (job : Job) (finish : Ticks) :
    (job.leave finish).completion = if job.remaining = 0 then some finish else job.completion := by
  unfold leave
  split <;> rfl

theorem getD_completion_leave {job : Job} (h : job.completion = none)
    (start finish quantum : Ticks) :
    ((job.served start quantum).leave finish).completion.getD finish = finish := by
  rw [completion_leave]
  split
  · rfl
  · change job.completion.getD finish = _
    rw [h, Option.getD_none]

theorem share_le_remaining (job : Job) (quantum : Ticks) :
    (job.share quantum).toNat ≤ job.remaining.toNat := by
  rw [toNat_share]
  exact Nat.min_le_right _ _

theorem toNat_remaining_served (job : Job) (now quantum : Ticks) :
    (job.served now quantum).remaining.toNat = job.remaining.toNat - quantum.toNat := by
  have hle := UInt64.le_iff_toNat_le.2 (share_le_remaining job quantum)
  change (job.remaining - job.share quantum).toNat = _
  rw [UInt64.toNat_sub_of_le _ _ hle, toNat_share]
  omega

/-- A slice ends the work of a job exactly if no more than a quantum of it was left. -/
theorem remaining_served_eq_zero_iff {job : Job} {now quantum : Ticks} :
    (job.served now quantum).remaining = 0 ↔ job.remaining.toNat ≤ quantum.toNat := by
  rw [← UInt64.toNat_inj, toNat_remaining_served, UInt64.toNat_zero]
  omega

/-- A job that has arrived can be served, as long as its counters have room. -/
theorem serve_ok {job : Job} {now quantum : Ticks} (harrival : job.arrival ≤ now)
    (hcpu : job.cpuTime.toNat + job.remaining.toNat < UInt64.size)
    (hcount : job.dispatches.toNat + 1 < UInt64.size) :
    job.serve now quantum = .ok (job.served now quantum) := by
  have hshare := share_le_remaining job quantum
  have hresponse : job.responseAt now = .ok (job.responseFrom now) := by
    unfold responseAt responseFrom
    cases job.response with
    | some response => rfl
    | none =>
      rw [Word.subChecked_eq_ok_iff, Option.getD_none, UInt64.toNat_sub_of_le _ _ harrival]
      have := UInt64.le_iff_toNat_le.1 harrival
      omega
  have hcpu' : job.cpuTime.addChecked (job.share quantum) =
      .ok (job.cpuTime + job.share quantum) := by
    rw [Word.addChecked_eq_ok_iff, Word.toNat_add_of_lt (by omega)]
  have hcount' : job.dispatches.addChecked 1 = .ok (job.dispatches + 1) := by
    rw [Word.addChecked_eq_ok_iff, Word.toNat_add_of_lt hcount]
  simp only [serve, hresponse, hcpu', hcount', Fault.ok_bind]
  rfl

/-- A job that has not arrived cannot be dispatched for the first time. -/
theorem serve_eq_error {job : Job} {now : Ticks} (hresponse : job.response = none)
    (hearly : now < job.arrival) (quantum : Ticks) :
    job.serve now quantum = .error .subOverflow := by
  have hnone := Word.sub?_eq_none_iff.2 (UInt64.lt_iff_toNat_lt.1 hearly)
  simp only [serve, responseAt, hresponse, Word.subChecked, hnone]
  rfl

end Job

namespace Machine

variable {m : Machine} {i : Nat} {job : Job}

theorem job_eq_ok_iff : m.job i = .ok job ↔ m.jobs[i]? = some job := by
  unfold Machine.job
  split <;> simp_all

theorem getElem?_setJob {old : Job} (hold : m.jobs[i]? = some old) (job : Job) (k : Nat) :
    (m.setJob i job).jobs[k]? = if k = i then some job else m.jobs[k]? := by
  have hi := (Array.getElem?_eq_some_iff.1 hold).1
  change (m.jobs.setIfInBounds i job)[k]? = _
  rw [Array.getElem?_setIfInBounds]
  by_cases hk : k = i
  · rw [if_pos hk.symm, if_pos hk, if_pos hi]
  · rw [if_neg (Ne.symm hk), if_neg hk]

theorem size_setJob : (m.setJob i job).jobs.size = m.jobs.size := by
  simp [setJob]

/-- An unarrived job can be let in. -/
theorem admitJob_eq_ok (hjob : m.jobs[i]? = some job) (hphase : job.phase = .unarrived)
    (hq : m.ready.Consistent) (hnew : i ∉ m.ready.slots) :
    ∃ ready : ReadyQueue, ready.slots = m.ready.slots ++ [i] ∧ ready.Consistent ∧
      m.admitJob i = .ok { m.setJob i job.enter with ready } := by
  obtain ⟨ready, hpush, hslots, hready⟩ := ReadyQueue.push_ok hq hnew
  refine ⟨ready, hslots, hready, ?_⟩
  simp only [admitJob, job_eq_ok_iff.2 hjob, Fault.ok_bind, Fault.require_of hphase, hpush]
  rfl

/-- What is left when the job at the front has been moved to the processor. -/
structure Started (m m' : Machine) (i : Nat) (rest : List Nat) (job : Job) : Prop where
  now : m'.now = m.now
  current : m'.current = some i
  finished : m'.finished = m.finished
  size : m'.jobs.size = m.jobs.size
  slots : m'.ready.slots = rest
  consistent : m'.ready.Consistent
  job : m'.jobs[i]? = some { job with phase := .running }
  others : ∀ k, k ≠ i → m'.jobs[k]? = m.jobs[k]?

theorem startNext_started {rest : List Nat} (hfree : m.current = none) (hq : m.ready.Consistent)
    (hslots : m.ready.slots = i :: rest) (hjob : m.jobs[i]? = some job) :
    ∃ m', m.startNext = .ok (some (i, m')) ∧ Started m m' i rest job := by
  obtain ⟨ready, hpop, hrest, hready⟩ := ReadyQueue.pop_cons hq hslots
  have hset := getElem?_setJob hjob { job with phase := .running }
  refine ⟨{ m.setJob i { job with phase := .running } with ready, current := some i }, ?_, ?_⟩
  · simp only [startNext, Fault.require_of hfree, Fault.ok_bind, hpop, job_eq_ok_iff.2 hjob]
    rfl
  · exact {
      now := rfl
      current := rfl
      finished := rfl
      size := size_setJob
      slots := hrest
      consistent := hready
      job := (hset i).trans (if_pos rfl)
      others := fun k hk => (hset k).trans (if_neg hk) }

theorem startNext_nil (hfree : m.current = none) (hslots : m.ready.slots = []) :
    m.startNext = .ok none := by
  simp only [startNext, Fault.require_of hfree, Fault.ok_bind, ReadyQueue.pop_nil hslots]
  rfl

theorem updateJob_eq_ok (change : Job → Job) (hjob : m.jobs[i]? = some job) :
    m.updateJob i change = .ok (m.setJob i (change job)) := by
  simp only [updateJob, job_eq_ok_iff.2 hjob, Fault.ok_bind]
  rfl

/-- Waiting goes through the queue one job at a time; no job stands in it twice, and so every queued
job waits once. -/
theorem foldlM_wait_eq_ok (delta : Ticks) (slots : List Nat) {m : Machine} (hnodup : slots.Nodup)
    (hin : ∀ i ∈ slots, ∃ job, m.jobs[i]? = some job) :
    ∃ jobs : Array Job, jobs.size = m.jobs.size ∧
      (∀ k, jobs[k]? = if k ∈ slots then (m.jobs[k]?).map (·.wait delta) else m.jobs[k]?) ∧
      slots.foldlM (fun m i => m.updateJob i (·.wait delta)) m = .ok { m with jobs } := by
  induction slots generalizing m with
  | nil => exact ⟨m.jobs, rfl, by simp, rfl⟩
  | cons i rest ih =>
    obtain ⟨hfresh, hrest⟩ := List.nodup_cons.1 hnodup
    obtain ⟨job, hjob⟩ := hin i List.mem_cons_self
    have hset := getElem?_setJob hjob (job.wait delta)
    obtain ⟨jobs, hsize, hjobs, hfold⟩ := ih (m := m.setJob i (job.wait delta)) hrest (by
      intro k hk
      obtain ⟨other, hother⟩ := hin k (List.mem_cons_of_mem _ hk)
      have hne : k ≠ i := fun heq => hfresh (heq ▸ hk)
      exact ⟨other, by rw [hset, if_neg hne, hother]⟩)
    refine ⟨jobs, hsize.trans size_setJob, fun k => ?_, ?_⟩
    · rw [hjobs, hset]
      by_cases hk : k = i
      · subst hk
        rw [if_neg hfresh, if_pos rfl, if_pos List.mem_cons_self, hjob, Option.map_some]
      · simp only [List.mem_cons, hk, false_or, if_false]
    · rw [List.foldlM_cons, updateJob_eq_ok _ hjob]
      exact hfold

/-- Every queued job waits, and no other one. -/
theorem accrueWaiting_eq_ok (delta : Ticks) (hq : m.ready.Consistent)
    (hin : ∀ i ∈ m.ready.slots, ∃ job, m.jobs[i]? = some job) :
    ∃ jobs : Array Job, jobs.size = m.jobs.size ∧
      (∀ k, jobs[k]? =
        if k ∈ m.ready.slots then (m.jobs[k]?).map (·.wait delta) else m.jobs[k]?) ∧
      m.accrueWaiting delta = .ok { m with jobs } :=
  foldlM_wait_eq_ok delta m.ready.slots hq.nodup hin

/-- With another job written back at `i` that is not queued, the rest waits all the same. -/
theorem accrueWaiting_setJob {old : Job} (hold : m.jobs[i]? = some old) (job : Job) (delta : Ticks)
    (hq : m.ready.Consistent) (hnew : i ∉ m.ready.slots)
    (hin : ∀ k ∈ m.ready.slots, ∃ other, m.jobs[k]? = some other) :
    ∃ jobs : Array Job, jobs.size = m.jobs.size ∧ jobs[i]? = some job ∧
      (∀ k ∈ m.ready.slots, jobs[k]? = (m.jobs[k]?).map (·.wait delta)) ∧
      (∀ k, k ≠ i → k ∉ m.ready.slots → jobs[k]? = m.jobs[k]?) ∧
      (m.setJob i job).accrueWaiting delta = .ok { m.setJob i job with jobs } := by
  have hset := getElem?_setJob hold job
  have hne : ∀ k ∈ m.ready.slots, k ≠ i := by
    rintro k hk rfl
    exact hnew hk
  have hin' : ∀ k ∈ (m.setJob i job).ready.slots,
      ∃ other, (m.setJob i job).jobs[k]? = some other := by
    intro k hk
    obtain ⟨other, hother⟩ := hin k hk
    exact ⟨other, by rw [hset, if_neg (hne k hk), hother]⟩
  obtain ⟨jobs, hsize, hjobs, hwait⟩ := accrueWaiting_eq_ok (m := m.setJob i job) delta hq hin'
  change ∀ k, jobs[k]? = if k ∈ m.ready.slots then _ else _ at hjobs
  refine ⟨jobs, hsize.trans size_setJob, ?_, ?_, ?_, hwait⟩
  · rw [hjobs, if_neg hnew, hset, if_pos rfl]
  · intro k hk
    rw [hjobs, if_pos hk, hset, if_neg (hne k hk)]
  · intro k hk hout
    rw [hjobs, if_neg hout, hset, if_neg hk]

theorem requeueCurrent_eq_ok (hcurrent : m.current = some i) (hjob : m.jobs[i]? = some job)
    (hwork : job.remaining ≠ 0) (hq : m.ready.Consistent) (hnew : i ∉ m.ready.slots) :
    ∃ ready : ReadyQueue, ready.slots = m.ready.slots ++ [i] ∧ ready.Consistent ∧
      m.requeueCurrent = .ok { m.setJob i job.enter with ready, current := none } := by
  obtain ⟨ready, hpush, hslots, hready⟩ := ReadyQueue.push_ok hq hnew
  refine ⟨ready, hslots, hready, ?_⟩
  have hpos : 0 < job.remaining := UInt64.pos_iff_ne_zero.2 hwork
  simp only [requeueCurrent, hcurrent, job_eq_ok_iff.2 hjob, Fault.ok_bind,
    Fault.require_of hpos, hpush]
  rfl

theorem retireCurrent_eq_ok (hcurrent : m.current = some i) (hjob : m.jobs[i]? = some job)
    (hwork : job.remaining = 0) (hroom : m.finished.toNat + 1 < UInt64.size) :
    m.retireCurrent = .ok (i,
      { m.setJob i { job with phase := .finished, completion := some m.now } with
        current := none, finished := m.finished + 1 }) := by
  have hcount : m.finished.addChecked 1 = .ok (m.finished + 1) := by
    rw [Word.addChecked_eq_ok_iff, Word.toNat_add_of_lt hroom]
  simp only [retireCurrent, hcurrent, job_eq_ok_iff.2 hjob, Fault.ok_bind,
    Fault.require_of hwork, hcount]
  rfl

end Machine

end RoundRobin
