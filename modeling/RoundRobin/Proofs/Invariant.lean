import RoundRobin.Proofs.Step

/-!
# The state between steps

`Sound` says what holds of a simulation before its first step and after every step: where every job
stands, that the queue holds exactly the ready jobs, and how the clock, the admissions and the
counters go together. A step breaks several parts of it on the way and restores all of them
(`Sound.serves`, `Sound.skips`). What a turn makes of each job is one of five cases (`Sound.fate`).
-/

namespace RoundRobin

/-- A job keeps the data of its process, has been served what is no longer left of its work, and has
a response exactly if it has been dispatched. -/
structure Job.Accounts (job : Job) (p : Process) : Prop where
  pid : job.pid = p.pid
  arrival : job.arrival = p.arrival
  burst : job.burst = p.burst
  spent : job.cpuTime.toNat + job.remaining.toNat = p.burst.toNat
  response_iff : job.response.isSome ↔ 0 < job.dispatches.toNat

namespace Simulation

/-- Where a job stands between steps. The phase decides: an unarrived job is still to be let in and
as its process declares it, a ready one is queued and has work left, and a finished one has its
times recorded. No job is running. -/
def Standing (s : Simulation) (i : Nat) (p : Process) (job : Job) : Prop :=
  match job.phase with
  | .unarrived => s.admitted ≤ i ∧ i ∉ s.queue ∧ job = .ofProcess p
  | .ready => i < s.admitted ∧ s.queue.count i = 1 ∧ 0 < job.remaining.toNat ∧
      job.completion = none
  | .running => False
  | .finished => i < s.admitted ∧ i ∉ s.queue ∧ job.remaining = 0 ∧ job.response.isSome ∧
      ∃ completion, job.completion = some completion ∧ completion ≤ s.now

/-- What holds between the steps of a simulation of `ps`. -/
structure Sound (ps : ProcessList) (s : Simulation) : Prop where
  processes : s.processes = ps.toArray
  free : s.machine.current = none
  size : s.machine.jobs.size = ps.length
  admitted_le : s.admitted ≤ ps.length
  consistent : s.machine.ready.Consistent
  queue_lt : ∀ i ∈ s.queue, i < s.admitted
  standing : ∀ i p, ps[i]? = some p →
    ∃ job, s.job? i = some job ∧ job.Accounts p ∧ s.Standing i p job
  finished : s.machine.finished.toNat =
    s.machine.jobs.toList.countP (fun job => job.phase = .finished)
  arrived : ∀ i p, ps[i]? = some p → i < s.admitted → p.arrival ≤ s.now
  ahead : ∀ i p, ps[i]? = some p → s.admitted ≤ i → s.now ≤ p.arrival
  admitted_iff : s.now < Word.top → ∀ i p, ps[i]? = some p →
    (i < s.admitted ↔ p.arrival < s.now)

end Simulation

namespace Job

theorem accounts_ofProcess (p : Process) : (Job.ofProcess p).Accounts p where
  pid := rfl
  arrival := rfl
  burst := rfl
  spent := by simp [ofProcess]
  response_iff := by simp [ofProcess]

variable {job : Job} {p : Process}

theorem Accounts.enter (h : job.Accounts p) : job.enter.Accounts p :=
  { h with }

theorem Accounts.wait (h : job.Accounts p) (delta : Ticks) : (job.wait delta).Accounts p :=
  { h with }

theorem toNat_cpuTime_served (h : job.Accounts p) (now quantum : Ticks) :
    (job.served now quantum).cpuTime.toNat = job.cpuTime.toNat + (job.share quantum).toNat := by
  have hshare := share_le_remaining job quantum
  have hspent := h.spent
  have hburst := p.burst.toNat_lt_size
  exact Word.toNat_add_of_lt (by omega)

theorem Accounts.served (h : job.Accounts p) (now quantum : Ticks)
    (hroom : job.dispatches.toNat + 1 < UInt64.size) : (job.served now quantum).Accounts p where
  pid := h.pid
  arrival := h.arrival
  burst := h.burst
  spent := by
    have hspent := h.spent
    rw [toNat_cpuTime_served h, toNat_remaining_served, toNat_share]
    omega
  response_iff := by
    have hcount : (job.dispatches + 1).toNat = job.dispatches.toNat + 1 :=
      Word.toNat_add_of_lt hroom
    change (some _).isSome ↔ 0 < (job.dispatches + 1).toNat
    simp [hcount]

theorem Accounts.leave (h : job.Accounts p) (finish : Ticks) : (job.leave finish).Accounts p := by
  unfold Job.leave
  split
  · exact { h with }
  · exact { h with }

theorem enter_of_ready (h : job.phase = .ready) : job.enter = job := by
  cases job
  simp_all [enter]

end Job

/-- What is read off the entries of an array changes at one position, if it does not see what
happens to the entries at the others. -/
theorem map_toList_eq_set {α β : Type} {l l' : Array α} {f : α → β} {i : Nat} {a : α}
    (hsize : l'.size = l.size) (hi : l'[i]? = some a)
    (hother : ∀ k old new, k ≠ i → l[k]? = some old → l'[k]? = some new → f new = f old) :
    l'.toList.map f = (l.toList.map f).set i (f a) := by
  apply List.ext_getElem?
  intro k
  rw [List.getElem?_map, List.getElem?_set, List.length_map, List.getElem?_map,
    Array.getElem?_toList, Array.getElem?_toList, Array.length_toList]
  by_cases hk : i = k
  · subst hk
    have hlt : i < l.size := hsize ▸ (Array.getElem?_eq_some_iff.1 hi).1
    rw [if_pos rfl, if_pos hlt, hi, Option.map_some]
  · rw [if_neg hk]
    cases hold : l[k]? with
    | none =>
      have hle := Array.getElem?_eq_none_iff.1 hold
      rw [Array.getElem?_eq_none_iff.2 (by omega)]
    | some old =>
      obtain ⟨hlt, _⟩ := Array.getElem?_eq_some_iff.1 hold
      have hnew : l'[k]? = some l'[k] := Array.getElem?_eq_getElem (by omega)
      rw [hnew, Option.map_some, Option.map_some, hother k old _ (Ne.symm hk) hold hnew]

/-- Replacing an entry that does not count by one that does adds one to the count. -/
theorem countP_of_map_eq_set {α : Type} {l l' : List α} {f : α → Bool} {i : Nat} {a a' : α}
    (hset : l'.map f = (l.map f).set i (f a')) (hi : l[i]? = some a) (hf : f a = false) :
    l'.countP f = l.countP f + (if f a' then 1 else 0) := by
  have hmap : ∀ l : List α, l.countP f = (l.map f).countP id := fun l => by
    rw [List.countP_map]
    rfl
  rcases List.getElem?_eq_some_iff.1 hi with ⟨hlt, rfl⟩
  rw [hmap l', hset, List.countP_set (by rwa [List.length_map]), ← hmap l, List.getElem_map]
  simp [hf]

namespace Simulation

variable {ps : ProcessList} {s s' : Simulation} {turn : Turn}

theorem quantum_pos (s : Simulation) : 0 < s.quantum.toNat :=
  UInt64.lt_iff_toNat_lt.1 s.scheduler.quantum_pos

theorem Turn.run_pos (turn : Turn) (s : Simulation) (hwork : 0 < turn.job.remaining.toNat) :
    0 < (turn.run s.quantum).toNat := by
  have hq := quantum_pos s
  rw [Turn.run, Job.toNat_share]
  omega

namespace Serves

/-- The clock after a turn, as a number. -/
theorem toNat_now (h : Serves ps s turn s') :
    s'.now.toNat = min (s.now.toNat + (turn.run s.quantum).toNat) (UInt64.size - 1) := by
  rw [h.now, Word.toNat_satAdd]

theorem now_le (h : Serves ps s turn s') : s.now.toNat ≤ s'.now.toNat := by
  have := s.now.toNat_lt_size
  rw [h.toNat_now]
  omega

/-- The job that gets the turn and the ones behind it are those that were queued or let in early. -/
theorem mem_line_iff (h : Serves ps s turn s') (k : Nat) :
    k = turn.position ∨ k ∈ turn.rest ↔ k ∈ s.queue ∨ s.admitted ≤ k ∧ k < turn.early := by
  have hle := h.early.le
  rw [← List.mem_cons, ← h.line, List.mem_append, List.mem_range'_1]
  have : s.admitted + (turn.early - s.admitted) = turn.early := by omega
  rw [this]

/-- A job that was let in before a turn and is not in line for it had been let in before the step,
and is not queued. -/
theorem admitted_of_not_line (h : Serves ps s turn s') {k : Nat} (hposition : k ≠ turn.position)
    (hrest : k ∉ turn.rest) (hlt : k < turn.early) : k < s.admitted ∧ k ∉ s.queue := by
  have hnot := mt (h.mem_line_iff k).2 (not_or.2 ⟨hposition, hrest⟩)
  rw [not_or] at hnot
  exact ⟨by omega, hnot.1⟩

theorem mem_queue_iff (h : Serves ps s turn s') (k : Nat) :
    k ∈ s'.queue ↔ k ∈ turn.rest ∨ (turn.early ≤ k ∧ k < turn.late) ∨
      (k = turn.position ∧ ¬ turn.Ends s.quantum) := by
  have hle := h.late.le
  have hrange : turn.early + (turn.late - turn.early) = turn.late := by omega
  rw [h.queue, List.mem_append, List.mem_append, List.mem_range'_1, hrange, or_assoc]
  split <;> simp_all

/-- What is left of the job after its turn is nothing exactly if the turn ends its work. -/
theorem served_eq_zero_iff (_h : Serves ps s turn s') :
    (turn.job.served s.now s.quantum).remaining = 0 ↔ turn.Ends s.quantum :=
  Job.remaining_served_eq_zero_iff

/-- A turn replaces the entry of its job in what is read off the jobs, if that does not see what
happens to the others. -/
theorem map_jobs (h : Serves ps s turn s') {β : Type} {f : Job → β}
    (hother : ∀ k old job, k ≠ turn.position → s.job? k = some old → s'.job? k = some job →
      f job = f old) :
    s'.machine.jobs.toList.map f = (s.machine.jobs.toList.map f).set turn.position
      (f ((turn.job.served s.now s.quantum).leave s'.now)) :=
  map_toList_eq_set h.frame.size h.served hother

end Serves

/-- A job that can get a turn: it has arrived, has work left and is not completed. -/
structure Eligible (s : Simulation) (p : Process) (job : Job) : Prop where
  accounts : job.Accounts p
  arrived : p.arrival ≤ s.now
  work : 0 < job.remaining.toNat
  completion : job.completion = none
  unfinished : job.phase ≠ .finished

/-- What has become of the job of a process after a turn. It had the turn, waited behind it, was let
in while it lasted, had completed before it, or is still to be let in. -/
inductive Fate (s : Simulation) (turn : Turn) (s' : Simulation) (i : Nat) (p : Process) :
    Job → Prop where
  | served : i = turn.position → s.Eligible p turn.job →
      Fate s turn s' i p ((turn.job.served s.now s.quantum).leave s'.now)
  | waited {old : Job} : i ∈ turn.rest → s.job? i = some old → s.Eligible p old →
      Fate s turn s' i p (old.enter.wait (turn.run s.quantum))
  | entered : i ∉ turn.rest → turn.early ≤ i → i < turn.late →
      s.job? i = some (.ofProcess p) → Fate s turn s' i p (Job.ofProcess p).enter
  | completed {job : Job} {completion : Ticks} : i ∉ turn.rest → i < s.admitted →
      s.job? i = some job → job.completion = some completion → Fate s turn s' i p job
  | ahead : i ∉ turn.rest → turn.late ≤ i → s.job? i = some (.ofProcess p) →
      Fate s turn s' i p (.ofProcess p)

namespace Sound

/-- A queued job is ready. -/
theorem ready_of_mem (h : s.Sound ps) {k : Nat} (hk : k ∈ s.queue) :
    ∃ p job, ps[k]? = some p ∧ s.job? k = some job ∧ job.phase = .ready ∧ job.Accounts p ∧
      0 < job.remaining.toNat ∧ job.completion = none := by
  have hlt := h.queue_lt k hk
  have hlen := h.admitted_le
  have hp : ps[k]? = some ps[k] := List.getElem?_eq_getElem (by omega)
  rcases h.standing k _ hp with ⟨job, hjob, haccounts, hstanding⟩
  refine ⟨_, job, hp, hjob, ?_⟩
  unfold Standing at hstanding
  cases hphase : job.phase with
  | unarrived => simp only [hphase] at hstanding; omega
  | ready =>
    simp only [hphase] at hstanding
    exact ⟨rfl, haccounts, hstanding.2.2.1, hstanding.2.2.2⟩
  | running => simp only [hphase] at hstanding
  | finished => simp only [hphase] at hstanding; exact absurd hk hstanding.2.1

/-- A process that is still to be let in has its job untouched. -/
theorem job_of_ahead (h : s.Sound ps) {k : Nat} {p : Process} (hp : ps[k]? = some p)
    (hk : s.admitted ≤ k) : s.job? k = some (.ofProcess p) ∧ k ∉ s.queue := by
  rcases h.standing k p hp with ⟨job, hjob, _, hstanding⟩
  unfold Standing at hstanding
  cases hphase : job.phase with
  | unarrived =>
    simp only [hphase] at hstanding
    exact ⟨hstanding.2.2 ▸ hjob, hstanding.2.1⟩
  | ready => simp only [hphase] at hstanding; omega
  | running => simp only [hphase] at hstanding
  | finished => simp only [hphase] at hstanding; omega

/-- The job of a process that is still to be let in is as the process declares it. -/
theorem eq_of_ahead (h : s.Sound ps) {k : Nat} {p : Process} {job : Job} (hp : ps[k]? = some p)
    (hk : s.admitted ≤ k) (hjob : s.job? k = some job) : job = .ofProcess p := by
  rw [(h.job_of_ahead hp hk).1, Option.some.injEq] at hjob
  exact hjob.symm

/-- A job that was let in and is not queued has finished. -/
theorem finished_of_not_mem (h : s.Sound ps) {k : Nat} {p : Process} (hp : ps[k]? = some p)
    (hlt : k < s.admitted) (hk : k ∉ s.queue) :
    ∃ job completion, s.job? k = some job ∧ job.phase = .finished ∧ job.Accounts p ∧
      job.remaining = 0 ∧ job.response.isSome ∧ job.completion = some completion ∧
      completion ≤ s.now := by
  rcases h.standing k p hp with ⟨job, hjob, haccounts, hstanding⟩
  unfold Standing at hstanding
  cases hphase : job.phase with
  | unarrived => simp only [hphase] at hstanding; omega
  | ready =>
    simp only [hphase] at hstanding
    rw [List.count_eq_zero_of_not_mem hk] at hstanding
    omega
  | running => simp only [hphase] at hstanding
  | finished =>
    simp only [hphase] at hstanding
    rcases hstanding with ⟨_, _, hzero, hresponse, completion, hcompletion, hle⟩
    exact ⟨job, completion, hjob, hphase, haccounts, hzero, hresponse, hcompletion, hle⟩

/-- A job that was let in and is not queued has completed. -/
theorem completed_of_not_mem (h : s.Sound ps) {k : Nat} {p : Process} {job : Job}
    (hp : ps[k]? = some p) (hlt : k < s.admitted) (hk : k ∉ s.queue) (hjob : s.job? k = some job) :
    ∃ completion, job.completion = some completion := by
  obtain ⟨_, completion, hjob', _, _, _, _, hcompletion, _⟩ := h.finished_of_not_mem hp hlt hk
  rw [hjob, Option.some.injEq] at hjob'
  exact ⟨completion, hjob'.symm ▸ hcompletion⟩

/-- The jobs in line for a slice can get a turn. -/
theorem eligible_of_line (h : s.Sound ps) (hk : Contract.Kept ps) (hm : Serves ps s turn s')
    {k : Nat} (hline : k = turn.position ∨ k ∈ turn.rest) :
    ∃ p job, ps[k]? = some p ∧ s.job? k = some job ∧ s.Eligible p job := by
  rcases (hm.mem_line_iff k).1 hline with hqueue | ⟨hle, hlt⟩
  · rcases h.ready_of_mem hqueue with ⟨p, job, hp, hjob, hphase, haccounts, hwork, hcompletion⟩
    have harrived := h.arrived k p hp (h.queue_lt k hqueue)
    exact ⟨p, job, hp, hjob, haccounts, harrived, hwork, hcompletion, by simp [hphase]⟩
  · have hlen := hm.early.le_length
    have hp : ps[k]? = some ps[k] := List.getElem?_eq_getElem (by omega)
    have harrived := hm.early.arrived k _ hp hle hlt
    refine ⟨_, _, hp, (h.job_of_ahead hp hle).1, Job.accounts_ofProcess _, ?_,
      hk.burst_toNat_pos hp, rfl, by simp [Job.ofProcess]⟩
    rw [UInt64.le_iff_toNat_le]
    omega

/-- The job that gets the turn. -/
theorem eligible (h : s.Sound ps) (hk : Contract.Kept ps) (hm : Serves ps s turn s') {p : Process}
    (hp : ps[turn.position]? = some p) : s.Eligible p turn.job := by
  rcases h.eligible_of_line hk hm (.inl rfl) with ⟨q, job, hq, hjob, heligible⟩
  rw [hp, Option.some.injEq] at hq
  rw [hm.job, Option.some.injEq] at hjob
  subst hq hjob
  exact heligible

theorem nodup_line (h : s.Sound ps) (hm : Serves ps s turn s') :
    (turn.position :: turn.rest).Nodup := by
  rw [← hm.line, List.nodup_append]
  refine ⟨h.consistent.nodup, List.nodup_range', fun a ha b hb hab => ?_⟩
  have hlt := h.queue_lt a ha
  rw [List.mem_range'_1] at hb
  omega

theorem lt_early (h : s.Sound ps) (hm : Serves ps s turn s') {k : Nat}
    (hline : k = turn.position ∨ k ∈ turn.rest) : k < turn.early := by
  have hle := hm.early.le
  rcases (hm.mem_line_iff k).1 hline with hqueue | ⟨_, hlt⟩
  · have := h.queue_lt k hqueue
    omega
  · exact hlt

theorem fate (h : s.Sound ps) (hk : Contract.Kept ps) (hm : Serves ps s turn s') {i : Nat}
    {p : Process} {job : Job} (hp : ps[i]? = some p) (hjob : s'.job? i = some job) :
    Fate s turn s' i p job := by
  have hle := hm.early.le
  rcases hm.job_roles hjob with ⟨hposition, rfl⟩ | ⟨_, hrest, old, hold, rfl⟩ |
    ⟨_, hrest, hge, hlt, old, hold, rfl⟩ | ⟨hposition, hrest, hout, hold⟩
  · exact .served hposition (h.eligible hk hm (hposition ▸ hp))
  · obtain ⟨q, old', hq, hold', hready⟩ := h.eligible_of_line hk hm (.inr hrest)
    rw [hp, Option.some.injEq] at hq
    rw [hold, Option.some.injEq] at hold'
    subst hq hold'
    exact .waited hrest hold hready
  · obtain rfl := h.eq_of_ahead hp (by omega) hold
    exact .entered hrest hge hlt hold
  · rcases hout with hearly | hlate
    · obtain ⟨hlt, hqueue⟩ := hm.admitted_of_not_line hposition hrest hearly
      obtain ⟨completion, hcompletion⟩ := h.completed_of_not_mem hp hlt hqueue hold
      exact .completed hrest hlt hold hcompletion
    · have := hm.late.le
      obtain rfl := h.eq_of_ahead hp (by omega) hold
      exact .ahead hrest hlate hold

/-- No turn finishes a job other than its own. -/
theorem finished_iff_of_serves (h : s.Sound ps) (hk : Contract.Kept ps) (hm : Serves ps s turn s')
    {i : Nat} {old job : Job} (hother : i ≠ turn.position) (hold : s.job? i = some old)
    (hjob : s'.job? i = some job) : job.phase = .finished ↔ old.phase = .finished := by
  have hlt : i < ps.length := h.size ▸ (Array.getElem?_eq_some_iff.1 hold).1
  have hsame : ∀ before, s.job? i = some before → before = old := by
    intro before hbefore
    rw [hold, Option.some.injEq] at hbefore
    exact hbefore.symm
  cases h.fate hk hm (List.getElem?_eq_getElem hlt) hjob with
  | served hposition => exact absurd hposition hother
  | waited _ hbefore hready =>
    have hopen := hready.unfinished
    rw [hsame _ hbefore] at hopen
    exact iff_of_false Phase.noConfusion hopen
  | entered _ _ _ hbefore =>
    rw [← hsame _ hbefore]
    exact iff_of_false Phase.noConfusion Phase.noConfusion
  | completed _ _ hbefore => rw [hsame _ hbefore]
  | ahead _ _ hbefore => rw [hsame _ hbefore]

/-- Where the job stands that had the turn. -/
theorem standing_served (h : s.Sound ps) (hk : Contract.Kept ps) (hm : Serves ps s turn s') :
    ((turn.job.served s.now s.quantum).leave s'.now).Accounts turn.process ∧
      s'.Standing turn.position turn.process
        ((turn.job.served s.now s.quantum).leave s'.now) := by
  have hready := h.eligible hk hm hm.process
  refine ⟨(hready.accounts.served s.now s.quantum hm.dispatches_lt).leave s'.now, ?_⟩
  have hlt := h.lt_early hm (.inl rfl)
  have hle := hm.late.le
  have hadmitted := hm.admitted
  have hfresh := (List.nodup_cons.1 (h.nodup_line hm)).1
  unfold Standing Job.leave
  by_cases hends : turn.Ends s.quantum
  · have hzero := hm.served_eq_zero_iff.2 hends
    rw [if_pos hzero]
    refine ⟨by omega, ?_, hzero, rfl, s'.now, rfl, UInt64.le_refl _⟩
    rw [hm.mem_queue_iff]
    rintro (hrest | hrange | ⟨_, hnot⟩)
    · exact hfresh hrest
    · omega
    · exact hnot hends
  · have hzero := mt hm.served_eq_zero_iff.1 hends
    have hmem := (hm.mem_queue_iff turn.position).2 (.inr (.inr ⟨rfl, hends⟩))
    rw [if_neg hzero]
    refine ⟨by omega, ?_, ?_, hready.completion⟩
    · rw [hm.frame.consistent.nodup.count, if_pos hmem]
    · exact Nat.pos_of_ne_zero fun hz => hzero (UInt64.toNat_inj.1 hz)

/-- Where a job stands that waited behind the turn. -/
theorem standing_waited (h : s.Sound ps) (hk : Contract.Kept ps) (hm : Serves ps s turn s')
    {k : Nat} {p : Process} (hp : ps[k]? = some p) (hrest : k ∈ turn.rest) :
    ∃ job, s'.job? k = some job ∧ job.Accounts p ∧ s'.Standing k p job := by
  rcases h.eligible_of_line hk hm (.inr hrest) with ⟨q, job, hq, hjob, hready⟩
  rw [hp, Option.some.injEq] at hq
  subst hq
  have hlt := h.lt_early hm (.inr hrest)
  have hle := hm.late.le
  have hadmitted := hm.admitted
  have hmem := (hm.mem_queue_iff k).2 (.inl hrest)
  refine ⟨job.enter.wait (turn.run s.quantum), ?_, hready.accounts.enter.wait _, ?_⟩
  · rw [hm.waited k hrest, hjob, Option.map_some]
  · refine ⟨by omega, ?_, hready.work, hready.completion⟩
    rw [hm.frame.consistent.nodup.count, if_pos hmem]

/-- Where a job stands that was let in during the turn. -/
theorem standing_entered (h : s.Sound ps) (hk : Contract.Kept ps) (hm : Serves ps s turn s')
    {k : Nat} {p : Process} (hp : ps[k]? = some p) (hge : turn.early ≤ k) (hlt : k < turn.late) :
    ∃ job, s'.job? k = some job ∧ job.Accounts p ∧ s'.Standing k p job := by
  rcases h.job_of_ahead hp (Nat.le_trans hm.early.le hge) with ⟨hjob, _⟩
  have hadmitted := hm.admitted
  have hmem := (hm.mem_queue_iff k).2 (.inr (.inl ⟨hge, hlt⟩))
  refine ⟨(Job.ofProcess p).enter, ?_, (Job.accounts_ofProcess p).enter, ?_⟩
  · rw [hm.entered k hge hlt, hjob, Option.map_some]
  · refine ⟨by omega, ?_, hk.burst_toNat_pos hp, rfl⟩
    rw [hm.frame.consistent.nodup.count, if_pos hmem]

/-- Where a job stands that the turn did not touch: it is still to be let in, or it has finished. -/
theorem standing_untouched (h : s.Sound ps) (hm : Serves ps s turn s') {k : Nat} {p : Process}
    (hp : ps[k]? = some p) (hposition : k ≠ turn.position) (hrest : k ∉ turn.rest)
    (hrange : k < turn.early ∨ turn.late ≤ k) :
    ∃ job, s'.job? k = some job ∧ job.Accounts p ∧ s'.Standing k p job := by
  have hle := hm.early.le
  have hle' := hm.late.le
  have hadmitted := hm.admitted
  have hnot : k ∉ s'.queue := by
    rw [hm.mem_queue_iff]
    rintro (hmem | ⟨_, _⟩ | ⟨heq, _⟩)
    · exact hrest hmem
    · omega
    · exact hposition heq
  rw [hm.untouched k hposition hrest hrange]
  by_cases hahead : turn.late ≤ k
  · rcases h.job_of_ahead hp (by omega) with ⟨hjob, _⟩
    exact ⟨_, hjob, Job.accounts_ofProcess p, by omega, hnot, rfl⟩
  · -- a job let in before this step that is not in line has finished
    obtain ⟨hlt, hqueue⟩ := hm.admitted_of_not_line hposition hrest (by omega)
    rcases h.finished_of_not_mem hp hlt hqueue with
      ⟨job, completion, hjob, hphase, haccounts, hzero, hresponse, hcompletion, hbefore⟩
    refine ⟨job, hjob, haccounts, ?_⟩
    unfold Standing
    rw [hphase]
    have hnow := UInt64.le_iff_toNat_le.2 hm.now_le
    exact ⟨by omega, hnot, hzero, hresponse, completion, hcompletion,
      UInt64.le_trans hbefore hnow⟩

/-- Where every job stands after a turn. -/
theorem standing_serves (h : s.Sound ps) (hk : Contract.Kept ps) (hm : Serves ps s turn s')
    (k : Nat) (p : Process) (hp : ps[k]? = some p) :
    ∃ job, s'.job? k = some job ∧ job.Accounts p ∧ s'.Standing k p job := by
  by_cases hposition : k = turn.position
  · subst hposition
    rcases h.standing_served hk hm with ⟨haccounts, hstanding⟩
    rw [hm.process, Option.some.injEq] at hp
    subst hp
    exact ⟨_, hm.served, haccounts, hstanding⟩
  by_cases hrest : k ∈ turn.rest
  · exact h.standing_waited hk hm hp hrest
  by_cases hlate : turn.early ≤ k ∧ k < turn.late
  · exact h.standing_entered hk hm hp hlate.1 hlate.2
  · exact h.standing_untouched hm hp hposition hrest (by omega)

/-- The counter of finished jobs counts them after a turn. -/
theorem finished_serves (h : s.Sound ps) (hk : Contract.Kept ps) (hm : Serves ps s turn s') :
    s'.machine.finished.toNat =
      s'.machine.jobs.toList.countP (fun job => job.phase = .finished) := by
  have hphase := (h.eligible hk hm hm.process).unfinished
  have hset := hm.map_jobs (f := fun job => decide (job.phase = .finished))
    fun k old job hother hold hjob =>
      decide_eq_decide.2 (h.finished_iff_of_serves hk hm hother hold hjob)
  rw [countP_of_map_eq_set hset (by rw [Array.getElem?_toList]; exact hm.job) (by simp [hphase]),
    ← h.finished, hm.finished]
  congr 1
  unfold Job.leave
  by_cases hends : turn.Ends s.quantum
  · rw [if_pos (hm.served_eq_zero_iff.2 hends), if_pos hends]
    simp
  · rw [if_neg (mt hm.served_eq_zero_iff.1 hends), if_neg hends]
    simp

/-- A turn keeps the state between steps sound. -/
theorem serves (h : s.Sound ps) (hk : Contract.Kept ps) (hm : Serves ps s turn s') :
    s'.Sound ps where
  processes := hm.frame.processes.trans h.processes
  free := hm.frame.free
  size := hm.frame.size.trans h.size
  admitted_le := by
    rw [hm.admitted]
    exact hm.late.le_length
  consistent := hm.frame.consistent
  queue_lt := by
    intro k hmem
    have hle := hm.late.le
    rw [hm.admitted]
    rcases (hm.mem_queue_iff k).1 hmem with hrest | hrange | ⟨hposition, _⟩
    · have := h.lt_early hm (.inr hrest)
      omega
    · exact hrange.2
    · have := h.lt_early hm (.inl hposition)
      omega
  standing := h.standing_serves hk hm
  finished := h.finished_serves hk hm
  arrived := by
    intro k p hp hlt
    have hnow := hm.now_le
    rw [hm.admitted] at hlt
    rw [UInt64.le_iff_toNat_le]
    by_cases hold : k < s.admitted
    · have := UInt64.le_iff_toNat_le.1 (h.arrived k p hp hold)
      omega
    by_cases hearly : k < turn.early
    · have := hm.early.arrived k p hp (by omega) hearly
      omega
    · have := hm.late.arrived k p hp (by omega) hlt
      omega
  ahead := by
    intro k p hp hle
    rw [hm.admitted] at hle
    exact UInt64.le_iff_toNat_le.2 (hm.late.ahead k p hp hle)
  admitted_iff := by
    intro hfinite k p hp
    have htop := Word.toNat_top
    rw [UInt64.lt_iff_toNat_lt] at hfinite ⊢
    rw [hm.admitted]
    have hrun := turn.run_pos s (h.eligible hk hm hm.process).work
    have hnow := hm.toNat_now
    constructor
    · intro hlt
      by_cases hold : k < s.admitted
      · have := UInt64.le_iff_toNat_le.1 (h.arrived k p hp hold)
        omega
      by_cases hearly : k < turn.early
      · have := hm.early.arrived k p hp (by omega) hearly
        omega
      · exact hm.late.arrived k p hp (by omega) hlt
    · intro hlt
      apply Nat.lt_of_not_le
      intro hle
      have := hm.late.ahead k p hp hle
      omega

/-- A skip keeps the state between steps sound. -/
theorem skips (h : s.Sound ps) (hk : Contract.Kept ps) {p : Process} (hm : Skips ps s p s') :
    s'.Sound ps := by
  have hjobs : s'.machine.jobs = s.machine.jobs := by rw [hm.machine]
  have hqueue : s'.queue = s.queue := congrArg (·.ready.slots) hm.machine
  have hnow : s'.now = p.arrival := congrArg (·.now) hm.machine
  have hfinished : s'.machine.finished = s.machine.finished := by rw [hm.machine]
  have hlater := UInt64.le_of_lt hm.later
  exact {
    processes := hm.frame.processes.trans h.processes
    free := hm.frame.free
    size := hm.frame.size.trans h.size
    admitted_le := by
      rw [hm.admitted]
      exact h.admitted_le
    consistent := hm.frame.consistent
    queue_lt := by
      rw [hqueue, hm.admitted]
      exact h.queue_lt
    standing := by
      intro k q hq
      rcases h.standing k q hq with ⟨job, hjob, haccounts, hstanding⟩
      refine ⟨job, (congrArg (·[k]?) hjobs).trans hjob, haccounts, ?_⟩
      unfold Standing at hstanding ⊢
      rw [hm.admitted, hqueue, hnow]
      cases hphase : job.phase with
      | unarrived => simpa only [hphase] using hstanding
      | ready => simpa only [hphase] using hstanding
      | running => simp only [hphase] at hstanding
      | finished =>
        simp only [hphase] at hstanding ⊢
        rcases hstanding with ⟨hlt, hnot, hzero, hresponse, completion, hcompletion, hle⟩
        exact ⟨hlt, hnot, hzero, hresponse, completion, hcompletion, UInt64.le_trans hle hlater⟩
    finished := by
      rw [hfinished, hjobs]
      exact h.finished
    arrived := by
      intro k q hq hlt
      rw [hm.admitted] at hlt
      rw [hnow]
      exact UInt64.le_trans (h.arrived k q hq hlt) hlater
    ahead := by
      intro k q hq hle
      rw [hm.admitted] at hle
      rw [hnow, UInt64.le_iff_toNat_le]
      exact hk.arrival_le hm.next hq hle
    admitted_iff := by
      intro _ k q hq
      rw [hm.admitted, hnow]
      constructor
      · intro hlt
        exact UInt64.lt_of_le_of_lt (h.arrived k q hq hlt) hm.later
      · intro hlt
        apply Nat.lt_of_not_le
        intro hle
        have := hk.arrival_le hm.next hq hle
        rw [UInt64.lt_iff_toNat_lt] at hlt
        omega }

end Sound

end Simulation

end RoundRobin
