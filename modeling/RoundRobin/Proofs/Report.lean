import Mathlib.Algebra.Ring.Nat
import RoundRobin.Run
import RoundRobin.Proofs.Progress

/-!
# The timings of a completed simulation

Once all jobs have finished, each of them has its times recorded, so there is a timing of every
process, in the order of the list. There is a report of them exactly if its totals are words
(`Report.exists_ofTimings_iff`).
-/

namespace RoundRobin

/-- A checked sum goes on exactly if the sum is still a word. -/
theorem Word.exists_foldlM_addChecked_iff (words : List Word) (a : Word) :
    (∃ total, words.foldlM addChecked a = .ok total) ↔
      a.toNat + (words.map UInt64.toNat).sum < UInt64.size := by
  induction words generalizing a with
  | nil =>
    have := a.toNat_lt_size
    constructor
    · intro _
      simpa using this
    · intro _
      exact ⟨a, rfl⟩
  | cons w rest ih =>
    rw [List.foldlM_cons, List.map_cons, List.sum_cons]
    simp only [Fault.bind_eq_ok_iff]
    constructor
    · rintro ⟨total, b, hb, hrest⟩
      have hfits := (ih b).1 ⟨total, hrest⟩
      rw [Word.addChecked_eq_ok_iff] at hb
      omega
    · intro hfits
      have hb : (a + w).toNat = a.toNat + w.toNat := Word.toNat_add_of_lt (by omega)
      rcases (ih (a + w)).2 (by omega) with ⟨total, hrest⟩
      exact ⟨total, a + w, Word.addChecked_eq_ok_iff.2 hb, hrest⟩

theorem Word.exists_sumChecked_iff (words : List Word) :
    (∃ total, sumChecked words = .ok total) ↔ (words.map UInt64.toNat).sum < UInt64.size := by
  rw [sumChecked, exists_foldlM_addChecked_iff, UInt64.toNat_zero, Nat.zero_add]

/-- A checked sum that goes on is exact. -/
theorem Word.toNat_of_foldlM_addChecked {words : List Word} {a total : Word}
    (h : words.foldlM addChecked a = .ok total) :
    total.toNat = a.toNat + (words.map UInt64.toNat).sum := by
  induction words generalizing a with
  | nil =>
    cases h
    rfl
  | cons w rest ih =>
    rw [List.foldlM_cons, Fault.bind_eq_ok_iff] at h
    obtain ⟨b, hb, hrest⟩ := h
    rw [Word.addChecked_eq_ok_iff] at hb
    rw [ih hrest, hb, List.map_cons, List.sum_cons, Nat.add_assoc]

theorem Word.toNat_of_sumChecked {words : List Word} {total : Word}
    (h : sumChecked words = .ok total) :
    total.toNat = (words.map UInt64.toNat).sum := by
  rw [toNat_of_foldlM_addChecked h, UInt64.toNat_zero, Nat.zero_add]

/-- The totals of a report are words. -/
structure Report.TotalsFit (timings : List Timing) : Prop where
  waiting : (timings.map (·.waiting.toNat)).sum < UInt64.size
  response : (timings.map (·.response.toNat)).sum < UInt64.size
  dispatches : (timings.map (·.dispatches.toNat)).sum < UInt64.size

/-- Timings have a report exactly if its totals are words. -/
theorem Report.exists_ofTimings_iff (timings : List Timing) (preemptions : Count) :
    (∃ report, ofTimings timings preemptions = .ok report) ↔ TotalsFit timings := by
  have hwaiting := Word.exists_sumChecked_iff (timings.map (·.waiting))
  have hresponse := Word.exists_sumChecked_iff (timings.map (·.response))
  have hdispatches := Word.exists_sumChecked_iff (timings.map (·.dispatches))
  rw [List.map_map] at hwaiting hresponse hdispatches
  simp only [ofTimings, Fault.bind_eq_ok_iff, Fault.pure_eq_ok_iff]
  constructor
  · rintro ⟨_, waiting, hw, response, hr, dispatches, hd, _⟩
    exact ⟨hwaiting.1 ⟨waiting, hw⟩, hresponse.1 ⟨response, hr⟩, hdispatches.1 ⟨dispatches, hd⟩⟩
  · intro hfits
    rcases hwaiting.2 hfits.waiting with ⟨waiting, hw⟩
    rcases hresponse.2 hfits.response with ⟨response, hr⟩
    rcases hdispatches.2 hfits.dispatches with ⟨dispatches, hd⟩
    exact ⟨_, waiting, hw, response, hr, dispatches, hd, rfl⟩

/-- What a report says of the timings that it is made of: their totals are exact. -/
structure Report.Totals (report : Report) (timings : List Timing) (preemptions : Count) :
    Prop where
  timings_eq : report.timings = timings
  waiting : report.totalWaiting.toNat = (timings.map (·.waiting.toNat)).sum
  response : report.totalResponse.toNat = (timings.map (·.response.toNat)).sum
  dispatches : report.dispatches.toNat = (timings.map (·.dispatches.toNat)).sum
  makespan : report.makespan = lastCompletion timings
  preemptions_eq : report.preemptions = preemptions

theorem Report.totals_of_ofTimings {report : Report} {timings : List Timing} {preemptions : Count}
    (h : ofTimings timings preemptions = .ok report) : report.Totals timings preemptions := by
  simp only [ofTimings, Fault.bind_eq_ok_iff, Fault.pure_eq_ok_iff] at h
  obtain ⟨waiting, hwaiting, response, hresponse, dispatches, hdispatches, rfl⟩ := h
  have hwaiting' := Word.toNat_of_sumChecked hwaiting
  have hresponse' := Word.toNat_of_sumChecked hresponse
  have hdispatches' := Word.toNat_of_sumChecked hdispatches
  rw [List.map_map] at hwaiting' hresponse' hdispatches'
  exact ⟨rfl, hwaiting', hresponse', hdispatches', rfl, rfl⟩

/-- A map over a list goes through if it goes through at every entry. -/
theorem Fault.mapM_of {α β : Type} {f : α → Except Fault β} (l : List α)
    (h : ∀ a ∈ l, ∃ b, f a = .ok b) :
    ∃ bs : List β, l.mapM f = .ok bs ∧
      ∀ (i : Nat) a, l[i]? = some a → ∃ b, bs[i]? = some b ∧ f a = .ok b := by
  induction l with
  | nil => exact ⟨[], rfl, nofun⟩
  | cons a rest ih =>
    obtain ⟨b, hb⟩ := h a List.mem_cons_self
    obtain ⟨bs, hbs, hentries⟩ := ih fun a ha => h a (List.mem_cons_of_mem _ ha)
    refine ⟨b :: bs, ?_, ?_⟩
    · rw [List.mapM_cons, hb, Fault.ok_bind, hbs, Fault.ok_bind]
      rfl
    · intro i x hx
      cases i with
      | zero =>
        rw [List.getElem?_cons_zero, Option.some.injEq] at hx
        subst hx
        exact ⟨b, rfl, hb⟩
      | succ i => exact hentries i x hx

/-- A map over a list that goes through has gone through at every entry. -/
theorem Fault.map_eq_of_mapM {α β : Type} {f : α → Except Fault β} {l : List α} {bs : List β}
    (h : l.mapM f = .ok bs) : l.map f = bs.map .ok := by
  induction l generalizing bs with
  | nil =>
    cases h
    rfl
  | cons a rest ih =>
    simp only [List.mapM_cons, Fault.bind_eq_ok_iff, Fault.pure_eq_ok_iff] at h
    obtain ⟨b, hb, tail, htail, rfl⟩ := h
    rw [List.map_cons, List.map_cons, hb, ih htail]

/-- The timing of a job holds what the job has recorded. -/
theorem Job.exists_of_timing {job : Job} {timing : Timing} (h : job.timing = .ok timing) :
    ∃ response completion, job.response = some response ∧ job.completion = some completion ∧
      timing = {
        pid := job.pid
        arrival := job.arrival
        burst := job.burst
        waiting := job.waiting
        response
        completion
        cpuTime := job.cpuTime
        dispatches := job.dispatches } := by
  unfold Job.timing at h
  split at h
  · cases h
  · cases h
  · next response completion hresponse hcompletion =>
    cases h
    exact ⟨response, completion, hresponse, hcompletion, rfl⟩

namespace Simulation

variable {ps : ProcessList} {s : Simulation}

/-- The timings of jobs are in the order of their processes. -/
theorem Sound.timing_of_mapM (h : s.Sound ps) {timings : List Timing}
    (htimings : s.machine.jobs.toList.mapM Job.timing = .ok timings) {i : Nat} {p : Process}
    (hp : ps[i]? = some p) :
    ∃ job timing, s.job? i = some job ∧ timings[i]? = some timing ∧ job.timing = .ok timing ∧
      job.Accounts p := by
  obtain ⟨job, hjob, haccounts, _⟩ := h.standing i p hp
  have hentry := congrArg (·[i]?) (Fault.map_eq_of_mapM htimings)
  have hget : s.machine.jobs.toList[i]? = some job := Array.getElem?_toList.trans hjob
  simp only [List.getElem?_map, hget, Option.map_some] at hentry
  obtain ⟨timing, htiming, hok⟩ := Option.map_eq_some_iff.1 hentry.symm
  exact ⟨job, timing, hjob, htiming, hok.symm, haccounts⟩

/-- A finished job has a timing, with the times that are recorded. -/
theorem timing_eq_ok {job : Job} {response completion : Ticks}
    (hresponse : job.response = some response) (hcompletion : job.completion = some completion) :
    ∃ timing, job.timing = .ok timing ∧ timing.pid = job.pid ∧ timing.response = response ∧
      timing.completion = completion := by
  unfold Job.timing
  rw [hresponse, hcompletion]
  exact ⟨_, rfl, rfl, rfl, rfl⟩

/-- The timings of a completed simulation. There is a report if the totals fit, and it holds
these. -/
theorem Sound.timings (h : s.Sound ps) (hdone : s.allCompleted = true) :
    ∃ timings, s.machine.jobs.toList.mapM Job.timing = .ok timings ∧
      ((∃ report, s.report = .ok report) ↔ Report.TotalsFit timings) ∧
      (∀ report, s.report = .ok report → report.timings = timings) ∧
      ∀ i p, ps[i]? = some p → ∃ job timing, s.job? i = some job ∧ timings[i]? = some timing ∧
        job.response = some timing.response ∧ job.completion = some timing.completion ∧
        timing.pid = p.pid := by
  obtain ⟨hall, hempty⟩ := h.allCompleted_iff.1 hdone
  have hjobs : ∀ i p, ps[i]? = some p → ∃ job response completion, s.job? i = some job ∧
      job.Accounts p ∧ job.response = some response ∧ job.completion = some completion := by
    intro i p hp
    have hlt := (List.getElem?_eq_some_iff.1 hp).1
    rcases h.finished_of_not_mem hp (by omega) (by rw [hempty]; exact List.not_mem_nil) with
      ⟨job, completion, hjob, _, haccounts, _, hresponse, hcompletion, _⟩
    obtain ⟨response, hresponse⟩ := Option.isSome_iff_exists.1 hresponse
    exact ⟨job, response, completion, hjob, haccounts, hresponse, hcompletion⟩
  have hget : ∀ i, s.machine.jobs.toList[i]? = s.job? i := fun i => Array.getElem?_toList
  rcases Fault.mapM_of (f := Job.timing) s.machine.jobs.toList (by
    intro job hmem
    obtain ⟨i, hi⟩ := List.getElem?_of_mem hmem
    have hlt := (List.getElem?_eq_some_iff.1 hi).1
    have hlen : s.machine.jobs.toList.length = ps.length := h.size
    rcases hjobs i _ (List.getElem?_eq_getElem (by omega)) with
      ⟨_, _, _, hjob, _, hresponse, hcompletion⟩
    rw [hget, hjob, Option.some.injEq] at hi
    subst hi
    obtain ⟨timing, htiming, _⟩ := timing_eq_ok hresponse hcompletion
    exact ⟨timing, htiming⟩) with ⟨timings, htimings, hentries⟩
  refine ⟨timings, htimings, ?_, ?_, ?_⟩
  · rw [report, Report.ofJobs, htimings, Fault.ok_bind]
    exact Report.exists_ofTimings_iff timings s.scheduler.preemptions
  · intro r hreport
    rw [report, Report.ofJobs, htimings, Fault.ok_bind, Report.ofTimings] at hreport
    simp only [Fault.bind_eq_ok_iff, Fault.pure_eq_ok_iff] at hreport
    obtain ⟨_, _, _, _, _, _, rfl⟩ := hreport
    rfl
  · intro i p hp
    obtain ⟨job, response, completion, hjob, haccounts, hresponse, hcompletion⟩ := hjobs i p hp
    obtain ⟨timing, hentry, htiming⟩ := hentries i job ((hget i).trans hjob)
    obtain ⟨_, htiming', hpid, rfl, rfl⟩ := timing_eq_ok hresponse hcompletion
    rw [htiming, Except.ok.injEq] at htiming'
    subst htiming'
    exact ⟨job, timing, hjob, hentry, hresponse, hcompletion, hpid.trans haccounts.pid⟩

/-- A process has a timing once all jobs have finished, with the times that its job has recorded. -/
theorem Sound.timing_of_completed (h : s.Sound ps) (hdone : s.allCompleted = true)
    {timings : List Timing} (htimings : s.machine.jobs.toList.mapM Job.timing = .ok timings)
    {i : Nat} {p : Process} (hp : ps[i]? = some p) :
    ∃ job timing, s.job? i = some job ∧ timings[i]? = some timing ∧ job.Accounts p ∧
      job.remaining = 0 ∧ job.response = some timing.response ∧
      job.completion = some timing.completion ∧ timing.pid = p.pid ∧
      timing.waiting = job.waiting ∧ timing.dispatches = job.dispatches := by
  obtain ⟨hall, hempty⟩ := h.allCompleted_iff.1 hdone
  have hlt := (List.getElem?_eq_some_iff.1 hp).1
  obtain ⟨job, _, hjob, _, haccounts, hremaining, _⟩ :=
    h.finished_of_not_mem hp (by omega) (by rw [hempty]; exact List.not_mem_nil)
  obtain ⟨_, timing, hjob', hentry, htiming, _⟩ := h.timing_of_mapM htimings hp
  rw [hjob, Option.some.injEq] at hjob'
  subst hjob'
  obtain ⟨response, completion, hresponse, hcompletion, rfl⟩ := Job.exists_of_timing htiming
  exact ⟨job, _, hjob, hentry, haccounts, hremaining, hresponse, hcompletion, haccounts.pid, rfl,
    rfl⟩

end Simulation

end RoundRobin
