import RoundRobin.Proofs.Report
import RoundRobin.Proofs.Rounds

/-!
# Totals

The clock and the waiting times stop at the greatest word, but the totals of a report are exact
sums. So a run comes to its end whenever the step counter has room for it, and then it has a report
exactly if the waiting and the response times of all processes add up to a word each
(`run_ok_iff_totals`). Of accepted processes they need not (`run_longWaits`). The timings that a
report holds are there in any case (`exists_timings`).
-/

namespace RoundRobin

/-- A checked sum fails by overflow only. -/
theorem Word.foldlM_addChecked_eq_error {words : List Word} {a : Word} {fault : Fault}
    (h : words.foldlM addChecked a = .error fault) : fault = .addOverflow := by
  induction words generalizing a with
  | nil => cases h
  | cons w rest ih =>
    rw [List.foldlM_cons] at h
    cases hb : a.addChecked w with
    | ok b =>
      rw [hb] at h
      exact ih h
    | error first =>
      rw [hb] at h
      cases h
      unfold addChecked at hb
      split at hb
      · cases hb
      · cases hb
        rfl

/-- Timings without a report have a total that overflows. -/
theorem Report.ofTimings_eq_error {timings : List Timing} {preemptions : Count} {fault : Fault}
    (h : ofTimings timings preemptions = .error fault) : fault = .addOverflow := by
  unfold ofTimings at h
  cases hwaiting : Word.sumChecked (timings.map (·.waiting)) with
  | error first =>
    rw [hwaiting] at h
    cases h
    exact Word.foldlM_addChecked_eq_error hwaiting
  | ok waiting =>
    cases hresponse : Word.sumChecked (timings.map (·.response)) with
    | error first =>
      rw [hwaiting, hresponse] at h
      cases h
      exact Word.foldlM_addChecked_eq_error hresponse
    | ok response =>
      cases hdispatches : Word.sumChecked (timings.map (·.dispatches)) with
      | error first =>
        rw [hwaiting, hresponse, hdispatches] at h
        cases h
        exact Word.foldlM_addChecked_eq_error hdispatches
      | ok dispatches =>
        rw [hwaiting, hresponse, hdispatches] at h
        cases h

theorem Report.foldl_completion_eq {timings : List Timing} {first latest : Ticks}
    (hfirst : first ≤ latest) (hle : ∀ timing ∈ timings, timing.completion ≤ latest)
    (hmem : first = latest ∨ ∃ timing ∈ timings, timing.completion = latest) :
    timings.foldl (fun latest t => if latest ≤ t.completion then t.completion else latest) first =
      latest := by
  induction timings generalizing first with
  | nil =>
    rcases hmem with heq | ⟨_, hmem, _⟩
    · exact heq
    · cases hmem
  | cons timing rest ih =>
    have hhead := hle timing List.mem_cons_self
    have hrest : ∀ t ∈ rest, t.completion ≤ latest := fun t ht => hle t (List.mem_cons_of_mem _ ht)
    rw [List.foldl_cons]
    by_cases hlater : first ≤ timing.completion
    · rw [if_pos hlater]
      apply ih hhead hrest
      rcases hmem with rfl | ⟨t, ht, hlatest⟩
      · exact .inl (UInt64.le_antisymm hhead hlater)
      · rcases List.mem_cons.1 ht with rfl | ht
        · exact .inl hlatest
        · exact .inr ⟨t, ht, hlatest⟩
    · rw [if_neg hlater]
      apply ih hfirst hrest
      rcases hmem with heq | ⟨t, ht, hlatest⟩
      · exact .inl heq
      · rcases List.mem_cons.1 ht with rfl | ht
        · rw [hlatest] at hlater
          exact absurd hfirst hlater
        · exact .inr ⟨t, ht, hlatest⟩

/-- The last completion is one of the completions, and none is later. -/
theorem Report.lastCompletion_eq {timings : List Timing} {latest : Ticks}
    (hle : ∀ timing ∈ timings, timing.completion ≤ latest)
    (hmem : ∃ timing ∈ timings, timing.completion = latest) : lastCompletion timings = latest :=
  foldl_completion_eq (UInt64.le_iff_toNat_le.2 (Nat.zero_le _)) hle (.inr hmem)

namespace Simulation

variable {ps : ProcessList} {s s' : Simulation}

theorem length_of_mapM (h : s.Sound ps) {timings : List Timing}
    (htimings : s.machine.jobs.toList.mapM Job.timing = .ok timings) :
    timings.length = ps.length := by
  have hlen := congrArg List.length (Fault.map_eq_of_mapM htimings)
  rw [List.length_map, List.length_map] at hlen
  rw [← hlen]
  exact h.size

/-- At the end of a run, all dispatches together are the rounds of all processes. -/
theorem Reaches.map_dispatches {config : Config} (hstart : start ps config = .ok s)
    {events : List Stamped} (hr : Reaches ps s events s') (hdone : s'.allCompleted = true)
    {timings : List Timing} (htimings : s'.machine.jobs.toList.mapM Job.timing = .ok timings) :
    timings.map (·.dispatches.toNat) = ps.map (·.rounds config.quantum) := by
  have hsound := hr.sound hstart
  have hlen := length_of_mapM hsound htimings
  apply List.ext_getElem?
  intro i
  rw [List.getElem?_map, List.getElem?_map]
  cases hp : ps[i]? with
  | none =>
    have hle := List.getElem?_eq_none_iff.1 hp
    rw [List.getElem?_eq_none_iff.2 (by omega)]
    rfl
  | some p =>
    obtain ⟨job, timing, hjob, hentry, _, hremaining, _, _, _, _, hdispatches⟩ :=
      hsound.timing_of_completed hdone htimings hp
    rw [hentry, Option.map_some, Option.map_some, hdispatches,
      hr.dispatches_eq hstart hp hjob hremaining]

/-- A run that ends with all jobs finished ends when the last one completes. -/
theorem Reaches.exists_completion_eq_now {config : Config} (hstart : start ps config = .ok s)
    {events : List Stamped} (hr : Reaches ps s events s') (hdone : s'.allCompleted = true) :
    ∃ i p job, ps[i]? = some p ∧ s'.job? i = some job ∧ job.completion = some s'.now := by
  have hk := kept_of_start hstart
  obtain ⟨hall, hempty⟩ := (hr.sound hstart).allCompleted_iff.1 hdone
  cases hr with
  | refl =>
    rw [admitted_of_start hstart] at hall
    exact absurd (List.eq_nil_of_length_eq_zero hall.symm) hk.ne_nil
  | @snoc _ _ t _ hr hm =>
    cases hm with
    | skips next h =>
      -- a gap leads to the arrival of a process that is still to be let in
      have hlt := (List.getElem?_eq_some_iff.1 h.next).1
      rw [h.admitted] at hall
      omega
    | serves turn h =>
      have hends : turn.Ends t.quantum := by
        apply Classical.byContradiction
        intro hback
        have hmem := (h.mem_queue_iff turn.position).2 (.inr (.inr ⟨rfl, hback⟩))
        rw [hempty] at hmem
        cases hmem
      refine ⟨turn.position, turn.process, _, h.process, h.served, ?_⟩
      rw [Job.completion_leave, if_pos (h.served_eq_zero_iff.2 hends)]

/-- The makespan is the instant at which the run ends, also when the clock has stopped. -/
theorem Reaches.lastCompletion_eq_now {config : Config} (hstart : start ps config = .ok s)
    {events : List Stamped} (hr : Reaches ps s events s') (hdone : s'.allCompleted = true)
    {timings : List Timing} (htimings : s'.machine.jobs.toList.mapM Job.timing = .ok timings) :
    Report.lastCompletion timings = s'.now := by
  have hsound := hr.sound hstart
  obtain ⟨hall, hempty⟩ := hsound.allCompleted_iff.1 hdone
  have hlen := length_of_mapM hsound htimings
  apply Report.lastCompletion_eq
  · intro timing hmem
    obtain ⟨i, hi⟩ := List.getElem?_of_mem hmem
    have hlt := (List.getElem?_eq_some_iff.1 hi).1
    have hp : ps[i]? = some ps[i] := List.getElem?_eq_getElem (by omega)
    obtain ⟨job, timing', hjob, hentry, _, _, _, hcompletion, _⟩ :=
      hsound.timing_of_completed hdone htimings hp
    obtain ⟨job', completion, hjob', _, _, _, _, hcompletion', hle⟩ :=
      hsound.finished_of_not_mem hp (by omega) (by rw [hempty]; exact List.not_mem_nil)
    rw [hi, Option.some.injEq] at hentry
    rw [hjob, Option.some.injEq] at hjob'
    subst hentry hjob'
    rw [hcompletion, Option.some.injEq] at hcompletion'
    exact hcompletion' ▸ hle
  · obtain ⟨i, p, job, hp, hjob, hnow⟩ := hr.exists_completion_eq_now hstart hdone
    obtain ⟨job', timing, hjob', hentry, _, _, _, hcompletion, _⟩ :=
      hsound.timing_of_completed hdone htimings hp
    rw [hjob, Option.some.injEq] at hjob'
    subst hjob'
    rw [hnow, Option.some.injEq] at hcompletion
    exact ⟨timing, List.mem_of_getElem? hentry, hcompletion.symm⟩

/-- The report of a run is that of the timings at its end. -/
theorem run_eq_ofTimings (hcomplete : s.complete = .ok s') {timings : List Timing}
    (htimings : s'.machine.jobs.toList.mapM Job.timing = .ok timings) :
    s.run = Report.ofTimings timings s'.scheduler.preemptions := by
  rw [run, hcomplete, Fault.ok_bind, report, Report.ofJobs, htimings, Fault.ok_bind]

/-- If the clock fits, a run ends with a timing of every process. They are those of the report, if
there is one. -/
theorem exists_timings {config : Config} (hstart : start ps config = .ok s) (hfits : ps.FitsClock) :
    ∃ n events fin timings, s.steps n = .ok (events, fin) ∧ fin.allCompleted = true ∧
      s.complete = .ok fin ∧ Reaches ps s events.toList fin ∧
      fin.machine.jobs.toList.mapM Job.timing = .ok timings ∧
      (∀ report, s.run = .ok report → report.timings = timings) := by
  obtain ⟨n, events, fin, hrun, hdone, hcomplete, hreaches⟩ := exists_completed hstart hfits
  have hsound := hreaches.sound hstart
  obtain ⟨timings, htimings, _, hreport, _⟩ := hsound.timings hdone
  have hrun_eq : s.run = fin.report := by rw [run, hcomplete, Fault.ok_bind]
  rw [← hrun_eq] at hreport
  exact ⟨n, events, fin, timings, hrun, hdone, hcomplete, hreaches, htimings, hreport⟩

/-- A state at the end of a run that has a report was reached by steps, and the report is made of
the timings there. -/
theorem Orderly.exists_timings_of_report (h : s.Orderly ps) (hk : Contract.Kept ps)
    {fin : Simulation} (hcomplete : s.complete = .ok fin) {report : Report}
    (hreport : fin.report = .ok report) :
    ∃ n events timings, s.steps n = .ok (events, fin) ∧ Reaches ps s events.toList fin ∧
      fin.Sound ps ∧ fin.machine.jobs.toList.mapM Job.timing = .ok timings ∧
      report.Totals timings fin.scheduler.preemptions := by
  obtain ⟨n, events, hsteps⟩ := exists_steps_of_completeWithin hcomplete
  obtain ⟨hreaches, horderly, _⟩ := h.run hk hsteps
  rw [Simulation.report, Report.ofJobs, Fault.bind_eq_ok_iff] at hreport
  obtain ⟨timings, htimings, hmade⟩ := hreport
  exact ⟨n, events, timings, hsteps, hreaches, horderly.sound, htimings,
    Report.totals_of_ofTimings hmade⟩

/-- A run that has a report is one to the end, and the report is made of the timings there. -/
theorem exists_timings_of_run {config : Config} (hstart : start ps config = .ok s) {report : Report}
    (hreport : s.run = .ok report) :
    ∃ n events fin timings, s.steps n = .ok (events, fin) ∧ fin.allCompleted = true ∧
      s.complete = .ok fin ∧ Reaches ps s events.toList fin ∧
      fin.machine.jobs.toList.mapM Job.timing = .ok timings ∧
      report.Totals timings fin.scheduler.preemptions := by
  rw [run, Fault.bind_eq_ok_iff] at hreport
  obtain ⟨fin, hcomplete, hmade⟩ := hreport
  obtain ⟨n, events, timings, hsteps, hreaches, _, htimings, htotals⟩ :=
    (orderly_start hstart).exists_timings_of_report (kept_of_start hstart) hcomplete hmade
  exact ⟨n, events, fin, timings, hsteps, allCompleted_of_complete hcomplete, hcomplete, hreaches,
    htimings, htotals⟩

/-- If the step counter has room for all rounds and for a gap before each process, then a run ends
with all jobs finished. It has a report exactly if the waiting and the response times add up to
words, and otherwise it stops with the overflow of a sum. -/
theorem run_ok_iff_totals {config : Config} (hstart : start ps config = .ok s)
    (hrounds : ps.totalRounds config.quantum + ps.length < UInt64.size) :
    ∃ fin timings, s.complete = .ok fin ∧ fin.allCompleted = true ∧
      fin.machine.jobs.toList.mapM Job.timing = .ok timings ∧
      ((∃ report, s.run = .ok report) ↔
        (timings.map (·.waiting.toNat)).sum < UInt64.size ∧
          (timings.map (·.response.toNat)).sum < UInt64.size) ∧
      ((¬ ∃ report, s.run = .ok report) → s.run = .error .addOverflow) := by
  rcases exists_completed_of_rounds hstart hrounds with
    ⟨_, _, fin, _, hdone, hcomplete, hreaches⟩
  have hsound := (sound_start hstart).reaches (kept_of_start hstart) hreaches
  rcases hsound.timings hdone with ⟨timings, htimings, hfit, _, _⟩
  have hrun := run_eq_ofTimings hcomplete htimings
  have hdispatches : (timings.map (·.dispatches.toNat)).sum < UInt64.size := by
    rw [hreaches.map_dispatches hstart hdone htimings]
    exact Nat.lt_of_le_of_lt (Nat.le_add_right _ _) hrounds
  refine ⟨fin, timings, hcomplete, hdone, htimings, ?_, ?_⟩
  · rw [hrun, Report.exists_ofTimings_iff]
    constructor
    · intro hall
      exact ⟨hall.waiting, hall.response⟩
    · rintro ⟨hwaiting, hresponse⟩
      exact ⟨hwaiting, hresponse, hdispatches⟩
  · intro hnone
    cases hreport : s.run with
    | ok report => exact absurd ⟨report, hreport⟩ hnone
    | error fault =>
      rw [hrun] at hreport
      rw [Report.ofTimings_eq_error hreport]

theorem run_ok_iff_totals_lastArrivals :
    ∃ s, start lastArrivals { quantum := 4, checks := true } = .ok s ∧
      lastArrivals.totalRounds 4 + lastArrivals.length < UInt64.size ∧
      ∃ fin timings, s.complete = .ok fin ∧ fin.allCompleted = true ∧
        fin.machine.jobs.toList.mapM Job.timing = .ok timings ∧
        ((∃ report, s.run = .ok report) ↔
          (timings.map (·.waiting.toNat)).sum < UInt64.size ∧
            (timings.map (·.response.toNat)).sum < UInt64.size) ∧
        ((¬ ∃ report, s.run = .ok report) → s.run = .error .addOverflow) := by
  have hstart : start lastArrivals { quantum := 4, checks := true } = .ok _ := rfl
  have hrounds : lastArrivals.totalRounds 4 + lastArrivals.length < UInt64.size := by decide
  exact ⟨_, hstart, hrounds, run_ok_iff_totals hstart hrounds⟩

/-- Four processes of one slice each, which the clock can show one after the other. -/
def longWaits : ProcessList :=
  [{ pid := ⟨1⟩, arrival := 0, burst := 0x3FFFFFFFFFFFFFFF },
    { pid := ⟨2⟩, arrival := 0, burst := 0x3FFFFFFFFFFFFFFF },
    { pid := ⟨3⟩, arrival := 0, burst := 0x3FFFFFFFFFFFFFFF },
    { pid := ⟨4⟩, arrival := 0, burst := 0x3FFFFFFFFFFFFFFF }]

/-- They wait for none, one, two and three slices, which is more than a word in total. -/
theorem run_longWaits :
    ∃ s, start longWaits { quantum := 0x3FFFFFFFFFFFFFFF, checks := true } = .ok s ∧
      longWaits.totalRounds 0x3FFFFFFFFFFFFFFF + longWaits.length < UInt64.size ∧
      longWaits.FitsClock ∧ s.run = .error .addOverflow := by
  refine ⟨_, rfl, by decide, by decide, ?_⟩
  rfl

end Simulation

end RoundRobin
