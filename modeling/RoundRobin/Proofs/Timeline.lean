import RoundRobin.Proofs.TickRefinement
import RoundRobin.Proofs.Totals

/-!
# The timeline

The slices and the gaps of a run follow each other without a break: they tile the time from the
start up to the clock, and a gap is there exactly when every process that has arrived has completed
(`Filled.reaches`). So a run takes as long as all work and all gaps together (`timeline_gap_free`).
-/

namespace RoundRobin

/-- The instants from a start up to, not including, a finish. -/
structure Stretch where
  start : Nat
  finish : Nat
  deriving DecidableEq

/-- The stretch of time that an event takes up: a dispatch takes its slice, and a gap leads up to
its target. -/
def Stamped.stretch? : Stamped → Option Stretch
  | { time, event := .dispatched _ slice _ } => some ⟨time.toNat, time.toNat + slice.toNat⟩
  | { time, event := .idle target } => some ⟨time.toNat, target.toNat⟩
  | _ => none

/-- The slices and gaps of a run, in the order of the events. -/
def stretches (events : List Stamped) : List Stretch :=
  events.filterMap (·.stretch?)

/-- How long the gap lasts, if the event is one. -/
def Stamped.gap? : Stamped → Option Nat
  | { time, event := .idle target } => some (target.toNat - time.toNat)
  | _ => none

/-- How long all gaps last together. -/
def idleTime (events : List Stamped) : Nat :=
  (events.filterMap (·.gap?)).sum

theorem stretches_append (events events' : List Stamped) :
    stretches (events ++ events') = stretches events ++ stretches events' :=
  List.filterMap_append

theorem idleTime_append (events events' : List Stamped) :
    idleTime (events ++ events') = idleTime events + idleTime events' := by
  rw [idleTime, List.filterMap_append]
  exact List.sum_append_nat

/-- The stretches are not empty, the first one begins at `a`, each other one begins where the one
before it ends, and the last one ends at `b`. -/
inductive Tiles : Nat → List Stretch → Nat → Prop where
  | nil (a : Nat) : Tiles a [] a
  | cons {a b c : Nat} {rest : List Stretch} : a < b → Tiles b rest c → Tiles a (⟨a, b⟩ :: rest) c

namespace Tiles

variable {a b c : Nat} {l l' : List Stretch}

theorem append (h : Tiles a l b) (h' : Tiles b l' c) : Tiles a (l ++ l') c := by
  induction h with
  | nil => exact h'
  | cons hlt _ ih => exact .cons hlt (ih h')

theorem singleton (h : a < b) : Tiles a [⟨a, b⟩] b :=
  .cons h (.nil b)

theorem le (h : Tiles a l b) : a ≤ b := by
  induction h with
  | nil => exact Nat.le_refl _
  | cons hlt _ ih => omega

theorem lt_of_mem (h : Tiles a l b) : ∀ x ∈ l, x.start < x.finish := by
  induction h with
  | nil => exact nofun
  | cons hlt _ ih =>
    intro x hx
    rcases List.mem_cons.1 hx with rfl | hx
    · exact hlt
    · exact ih x hx

theorem le_start (h : Tiles a l b) : ∀ x ∈ l, a ≤ x.start := by
  induction h with
  | nil => exact nofun
  | cons hlt _ ih =>
    intro x hx
    rcases List.mem_cons.1 hx with rfl | hx
    · exact Nat.le_refl _
    · have := ih x hx
      omega

theorem pairwise (h : Tiles a l b) : l.Pairwise fun x y => x.finish ≤ y.start := by
  induction h with
  | nil => exact List.Pairwise.nil
  | cons _ hrest ih => exact List.pairwise_cons.2 ⟨hrest.le_start, ih⟩

/-- The instants of the stretches are those between the ends of the tiling. -/
theorem covered_iff (h : Tiles a l b) (t : Nat) :
    (∃ x ∈ l, x.start ≤ t ∧ t < x.finish) ↔ a ≤ t ∧ t < b := by
  induction h with
  | nil => simp
  | @cons a b c rest hlt hrest ih =>
    have hle := hrest.le
    simp only [List.mem_cons, exists_eq_or_imp]
    rw [ih]
    omega

end Tiles

namespace Simulation

variable {ps : ProcessList} {s s' : Simulation} {turn : Turn} {events new : List Stamped}

/-- Every process that has arrived by instant `t` has completed by then. -/
def Rests (ps : ProcessList) (s : Simulation) (t : Nat) : Prop :=
  ∀ i p job, ps[i]? = some p → s.job? i = some job → p.arrival.toNat ≤ t →
    ∃ completion, job.completion = some completion ∧ completion.toNat ≤ t

/-- What has completed by an instant before now is settled. -/
theorem Moves.rests_iff (hm : Moves ps s new s') (hk : Contract.Kept ps) (hsound : s.Sound ps)
    {t : Nat} (ht : t < s'.now.toNat) : s'.Rests ps t ↔ s.Rests ps t := by
  constructor
  · intro hrests i p job hp hjob harrival
    obtain ⟨job', hjob', _⟩ := (hsound.moves hk hm).standing i p hp
    obtain ⟨completion, hcompletion, hle⟩ := hrests i p job' hp hjob' harrival
    rcases hm.completion_cases hk hsound hp hjob' hcompletion with hold | hnow
    · rw [hjob, Option.some.injEq] at hold
      exact ⟨completion, hold ▸ hcompletion, hle⟩
    · rw [hnow] at hle
      omega
  · intro hrests i p job hp hjob harrival
    obtain ⟨old, hold, _⟩ := hsound.standing i p hp
    obtain ⟨completion, hcompletion, hle⟩ := hrests i p old hp hold harrival
    rw [hm.job_of_completed hk hsound hp hold hcompletion, Option.some.injEq] at hjob
    exact ⟨completion, hjob ▸ hcompletion, hle⟩

/-- While a slice lasts, its process has arrived and has not completed. -/
theorem Serves.not_rests (h : Serves ps s turn s') (hk : Contract.Kept ps) (hsound : s.Sound ps)
    {t : Nat} (ht : s.now.toNat ≤ t) : ¬ s.Rests ps t := by
  intro hrests
  have hready := hsound.eligible hk h h.process
  have harrived := UInt64.le_iff_toNat_le.1 hready.arrived
  obtain ⟨completion, hcompletion, _⟩ := hrests _ _ _ h.process h.job (by omega)
  rw [hready.completion] at hcompletion
  cases hcompletion

/-- While a gap lasts, all processes that have arrived have completed. -/
theorem Skips.rests {next : Process} (h : Skips ps s next s') (hk : Contract.Kept ps)
    (hsound : s.Sound ps) {t : Nat} (ht : s.now.toNat ≤ t) (ht' : t < next.arrival.toNat) :
    s.Rests ps t := by
  intro i p job hp hjob harrival
  have hlt : i < s.admitted := by
    apply Nat.lt_of_not_le
    intro hle
    have := hk.arrival_le h.next hp hle
    omega
  obtain ⟨job', completion, hjob', _, _, _, _, hcompletion, hle⟩ :=
    hsound.finished_of_not_mem hp hlt (by rw [h.empty]; exact List.not_mem_nil)
  rw [hjob, Option.some.injEq] at hjob'
  rw [UInt64.le_iff_toNat_le] at hle
  exact ⟨completion, hjob' ▸ hcompletion, by omega⟩

/-- The events so far fill the time up to now, with gaps where there was nothing to do, and all time
is either work that has been done or a gap. -/
structure Filled (ps : ProcessList) (s : Simulation) (events : List Stamped) : Prop where
  tiles : Tiles 0 (stretches events) s.now.toNat
  idle_iff : ∀ t, events.any (·.idlesAt t) = true ↔ t < s.now.toNat ∧ s.Rests ps t
  work : s.now.toNat + s.machine.remainingWork = ps.totalBurst + idleTime events

namespace Filled

theorem serves (hf : Filled ps s events) (h : Serves ps s turn s') (hk : Contract.Kept ps)
    (hsound : s.Sound ps) (hfits : ps.FitsClock) (ht : s.InTime ps) :
    Filled ps s' (events ++ turn.events ps s s') := by
  have hnow := h.now_exact hfits ht
  have hrun := turn.run_pos s (hsound.eligible hk h h.process).work
  refine ⟨?_, ?_, ?_⟩
  · have hending : (turn.ending s s').stretch? = none :=
      Turn.ending_of (P := fun e => e.stretch? = none) (fun _ _ _ => rfl) (fun _ _ _ _ => rfl)
    have hslice : stretches (turn.events ps s s') = [⟨s.now.toNat, s'.now.toNat⟩] := by
      rw [stretches, turn.filterMap_events (fun _ _ => rfl), hending, hnow]
      rfl
    rw [stretches_append, hslice]
    exact hf.tiles.append (.singleton (by omega))
  · intro t
    rw [List.any_append, turn.any_idlesAt_events, Bool.or_false, hf.idle_iff t]
    constructor
    · rintro ⟨hbefore, hrests⟩
      have hbefore' : t < s'.now.toNat := by omega
      exact ⟨hbefore', ((Moves.serves turn h).rests_iff hk hsound hbefore').2 hrests⟩
    · rintro ⟨hbefore, hrests⟩
      have hrests' := ((Moves.serves turn h).rests_iff hk hsound hbefore).1 hrests
      exact ⟨Nat.lt_of_not_le fun hle => h.not_rests hk hsound hle hrests', hrests'⟩
  · have hending : (turn.ending s s').gap? = none :=
      Turn.ending_of (P := fun e => e.gap? = none) (fun _ _ _ => rfl) (fun _ _ _ _ => rfl)
    have hnone : idleTime (turn.events ps s s') = 0 := by
      rw [idleTime, turn.filterMap_events (fun _ _ => rfl), hending]
      rfl
    have hwork := h.remainingWork_add
    have hfilled := hf.work
    rw [idleTime_append, hnone]
    omega

theorem skips (hf : Filled ps s events) {next : Process} (h : Skips ps s next s')
    (hk : Contract.Kept ps) (hsound : s.Sound ps) :
    Filled ps s' (events ++ [{ time := s.now, event := .idle next.arrival }]) := by
  have hlater := UInt64.lt_iff_toNat_lt.1 h.later
  have hnow : s'.now = next.arrival := congrArg (·.now) h.machine
  have hrests : ∀ t < next.arrival.toNat, s'.Rests ps t ↔ s.Rests ps t := fun t ht =>
    (Moves.skips next h).rests_iff hk hsound (hnow ▸ ht)
  rw [← hnow] at hlater hrests ⊢
  refine ⟨?_, ?_, ?_⟩
  · rw [stretches_append]
    exact hf.tiles.append (.singleton hlater)
  · intro t
    rw [List.any_append, Bool.or_eq_true, hf.idle_iff t]
    simp only [List.any_cons, List.any_nil, Bool.or_false, Stamped.idlesAt, Bool.and_eq_true,
      decide_eq_true_iff]
    constructor
    · rintro (⟨hbefore, hold⟩ | ⟨hle, hlt⟩)
      · have hlt : t < s'.now.toNat := by omega
        exact ⟨hlt, (hrests t hlt).2 hold⟩
      · exact ⟨hlt, (hrests t hlt).2 (h.rests hk hsound hle (hnow ▸ hlt))⟩
    · rintro ⟨hlt, hnew⟩
      by_cases hbefore : t < s.now.toNat
      · exact .inl ⟨hbefore, (hrests t hlt).1 hnew⟩
      · exact .inr ⟨Nat.le_of_not_lt hbefore, hlt⟩
  · have hgap : idleTime [{ time := s.now, event := .idle s'.now }] =
        s'.now.toNat - s.now.toNat := Nat.add_zero _
    have hwork : s'.machine.remainingWork = s.machine.remainingWork :=
      congrArg List.sum h.remainders
    have hfilled := hf.work
    rw [idleTime_append, hgap]
    omega

theorem reaches {config : Config} (hstart : start ps config = .ok s) (hfits : ps.FitsClock)
    (hr : Reaches ps s events s') : Filled ps s' events := by
  have hk := kept_of_start hstart
  induction hr with
  | refl =>
    have hnow := now_of_start hstart
    refine ⟨?_, ?_, ?_⟩
    · rw [hnow]
      exact .nil 0
    · intro t
      rw [hnow]
      simp
    · rw [hnow, remainingWork_start hstart]
      exact Nat.add_comm _ _
  | snoc hr hm ih =>
    have hsound := hr.sound hstart
    cases hm with
    | serves turn h => exact ih.serves h hk hsound hfits (hr.inTime hstart hfits)
    | skips next h => exact ih.skips h hk hsound

end Filled

/-- Once all jobs have finished, an instant is at rest exactly if the timings of the processes that
have arrived by then say so. -/
theorem Sound.rests_iff_of_completed (h : s.Sound ps) (hdone : s.allCompleted = true)
    {timings : List Timing} (htimings : s.machine.jobs.toList.mapM Job.timing = .ok timings)
    (t : Nat) :
    s.Rests ps t ↔ ∀ (i : Nat) (p : Process), ps[i]? = some p → p.arrival.toNat ≤ t →
      ∃ timing, timings[i]? = some timing ∧ timing.pid = p.pid ∧ timing.completion.toNat ≤ t := by
  constructor
  · intro hrests i p hp harrival
    obtain ⟨job, timing, hjob, hentry, _, _, _, hcompletion, hpid, _⟩ :=
      h.timing_of_completed hdone htimings hp
    obtain ⟨completion, hcompletion', hle⟩ := hrests i p job hp hjob harrival
    rw [hcompletion, Option.some.injEq] at hcompletion'
    exact ⟨timing, hentry, hpid, hcompletion' ▸ hle⟩
  · intro hall i p job hp hjob harrival
    obtain ⟨timing, hentry, _, hle⟩ := hall i p hp harrival
    obtain ⟨job', timing', hjob', hentry', _, _, _, hcompletion, _⟩ :=
      h.timing_of_completed hdone htimings hp
    rw [hjob, Option.some.injEq] at hjob'
    rw [hentry, Option.some.injEq] at hentry'
    subst hjob' hentry'
    exact ⟨timing.completion, hcompletion, hle⟩

/-- What the slices and gaps of a run that ends at instant `makespan` are like. They follow each
other without a break, an instant lies in a gap exactly if every process that has arrived by then
has completed by then, and the run takes as long as all work and all gaps. -/
structure Timeline (ps : ProcessList) (events : List Stamped) (timings : List Timing)
    (makespan : Nat) : Prop where
  tiles : Tiles 0 (stretches events) makespan
  nonempty : ∀ x ∈ stretches events, x.start < x.finish
  disjoint : (stretches events).Pairwise fun x y => x.finish ≤ y.start
  covered : ∀ t, (∃ x ∈ stretches events, x.start ≤ t ∧ t < x.finish) ↔ t < makespan
  idle_iff : ∀ t < makespan, (∃ e ∈ events, e.idlesAt t = true) ↔
    ∀ (i : Nat) (p : Process), ps[i]? = some p → p.arrival.toNat ≤ t →
      ∃ timing, timings[i]? = some timing ∧ timing.pid = p.pid ∧ timing.completion.toNat ≤ t
  makespan_eq : makespan = ps.totalBurst + idleTime events

/-- If the clock fits, a run comes to its end, and its slices and gaps tile the time from the start
to the last completion: there is a gap exactly when there is nothing to do. -/
theorem timeline_gap_free {config : Config} (hstart : start ps config = .ok s)
    (hfits : ps.FitsClock) :
    ∃ n events fin timings, s.steps n = .ok (events, fin) ∧ fin.allCompleted = true ∧
      s.complete = .ok fin ∧ fin.machine.jobs.toList.mapM Job.timing = .ok timings ∧
      (∀ report, s.run = .ok report →
        report.timings = timings ∧ report.makespan = Report.lastCompletion timings) ∧
      Timeline ps events.toList timings (Report.lastCompletion timings).toNat := by
  obtain ⟨n, events, fin, timings, hrun, hdone, hcomplete, hreaches, htimings, _⟩ :=
    exists_timings hstart hfits
  have hsound := (sound_start hstart).reaches (kept_of_start hstart) hreaches
  have hfilled := Filled.reaches hstart hfits hreaches
  have hdone_work := hsound.remainingWork_of_completed hdone
  refine ⟨n, events, fin, timings, hrun, hdone, hcomplete, htimings, ?_, ?_⟩
  · intro report hreport
    rw [run_eq_ofTimings hcomplete htimings] at hreport
    have htotals := Report.totals_of_ofTimings hreport
    exact ⟨htotals.timings_eq, htotals.makespan⟩
  · rw [hreaches.lastCompletion_eq_now hstart hdone htimings]
    refine ⟨hfilled.tiles, hfilled.tiles.lt_of_mem, hfilled.tiles.pairwise, ?_, ?_, ?_⟩
    · intro t
      rw [hfilled.tiles.covered_iff t]
      exact and_iff_right (Nat.zero_le t)
    · intro t ht
      rw [← List.any_eq_true, hfilled.idle_iff t, and_iff_right ht,
        hsound.rests_iff_of_completed hdone htimings t]
    · have hwork := hfilled.work
      omega

theorem timeline_gap_free_arrivalsAtSlices :
    ∃ s report, start arrivalsAtSlices { quantum := 2, checks := true } = .ok s ∧
      s.run = .ok report ∧ arrivalsAtSlices.FitsClock ∧
      ∃ n events fin timings, s.steps n = .ok (events, fin) ∧ fin.allCompleted = true ∧
        s.complete = .ok fin ∧ fin.machine.jobs.toList.mapM Job.timing = .ok timings ∧
        (∀ report, s.run = .ok report →
          report.timings = timings ∧ report.makespan = Report.lastCompletion timings) ∧
        Timeline arrivalsAtSlices events.toList timings
          (Report.lastCompletion timings).toNat := by
  obtain ⟨s, report, hstart, hreport⟩ := exists_report_arrivalsAtSlices
  have hfits : arrivalsAtSlices.FitsClock := by decide
  exact ⟨s, report, hstart, hreport, hfits, timeline_gap_free hstart hfits⟩

end Simulation

end RoundRobin
