import RoundRobin.Proofs.Causality

/-!
# The makespan

How the work is cut into slices, and in which order, makes no difference to when it is done. At any
instant, the clock and the work that is left together come to what they would be on a processor that
takes the processes one after the other in the order of the list (`Paced`). So a run ends when that
processor does, and has the gaps that it has, whatever the quantum (`makespan_eq_finish`).
-/

namespace RoundRobin

namespace ProcessList

/-- When a processor is done with the processes that takes them one after the other from an instant
on, each of them not before its arrival. -/
def finishFrom (clock : Nat) (ps : ProcessList) : Nat :=
  ps.foldl (fun clock p => max clock p.arrival.toNat + p.burst.toNat) clock

/-- When a processor is done with the processes that takes them one after the other. -/
def finish (ps : ProcessList) : Nat :=
  ps.finishFrom 0

/-- The gaps of that processor, as events. -/
def gapsFrom (clock : Nat) : ProcessList → List Stamped
  | [] => []
  | p :: rest =>
    (if clock < p.arrival.toNat then
      [{ time := UInt64.ofNat clock, event := .idle p.arrival }] else []) ++
        gapsFrom (max clock p.arrival.toNat + p.burst.toNat) rest

/-- The gaps of that processor, from the start on. -/
def gaps (ps : ProcessList) : List Stamped :=
  ps.gapsFrom 0

variable {ps : ProcessList} {clock : Nat}

theorem finishFrom_cons (p : Process) (rest : ProcessList) :
    finishFrom clock (p :: rest) =
      finishFrom (max clock p.arrival.toNat + p.burst.toNat) rest := rfl

theorem finish_append (ps qs : ProcessList) : finish (ps ++ qs) = qs.finishFrom ps.finish :=
  List.foldl_append

theorem gapsFrom_append (clock : Nat) (ps qs : ProcessList) :
    gapsFrom clock (ps ++ qs) = gapsFrom clock ps ++ gapsFrom (finishFrom clock ps) qs := by
  induction ps generalizing clock with
  | nil => rfl
  | cons p rest ih =>
    rw [List.cons_append, gapsFrom, gapsFrom, ih, List.append_assoc]
    rfl

theorem gaps_append (ps qs : ProcessList) : gaps (ps ++ qs) = ps.gaps ++ qs.gapsFrom ps.finish :=
  gapsFrom_append 0 ps qs

/-- Processes that have arrived keep the processor busy. -/
theorem finishFrom_of_arrived (h : ∀ p ∈ ps, p.arrival.toNat ≤ clock) :
    ps.finishFrom clock = clock + ps.totalBurst := by
  induction ps generalizing clock with
  | nil => rfl
  | cons p rest ih =>
    obtain ⟨hp, hrest⟩ := List.forall_mem_cons.1 h
    rw [finishFrom_cons, totalBurst_cons, Nat.max_eq_left hp, ih, Nat.add_assoc]
    intro q hq
    exact Nat.le_add_right_of_le (hrest q hq)

/-- Behind a gap, processes that have arrived by its end keep the processor busy. -/
theorem finishFrom_of_gap {first : Process} {more : ProcessList}
    (hclock : clock ≤ first.arrival.toNat)
    (hmore : ∀ p ∈ more, p.arrival.toNat ≤ first.arrival.toNat) :
    finishFrom clock (first :: more) = first.arrival.toNat + totalBurst (first :: more) := by
  rw [finishFrom_cons, Nat.max_eq_right hclock, finishFrom_of_arrived, totalBurst_cons,
    Nat.add_assoc]
  intro p hp
  exact Nat.le_add_right_of_le (hmore p hp)

theorem le_finishFrom (clock : Nat) (ps : ProcessList) : clock ≤ ps.finishFrom clock := by
  induction ps generalizing clock with
  | nil => exact Nat.le_refl clock
  | cons p rest ih =>
    rw [finishFrom_cons]
    have := ih (max clock p.arrival.toNat + p.burst.toNat)
    omega

/-- Every process is done by the time that all of them are. -/
theorem arrival_add_burst_le_finishFrom {p : Process} (hp : p ∈ ps) (clock : Nat) :
    p.arrival.toNat + p.burst.toNat ≤ ps.finishFrom clock := by
  induction ps generalizing clock with
  | nil => cases hp
  | cons q rest ih =>
    rw [finishFrom_cons]
    rcases List.mem_cons.1 hp with rfl | hp
    · have := le_finishFrom (max clock p.arrival.toNat + p.burst.toNat) rest
      omega
    · exact ih hp _

theorem gapsFrom_of_arrived (h : ∀ p ∈ ps, p.arrival.toNat ≤ clock) : ps.gapsFrom clock = [] := by
  induction ps generalizing clock with
  | nil => rfl
  | cons p rest ih =>
    obtain ⟨hp, hrest⟩ := List.forall_mem_cons.1 h
    rw [gapsFrom, if_neg (Nat.not_lt_of_le hp), List.nil_append, ih]
    intro q hq
    rw [Nat.max_eq_left hp]
    exact Nat.le_add_right_of_le (hrest q hq)

/-- The processes that have arrived by an instant. -/
def arrivedBy (ps : ProcessList) (t : Nat) : ProcessList :=
  ps.take (arrivedBefore ps (t + 1))

/-- The processes that arrive after an instant. -/
def comingAfter (ps : ProcessList) (t : Nat) : ProcessList :=
  ps.drop (arrivedBefore ps (t + 1))

theorem arrivedBy_append_comingAfter (ps : ProcessList) (t : Nat) :
    ps.arrivedBy t ++ ps.comingAfter t = ps :=
  List.take_append_drop _ _

theorem arrival_le_of_arrivedBy (hk : Contract.Kept ps) {t : Nat} {p : Process}
    (hp : p ∈ ps.arrivedBy t) : p.arrival.toNat ≤ t := by
  obtain ⟨i, hi⟩ := List.mem_iff_getElem?.1 hp
  rw [arrivedBy, List.getElem?_take] at hi
  split at hi
  · next hlt =>
    have := (lt_arrivedBefore_iff hk hi (t + 1)).1 hlt
    omega
  · cases hi

/-- As time goes on, processes change over from those to come to those that have arrived. -/
theorem exists_arrivals_between (hk : Contract.Kept ps) {t u : Nat} (htu : t ≤ u) :
    ∃ new : ProcessList, ps.arrivedBy u = ps.arrivedBy t ++ new ∧
      ps.comingAfter t = new ++ ps.comingAfter u ∧
      ∀ p ∈ new, t < p.arrival.toNat ∧ p.arrival.toNat ≤ u := by
  have hle := arrivedBefore_mono hk (Nat.succ_le_succ htu)
  refine ⟨(ps.take (arrivedBefore ps (u + 1))).drop (arrivedBefore ps (t + 1)), ?_, ?_, ?_⟩
  · have htake := List.take_append_drop (arrivedBefore ps (t + 1))
      (ps.take (arrivedBefore ps (u + 1)))
    rw [List.take_take, Nat.min_eq_left hle] at htake
    exact htake.symm
  · rw [comingAfter, comingAfter, List.drop_take]
    have hdrop := List.take_append_drop
      (arrivedBefore ps (u + 1) - arrivedBefore ps (t + 1)) (ps.drop (arrivedBefore ps (t + 1)))
    rw [List.drop_drop, Nat.add_sub_cancel' hle] at hdrop
    exact hdrop.symm
  · intro p hp
    obtain ⟨k, hk'⟩ := List.mem_iff_getElem?.1 hp
    rw [List.getElem?_drop, List.getElem?_take] at hk'
    split at hk'
    · next hlt =>
      have hbefore := lt_arrivedBefore_iff hk hk' (u + 1)
      have hafter := lt_arrivedBefore_iff hk hk' (t + 1)
      omega
    · cases hk'

end ProcessList

namespace Simulation

variable {ps : ProcessList} {s s' : Simulation} {events new : List Stamped}

namespace Sound

/-- The work of the processes that are to come is left. -/
theorem remainders_drop (h : s.Sound ps) {b : Nat} (hb : s.admitted ≤ b) :
    s.machine.remainders.drop b = (ps.drop b).map (·.burst.toNat) := by
  apply List.ext_getElem?
  intro i
  rw [List.getElem?_drop, List.getElem?_map, List.getElem?_drop]
  cases hp : ps[b + i]? with
  | none =>
    have hle := List.getElem?_eq_none_iff.1 hp
    have hsize : s.machine.remainders.length = ps.length := by
      rw [Machine.remainders, List.length_map]
      exact h.size
    rw [List.getElem?_eq_none_iff.2 (by omega)]
    rfl
  | some p =>
    have hjob := (h.job_of_ahead hp (by omega)).1
    rw [Machine.remainders_of_job (Machine.job_eq_ok_iff.2 hjob)]
    rfl

/-- The work that is left is that of the processes that have arrived and all work to come. -/
theorem remainingWork_eq (h : s.Sound ps) {b : Nat} (hb : s.admitted ≤ b) :
    s.machine.remainingWork =
      (s.machine.remainders.take b).sum + ProcessList.totalBurst (ps.drop b) := by
  rw [Machine.remainingWork_eq_sum, ProcessList.totalBurst, ← h.remainders_drop hb,
    ← List.sum_append_nat, List.take_append_drop]

/-- Before a gap, exactly those have been let in that have arrived. -/
theorem admitted_of_skips (h : s.Sound ps) (hk : Contract.Kept ps) {next : Process}
    (hm : Skips ps s next s') : s.admitted = arrivedBefore ps (s.now.toNat + 1) := by
  apply eq_arrivedBefore hk h.admitted_le
  intro i p hp
  constructor
  · intro hlt
    have := UInt64.le_iff_toNat_le.1 (h.arrived i p hp hlt)
    omega
  · intro hlt
    apply Nat.lt_of_not_le
    intro hle
    have hafter := hk.arrival_le hm.next hp hle
    have hlater := UInt64.lt_iff_toNat_lt.1 hm.later
    omega

end Sound

/-- A turn tells of no gap. -/
theorem Serves.filter_isIdle {turn : Turn} (h : Serves ps s turn s') :
    (turn.events ps s s').filter (·.event.isIdle) = [] := by
  rw [List.filter_eq_nil_iff]
  intro e he
  cases hevent : e.event with
  | idle target => exact absurd hevent (h.not_idle he target)
  | _ => exact Bool.false_ne_true

/-- In the state of a run, the clock and the work that is left come to what they do on a processor
that has taken those that have arrived one after the other. There have been the same gaps. -/
structure Paced (ps : ProcessList) (s : Simulation) (events : List Stamped) : Prop where
  finish : (ps.arrivedBy s.now.toNat).finish + (ps.comingAfter s.now.toNat).totalBurst =
    s.now.toNat + s.machine.remainingWork
  gaps : events.filter (·.event.isIdle) = (ps.arrivedBy s.now.toNat).gaps

namespace Paced

/-- A slice ends by the time that the work of what has arrived is done. -/
theorem now_le_finish {turn : Turn} (h : Paced ps s events) (hm : Serves ps s turn s')
    (hk : Contract.Kept ps) (hsound : s.Sound ps) (hfits : ps.FitsClock) (ht : s.InTime ps) :
    s'.now.toNat ≤ (ps.arrivedBy s.now.toNat).finish := by
  have hnow := hm.now_exact hfits ht
  have hsplit := hsound.remainingWork_eq (b := turn.early) hm.early.le
  have hlt := hsound.lt_early hm (.inl rfl)
  have hentry : (s.machine.remainders.take turn.early)[turn.position]? =
      some turn.job.remaining.toNat := by
    rw [List.getElem?_take_of_lt hlt]
    exact hm.work_eq
  have hle := List.le_sum_of_mem (List.mem_of_getElem? hentry)
  have hrun := turn.toNat_run s.quantum
  have hfinish := h.finish
  rw [ProcessList.comingAfter, ← hm.early_eq hk hsound] at hfinish
  omega

/-- Processes that arrive by the end of a slice find the processor busy. -/
theorem serves {turn : Turn} (h : Paced ps s events) (hm : Serves ps s turn s')
    (hk : Contract.Kept ps) (hsound : s.Sound ps) (hfits : ps.FitsClock) (ht : s.InTime ps) :
    Paced ps s' (events ++ turn.events ps s s') := by
  have hnow := hm.now_exact hfits ht
  have hwork := hm.remainingWork_add
  have hfinish := h.finish
  have hbusy := h.now_le_finish hm hk hsound hfits ht
  obtain ⟨more, harrived, hcoming, hmore⟩ := ProcessList.exists_arrivals_between hk hm.now_le
  have hfound : ∀ p ∈ more, p.arrival.toNat ≤ (ps.arrivedBy s.now.toNat).finish := by
    intro p hp
    exact Nat.le_trans (hmore p hp).2 hbusy
  constructor
  · have hbursts := ProcessList.totalBurst_append more (ps.comingAfter s'.now.toNat)
    rw [← hcoming] at hbursts
    rw [harrived, ProcessList.finish_append, ProcessList.finishFrom_of_arrived hfound]
    omega
  · rw [List.filter_append, hm.filter_isIdle, List.append_nil, h.gaps, harrived,
      ProcessList.gaps_append, ProcessList.gapsFrom_of_arrived hfound, List.append_nil]

/-- A gap starts when all work is done that has arrived, and ends at the next arrival. -/
theorem skips {next : Process} (h : Paced ps s events) (hm : Skips ps s next s')
    (hk : Contract.Kept ps) (hsound : s.Sound ps) :
    Paced ps s' (events ++ [{ time := s.now, event := .idle next.arrival }]) := by
  have hnow : s'.now = next.arrival := congrArg (·.now) hm.machine
  have hlater := UInt64.lt_iff_toNat_lt.1 hm.later
  have hwork : s'.machine.remainingWork = s.machine.remainingWork :=
    congrArg List.sum hm.remainders
  have hadmitted := hsound.admitted_of_skips hk hm
  have hsplit := hsound.remainingWork_eq (Nat.le_refl s.admitted)
  rw [hsound.remainders_of_empty hm.empty, List.sum_replicate_nat, Nat.mul_zero,
    Nat.zero_add] at hsplit
  obtain ⟨more, harrived, hcoming, hmore⟩ :=
    ProcessList.exists_arrivals_between hk (Nat.le_of_lt hlater)
  have hfinish := h.finish
  have hrest : (ps.arrivedBy s.now.toNat).finish = s.now.toNat := by
    rw [ProcessList.comingAfter, ← hadmitted] at hfinish
    omega
  -- the next process is the first of those that have arrived by the end of the gap
  have hhead : (ps.comingAfter s.now.toNat).head? = some next := by
    rw [ProcessList.comingAfter, ← hadmitted, List.head?_drop, hm.next]
  obtain ⟨rest, rfl⟩ : ∃ rest, more = next :: rest := by
    cases more with
    | nil =>
      rw [hcoming, List.nil_append, ProcessList.comingAfter, List.head?_drop] at hhead
      have hlt := (lt_arrivedBefore_iff hk hhead (next.arrival.toNat + 1)).2 (Nat.lt_succ_self _)
      exact absurd hlt (Nat.lt_irrefl _)
    | cons first rest =>
      rw [hcoming, List.cons_append, List.head?_cons, Option.some.injEq] at hhead
      exact ⟨rest, congrArg (· :: rest) hhead⟩
  have hfound : ∀ p ∈ rest, p.arrival.toNat ≤ next.arrival.toNat := by
    intro p hp
    exact (hmore p (List.mem_cons_of_mem next hp)).2
  have hbursts := ProcessList.totalBurst_append (next :: rest) (ps.comingAfter next.arrival.toNat)
  rw [← hcoming] at hbursts
  constructor
  · rw [hnow, harrived, ProcessList.finish_append, hrest,
      ProcessList.finishFrom_of_gap (Nat.le_of_lt hlater) hfound]
    omega
  · have hlast : max s.now.toNat next.arrival.toNat = next.arrival.toNat :=
      Nat.max_eq_right (Nat.le_of_lt hlater)
    have hbusy : ∀ p ∈ rest, p.arrival.toNat ≤ next.arrival.toNat + next.burst.toNat := by
      intro p hp
      exact Nat.le_add_right_of_le (hfound p hp)
    rw [List.filter_append, h.gaps, hnow, harrived, ProcessList.gaps_append, hrest,
      ProcessList.gapsFrom, if_pos hlater, hlast, ProcessList.gapsFrom_of_arrived hbusy,
      UInt64.ofNat_toNat]
    rfl

theorem reaches {config : Config} (hstart : start ps config = .ok s) (hfits : ps.FitsClock)
    (hr : Reaches ps s events s') : Paced ps s' events := by
  have hk := kept_of_start hstart
  induction hr with
  | refl =>
    have hfound : ∀ p ∈ ps.arrivedBy 0, p.arrival.toNat ≤ 0 := fun p hp =>
      ProcessList.arrival_le_of_arrivedBy hk hp
    have hsplit := ProcessList.totalBurst_append (ps.arrivedBy 0) (ps.comingAfter 0)
    rw [ProcessList.arrivedBy_append_comingAfter] at hsplit
    constructor
    · rw [now_of_start hstart, remainingWork_start hstart, ProcessList.finish,
        ProcessList.finishFrom_of_arrived hfound]
      omega
    · rw [now_of_start hstart, ProcessList.gaps, ProcessList.gapsFrom_of_arrived hfound]
      rfl
  | snoc hr hm ih =>
    have hsound := hr.sound hstart
    cases hm with
    | serves turn h => exact ih.serves h hk hsound hfits (hr.inTime hstart hfits)
    | skips next h => exact ih.skips h hk hsound

end Paced

/-- Once all jobs have finished, the clock shows when that processor is done. -/
theorem Paced.finish_of_completed (h : Paced ps s events) (hk : Contract.Kept ps)
    (hsound : s.Sound ps) (hdone : s.allCompleted = true) :
    s.now.toNat = ps.finish ∧ events.filter (·.event.isIdle) = ps.gaps := by
  obtain ⟨hall, _⟩ := hsound.allCompleted_iff.1 hdone
  have hwork := hsound.remainingWork_of_completed hdone
  have hlen : arrivedBefore ps (s.now.toNat + 1) = ps.length := by
    symm
    apply eq_arrivedBefore hk (Nat.le_refl _)
    intro i p hp
    have hlt := (List.getElem?_eq_some_iff.1 hp).1
    have harrived := UInt64.le_iff_toNat_le.1 (hsound.arrived i p hp (by omega))
    omega
  have harrived : ps.arrivedBy s.now.toNat = ps := by
    rw [ProcessList.arrivedBy, hlen, List.take_length]
  have hcoming : ps.comingAfter s.now.toNat = [] := by
    rw [ProcessList.comingAfter, hlen, List.drop_length]
  have hfinish := h.finish
  have hgaps := h.gaps
  rw [harrived, hcoming, hwork] at hfinish
  rw [harrived] at hgaps
  exact ⟨hfinish.symm, hgaps⟩

section Ends

variable {config : Config} {fin : Simulation} {stream : Array Stamped} {timings : List Timing}

/-- If the clock fits, a run comes to its end. -/
theorem exists_concludes (hstart : start ps config = .ok s) (hfits : ps.FitsClock) :
    ∃ stream fin timings, s.Concludes stream fin timings := by
  obtain ⟨n, stream, fin, timings, hrun, hdone, hcomplete, _, htimings, hreport⟩ :=
    exists_timings hstart hfits
  exact ⟨stream, fin, timings, ⟨n, hrun⟩, hdone, hcomplete, htimings, hreport⟩

namespace Concludes

theorem orderly (h : s.Concludes stream fin timings) (hstart : start ps config = .ok s) :
    Reaches ps s stream.toList fin ∧ fin.Orderly ps := by
  obtain ⟨n, hrun⟩ := h.steps
  obtain ⟨hreaches, horderly, _⟩ := (orderly_start hstart).run (kept_of_start hstart) hrun
  exact ⟨hreaches, horderly⟩

theorem run_eq (h : s.Concludes stream fin timings) :
    s.run = Report.ofTimings timings fin.scheduler.preemptions :=
  run_eq_ofTimings h.complete h.timed

/-- If the clock fits, a run ends when that processor is done, and has the gaps that it has. -/
theorem finish (h : s.Concludes stream fin timings) (hstart : start ps config = .ok s)
    (hfits : ps.FitsClock) :
    fin.now.toNat = ps.finish ∧ stream.toList.filter (·.event.isIdle) = ps.gaps := by
  obtain ⟨hreaches, horderly⟩ := h.orderly hstart
  exact (Paced.reaches hstart hfits hreaches).finish_of_completed (kept_of_start hstart)
    horderly.sound h.completed

theorem lastCompletion_eq (h : s.Concludes stream fin timings) (hstart : start ps config = .ok s)
    (hfits : ps.FitsClock) : (Report.lastCompletion timings).toNat = ps.finish := by
  rw [(h.orderly hstart).1.lastCompletion_eq_now hstart h.completed h.timed,
    (h.finish hstart hfits).1]

/-- The makespan is the last completion. -/
theorem makespan_eq (h : s.Concludes stream fin timings) {report : Report}
    (hreport : s.run = .ok report) : report.makespan = Report.lastCompletion timings := by
  rw [h.run_eq] at hreport
  exact (Report.totals_of_ofTimings hreport).makespan

end Concludes

end Ends

/-- The makespan does not depend on the quantum. If the clock fits, runs of the same processes with
any two quanta end at the instant that the arrivals and the bursts add up to in the order of the
list, and have the same gaps. -/
theorem makespan_eq_finish {config config' : Config} (hstart : start ps config = .ok s)
    (hstart' : start ps config' = .ok s') (hfits : ps.FitsClock) :
    ∃ events fin timings events' fin' timings', s.Concludes events fin timings ∧
      s'.Concludes events' fin' timings' ∧ fin.now.toNat = ps.finish ∧
      fin'.now.toNat = ps.finish ∧
      (∀ report, s.run = .ok report → report.makespan.toNat = ps.finish) ∧
      (∀ report, s'.run = .ok report → report.makespan.toNat = ps.finish) ∧
      events.toList.filter (·.event.isIdle) = events'.toList.filter (·.event.isIdle) := by
  obtain ⟨events, fin, timings, hends⟩ := exists_concludes hstart hfits
  obtain ⟨events', fin', timings', hends'⟩ := exists_concludes hstart' hfits
  obtain ⟨hnow, hgaps⟩ := hends.finish hstart hfits
  obtain ⟨hnow', hgaps'⟩ := hends'.finish hstart' hfits
  refine ⟨events, fin, timings, events', fin', timings', hends, hends', hnow, hnow', ?_, ?_,
    hgaps.trans hgaps'.symm⟩
  · intro report hreport
    rw [hends.makespan_eq hreport, hends.lastCompletion_eq hstart hfits]
  · intro report hreport
    rw [hends'.makespan_eq hreport, hends'.lastCompletion_eq hstart' hfits]

theorem makespan_eq_finish_arrivalsAtSlices :
    ∃ s report s' report', start arrivalsAtSlices { quantum := 2, checks := true } = .ok s ∧
      s.run = .ok report ∧ start arrivalsAtSlices { quantum := 3, checks := false } = .ok s' ∧
      s'.run = .ok report' ∧ arrivalsAtSlices.FitsClock ∧ arrivalsAtSlices.finish = 14 ∧
      ∃ events fin timings events' fin' timings', s.Concludes events fin timings ∧
        s'.Concludes events' fin' timings' ∧ fin.now.toNat = arrivalsAtSlices.finish ∧
        fin'.now.toNat = arrivalsAtSlices.finish ∧
        (∀ report, s.run = .ok report → report.makespan.toNat = arrivalsAtSlices.finish) ∧
        (∀ report, s'.run = .ok report → report.makespan.toNat = arrivalsAtSlices.finish) ∧
        events.toList.filter (·.event.isIdle) = events'.toList.filter (·.event.isIdle) := by
  obtain ⟨s, report, hstart, hreport⟩ := exists_report_arrivalsAtSlices
  obtain ⟨s', report', hstart', hreport'⟩ : ∃ s' report',
      start arrivalsAtSlices { quantum := 3, checks := false } = .ok s' ∧ s'.run = .ok report' :=
    ⟨_, _, rfl, rfl⟩
  have hfits : arrivalsAtSlices.FitsClock := by decide
  exact ⟨s, report, s', report', hstart, hreport, hstart', hreport', hfits, by decide,
    makespan_eq_finish hstart hstart' hfits⟩

end Simulation

end RoundRobin
