import RoundRobin.Proofs.Makespan
import RoundRobin.Proofs.Statistics

/-!
# A quantum that no process outlasts

If no burst is longer than the quantum, every turn is the only one of its job, and whatever arrives
goes behind it. So the processes are served one after the other in the order of the list, no matter
whether they arrive within a slice, at its end or behind it (`InOrder`), and each completes a burst
after its predecessor or its own arrival. Main statement: `fifo_of_long_quantum`.
-/

namespace RoundRobin

/-- The positions up to one and those from it on. -/
theorem range'_append_range' {a b c : Nat} (hab : a ≤ b) (hbc : b ≤ c) :
    List.range' a (b - a) ++ List.range' b (c - b) = List.range' a (c - a) := by
  obtain ⟨m, rfl⟩ := Nat.exists_eq_add_of_le hab
  obtain ⟨n, rfl⟩ := Nat.exists_eq_add_of_le hbc
  rw [Nat.add_sub_cancel_left, Nat.add_sub_cancel_left, List.range'_append_1, Nat.add_assoc,
    Nat.add_sub_cancel_left]

namespace ProcessList

variable {ps : ProcessList}

/-- Of processes that are taken one after the other, each is done a burst after those before it or
after its own arrival. -/
theorem finish_take_succ {i : Nat} {p : Process} (hp : ps[i]? = some p) :
    finish (ps.take (i + 1)) = max (finish (ps.take i)) p.arrival.toNat + p.burst.toNat := by
  rw [List.take_add_one, hp, finish_append]
  rfl

end ProcessList

/-- When the process before a position completes; `0` for the first one. -/
def completionBefore (timings : List Timing) : Nat → Nat
  | 0 => 0
  | i + 1 => ((timings[i]?).map (·.completion.toNat)).getD 0

namespace Simulation

variable {ps : ProcessList} {s s' : Simulation} {turn : Turn} {events : List Stamped}
  {done : Nat}

/-- The processes before position `done` have had their turns, in the order of the list, and none
was preempted. The others are in line in that order. If the next one has arrived, the clock shows
when a processor is done with those before it that takes them one after the other. -/
structure InOrder (ps : ProcessList) (s : Simulation) (events : List Stamped) (done : Nat) :
    Prop where
  le : done ≤ s.admitted
  queue : s.queue = List.range' done (s.admitted - done)
  dispatched : dispatches ps events = List.range done
  preemptions : s.scheduler.preemptions.toNat = 0
  preempted : ∀ e ∈ events, ∀ pid remaining, e.event ≠ .preempted pid remaining
  pace : ∀ p, ps[done]? = some p → max s.now.toNat p.arrival.toNat =
    max (ProcessList.finish (ps.take done)) p.arrival.toNat

/-- A turn that ends the work of its job tells of no preemption. -/
theorem Serves.not_preempted (h : Serves ps s turn s') (hends : turn.Ends s.quantum) {e : Stamped}
    (he : e ∈ turn.events ps s s') (pid : Pid) (remaining : Ticks) :
    e.event ≠ .preempted pid remaining := by
  have hadmission : ∀ a b, e ∈ admissions ps a b → e.event ≠ .preempted pid remaining := by
    intro a b hmem
    obtain ⟨_, _, _, _, _, rfl⟩ := mem_admissions_iff.1 hmem
    exact Event.noConfusion
  rcases Turn.mem_events_iff.1 he with hearly | rfl | hlate | rfl
  · exact hadmission _ _ hearly
  · exact Event.noConfusion
  · exact hadmission _ _ hlate
  · rw [Turn.ending, Job.closing, if_pos (h.served_eq_zero_iff.2 hends)]
    exact Event.noConfusion

namespace InOrder

/-- If nobody is in line, all that have arrived have had their turns. -/
theorem admitted_eq (h : InOrder ps s events done) (hempty : s.queue = []) :
    s.admitted = done := by
  have hlength := congrArg List.length (h.queue.symm.trans hempty)
  rw [List.length_range', List.length_nil] at hlength
  have hle := h.le
  omega

/-- The turn is that of the first process that has had none. -/
theorem line_eq (h : InOrder ps s events done) (hm : Serves ps s turn s') :
    turn.position = done ∧ turn.rest = List.range' (done + 1) (turn.early - (done + 1)) ∧
      done < turn.early := by
  have hline := hm.line
  rw [h.queue, range'_append_range' h.le hm.early.le] at hline
  cases hcount : turn.early - done with
  | zero =>
    rw [hcount, List.range'_zero] at hline
    cases hline
  | succ n =>
    rw [hcount, List.range'_succ, List.cons.injEq] at hline
    obtain ⟨hposition, hrest⟩ := hline
    have hn : n = turn.early - (done + 1) := by omega
    exact ⟨hposition.symm, hn ▸ hrest.symm, by omega⟩

/-- When the turn starts. -/
theorem now_eq (h : InOrder ps s events done) (hm : Serves ps s turn s')
    (hk : Contract.Kept ps) (hsound : s.Sound ps) :
    s.now.toNat = max (ProcessList.finish (ps.take turn.position)) turn.process.arrival.toNat := by
  obtain ⟨hposition, _⟩ := h.line_eq hm
  have hpace := h.pace turn.process (hposition ▸ hm.process)
  have harrived := UInt64.le_iff_toNat_le.1 (hsound.eligible hk hm hm.process).arrived
  rw [hposition, ← hpace, Nat.max_eq_left harrived]

end InOrder

/-- A turn of a job that needs no more than a quantum gives it all its work. -/
theorem Serves.turn_of_short (h : Serves ps s turn s') (hk : Contract.Kept ps)
    (hsound : s.Sound ps) (hrounds : s.InRounds ps) (hshort : turn.process.burst ≤ s.quantum) :
    turn.Ends s.quantum ∧ (turn.run s.quantum).toNat = turn.process.burst.toNat := by
  have hready := hsound.eligible hk h h.process
  have hspent := hready.accounts.spent
  have hwork := hready.work
  have hlong := UInt64.le_iff_toNat_le.1 hshort
  have hremaining := (hrounds _ _ _ h.process h.job).remaining
  have hrun := turn.toNat_run s.quantum
  have hfirst : turn.job.dispatches.toNat = 0 := by
    apply Nat.eq_zero_of_not_pos
    intro hpos
    have hone := Nat.le_mul_of_pos_left s.quantum.toNat hpos
    omega
  rw [hfirst, Nat.zero_mul, Nat.sub_zero] at hremaining
  exact ⟨by unfold Turn.Ends; omega, by omega⟩

namespace InOrder

variable (hshort : ∀ p ∈ ps, p.burst ≤ s.quantum)

include hshort

/-- When the turn ends. -/
theorem now_of_serves (h : InOrder ps s events done) (hm : Serves ps s turn s')
    (hk : Contract.Kept ps) (hfits : ps.FitsClock) (hsound : s.Sound ps)
    (hrounds : s.InRounds ps) (ht : s.InTime ps) :
    s'.now.toNat = ProcessList.finish (ps.take (turn.position + 1)) := by
  obtain ⟨_, hrun⟩ := hm.turn_of_short hk hsound hrounds
    (hshort _ (List.mem_of_getElem? hm.process))
  rw [ProcessList.finish_take_succ hm.process, ← h.now_eq hm hk hsound, hm.now_exact hfits ht,
    hrun]

theorem serves (h : InOrder ps s events done) (hm : Serves ps s turn s')
    (hk : Contract.Kept ps) (hfits : ps.FitsClock) (hsound : s.Sound ps)
    (hrounds : s.InRounds ps) (ht : s.InTime ps) :
    InOrder ps s' (events ++ turn.events ps s s') (done + 1) := by
  obtain ⟨hposition, hrest, hlt⟩ := h.line_eq hm
  obtain ⟨hends, _⟩ := hm.turn_of_short hk hsound hrounds
    (hshort _ (List.mem_of_getElem? hm.process))
  have hnow := h.now_of_serves hshort hm hk hfits hsound hrounds ht
  have hlate := hm.late.le
  have hadmitted := hm.admitted
  exact {
    le := by omega
    queue := by
      rw [hm.queue, hrest, range'_append_range' hlt hlate, if_pos hends, List.append_nil,
        hm.admitted]
    dispatched := by
      rw [dispatches_append, h.dispatched, dispatches_of_serves hk hm, hposition,
        List.range_succ]
    preemptions := by
      rw [hm.preemptions, h.preemptions, if_pos hends]
    preempted := by
      intro e he
      rcases List.mem_append.1 he with hbefore | hnew
      · exact h.preempted e hbefore
      · exact hm.not_preempted hends hnew
    pace := by
      intro p _
      rw [hnow, hposition] }

omit hshort in
/-- A gap ends at the arrival of the first process that has had no turn. -/
theorem skips {next : Process} (h : InOrder ps s events done) (hm : Skips ps s next s') :
    InOrder ps s' (events ++ [{ time := s.now, event := .idle next.arrival }]) done := by
  have hnow : s'.now = next.arrival := congrArg (·.now) hm.machine
  have hqueue : s'.queue = s.queue := congrArg (·.ready.slots) hm.machine
  have hlater := UInt64.lt_iff_toNat_lt.1 hm.later
  exact {
    le := hm.admitted ▸ h.le
    queue := by rw [hqueue, h.queue, hm.admitted]
    dispatched := by
      rw [dispatches_append, h.dispatched]
      exact List.append_nil _
    preemptions := by rw [hm.preemptions, h.preemptions]
    preempted := by
      intro e he
      rcases List.mem_append.1 he with hbefore | hnew
      · exact h.preempted e hbefore
      · rw [List.mem_singleton.1 hnew]
        exact fun _ _ => Event.noConfusion
    pace := by
      intro p hp
      have hnext := hm.next
      rw [h.admitted_eq hm.empty, hp, Option.some.injEq] at hnext
      have hpace := h.pace p hp
      rw [hnext] at hpace ⊢
      rw [hnow]
      omega }

end InOrder

/-- A process that needs no more than a quantum has one round. -/
theorem rounds_of_short {p : Process} {quantum : Ticks} (hburst : 0 < p.burst.toNat)
    (hshort : p.burst ≤ quantum) : p.rounds quantum = 1 := by
  have hlong := UInt64.le_iff_toNat_le.1 hshort
  exact (eq_quantaFor (by omega) (by omega) (by omega)).symm

section Runs

variable {config : Config} {t t' : Simulation} (hstart : start ps config = .ok s)
  (hfits : ps.FitsClock) (hshort : ∀ p ∈ ps, p.burst ≤ config.quantum)

include hstart hfits hshort

theorem Reaches.inOrder (hr : Reaches ps s events t) : ∃ done, InOrder ps t events done := by
  have hk := kept_of_start hstart
  induction hr with
  | refl =>
    have hnow := now_of_start hstart
    obtain ⟨_, _, rfl⟩ := start_eq_ok_iff.1 hstart
    exact ⟨0, {
      le := Nat.zero_le _
      queue := rfl
      dispatched := rfl
      preemptions := rfl
      preempted := by
        intro e he
        cases he
      pace := by
        intro p _
        rw [hnow]
        rfl }⟩
  | snoc hr hm ih =>
    obtain ⟨done, h⟩ := ih
    have hsound := hr.sound hstart
    cases hm with
    | serves turn hm =>
      rw [← hr.quantum_eq hstart] at hshort
      exact ⟨done + 1, h.serves hshort hm hk hfits hsound
        (hr.inRounds hstart) (hr.inTime hstart hfits)⟩
    | skips next hm => exact ⟨done, h.skips hm⟩

/-- When the only turn of a job ends. -/
theorem Reaches.now_of_serves (hr : Reaches ps s events t) (hm : Serves ps t turn t') :
    t'.now.toNat = ProcessList.finish (ps.take (turn.position + 1)) := by
  obtain ⟨done, h⟩ := hr.inOrder hstart hfits hshort
  rw [← hr.quantum_eq hstart] at hshort
  exact h.now_of_serves hshort hm (kept_of_start hstart) hfits (hr.sound hstart)
    (hr.inRounds hstart) (hr.inTime hstart hfits)

/-- How long a job waits for its only turn. -/
theorem Reaches.wait_of_serves (hr : Reaches ps s events t) (hm : Serves ps t turn t') :
    (t.now - turn.job.arrival).toNat = ProcessList.finish (ps.take (turn.position + 1)) -
      turn.process.burst.toNat - turn.process.arrival.toNat := by
  have hk := kept_of_start hstart
  have hsound := hr.sound hstart
  have hready := hsound.eligible hk hm hm.process
  obtain ⟨done, h⟩ := hr.inOrder hstart hfits hshort
  rw [hready.accounts.arrival, UInt64.toNat_sub_of_le _ _ hready.arrived,
    ProcessList.finish_take_succ hm.process, ← h.now_eq hm hk hsound, Nat.add_sub_cancel]

/-- The times of a process in terms of the list up to it. -/
theorem Concludes.timing_of_short {stream : Array Stamped} {timings : List Timing}
    (hends : s.Concludes stream t timings) {i : Nat} {p : Process} (hp : ps[i]? = some p) :
    ∃ timing, timings[i]? = some timing ∧ timing.pid = p.pid ∧ timing.dispatches = 1 ∧
      timing.completion.toNat = ProcessList.finish (ps.take (i + 1)) ∧
      timing.response.toNat =
        ProcessList.finish (ps.take (i + 1)) - p.burst.toNat - p.arrival.toNat := by
  obtain ⟨hreaches, horderly⟩ := hends.orderly hstart
  obtain ⟨job, timing, hjob, hentry, _, hremaining, hresponse, hcompletion, hpid, _,
    hdispatches⟩ := horderly.sound.timing_of_completed hends.completed hends.timed hp
  obtain ⟨hcompletions, hresponses⟩ := hreaches.recorded hstart
    (fun i _ completion => completion.toNat = ProcessList.finish (ps.take (i + 1)))
    (fun i p response => response.toNat =
      ProcessList.finish (ps.take (i + 1)) - p.burst.toNat - p.arrival.toNat)
    (fun hr hm _ => hr.now_of_serves hstart hfits hshort hm)
    (fun hr hm _ => hr.wait_of_serves hstart hfits hshort hm) hp hjob
  have hrounds := hreaches.dispatches_eq hstart hp hjob hremaining
  rw [rounds_of_short ((kept_of_start hstart).burst_toNat_pos hp)
    (hshort p (List.mem_of_getElem? hp))] at hrounds
  exact ⟨timing, hentry, hpid, hdispatches.trans (UInt64.toNat_inj.1 hrounds),
    hcompletions _ hcompletion, hresponses _ hresponse⟩

/-- The predecessor of a process completes when all before that process are done. -/
theorem Concludes.completionBefore_eq {stream : Array Stamped} {timings : List Timing}
    (hends : s.Concludes stream t timings) {i : Nat} (hi : i ≤ ps.length) :
    completionBefore timings i = ProcessList.finish (ps.take i) := by
  cases i with
  | zero => rfl
  | succ i =>
    obtain ⟨previous, hentry, _, _, hcompletion, _⟩ :=
      hends.timing_of_short hstart hfits hshort (List.getElem?_eq_getElem hi)
    rw [completionBefore, hentry, ← hcompletion]
    rfl

end Runs

/-- The timing of a process that is served in the order of the list. -/
structure TimedInOrder (timings : List Timing) (i : Nat) (p : Process) (timing : Timing) :
    Prop where
  pid : timing.pid = p.pid
  dispatches : timing.dispatches = 1
  completion : timing.completion.toNat =
    max (completionBefore timings i) p.arrival.toNat + p.burst.toNat
  response : timing.response.toNat =
    timing.completion.toNat - p.burst.toNat - p.arrival.toNat

/-- With a quantum that no burst is longer than, and if the clock fits, a run serves the processes
in the order of the list, each with one slice. -/
theorem fifo_of_long_quantum {config : Config} (hstart : start ps config = .ok s)
    (hfits : ps.FitsClock) (hshort : ∀ p ∈ ps, p.burst ≤ config.quantum) :
    ∃ events fin timings, s.Concludes events fin timings ∧
      dispatches ps events.toList = List.range ps.length ∧
      (∀ e ∈ events.toList, ∀ pid remaining, e.event ≠ .preempted pid remaining) ∧
      fin.scheduler.preemptions = 0 ∧ (∀ report, s.run = .ok report → report.preemptions = 0) ∧
      ∀ i p, ps[i]? = some p → ∃ timing, timings[i]? = some timing ∧
        TimedInOrder timings i p timing := by
  obtain ⟨events, fin, timings, hends⟩ := exists_concludes hstart hfits
  obtain ⟨hreaches, horderly⟩ := hends.orderly hstart
  obtain ⟨done, hinOrder⟩ := hreaches.inOrder hstart hfits hshort
  obtain ⟨hall, hempty⟩ := horderly.sound.allCompleted_iff.1 hends.completed
  have hdone : done = ps.length := (hinOrder.admitted_eq hempty).symm.trans hall
  have hpreemptions : fin.scheduler.preemptions = 0 := UInt64.toNat_inj.1 hinOrder.preemptions
  refine ⟨events, fin, timings, hends, hdone ▸ hinOrder.dispatched, hinOrder.preempted,
    hpreemptions, ?_, ?_⟩
  · intro report hreport
    rw [hends.run_eq] at hreport
    exact (Report.totals_of_ofTimings hreport).preemptions_eq.trans hpreemptions
  · intro i p hp
    have hlt := (List.getElem?_eq_some_iff.1 hp).1
    obtain ⟨timing, hentry, hpid, hdispatches, hcompletion, hresponse⟩ :=
      hends.timing_of_short hstart hfits hshort hp
    refine ⟨timing, hentry, hpid, hdispatches, ?_, ?_⟩
    · rw [hcompletion, hends.completionBefore_eq hstart hfits hshort (Nat.le_of_lt hlt),
        ProcessList.finish_take_succ hp]
    · rw [hresponse, hcompletion]

theorem fifo_of_long_quantum_arrivalsAtSlices :
    ∃ s report, start arrivalsAtSlices { quantum := 5, checks := true } = .ok s ∧
      s.run = .ok report ∧ arrivalsAtSlices.FitsClock ∧ (∀ p ∈ arrivalsAtSlices, p.burst ≤ 5) ∧
      ∃ events fin timings, s.Concludes events fin timings ∧
        dispatches arrivalsAtSlices events.toList = List.range arrivalsAtSlices.length ∧
        (∀ e ∈ events.toList, ∀ pid remaining, e.event ≠ .preempted pid remaining) ∧
        fin.scheduler.preemptions = 0 ∧ (∀ report, s.run = .ok report → report.preemptions = 0) ∧
        ∀ i p, arrivalsAtSlices[i]? = some p → ∃ timing, timings[i]? = some timing ∧
          TimedInOrder timings i p timing := by
  obtain ⟨s, report, hstart, hreport⟩ : ∃ s report,
      start arrivalsAtSlices { quantum := 5, checks := true } = .ok s ∧ s.run = .ok report :=
    ⟨_, _, rfl, rfl⟩
  have hfits : arrivalsAtSlices.FitsClock := by decide
  have hshort : ∀ p ∈ arrivalsAtSlices, p.burst ≤ 5 := by decide
  exact ⟨s, report, hstart, hreport, hfits, hshort, fifo_of_long_quantum hstart hfits hshort⟩

end Simulation

end RoundRobin
