import Mathlib.Algebra.Order.BigOperators.Group.List
import Mathlib.Algebra.Order.Ring.Nat
import RoundRobin.Run
import RoundRobin.Proofs.Runs

/-!
# Exact time

If the clock can show the latest arrival and all work behind it, then it never stops: a slice lasts
on the clock for as long as it gives work, a process is in exactly if it arrived before now
(`Sound.lt_admitted_iff`), and a run ends with all jobs finished (`exists_completed`).
-/

namespace RoundRobin

namespace ProcessList

/-- The latest arrival. -/
def lastArrival (ps : ProcessList) : Nat :=
  ps.foldr (fun p latest => max p.arrival.toNat latest) 0

/-- The work of all processes together. -/
def totalBurst (ps : ProcessList) : Nat :=
  (ps.map (·.burst.toNat)).sum

/-- The clock can show the instant at which all work is done that starts at the latest arrival. -/
def FitsClock (ps : ProcessList) : Prop :=
  ps.lastArrival + ps.totalBurst < UInt64.size

instance (ps : ProcessList) : Decidable ps.FitsClock :=
  inferInstanceAs (Decidable (_ < _))

theorem arrival_le_lastArrival {ps : ProcessList} {p : Process} (h : p ∈ ps) :
    p.arrival.toNat ≤ ps.lastArrival := by
  induction ps with
  | nil => cases h
  | cons q rest ih =>
    rw [lastArrival, List.foldr_cons]
    rcases List.mem_cons.1 h with rfl | h
    · exact Nat.le_max_left _ _
    · exact Nat.le_trans (ih h) (Nat.le_max_right _ _)

theorem lastArrival_le {ps : ProcessList} {t : Nat} (h : ∀ p ∈ ps, p.arrival.toNat ≤ t) :
    ps.lastArrival ≤ t := by
  induction ps with
  | nil => exact Nat.zero_le t
  | cons p rest ih =>
    rw [List.forall_mem_cons] at h
    exact Nat.max_le.2 ⟨h.1, ih h.2⟩

theorem totalBurst_cons (p : Process) (rest : ProcessList) :
    totalBurst (p :: rest) = p.burst.toNat + totalBurst rest := rfl

theorem totalBurst_append (ps qs : ProcessList) :
    totalBurst (ps ++ qs) = ps.totalBurst + qs.totalBurst := by
  rw [totalBurst, List.map_append, List.sum_append_nat]
  rfl

end ProcessList

/-- The work that is left is a sum; it is defined as a fold because the program itself imports no
Mathlib. -/
theorem Machine.remainingWork_eq_sum (m : Machine) : m.remainingWork = m.remainders.sum := rfl

/-- Replacing one entry of a list changes the sum by the difference. -/
theorem sum_set_add {l : List Nat} {i old : Nat} (new : Nat) (h : l[i]? = some old) :
    (l.set i new).sum + old = l.sum + new :=
  Simulation.foldr_add_set new h

namespace Simulation

variable {ps : ProcessList} {s s' : Simulation} {turn : Turn}

theorem remaining_le_remainingWork {i : Nat} {job : Job} (hjob : s.job? i = some job) :
    job.remaining.toNat ≤ s.machine.remainingWork :=
  List.le_sum_of_mem
    (List.mem_of_getElem? (Machine.remainders_of_job (Machine.job_eq_ok_iff.2 hjob)))

namespace Turn

theorem toNat_run (turn : Turn) (quantum : Ticks) :
    (turn.run quantum).toNat = min quantum.toNat turn.job.remaining.toNat :=
  Job.toNat_share turn.job quantum

theorem toNat_remaining_served (turn : Turn) (start quantum : Ticks) :
    (turn.job.served start quantum).remaining.toNat =
      turn.job.remaining.toNat - (turn.run quantum).toNat := by
  rw [Job.toNat_remaining_served, toNat_run]
  omega

end Turn

/-- A turn takes its length off the work of its job, and off no other. -/
theorem Serves.remainders (h : Serves ps s turn s') :
    s'.machine.remainders = s.machine.remainders.set turn.position
      (turn.job.remaining.toNat - (turn.run s.quantum).toNat) := by
  have hset := h.map_jobs (f := fun job => job.remaining.toNat) (by
    intro k old job hk hold hjob
    rcases h.job_cases hjob with ⟨hposition, _⟩ | ⟨_, old', hold', hunserved⟩
    · exact absurd hposition hk
    · rw [hold, Option.some.injEq] at hold'
      rw [hunserved.remaining, hold'])
  rw [Job.remaining_leave, turn.toNat_remaining_served] at hset
  exact hset

/-- The work that is left after a turn. -/
theorem Serves.remainingWork_add (h : Serves ps s turn s') :
    s'.machine.remainingWork + (turn.run s.quantum).toNat = s.machine.remainingWork := by
  have hwork : s.machine.remainders[turn.position]? = some turn.job.remaining.toNat :=
    Machine.remainders_of_job (Machine.job_eq_ok_iff.2 h.job)
  have hsum := sum_set_add (turn.job.remaining.toNat - (turn.run s.quantum).toNat) hwork
  have hrun := turn.toNat_run s.quantum
  rw [← h.remainders] at hsum
  simp only [Machine.remainingWork_eq_sum]
  omega

theorem Skips.remainders {p : Process} (h : Skips ps s p s') :
    s'.machine.remainders = s.machine.remainders := by
  rw [h.machine]
  rfl

/-- There is time for the work that is left: it is no more than that of all processes, and it is
done, at the latest, when all work is done that starts at the latest arrival. -/
structure InTime (ps : ProcessList) (s : Simulation) : Prop where
  work_le : s.machine.remainingWork ≤ ps.totalBurst
  now_le : s.now.toNat + s.machine.remainingWork ≤ ps.lastArrival + ps.totalBurst

/-- In time, the clock moves by the length of a slice. -/
theorem Serves.now_exact (h : Serves ps s turn s') (hfits : ps.FitsClock) (ht : s.InTime ps) :
    s'.now.toNat = s.now.toNat + (turn.run s.quantum).toNat := by
  have hnow := h.toNat_now
  have hwork := h.remainingWork_add
  have hle := ht.now_le
  unfold ProcessList.FitsClock at hfits
  omega

/-- A move leaves time for the rest of the work. -/
theorem InTime.moves (ht : s.InTime ps) (hfits : ps.FitsClock) {events : List Stamped}
    (hm : Moves ps s events s') : s'.InTime ps := by
  have hle := ht.work_le
  have hnow_le := ht.now_le
  cases hm with
  | serves turn h =>
    have hnow := h.now_exact hfits ht
    have hwork := h.remainingWork_add
    exact ⟨by omega, by omega⟩
  | skips p h =>
    have hwork : s'.machine.remainingWork = s.machine.remainingWork :=
      congrArg List.sum h.remainders
    have hnow : s'.now = p.arrival := congrArg (·.now) h.machine
    have harrival := ProcessList.arrival_le_lastArrival (List.mem_of_getElem? h.next)
    refine ⟨by omega, ?_⟩
    rw [hnow]
    omega

theorem InTime.reaches (ht : s.InTime ps) (hfits : ps.FitsClock) {events : List Stamped}
    (hr : Reaches ps s events s') : s'.InTime ps := by
  induction hr with
  | refl => exact ht
  | snoc _ hm ih => exact ih.moves hfits hm

theorem totalBurst_pos (hk : Contract.Kept ps) : 0 < ps.totalBurst := by
  cases ps with
  | nil => exact absurd rfl hk.ne_nil
  | cons p rest =>
    have hburst := hk.burst_toNat_pos (i := 0) (p := p) rfl
    rw [ProcessList.totalBurst_cons]
    omega

/-- If the clock fits, a process is in exactly if it arrived before now. -/
theorem Sound.lt_admitted_iff (h : s.Sound ps) (hk : Contract.Kept ps) (hfits : ps.FitsClock)
    {i : Nat} {p : Process} (hp : ps[i]? = some p) :
    i < s.admitted ↔ p.arrival.toNat < s.now.toNat := by
  rw [← UInt64.lt_iff_toNat_lt]
  by_cases hfinite : s.now < Word.top
  · exact h.admitted_iff hfinite i p hp
  · -- no process arrives at the last instant that the clock can show
    rw [UInt64.lt_iff_toNat_lt] at hfinite ⊢
    have htop := Word.toNat_top
    have hpos := totalBurst_pos hk
    have harrival := ProcessList.arrival_le_lastArrival (List.mem_of_getElem? hp)
    unfold ProcessList.FitsClock at hfits
    constructor
    · intro _
      omega
    · intro hlt
      apply Nat.lt_of_not_le
      intro hle
      have := UInt64.le_iff_toNat_le.1 (h.ahead i p hp hle)
      omega

/-- The clock moves with every move. -/
theorem Moves.now_lt (hk : Contract.Kept ps) (h : s.Sound ps) (hfits : ps.FitsClock)
    (ht : s.InTime ps) {events : List Stamped} (hm : Moves ps s events s') :
    s.now.toNat < s'.now.toNat := by
  cases hm with
  | serves turn hm =>
    have hrun := turn.run_pos s (h.eligible hk hm hm.process).work
    have hnow := hm.now_exact hfits ht
    omega
  | skips p hm =>
    have hnow : s'.now = p.arrival := congrArg (·.now) hm.machine
    rw [hnow, ← UInt64.lt_iff_toNat_lt]
    exact hm.later

/-- In an unfinished simulation, some job has work left. -/
theorem Sound.exists_work (h : s.Sound ps) (hk : Contract.Kept ps)
    (hopen : s.allCompleted = false) : ∃ i job, s.job? i = some job ∧ 0 < job.remaining.toNat := by
  cases hline : s.queue with
  | cons i rest =>
    obtain ⟨_, job, _, hjob, _, _, hwork, _⟩ := h.ready_of_mem (k := i) (by simp [hline])
    exact ⟨i, job, hjob, hwork⟩
  | nil =>
    obtain ⟨p, hp⟩ := h.next_of_open hopen hline
    exact ⟨_, _, (h.job_of_ahead hp (Nat.le_refl _)).1, hk.burst_toNat_pos hp⟩

theorem Sound.remainingWork_pos (h : s.Sound ps) (hk : Contract.Kept ps)
    (hopen : s.allCompleted = false) : 0 < s.machine.remainingWork := by
  obtain ⟨i, job, hjob, hwork⟩ := h.exists_work hk hopen
  have := remaining_le_remainingWork hjob
  omega

/-- With an empty queue, all work is done of the processes that have been let in. -/
theorem Sound.remainders_of_empty (h : s.Sound ps) (hempty : s.queue = []) :
    s.machine.remainders.take s.admitted = List.replicate s.admitted 0 := by
  have hlen := h.admitted_le
  have hsize : s.machine.remainders.length = ps.length := by
    rw [Machine.remainders, List.length_map]
    exact h.size
  rw [List.eq_replicate_iff, List.length_take]
  refine ⟨by omega, fun work hmem => ?_⟩
  obtain ⟨i, hi⟩ := List.getElem?_of_mem hmem
  rw [List.getElem?_take] at hi
  split at hi
  · next hlt =>
    have hp : ps[i]? = some ps[i] := List.getElem?_eq_getElem (by omega)
    obtain ⟨job, _, hjob, _, _, hzero, _⟩ :=
      h.finished_of_not_mem hp hlt (by rw [hempty]; exact List.not_mem_nil)
    rw [Machine.remainders_of_job (Machine.job_eq_ok_iff.2 hjob), Option.some.injEq, hzero] at hi
    exact hi.symm
  · cases hi

/-- Once all jobs have finished, none of them has work left. -/
theorem Sound.remainders_of_completed (h : s.Sound ps) (hdone : s.allCompleted = true) :
    s.machine.remainders = List.replicate ps.length 0 := by
  obtain ⟨hall, hempty⟩ := h.allCompleted_iff.1 hdone
  have hsize : s.machine.remainders.length = ps.length := by
    rw [Machine.remainders, List.length_map]
    exact h.size
  have hzero := h.remainders_of_empty hempty
  rwa [hall, List.take_of_length_le (Nat.le_of_eq hsize)] at hzero

theorem Sound.remainingWork_of_completed (h : s.Sound ps) (hdone : s.allCompleted = true) :
    s.machine.remainingWork = 0 := by
  rw [Machine.remainingWork_eq_sum, h.remainders_of_completed hdone, List.sum_replicate_nat,
    Nat.mul_zero]

/-- A run comes to the same end from any state on its way. -/
theorem complete_of_steps {n : Nat} {events : Array Stamped} (h : s.steps n = .ok (events, s')) :
    s.complete = s'.complete := by
  induction n generalizing events s' with
  | zero =>
    cases h
    rfl
  | succ n ih =>
    obtain ⟨before, t, new, hrun, hstep, _⟩ := steps_succ_eq_ok_iff.1 h
    rw [ih hrun, complete_eq t]
    split
    · next hdone =>
      rw [step_of_completed hdone] at hstep
      cases hstep
      rw [complete_eq, if_pos hdone]
    · rw [hstep, Fault.ok_bind]

/-- A run whose jobs have all finished stands still. -/
theorem steps_add_of_completed {n : Nat} {events : Array Stamped} (h : s.steps n = .ok (events, s'))
    (hdone : s'.allCompleted = true) (k : Nat) : s.steps (n + k) = .ok (events, s') := by
  induction k with
  | zero => exact h
  | succ k ih =>
    exact steps_succ_eq_ok_iff.2 ⟨events, s', #[], ih, step_of_completed hdone,
      Array.append_empty.symm⟩

/-- Two runs that have come to their ends can be taken to be of the same length. -/
theorem exists_steps_of_completed {u t : Simulation} {m n : Nat} {events events' : Array Stamped}
    (h : s.steps m = .ok (events, s')) (hdone : s'.allCompleted = true)
    (h' : u.steps n = .ok (events', t)) (hdone' : t.allCompleted = true) :
    ∃ k, s.steps k = .ok (events, s') ∧ u.steps k = .ok (events', t) := by
  refine ⟨m + n, steps_add_of_completed h hdone n, ?_⟩
  rw [Nat.add_comm]
  exact steps_add_of_completed h' hdone' m

/-- From a state on its way, a run comes to the same end. -/
theorem exists_steps_to_end {t : Simulation} {m n : Nat} {before events : Array Stamped}
    (hbefore : s.steps m = .ok (before, t)) (h : s.steps n = .ok (events, s'))
    (hdone : s'.allCompleted = true) : ∃ after, t.steps n = .ok (after, s') := by
  have hlong := steps_add_of_completed h hdone m
  rw [Nat.add_comm] at hlong
  obtain ⟨after, hafter, _⟩ := exists_steps_of_add hbefore hlong
  exact ⟨after, hafter⟩

/-- What a run comes to is what some number of steps come to. -/
theorem exists_steps_of_completeWithin {limit : Nat} (h : s.completeWithin limit = .ok s') :
    ∃ n events, s.steps n = .ok (events, s') := by
  induction limit generalizing s with
  | zero =>
    cases h
    exact ⟨0, #[], rfl⟩
  | succ limit ih =>
    unfold completeWithin at h
    split at h
    · cases h
      exact ⟨0, #[], rfl⟩
    · rw [Fault.bind_eq_ok_iff] at h
      obtain ⟨⟨new, t⟩, hstep, hrest⟩ := h
      obtain ⟨n, after, hsteps⟩ := ih hrest
      exact ⟨n + 1, new ++ after,
        steps_first_eq_ok_iff.2 ⟨new, t, after, hstep, hsteps, rfl⟩⟩

section Completion

variable (Keeps : Simulation → Prop)

/-- A run goes on until all jobs have finished if there is something that every move keeps and that
leaves room in the step counter. -/
theorem Orderly.run_keeps (h : s.Orderly ps) (hk : Contract.Kept ps) (hs : Keeps s)
    (hroom : ∀ t, t.Orderly ps → Keeps t → t.allCompleted = false →
      t.scheduler.monitor.steps.toNat + 1 < UInt64.size)
    (hmove : ∀ t new u, t.Orderly ps → Keeps t → Moves ps t new u →
      u.scheduler.monitor.steps.toNat ≤ t.scheduler.monitor.steps.toNat + 1 → Keeps u) (n : Nat) :
    ∃ events t, s.steps n = .ok (events, t) ∧ t.Orderly ps ∧ Keeps t ∧
      (t.allCompleted = true ∨ t.work + n ≤ s.work) := by
  induction n with
  | zero => exact ⟨#[], s, rfl, h, hs, .inr (Nat.le_refl _)⟩
  | succ n ih =>
    obtain ⟨before, t, hrun, horderly, hkeeps, hend⟩ := ih
    cases hdone : t.allCompleted with
    | true =>
      have hstep := step_of_completed hdone
      exact ⟨before ++ #[], t, steps_succ_eq_ok_iff.2 ⟨before, t, #[], hrun, hstep, rfl⟩,
        horderly, hkeeps, .inl hdone⟩
    | false =>
      rcases horderly.step_ok hk hdone (hroom t horderly hkeeps hdone) with
        ⟨new, u, hstep, hmoves, horderly', hobserved⟩
      have hless := work_lt_of_step hdone hstep
      rw [hdone] at hend
      rcases hend with hend | hend
      · cases hend
      · exact ⟨before ++ new, u, steps_succ_eq_ok_iff.2 ⟨before, t, new, hrun, hstep, rfl⟩,
          horderly', hmove t _ u horderly hkeeps hmoves hobserved.steps_le, .inr (by omega)⟩

/-- Such a run ends with all jobs finished, after a chain of moves. -/
theorem Orderly.exists_completed (h : s.Orderly ps) (hk : Contract.Kept ps) (hs : Keeps s)
    (hroom : ∀ t, t.Orderly ps → Keeps t → t.allCompleted = false →
      t.scheduler.monitor.steps.toNat + 1 < UInt64.size)
    (hmove : ∀ t new u, t.Orderly ps → Keeps t → Moves ps t new u →
      u.scheduler.monitor.steps.toNat ≤ t.scheduler.monitor.steps.toNat + 1 → Keeps u) :
    ∃ n events fin, s.steps n = .ok (events, fin) ∧ fin.allCompleted = true ∧
      s.complete = .ok fin ∧ Reaches ps s events.toList fin := by
  rcases h.run_keeps Keeps hk hs hroom hmove (s.work + 1) with ⟨events, fin, hrun, _, _, hend⟩
  have hdone : fin.allCompleted = true := hend.resolve_right (by omega)
  refine ⟨_, events, fin, hrun, hdone, ?_, (h.run hk hrun).1⟩
  rw [complete_of_steps hrun, complete_eq, if_pos hdone]

end Completion

/-- At the start, all work is left. -/
theorem remainingWork_start {config : Config} (h : start ps config = .ok s) :
    s.machine.remainingWork = ps.totalBurst := by
  obtain ⟨_, _, rfl⟩ := start_eq_ok_iff.1 h
  simp only [machine, Scheduler.start, Machine.remainingWork, Machine.remainders,
    Machine.ofProcesses, ProcessList.totalBurst, List.map_map]
  rfl

theorem now_of_start {config : Config} (h : start ps config = .ok s) : s.now.toNat = 0 := by
  obtain ⟨_, _, rfl⟩ := start_eq_ok_iff.1 h
  rfl

theorem inTime_start {config : Config} (h : start ps config = .ok s) : s.InTime ps := by
  have hwork := remainingWork_start h
  have hnow := now_of_start h
  exact ⟨by omega, by omega⟩

theorem Reaches.inTime {config : Config} (hstart : start ps config = .ok s)
    (hfits : ps.FitsClock) {events : List Stamped} (hr : Reaches ps s events s') : s'.InTime ps :=
  (inTime_start hstart).reaches hfits hr

/-- There is time for the work that is left, and no more steps were counted than instants have
passed. -/
structure Timely (ps : ProcessList) (s : Simulation) : Prop where
  inTime : s.InTime ps
  steps_le : s.scheduler.monitor.steps.toNat ≤ s.now.toNat

theorem Timely.room (h : s.Timely ps) (hk : Contract.Kept ps) (hfits : ps.FitsClock)
    (hsound : s.Sound ps) (hopen : s.allCompleted = false) :
    s.scheduler.monitor.steps.toNat + 1 < UInt64.size := by
  have hwork := hsound.remainingWork_pos hk hopen
  have hnow := h.inTime.now_le
  have hsteps := h.steps_le
  unfold ProcessList.FitsClock at hfits
  omega

theorem Timely.moves (h : s.Timely ps) (hk : Contract.Kept ps) (hfits : ps.FitsClock)
    (hsound : s.Sound ps) {events : List Stamped} (hm : Moves ps s events s')
    (hcount : s'.scheduler.monitor.steps.toNat ≤ s.scheduler.monitor.steps.toNat + 1) :
    s'.Timely ps := by
  have hlater := hm.now_lt hk hsound hfits h.inTime
  have hsteps := h.steps_le
  exact ⟨h.inTime.moves hfits hm, by omega⟩

theorem timely_start {config : Config} (h : start ps config = .ok s) : s.Timely ps := by
  refine ⟨inTime_start h, ?_⟩
  obtain ⟨_, _, rfl⟩ := start_eq_ok_iff.1 h
  exact Nat.le_refl _

/-- If the clock fits, no step meets a fault: no more steps are counted than instants pass. -/
theorem Orderly.steps_ok_of_timely (h : s.Orderly ps) (hk : Contract.Kept ps)
    (hfits : ps.FitsClock) (ht : s.Timely ps) (n : Nat) :
    ∃ events t, s.steps n = .ok (events, t) := by
  obtain ⟨events, t, hrun, _⟩ := h.run_keeps (Timely ps) hk ht
    (fun _ horderly htimely => htimely.room hk hfits horderly.sound)
    (fun _ _ _ horderly htimely => htimely.moves hk hfits horderly.sound) n
  exact ⟨events, t, hrun⟩

/-- If the clock fits, a run ends with all jobs finished, after a chain of moves. -/
theorem exists_completed {config : Config} (hstart : start ps config = .ok s)
    (hfits : ps.FitsClock) :
    ∃ n events fin, s.steps n = .ok (events, fin) ∧ fin.allCompleted = true ∧
      s.complete = .ok fin ∧ Reaches ps s events.toList fin := by
  have hk := kept_of_start hstart
  exact (orderly_start hstart).exists_completed (Timely ps) hk (timely_start hstart)
    (fun _ horderly htimely => htimely.room hk hfits horderly.sound)
    (fun _ _ _ horderly htimely => htimely.moves hk hfits horderly.sound)

/-- With a quantum of `2`, the second process arrives within the first slice, the third one at its
end, and the fourth one after a gap. -/
def arrivalsAtSlices : ProcessList :=
  [{ pid := ⟨1⟩, arrival := 0, burst := 5 }, { pid := ⟨2⟩, arrival := 1, burst := 3 },
    { pid := ⟨3⟩, arrival := 2, burst := 1 }, { pid := ⟨4⟩, arrival := 12, burst := 2 }]

theorem exists_report_arrivalsAtSlices :
    ∃ s report, start arrivalsAtSlices { quantum := 2, checks := true } = .ok s ∧
      s.run = .ok report :=
  ⟨_, _, rfl, rfl⟩

end Simulation

end RoundRobin
