import RoundRobin.Simulation.Work
import RoundRobin.Report

/-!
# Complete runs

A run steps a simulation until all jobs have finished, and reports. It ends from any state, because
every step lowers the work ahead.
-/

namespace RoundRobin.Simulation

/-- Steps until all jobs have finished, but takes no more steps than the limit allows. -/
def completeWithin (s : Simulation) : Nat → Except Fault Simulation
  | 0 => .ok s
  | limit + 1 =>
    if s.allCompleted then
      .ok s
    else do
      let (_, s) ← s.step
      s.completeWithin limit

/-- Steps until all jobs have finished. There are no more steps than work ahead, and one more step
finds out what is wrong when no work is ahead and some job has not finished. -/
def complete (s : Simulation) : Except Fault Simulation :=
  s.completeWithin (s.work + 1)

/-- Any limit above the work ahead gives the same outcome. -/
theorem completeWithin_congr {s : Simulation} {limit limit' : Nat} (h : s.work < limit)
    (h' : s.work < limit') : s.completeWithin limit = s.completeWithin limit' := by
  induction limit generalizing s limit' with
  | zero => omega
  | succ limit ih =>
    cases limit' with
    | zero => omega
    | succ limit' =>
      unfold completeWithin
      split
      · rfl
      · next hopen =>
        cases hstep : s.step with
        | error fault => rfl
        | ok result =>
          obtain ⟨events, next⟩ := result
          have hlt := work_lt_of_step (eq_false_of_ne_true hopen) hstep
          exact ih (by omega) (by omega)

/-- A run that is complete stays as it is, and any other one goes on after one step. -/
theorem complete_eq (s : Simulation) :
    s.complete =
      if s.allCompleted then .ok s else s.step >>= fun (_, next) => next.complete := by
  rw [complete, completeWithin]
  split
  · rfl
  · next hopen =>
    cases hstep : s.step with
    | error fault => rfl
    | ok result =>
      obtain ⟨events, next⟩ := result
      have hlt := work_lt_of_step (eq_false_of_ne_true hopen) hstep
      exact completeWithin_congr hlt (Nat.lt_succ_self _)

/-- A run that ends without a fault ends with all jobs finished. -/
theorem allCompleted_of_completeWithin {s s' : Simulation} {limit : Nat} (hlimit : s.work < limit)
    (h : s.completeWithin limit = .ok s') : s'.allCompleted = true := by
  induction limit generalizing s with
  | zero => omega
  | succ limit ih =>
    unfold completeWithin at h
    split at h
    · next hdone =>
      cases h
      exact hdone
    · next hopen =>
      rw [Fault.bind_eq_ok_iff] at h
      obtain ⟨⟨events, next⟩, hstep, h⟩ := h
      have hlt := work_lt_of_step (eq_false_of_ne_true hopen) hstep
      exact ih (by omega) h

theorem allCompleted_of_complete {s s' : Simulation} (h : s.complete = .ok s') :
    s'.allCompleted = true :=
  allCompleted_of_completeWithin (Nat.lt_succ_self _) h

/-- The report on the jobs as they stand. -/
def report (s : Simulation) : Except Fault Report :=
  Report.ofJobs s.scheduler.machine.jobs.toList s.scheduler.preemptions

/-- Runs to the end and reports. -/
def run (s : Simulation) : Except Fault Report := do
  let s ← s.complete
  s.report

end RoundRobin.Simulation
