import RoundRobin.Proofs.Audit
import RoundRobin.Proofs.Monitor
import RoundRobin.Proofs.Progress

/-!
# Reachable states

`Orderly` is what a run keeps from step to step: a sound state, nothing pending, and counters that
do not outrun the number of steps. From an orderly state with work left a step goes through as long
as the step counter has room, it is a move, and it leaves an orderly state (`Orderly.step_ok`). A
run is therefore a chain of moves (`Reaches`).
-/

namespace RoundRobin

namespace Simulation

variable {ps : ProcessList} {s s' : Simulation}

/-- An unfinished simulation has a job in line or a process to let in. -/
theorem Sound.next_of_open (h : s.Sound ps) (hopen : s.allCompleted = false)
    (hempty : s.queue = []) :
    ∃ p, ps[s.admitted]? = some p := by
  have hne : s.admitted ≠ ps.length := by
    intro hall
    rw [h.allCompleted_iff.2 ⟨hall, hempty⟩] at hopen
    exact absurd hopen (by decide)
  have hle := h.admitted_le
  exact ⟨_, List.getElem?_eq_getElem (by omega)⟩

/-- The simulation once its step is observed and the pending events are handed out. -/
def closed (s : Simulation) : Simulation :=
  { s with
    scheduler := { s.scheduler with
      monitor := { s.scheduler.monitor with steps := s.scheduler.monitor.steps + 1 }
      pending := #[]
      touched := none } }

/-- A move is a matter of the machine, the processes, the admissions and the preemptions. -/
theorem Moves.closed {events : List Stamped} (h : Moves ps s events s') :
    Moves ps s events s'.closed := by
  cases h with
  | serves turn h =>
    have hclosed : Serves ps s turn s'.closed := { h with frame := { h.frame with } }
    exact .serves turn hclosed
  | skips p h => exact .skips p { h with frame := { h.frame with } }

/-- A sound state after all moves stays sound once the step is closed. -/
theorem Sound.closed (h : s.Sound ps) : s.closed.Sound ps where
  processes := h.processes
  free := h.free
  size := h.size
  admitted_le := h.admitted_le
  consistent := h.consistent
  queue_lt := h.queue_lt
  standing := h.standing
  finished := h.finished
  arrived := h.arrived
  ahead := h.ahead
  admitted_iff := by
    rw [show s.closed.now = s.now from rfl]
    exact h.admitted_iff

/-- A step hands out the pending events once the monitor has seen what the step comes to. -/
theorem step_of_observe {monitor : Monitor} (hopen : s.allCompleted = false)
    (hproceed : s.proceed = .ok s')
    (hobserve : s'.scheduler.monitor.observe s'.machine s'.scheduler.touched = .ok monitor) :
    s.step = .ok (s'.scheduler.pending,
      { s' with scheduler := { s'.scheduler with monitor, pending := #[], touched := none } }) := by
  rw [step, hopen, if_neg Bool.false_ne_true, hproceed, Fault.ok_bind, Scheduler.observe, hobserve]
  rfl

theorem step_of_completed (h : s.allCompleted = true) : s.step = .ok (#[], s) := by
  rw [step, if_pos h]

/-- What a run keeps from step to step. -/
structure Orderly (ps : ProcessList) (s : Simulation) : Prop where
  sound : s.Sound ps
  pending : s.scheduler.pending = #[]
  touched : s.scheduler.touched = none
  dispatches_le : ∀ i job, s.job? i = some job →
    job.dispatches.toNat ≤ s.scheduler.monitor.steps.toNat
  turns_le : s.machine.finished.toNat + s.scheduler.preemptions.toNat ≤
    s.scheduler.monitor.steps.toNat

/-- As long as the step counter has room, so have all counters that a step may raise. -/
theorem Orderly.room (h : s.Orderly ps)
    (hroom : s.scheduler.monitor.steps.toNat + 1 < UInt64.size) : s.Room where
  dispatches i job hjob := by
    have := h.dispatches_le i job hjob
    omega
  finished := by
    have := h.turns_le
    omega
  preemptions := by
    have := h.turns_le
    omega

/-- No job has been dispatched more often by a move than once. -/
theorem Moves.dispatches_le {events : List Stamped} (h : Moves ps s events s') {n : Nat}
    (hle : ∀ i job, s.job? i = some job → job.dispatches.toNat ≤ n) (i : Nat) (job : Job)
    (hjob : s'.job? i = some job) : job.dispatches.toNat ≤ n + 1 := by
  cases h with
  | skips p h =>
    have := hle i job (h.job_eq i ▸ hjob)
    omega
  | serves turn h =>
    rcases h.job_cases hjob with ⟨_, rfl⟩ | ⟨_, old, hold, hunserved⟩
    · have hcount : (turn.job.dispatches + 1).toNat = turn.job.dispatches.toNat + 1 :=
        Word.toNat_add_of_lt h.dispatches_lt
      have := hle turn.position turn.job h.job
      rw [Job.dispatches_leave]
      change (turn.job.dispatches + 1).toNat ≤ _
      omega
    · have := hle i old hold
      rw [hunserved.dispatches]
      omega

/-- A response that stands after a move stood before it, or it is that of a first turn. -/
theorem Moves.response_cases {events : List Stamped} (h : Moves ps s events s') {i : Nat}
    {job : Job} {response : Ticks} (hjob : s'.job? i = some job)
    (hresponse : job.response = some response) :
    (∃ old, s.job? i = some old ∧ old.response = some response) ∨
      ∃ turn, Serves ps s turn s' ∧ i = turn.position ∧ turn.job.response = none ∧
        response = s.now - turn.job.arrival ∧ job.dispatches = turn.job.dispatches + 1 := by
  cases h with
  | skips p h => exact .inl ⟨job, h.job_eq i ▸ hjob, hresponse⟩
  | serves turn h =>
    rcases h.job_cases hjob with ⟨hposition, rfl⟩ | ⟨_, old, hold, hunserved⟩
    · rw [Job.response_leave] at hresponse
      have hserved : turn.job.responseFrom s.now = response := Option.some.inj hresponse
      rw [Job.responseFrom] at hserved
      cases hfirst : turn.job.response with
      | some old =>
        rw [hfirst, Option.getD_some] at hserved
        exact .inl ⟨turn.job, hposition ▸ h.job, by rw [hfirst, hserved]⟩
      | none =>
        rw [hfirst, Option.getD_none] at hserved
        exact .inr ⟨turn, h, hposition, hfirst, hserved.symm, Job.dispatches_leave _ _⟩
    · exact .inl ⟨old, hold, hunserved.response ▸ hresponse⟩

/-- A job that is completed after a move had its last turn then, or it was completed before and is
as it was. -/
theorem Moves.last_turn_of_completion {events : List Stamped} (h : Moves ps s events s')
    (hk : Contract.Kept ps) (hsound : s.Sound ps) {i : Nat} {p : Process} {job : Job}
    {completion : Ticks} (hp : ps[i]? = some p) (hjob : s'.job? i = some job)
    (hcompletion : job.completion = some completion) :
    s.job? i = some job ∨
      ∃ turn, Serves ps s turn s' ∧ i = turn.position ∧ turn.Ends s.quantum ∧
        completion = s'.now := by
  cases h with
  | skips next h => exact .inl (h.job_eq i ▸ hjob)
  | serves turn h =>
    cases hsound.fate hk h hp hjob with
    | served hposition hready =>
      rw [Job.completion_leave] at hcompletion
      split at hcompletion
      · next hzero =>
        exact .inr ⟨turn, h, hposition, h.served_eq_zero_iff.1 hzero,
          (Option.some.inj hcompletion).symm⟩
      · rw [show (turn.job.served s.now s.quantum).completion = none from hready.completion]
          at hcompletion
        cases hcompletion
    | @waited old _ _ hready =>
      rw [show (old.enter.wait (turn.run s.quantum)).completion = none from hready.completion]
        at hcompletion
      cases hcompletion
    | entered => cases hcompletion
    | completed _ _ hold _ => exact .inl hold
    | ahead => cases hcompletion

/-- A job that is completed after a move completes right then, or it was completed before and is as
it was. -/
theorem Moves.completion_cases {events : List Stamped} (h : Moves ps s events s')
    (hk : Contract.Kept ps) (hsound : s.Sound ps) {i : Nat} {p : Process} {job : Job}
    {completion : Ticks} (hp : ps[i]? = some p) (hjob : s'.job? i = some job)
    (hcompletion : job.completion = some completion) :
    s.job? i = some job ∨ completion = s'.now :=
  (h.last_turn_of_completion hk hsound hp hjob hcompletion).imp_right
    fun ⟨_, _, _, _, hnow⟩ => hnow

/-- A completed job stays as it is. -/
theorem Moves.job_of_completed {events : List Stamped} (h : Moves ps s events s')
    (hk : Contract.Kept ps) (hsound : s.Sound ps) {i : Nat} {p : Process} {job : Job}
    {completion : Ticks} (hp : ps[i]? = some p) (hjob : s.job? i = some job)
    (hcompletion : job.completion = some completion) : s'.job? i = some job := by
  cases h with
  | skips next h => rw [h.job_eq i, hjob]
  | serves turn h =>
    obtain ⟨job', hjob', _⟩ := (hsound.serves hk h).standing i p hp
    rw [hjob']
    have hopen : ∀ old : Job, s.job? i = some old → old.completion = none →
        some job' = some job := by
      intro old hold hnone
      rw [hjob, Option.some.injEq] at hold
      rw [← hold, hcompletion] at hnone
      cases hnone
    cases hsound.fate hk h hp hjob' with
    | served hposition hready => exact hopen _ (hposition ▸ h.job) hready.completion
    | waited _ hold hready => exact hopen _ hold hready.completion
    | entered _ _ _ hold => exact hopen _ hold rfl
    | completed _ _ hold _ => rw [← hold, hjob]
    | ahead _ _ hold => exact hopen _ hold rfl

/-- A move ends at most one turn. -/
theorem Moves.turns_le {events : List Stamped} (h : Moves ps s events s') :
    s'.machine.finished.toNat + s'.scheduler.preemptions.toNat ≤
      s.machine.finished.toNat + s.scheduler.preemptions.toNat + 1 := by
  cases h with
  | skips p h =>
    have hfinished : s'.machine.finished = s.machine.finished := congrArg (·.finished) h.machine
    rw [h.preemptions, hfinished]
    omega
  | serves turn h =>
    rw [h.finished, h.preemptions]
    split <;> omega

/-- A move keeps the state between steps sound. -/
theorem Sound.moves (h : s.Sound ps) (hk : Contract.Kept ps) {events : List Stamped}
    (hm : Moves ps s events s') : s'.Sound ps := by
  cases hm with
  | serves turn hm => exact h.serves hk hm
  | skips p hm => exact h.skips hk hm

/-- What a step comes to before it is observed, with `mid` behind the pass over the arrivals: either
the job at the front of the queue has its turn and is named to the monitor, or no job is queued and
none is named that was not named before. -/
inductive Proceeds (ps : ProcessList) (s mid : Simulation) : List Stamped → Simulation → Prop where
  | serves {s' : Simulation} (turn : Turn) : mid.queue = turn.position :: turn.rest →
      s'.scheduler.touched = some turn.position → Serves ps s turn s' →
      Proceeds ps s mid (turn.events ps s s') s'
  | skips {s' : Simulation} (p : Process) : mid.queue = [] →
      s'.scheduler.touched = s.scheduler.touched → Skips ps s p s' →
      Proceeds ps s mid [{ time := s.now, event := .idle p.arrival }] s'

theorem Proceeds.moves {mid : Simulation} {events : List Stamped}
    (h : Proceeds ps s mid events s') : Moves ps s events s' := by
  cases h with
  | serves turn _ _ h => exact .serves turn h
  | skips p _ _ h => exact .skips p h

/-- If no job was named before the step, the one that is named is a job of the list. -/
theorem Proceeds.touched_lt {mid : Simulation} {events : List Stamped}
    (h : Proceeds ps s mid events s') (hnone : s.scheduler.touched = none) {i : Nat}
    (htouched : s'.scheduler.touched = some i) : i < ps.length := by
  cases h with
  | serves turn _ hnamed h =>
    rw [hnamed, Option.some.injEq] at htouched
    exact htouched ▸ (List.getElem?_eq_some_iff.1 h.process).1
  | skips p _ hnamed h =>
    rw [hnamed, hnone] at htouched
    cases htouched

/-- With work left, admissions and a slice or a skip go through. -/
theorem Sound.proceeds (h : s.Sound ps) (hk : Contract.Kept ps) (hroom : s.Room)
    (hopen : s.allCompleted = false) :
    ∃ mid events s', s.admitWhile (· ≤ s.now) = .ok mid ∧ s.proceed = .ok s' ∧
      Proceeds ps s mid events s' ∧ s.scheduler.Emitted s'.scheduler events := by
  obtain ⟨early, mid, hmid, hearly, hpassed⟩ := h.early hk
  cases hline : mid.queue with
  | cons i rest =>
    have ho : Opened ps s early mid i rest := ⟨hearly, hpassed, hline⟩
    rcases h.proceed_stages hk hroom hmid ho with ⟨turn, scheduler, last, ended, hstages, hproceed⟩
    exact ⟨mid, _, _, hmid, hproceed, .serves turn hstages.line hstages.touched hstages.serves,
      hstages.emitted⟩
  | nil =>
    have hempty : s.queue = [] := by
      have hqueue := hpassed.queue
      rw [hline, eq_comm, List.append_eq_nil_iff] at hqueue
      exact hqueue.1
    obtain ⟨p, hp⟩ := h.next_of_open hopen hempty
    rcases h.proceed_skips hmid hearly hpassed hline hp with
      ⟨s', hproceed, hskips, hemitted, htouched⟩
    exact ⟨mid, _, _, hmid, hproceed, .skips p hline htouched hskips, hemitted⟩

/-- The monitor has been told of some events and has counted one more step. -/
def Observed (s s' : Simulation) (events : List Stamped) : Prop :=
  s'.scheduler.monitor =
    { events.foldl Monitor.emit s.scheduler.monitor with
      steps := s.scheduler.monitor.steps + 1 }

theorem Observed.steps_eq {events : List Stamped} (h : Observed s s' events) :
    s'.scheduler.monitor.steps = s.scheduler.monitor.steps + 1 :=
  congrArg Monitor.steps h

theorem Observed.steps_le {events : List Stamped} (h : Observed s s' events) :
    s'.scheduler.monitor.steps.toNat ≤ s.scheduler.monitor.steps.toNat + 1 := by
  rw [h.steps_eq, UInt64.toNat_add]
  exact Nat.mod_le _ _

/-- The state that a step of an orderly simulation leaves to the monitor is sound, so it passes the
audit. -/
theorem Orderly.audited (h : s.Orderly ps) (hk : Contract.Kept ps) {mid left : Simulation}
    {events : List Stamped} (hm : Proceeds ps s mid events left) :
    left.Sound ps ∧ left.machine.audit left.scheduler.touched = .ok () := by
  have hsound := h.sound.moves hk hm.moves
  exact ⟨hsound, hsound.audit fun i hi => hm.touched_lt h.touched hi⟩

/-- A step of an orderly simulation with work left is a move. The monitor is told of the events that
the step hands out. -/
theorem Orderly.step_ok (h : s.Orderly ps) (hk : Contract.Kept ps) (hopen : s.allCompleted = false)
    (hroom : s.scheduler.monitor.steps.toNat + 1 < UInt64.size) :
    ∃ events s', s.step = .ok (events, s') ∧ Moves ps s events.toList s' ∧ s'.Orderly ps ∧
      Observed s s' events.toList := by
  rcases h.sound.proceeds hk (h.room hroom) hopen with
    ⟨mid, events, left, _, hproceed, hproceeds, hemitted⟩
  obtain ⟨hsound, haudit⟩ := h.audited hk hproceeds
  have hsteps := steps_of_proceed hproceed
  have hpending : left.scheduler.pending.toList = events := by
    rw [hemitted.pending, h.pending]
    rfl
  have hcount : (left.scheduler.monitor.steps + 1).toNat =
      s.scheduler.monitor.steps.toNat + 1 := by
    rw [hsteps]
    exact Word.toNat_add_of_lt hroom
  have hobserve := Monitor.observe_eq_ok haudit (by rw [hsteps]; exact hroom)
  have hclosed := hproceeds.moves.closed
  refine ⟨_, left.closed, step_of_observe hopen hproceed hobserve, ?_, ?_, ?_⟩
  · rw [hpending]
    exact hclosed
  · exact {
      sound := hsound.closed
      pending := rfl
      touched := rfl
      dispatches_le := by
        intro i job hjob
        have := hclosed.dispatches_le h.dispatches_le i job hjob
        change _ ≤ (left.scheduler.monitor.steps + 1).toNat
        omega
      turns_le := by
        have hbefore := h.turns_le
        have hafter := hclosed.turns_le
        change _ ≤ (left.scheduler.monitor.steps + 1).toNat
        omega }
  · change { left.scheduler.monitor with steps := left.scheduler.monitor.steps + 1 } = _
    rw [hpending, hsteps, hemitted.monitor]

/-- The step counter has room for a step that goes through. -/
theorem steps_lt_of_step {events : Array Stamped} (hopen : s.allCompleted = false)
    (hstep : s.step = .ok (events, s')) :
    s.scheduler.monitor.steps.toNat + 1 < UInt64.size := by
  rw [step, hopen, if_neg Bool.false_ne_true] at hstep
  simp only [Fault.bind_eq_ok_iff] at hstep
  obtain ⟨left, hproceed, scheduler, hobserve, _⟩ := hstep
  rw [← steps_of_proceed hproceed]
  exact Scheduler.steps_lt_of_observe hobserve

/-- A step of an orderly simulation with work left that goes through is a move, which the step
counter had room for. -/
theorem Orderly.moves_of_step (h : s.Orderly ps) (hk : Contract.Kept ps)
    (hopen : s.allCompleted = false) {events : Array Stamped}
    (hstep : s.step = .ok (events, s')) :
    Moves ps s events.toList s' ∧ s'.Orderly ps ∧ Observed s s' events.toList := by
  have hroom := steps_lt_of_step hopen hstep
  obtain ⟨events', s'', hstep', hmoves, horderly, hobserved⟩ := h.step_ok hk hopen hroom
  rw [hstep, Except.ok.injEq, Prod.mk.injEq] at hstep'
  obtain ⟨rfl, rfl⟩ := hstep'
  exact ⟨hmoves, horderly, hobserved⟩

/-- A step of an orderly simulation that goes through either finds all jobs finished and changes
nothing, or is a move. -/
theorem Orderly.of_step (h : s.Orderly ps) (hk : Contract.Kept ps) {events : Array Stamped}
    (hstep : s.step = .ok (events, s')) :
    (s.allCompleted = true ∧ events = #[] ∧ s' = s) ∨
      (s.allCompleted = false ∧ Moves ps s events.toList s' ∧ s'.Orderly ps ∧
        Observed s s' events.toList) := by
  cases hdone : s.allCompleted with
  | true =>
    rw [step_of_completed hdone] at hstep
    cases hstep
    exact .inl ⟨rfl, rfl, rfl⟩
  | false => exact .inr ⟨rfl, h.moves_of_step hk hdone hstep⟩

/-- A chain of moves, with all events that it hands out. -/
inductive Reaches (ps : ProcessList) (s : Simulation) : List Stamped → Simulation → Prop where
  | refl : Reaches ps s [] s
  | snoc {events new : List Stamped} {s' s'' : Simulation} : Reaches ps s events s' →
      Moves ps s' new s'' → Reaches ps s (events ++ new) s''

theorem Moves.frame {events : List Stamped} (hm : Moves ps s events s') : Frame s s' := by
  cases hm with
  | serves turn h => exact h.frame
  | skips p h => exact h.frame

theorem Reaches.quantum {events : List Stamped} (hr : Reaches ps s events s') :
    s'.quantum = s.quantum := by
  induction hr with
  | refl => rfl
  | snoc _ hm ih => exact hm.frame.quantum.trans ih

theorem Sound.reaches (h : s.Sound ps) (hk : Contract.Kept ps) {events : List Stamped}
    (hr : Reaches ps s events s') : s'.Sound ps := by
  induction hr with
  | refl => exact h
  | snoc _ hm ih => exact ih.moves hk hm

end Simulation

end RoundRobin
