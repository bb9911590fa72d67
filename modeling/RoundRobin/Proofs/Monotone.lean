import RoundRobin.Proofs.ExactTime

/-!
# History is not rewritten

What a run has recorded stays recorded. `Advances` compares two states of one run, the later one
with the earlier one: clock and counters have not gone back, no job has returned to an earlier
phase, a response once set is the same, and a finished job has not been touched. One move advances
the simulation (`Moves.advances`), so every run does. Main statement: `advances_of_steps`.
-/

namespace RoundRobin

/-- The order of the phases that a job has between steps: unarrived, ready, finished. No job is
running then, so that `running` leads to no phase and is led to by none. -/
inductive Phase.Leads : Phase → Phase → Prop where
  | unarrived {later : Phase} : later ≠ .running → Leads .unarrived later
  | ready {later : Phase} : later = .ready ∨ later = .finished → Leads .ready later
  | finished : Leads .finished .finished

namespace Phase.Leads

theorem refl {phase : Phase} (h : phase ≠ .running) : phase.Leads phase := by
  cases phase with
  | unarrived => exact .unarrived h
  | ready => exact .ready (.inl rfl)
  | running => exact absurd rfl h
  | finished => exact .finished

theorem trans {a b c : Phase} (hab : a.Leads b) (hbc : b.Leads c) : a.Leads c := by
  cases hbc with
  | unarrived hc =>
    cases hab with
    | unarrived _ => exact .unarrived hc
    | ready h => rcases h with h | h <;> cases h
  | ready hc =>
    cases hab with
    | unarrived _ =>
      apply Leads.unarrived
      rcases hc with rfl | rfl <;> exact Phase.noConfusion
    | ready _ => exact .ready hc
  | finished => exact hab

end Phase.Leads

/-- A job at a later time, compared with the same job before. -/
structure Job.Advances (old job : Job) : Prop where
  waiting : old.waiting ≤ job.waiting
  cpuTime : old.cpuTime ≤ job.cpuTime
  dispatches : old.dispatches ≤ job.dispatches
  remaining : job.remaining ≤ old.remaining
  phase : old.phase.Leads job.phase
  response : ∀ response, old.response = some response → job.response = some response
  finished : old.phase = .finished → job = old

namespace Job.Advances

variable {old mid job : Job}

theorem refl (h : job.phase ≠ .running) : job.Advances job where
  waiting := UInt64.le_refl _
  cpuTime := UInt64.le_refl _
  dispatches := UInt64.le_refl _
  remaining := UInt64.le_refl _
  phase := .refl h
  response _ hresponse := hresponse
  finished _ := rfl

theorem trans (h : old.Advances mid) (h' : mid.Advances job) : old.Advances job where
  waiting := UInt64.le_trans h.waiting h'.waiting
  cpuTime := UInt64.le_trans h.cpuTime h'.cpuTime
  dispatches := UInt64.le_trans h.dispatches h'.dispatches
  remaining := UInt64.le_trans h'.remaining h.remaining
  phase := h.phase.trans h'.phase
  response response hresponse := h'.response response (h.response response hresponse)
  finished hfinished := by
    have hmid := h.finished hfinished
    subst hmid
    exact h'.finished hfinished

end Job.Advances

namespace Simulation

variable {ps : ProcessList} {s s' t : Simulation}

/-- A simulation at a later time, compared with itself before. -/
structure Advances (s t : Simulation) : Prop where
  now : s.now ≤ t.now
  admitted : s.admitted ≤ t.admitted
  finished : s.machine.finished ≤ t.machine.finished
  preemptions : s.scheduler.preemptions ≤ t.scheduler.preemptions
  size : t.machine.jobs.size = s.machine.jobs.size
  jobs : ∀ i old job, s.job? i = some old → t.job? i = some job → old.Advances job

/-- Between steps no job is running. -/
theorem Sound.phase_ne_running (h : s.Sound ps) {i : Nat} {job : Job} (hjob : s.job? i = some job) :
    job.phase ≠ .running := by
  have hlt : i < ps.length := h.size ▸ (Array.getElem?_eq_some_iff.1 hjob).1
  obtain ⟨job', hjob', _, hstanding⟩ := h.standing i _ (List.getElem?_eq_getElem hlt)
  rw [hjob, Option.some.injEq] at hjob'
  subst hjob'
  intro hphase
  simp only [Standing, hphase] at hstanding

/-- A job that is not finished leads to every phase between steps but the first one. -/
theorem Sound.leads_of_unfinished (h : s.Sound ps) {i : Nat} {old : Job} {later : Phase}
    (hold : s.job? i = some old) (hopen : old.phase ≠ .finished)
    (hlater : later = .ready ∨ later = .finished) : old.phase.Leads later := by
  have hidle := h.phase_ne_running hold
  cases hphase : old.phase with
  | unarrived =>
    apply Phase.Leads.unarrived
    rcases hlater with rfl | rfl <;> exact Phase.noConfusion
  | ready => exact .ready hlater
  | running => exact absurd hphase hidle
  | finished => exact absurd hphase hopen

namespace Advances

theorem refl (h : s.Sound ps) : Advances s s where
  now := UInt64.le_refl _
  admitted := Nat.le_refl _
  finished := UInt64.le_refl _
  preemptions := UInt64.le_refl _
  size := rfl
  jobs i old job hold hjob := by
    rw [hold, Option.some.injEq] at hjob
    subst hjob
    exact .refl (h.phase_ne_running hold)

theorem trans (h : Advances s s') (h' : Advances s' t) : Advances s t where
  now := UInt64.le_trans h.now h'.now
  admitted := Nat.le_trans h.admitted h'.admitted
  finished := UInt64.le_trans h.finished h'.finished
  preemptions := UInt64.le_trans h.preemptions h'.preemptions
  size := h'.size.trans h.size
  jobs i old job hold hjob := by
    have hlt : i < s'.machine.jobs.size := h.size ▸ (Array.getElem?_eq_some_iff.1 hold).1
    have hmid : s'.job? i = some s'.machine.jobs[i] := Array.getElem?_eq_getElem hlt
    exact (h.jobs i old _ hold hmid).trans (h'.jobs i _ job hmid hjob)

end Advances

variable {turn : Turn}

/-- The job that had the turn has advanced. -/
theorem Serves.advances_served (h : Serves ps s turn s') (hsound : s.Sound ps) {p : Process}
    (hready : s.Eligible p turn.job) :
    turn.job.Advances ((turn.job.served s.now s.quantum).leave s'.now) where
  waiting := by
    rw [Job.waiting_leave]
    exact UInt64.le_refl _
  cpuTime := by
    rw [Job.cpuTime_leave, UInt64.le_iff_toNat_le, Job.toNat_cpuTime_served hready.accounts]
    exact Nat.le_add_right _ _
  dispatches := by
    have hcount : (turn.job.dispatches + 1).toNat = turn.job.dispatches.toNat + 1 :=
      Word.toNat_add_of_lt h.dispatches_lt
    rw [Job.dispatches_leave, UInt64.le_iff_toNat_le]
    change _ ≤ (turn.job.dispatches + 1).toNat
    omega
  remaining := by
    rw [Job.remaining_leave, UInt64.le_iff_toNat_le, Job.toNat_remaining_served]
    exact Nat.sub_le _ _
  phase := by
    apply hsound.leads_of_unfinished h.job hready.unfinished
    unfold Job.leave
    split
    · exact .inr rfl
    · exact .inl rfl
  response response hresponse := by
    -- a response that is set is the one that the slice starts from
    rw [Job.response_leave]
    change some (turn.job.response.getD _) = _
    rw [hresponse, Option.getD_some]
  finished hfinished := absurd hfinished hready.unfinished

/-- A job that waits behind a turn has advanced. -/
theorem Sound.advances_waited (h : s.Sound ps) {i : Nat} {p : Process} {old : Job} (delta : Ticks)
    (hold : s.job? i = some old) (hready : s.Eligible p old) :
    old.Advances (old.enter.wait delta) where
  waiting := Word.le_satAdd _ _
  cpuTime := UInt64.le_refl _
  dispatches := UInt64.le_refl _
  remaining := UInt64.le_refl _
  phase := h.leads_of_unfinished hold hready.unfinished (.inl rfl)
  response _ hresponse := hresponse
  finished hfinished := absurd hfinished hready.unfinished

/-- A job that is let in has advanced. -/
theorem advances_entered (p : Process) : (Job.ofProcess p).Advances (Job.ofProcess p).enter where
  waiting := UInt64.le_refl _
  cpuTime := UInt64.le_refl _
  dispatches := UInt64.le_refl _
  remaining := UInt64.le_refl _
  phase := .unarrived Phase.noConfusion
  response _ hresponse := hresponse
  finished hfinished := Phase.noConfusion hfinished

/-- A turn advances every job. -/
theorem Serves.advances_job (h : Serves ps s turn s') (hk : Contract.Kept ps)
    (hsound : s.Sound ps) {i : Nat} {old job : Job} (hold : s.job? i = some old)
    (hjob : s'.job? i = some job) : old.Advances job := by
  have hlt : i < ps.length := hsound.size ▸ (Array.getElem?_eq_some_iff.1 hold).1
  have hsame : ∀ {before : Job}, s.job? i = some before → before = old := by
    intro before hbefore
    rw [hold, Option.some.injEq] at hbefore
    exact hbefore.symm
  cases hsound.fate hk h (List.getElem?_eq_getElem hlt) hjob with
  | served hposition hready =>
    obtain rfl := hsame (hposition ▸ h.job)
    exact h.advances_served hsound hready
  | waited _ hbefore hready =>
    obtain rfl := hsame hbefore
    exact hsound.advances_waited _ hold hready
  | entered _ _ _ hbefore =>
    obtain rfl := hsame hbefore
    exact advances_entered _
  | completed _ _ hbefore _ =>
    obtain rfl := hsame hbefore
    exact .refl (hsound.phase_ne_running hold)
  | ahead _ _ hbefore =>
    obtain rfl := hsame hbefore
    exact .refl (hsound.phase_ne_running hold)

theorem Serves.advances (h : Serves ps s turn s') (hk : Contract.Kept ps) (hsound : s.Sound ps) :
    Advances s s' where
  now := UInt64.le_iff_toNat_le.2 h.now_le
  admitted := by
    rw [h.admitted]
    exact Nat.le_trans h.early.le h.late.le
  finished := by
    rw [UInt64.le_iff_toNat_le, h.finished]
    exact Nat.le_add_right _ _
  preemptions := by
    rw [UInt64.le_iff_toNat_le, h.preemptions]
    exact Nat.le_add_right _ _
  size := h.frame.size
  jobs _ _ _ hold hjob := h.advances_job hk hsound hold hjob

theorem Skips.advances {p : Process} (h : Skips ps s p s') (hsound : s.Sound ps) :
    Advances s s' where
  now := by
    have hnow : s'.now = p.arrival := congrArg (·.now) h.machine
    rw [hnow]
    exact UInt64.le_of_lt h.later
  admitted := Nat.le_of_eq h.admitted.symm
  finished := by
    rw [h.machine]
    exact UInt64.le_refl _
  preemptions := by
    rw [h.preemptions]
    exact UInt64.le_refl _
  size := h.frame.size
  jobs i old job hold hjob := by
    rw [h.job_eq i] at hjob
    exact (Advances.refl hsound).jobs i old job hold hjob

/-- A move advances the simulation. -/
theorem Moves.advances {events : List Stamped} (h : Moves ps s events s') (hk : Contract.Kept ps)
    (hsound : s.Sound ps) : Advances s s' := by
  cases h with
  | serves turn h => exact h.advances hk hsound
  | skips p h => exact h.advances hsound

theorem Reaches.advances {events : List Stamped} (h : Reaches ps s events s')
    (hk : Contract.Kept ps) (hsound : s.Sound ps) : Advances s s' := by
  induction h with
  | refl => exact .refl hsound
  | snoc hr hm ih => exact ih.trans (hm.advances hk (hsound.reaches hk hr))

/-- Of any two states of a run of fewer than `2 ^ 64` steps, the later one has advanced: clock,
admissions and counters have not gone back, and neither has any job. The later state has handed out
the events of the earlier one and then more. Once every job is in its last phase, no step hands out
an event or changes anything. -/
theorem advances_of_steps {config : Config} (hstart : start ps config = .ok s) {m n : Nat}
    (hmn : m ≤ n) (hn : n < UInt64.size) :
    ∃ before t events u, s.steps m = .ok (before, t) ∧ s.steps n = .ok (before ++ events, u) ∧
      Advances t u ∧
      ((∀ i job, u.job? i = some job → job.phase = .finished) →
        ∀ k, u.steps k = .ok (#[], u)) := by
  have hk := kept_of_start hstart
  have horderly := orderly_start hstart
  have hzero : s.scheduler.monitor.steps.toNat = 0 := congrArg UInt64.toNat (steps_of_start hstart)
  obtain ⟨before, t, hbefore⟩ := horderly.steps_ok hk m (by omega)
  obtain ⟨all, u, hall⟩ := horderly.steps_ok hk n (by omega)
  have hlong : s.steps (m + (n - m)) = .ok (all, u) := by rwa [Nat.add_sub_cancel' hmn]
  obtain ⟨events, hafter, rfl⟩ := exists_steps_of_add hbefore hlong
  obtain ⟨_, hmid, _⟩ := horderly.run hk hbefore
  obtain ⟨hreaches, hlast, _⟩ := hmid.run hk hafter
  refine ⟨before, t, events, u, hbefore, hall, hreaches.advances hk hmid.sound, ?_⟩
  intro hfinished k
  have hdone := hlast.sound.allCompleted_iff_phase.2 hfinished
  have hstill := steps_add_of_completed (s := u) (n := 0) rfl hdone k
  rwa [Nat.zero_add] at hstill

/-- The first process is preempted twice on the way, and the second one waits and finishes. -/
theorem advances_of_steps_lastArrivals :
    ∃ s, start lastArrivals { quantum := 2, checks := true } = .ok s ∧ 2 ≤ 6 ∧ 6 < UInt64.size ∧
      ∃ before t events u, s.steps 2 = .ok (before, t) ∧ s.steps 6 = .ok (before ++ events, u) ∧
        Advances t u ∧
        ((∀ i job, u.job? i = some job → job.phase = .finished) →
          ∀ k, u.steps k = .ok (#[], u)) := by
  have hstart : start lastArrivals { quantum := 2, checks := true } = .ok _ := rfl
  have hmn : 2 ≤ 6 := by decide
  have hn : 6 < UInt64.size := by decide
  exact ⟨_, hstart, hmn, hn, advances_of_steps hstart hmn hn⟩

end Simulation

end RoundRobin
