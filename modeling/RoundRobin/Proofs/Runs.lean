import RoundRobin.Proofs.Reachable

/-!
# Runs

A number of steps from the start of a simulation. Every state that a run comes to is sound
(`sound_of_steps`), no step meets a fault before the step counter is full, and neither the audits
nor a trace make a difference to the machine and the events (`steps_passive`).
-/

namespace RoundRobin

namespace Simulation

variable {ps : ProcessList} {s s' t : Simulation}

/-- Installs an empty trace if one is asked for. -/
def tracedIf (s : Simulation) (trace : Bool) : Simulation :=
  if trace then s.traced else s

/-- The last step of a run. -/
theorem stepsAfter_succ (events : Array Stamped) (s : Simulation) (n : Nat) :
    stepsAfter events s (n + 1) =
      stepsAfter events s n >>= fun (before, t) =>
        t.step >>= fun (new, u) => .ok (before ++ new, u) := by
  induction n generalizing events s with
  | zero => rfl
  | succ n ih =>
    rw [stepsAfter]
    cases hstep : s.step with
    | error fault => simp only [stepsAfter, hstep]; rfl
    | ok result =>
      obtain ⟨new, t⟩ := result
      change stepsAfter (events ++ new) t (n + 1) = _
      rw [ih, show stepsAfter events s (n + 1) = stepsAfter (events ++ new) t n by
        rw [stepsAfter, hstep, Fault.ok_bind]]

theorem steps_succ_eq_ok_iff {n : Nat} {events : Array Stamped} :
    s.steps (n + 1) = .ok (events, s') ↔
      ∃ before t new, s.steps n = .ok (before, t) ∧ t.step = .ok (new, s') ∧
        events = before ++ new := by
  simp only [steps, stepsAfter_succ, Fault.bind_eq_ok_iff, Except.ok.injEq, Prod.mk.injEq,
    Prod.exists]
  constructor
  · rintro ⟨before, t, hrun, new, u, hstep, rfl, rfl⟩
    exact ⟨before, t, new, hrun, hstep, rfl⟩
  · rintro ⟨before, t, new, hrun, hstep, rfl⟩
    exact ⟨before, t, hrun, new, s', hstep, rfl, rfl⟩

/-- The first step of a run. -/
theorem steps_first_eq_ok_iff {n : Nat} {events : Array Stamped} :
    s.steps (n + 1) = .ok (events, s') ↔
      ∃ new t after, s.step = .ok (new, t) ∧ t.steps n = .ok (after, s') ∧
        events = new ++ after := by
  induction n generalizing events s' with
  | zero =>
    simp only [steps, stepsAfter, Fault.bind_eq_ok_iff, Except.ok.injEq, Prod.mk.injEq, Prod.exists]
    constructor
    · rintro ⟨new, t, hstep, hnew, rfl⟩
      exact ⟨new, t, #[], hstep, ⟨rfl, rfl⟩, by simpa using hnew.symm⟩
    · rintro ⟨new, t, _, hstep, ⟨rfl, rfl⟩, hnew⟩
      exact ⟨new, t, hstep, by simpa using hnew.symm, rfl⟩
  | succ n ih =>
    rw [steps_succ_eq_ok_iff]
    constructor
    · rintro ⟨before, v, last, hrun, hstep, rfl⟩
      obtain ⟨new, t, after, hfirst, hrest, rfl⟩ := ih.1 hrun
      exact ⟨new, t, after ++ last, hfirst,
        steps_succ_eq_ok_iff.2 ⟨after, v, last, hrest, hstep, rfl⟩, Array.append_assoc⟩
    · rintro ⟨new, t, after, hfirst, hrest, rfl⟩
      obtain ⟨after, v, last, hmost, hstep, rfl⟩ := steps_succ_eq_ok_iff.1 hrest
      exact ⟨new ++ after, v, last, ih.2 ⟨new, t, after, hfirst, hmost, rfl⟩, hstep,
        Array.append_assoc.symm⟩

/-- A longer run goes on from where a shorter one ends, and its events are those of both parts. -/
theorem exists_steps_of_add {n k : Nat} {before events : Array Stamped}
    (hbefore : s.steps n = .ok (before, t)) (hrun : s.steps (n + k) = .ok (events, s')) :
    ∃ after, t.steps k = .ok (after, s') ∧ events = before ++ after := by
  induction k generalizing events s' with
  | zero =>
    rw [Nat.add_zero, hbefore] at hrun
    cases hrun
    exact ⟨#[], rfl, Array.append_empty.symm⟩
  | succ k ih =>
    obtain ⟨_, u, last, hmost, hstep, rfl⟩ := steps_succ_eq_ok_iff.1 hrun
    obtain ⟨after, hafter, rfl⟩ := ih hmost
    exact ⟨after ++ last, steps_succ_eq_ok_iff.2 ⟨after, u, last, hafter, hstep, rfl⟩,
      Array.append_assoc⟩

namespace Orderly

/-- A run that goes through is a chain of moves, and counts no more steps than it takes. -/
theorem run (h : s.Orderly ps) (hk : Contract.Kept ps) {n : Nat} {events : Array Stamped}
    (hrun : s.steps n = .ok (events, s')) :
    Reaches ps s events.toList s' ∧ s'.Orderly ps ∧
      s'.scheduler.monitor.steps.toNat ≤ s.scheduler.monitor.steps.toNat + n := by
  induction n generalizing events s' with
  | zero =>
    cases hrun
    exact ⟨.refl, h, Nat.le_refl _⟩
  | succ n ih =>
    obtain ⟨before, t, new, hbefore, hstep, rfl⟩ := steps_succ_eq_ok_iff.1 hrun
    obtain ⟨hreaches, horderly, hsteps⟩ := ih hbefore
    rcases horderly.of_step hk hstep with ⟨_, rfl, rfl⟩ | ⟨_, hmoves, horderly', hobserved⟩
    · rw [Array.append_empty]
      exact ⟨hreaches, horderly, by omega⟩
    · rw [Array.toList_append]
      have hcount := hobserved.steps_le
      exact ⟨hreaches.snoc hmoves, horderly', by omega⟩

/-- No step of a run meets a fault as long as the step counter has room for all of them. -/
theorem steps_ok (h : s.Orderly ps) (hk : Contract.Kept ps) (n : Nat)
    (hroom : s.scheduler.monitor.steps.toNat + n < UInt64.size) :
    ∃ events t, s.steps n = .ok (events, t) := by
  induction n with
  | zero => exact ⟨#[], s, rfl⟩
  | succ n ih =>
    obtain ⟨before, t, hrun⟩ := ih (by omega)
    obtain ⟨_, horderly, hsteps⟩ := h.run hk hrun
    have hstep : ∃ new u, t.step = .ok (new, u) := by
      cases hdone : t.allCompleted with
      | true => exact ⟨#[], t, step_of_completed hdone⟩
      | false =>
        obtain ⟨new, u, hstep, _⟩ := horderly.step_ok hk hdone (by omega)
        exact ⟨new, u, hstep⟩
    obtain ⟨new, u, hstep⟩ := hstep
    exact ⟨before ++ new, u, steps_succ_eq_ok_iff.2 ⟨before, t, new, hrun, hstep, rfl⟩⟩

theorem tracedIf (h : s.Orderly ps) (trace : Bool) : (s.tracedIf trace).Orderly ps := by
  cases trace with
  | false => exact h
  | true => exact { h with sound := { h.sound with } }

end Orderly

/-- Runs of simulations that differ in their monitors only hand out the same events, and still
differ in their monitors only. -/
theorem steps_unwatched {t t' : Simulation} {n : Nat} {events events' : Array Stamped}
    (hsame : s.unwatched = s'.unwatched) (h : s.steps n = .ok (events, t))
    (h' : s'.steps n = .ok (events', t')) : events = events' ∧ t.unwatched = t'.unwatched := by
  induction n generalizing events events' t t' with
  | zero =>
    cases h
    cases h'
    exact ⟨rfl, hsame⟩
  | succ n ih =>
    obtain ⟨before, u, new, hrun, hstep, rfl⟩ := steps_succ_eq_ok_iff.1 h
    obtain ⟨before', u', new', hrun', hstep', rfl⟩ := steps_succ_eq_ok_iff.1 h'
    obtain ⟨rfl, hmid⟩ := ih hrun hrun'
    obtain ⟨rfl, hend⟩ := step_unwatched hmid hstep hstep'
    exact ⟨rfl, hend⟩

theorem unwatched_tracedIf (s : Simulation) (trace : Bool) :
    (s.tracedIf trace).unwatched = s.unwatched := by
  cases trace <;> rfl

/-- Before the first step, every job is unarrived and the queue is empty. -/
theorem sound_start {config : Config} (h : start ps config = .ok s) : s.Sound ps := by
  obtain ⟨hq, hk, rfl⟩ := start_eq_ok_iff.1 h
  exact {
    processes := rfl
    free := rfl
    size := by
      change (ps.map Job.ofProcess).toArray.size = _
      rw [List.size_toArray, List.length_map]
    admitted_le := Nat.zero_le _
    consistent := ReadyQueue.consistent_empty
    queue_lt := fun i hi => absurd hi List.not_mem_nil
    standing := by
      intro i p hp
      refine ⟨Job.ofProcess p, ?_, Job.accounts_ofProcess p, Nat.zero_le _, List.not_mem_nil, rfl⟩
      change (ps.map Job.ofProcess).toArray[i]? = _
      rw [List.getElem?_toArray, List.getElem?_map, hp, Option.map_some]
    finished := by
      change 0 = (ps.map Job.ofProcess).countP _
      rw [List.countP_map, eq_comm, List.countP_eq_zero]
      intro p _
      simp [Job.ofProcess]
    arrived := fun i p _ hlt => absurd hlt (Nat.not_lt_zero i)
    ahead := fun i p _ _ => UInt64.le_iff_toNat_le.2 (Nat.zero_le _)
    admitted_iff := by
      intro _ i p _
      constructor
      · intro hlt
        exact absurd hlt (Nat.not_lt_zero i)
      · intro hlt
        exact absurd (UInt64.lt_iff_toNat_lt.1 hlt) (Nat.not_lt_zero _) }

theorem orderly_start {config : Config} (h : start ps config = .ok s) : s.Orderly ps := by
  have hsound := sound_start h
  obtain ⟨hq, hk, rfl⟩ := start_eq_ok_iff.1 h
  exact {
    sound := hsound
    pending := rfl
    touched := rfl
    dispatches_le := by
      intro i job hjob
      replace hjob : (ps.map Job.ofProcess).toArray[i]? = some job := hjob
      rw [List.getElem?_toArray, List.getElem?_map, Option.map_eq_some_iff] at hjob
      obtain ⟨p, _, rfl⟩ := hjob
      exact Nat.le_refl _
    turns_le := Nat.le_refl _ }

theorem kept_of_start {config : Config} (h : start ps config = .ok s) : Contract.Kept ps := by
  obtain ⟨_, hk, _⟩ := start_eq_ok_iff.1 h
  exact hk

theorem quantum_pos_of_start {config : Config} (h : start ps config = .ok s) :
    0 < config.quantum.toNat := by
  obtain ⟨hpos, _, _⟩ := start_eq_ok_iff.1 h
  exact UInt64.lt_iff_toNat_lt.1 hpos

theorem admitted_of_start {config : Config} (h : start ps config = .ok s) : s.admitted = 0 := by
  obtain ⟨_, _, rfl⟩ := start_eq_ok_iff.1 h
  rfl

theorem steps_of_start {config : Config} (h : start ps config = .ok s) :
    s.scheduler.monitor.steps = 0 := by
  obtain ⟨_, _, rfl⟩ := start_eq_ok_iff.1 h
  rfl

theorem Reaches.sound {config : Config} (hstart : start ps config = .ok s)
    {events : List Stamped} (hr : Reaches ps s events t) : t.Sound ps :=
  (sound_start hstart).reaches (kept_of_start hstart) hr

/-- The quantum of a run is that of its configuration. -/
theorem Reaches.quantum_eq {config : Config} (hstart : start ps config = .ok s)
    {events : List Stamped} (hr : Reaches ps s events t) : t.quantum = config.quantum := by
  obtain ⟨_, _, rfl⟩ := start_eq_ok_iff.1 hstart
  exact hr.quantum

/-- What holds of the ends of the last turns of jobs, and of their waits for their first turns,
holds of the times that the jobs have recorded. -/
theorem Reaches.recorded {config : Config} (hstart : start ps config = .ok s)
    (Completes Responds : Nat → Process → Ticks → Prop)
    (hlast : ∀ {before u turn u'}, Reaches ps s before u → Serves ps u turn u' →
      turn.Ends u.quantum → Completes turn.position turn.process u'.now)
    (hfirst : ∀ {before u turn u'}, Reaches ps s before u → Serves ps u turn u' →
      turn.job.response = none →
      Responds turn.position turn.process (u.now - turn.job.arrival))
    {events : List Stamped} (hr : Reaches ps s events t) {i : Nat} {p : Process} {job : Job}
    (hp : ps[i]? = some p) (hjob : t.job? i = some job) :
    (∀ completion, job.completion = some completion → Completes i p completion) ∧
      ∀ response, job.response = some response → Responds i p response := by
  have hsound := sound_start hstart
  induction hr generalizing job with
  | refl =>
    have hzero := admitted_of_start hstart
    obtain rfl := hsound.eq_of_ahead hp (by omega) hjob
    exact ⟨fun _ hcompletion => (by cases hcompletion), fun _ hresponse => (by cases hresponse)⟩
  | snoc hr hm ih =>
    have hk := kept_of_start hstart
    constructor
    · intro completion hcompletion
      rcases hm.last_turn_of_completion hk (hr.sound hstart) hp hjob hcompletion with
        hold | ⟨turn, hserves, rfl, hends, rfl⟩
      · exact (ih hold).1 completion hcompletion
      · rw [hserves.process, Option.some.injEq] at hp
        exact hp ▸ hlast hr hserves hends
    · intro response hresponse
      rcases hm.response_cases hjob hresponse with
        ⟨old, hold, hbefore⟩ | ⟨turn, hserves, rfl, hnone, rfl, _⟩
      · exact (ih hold).2 response hbefore
      · rw [hserves.process, Option.some.injEq] at hp
        exact hp ▸ hfirst hr hserves hnone

/-- Every state that steps lead to from the start is sound, whatever the times of the processes:
also when the clock or the waiting times have stopped at the greatest word. -/
theorem sound_of_steps {config : Config} {n : Nat} {events : Array Stamped}
    (hstart : start ps config = .ok s) (hrun : s.steps n = .ok (events, t)) : t.Sound ps :=
  ((orderly_start hstart).run (kept_of_start hstart) hrun).2.1.sound

/-- Two processes that arrive when the clock is about to stop, with more work than it can show. -/
def lastArrivals : ProcessList :=
  [{ pid := ⟨1⟩, arrival := Word.top - 2, burst := 5 },
    { pid := ⟨2⟩, arrival := Word.top, burst := 3 }]

theorem sound_of_steps_lastArrivals :
    ∃ s events t, start lastArrivals { quantum := 4, checks := true } = .ok s ∧
      s.steps 3 = .ok (events, t) ∧ t.Sound lastArrivals := by
  have hstart : start lastArrivals { quantum := 4, checks := true } = .ok _ := rfl
  have hrun : ∃ events t, steps _ 3 = .ok (events, t) :=
    (orderly_start hstart).steps_ok (kept_of_start hstart) 3 (by decide)
  obtain ⟨events, t, hrun⟩ := hrun
  exact ⟨_, events, t, hstart, hrun, sound_of_steps hstart hrun⟩

/-- Each of the first `2 ^ 64 - 1` steps of a simulation goes through. It hands out the same events
and leaves the same state, up to the monitor, whether or not the steps are audited and whether or
not a trace is installed. -/
theorem steps_passive {config config' : Config} (hstart : start ps config = .ok s)
    (hstart' : start ps config' = .ok s') (hquantum : config'.quantum = config.quantum)
    (trace trace' : Bool) {n : Nat} (hn : n + 1 < UInt64.size) :
    ∃ events t t' new u u', (s.tracedIf trace).steps n = .ok (events, t) ∧
      (s'.tracedIf trace').steps n = .ok (events, t') ∧ t.unwatched = t'.unwatched ∧
      t.step = .ok (new, u) ∧ t'.step = .ok (new, u') ∧ u.unwatched = u'.unwatched := by
  have hk := kept_of_start hstart
  have horderly := (orderly_start hstart).tracedIf trace
  have horderly' := (orderly_start hstart').tracedIf trace'
  have hsame : (s.tracedIf trace).unwatched = (s'.tracedIf trace').unwatched := by
    rw [unwatched_tracedIf, unwatched_tracedIf]
    obtain ⟨hpos, _, rfl⟩ := start_eq_ok_iff.1 hstart
    obtain ⟨hpos', _, rfl⟩ := start_eq_ok_iff.1 hstart'
    cases config
    cases config'
    subst hquantum
    rfl
  have hzero : ∀ trace s config, start ps config = .ok s →
      (s.tracedIf trace).scheduler.monitor.steps = 0 := by
    intro trace s config h
    obtain ⟨_, _, rfl⟩ := start_eq_ok_iff.1 h
    cases trace <;> rfl
  have hroom := hzero trace s config hstart
  have hroom' := hzero trace' s' config' hstart'
  rcases horderly.steps_ok hk (n + 1) (by rw [hroom, UInt64.toNat_zero]; omega) with
    ⟨_, u, hrun⟩
  rcases horderly'.steps_ok hk (n + 1) (by rw [hroom', UInt64.toNat_zero]; omega) with
    ⟨_, u', hrun'⟩
  obtain ⟨events, t, new, hbefore, hstep, rfl⟩ := steps_succ_eq_ok_iff.1 hrun
  obtain ⟨events', t', new', hbefore', hstep', rfl⟩ := steps_succ_eq_ok_iff.1 hrun'
  obtain ⟨rfl, hmid⟩ := steps_unwatched hsame hbefore hbefore'
  obtain ⟨rfl, hend⟩ := step_unwatched hmid hstep hstep'
  exact ⟨events, t, t', new, u, u', hbefore, hbefore', hmid, hstep, hstep', hend⟩

theorem steps_passive_lastArrivals :
    ∃ s s', start lastArrivals { quantum := 4, checks := true } = .ok s ∧
      start lastArrivals { quantum := 4, checks := false } = .ok s' ∧
      ∃ events t t' new u u', (s.tracedIf true).steps 3 = .ok (events, t) ∧
        (s'.tracedIf false).steps 3 = .ok (events, t') ∧ t.unwatched = t'.unwatched ∧
        t.step = .ok (new, u) ∧ t'.step = .ok (new, u') ∧ u.unwatched = u'.unwatched := by
  have hstart : start lastArrivals { quantum := 4, checks := true } = .ok _ := rfl
  have hstart' : start lastArrivals { quantum := 4, checks := false } = .ok _ := rfl
  exact ⟨_, _, hstart, hstart', steps_passive hstart hstart' rfl true false (by decide)⟩

end Simulation

end RoundRobin
