import RoundRobin.Simulation

/-!
# The monitor is passive

No operation looks at the monitor before the step is observed. A change of the monitor that goes
along with telling it of events therefore commutes with every operation up to that point
(`proceed_mapMonitor`), whether the operation succeeds or faults. It follows that admissions, slices
and skips do not count steps, and that two simulations that differ in their monitors only stay so
(`step_unwatched`).
-/

namespace RoundRobin

theorem Fault.map_bind {α β γ : Type} (g : β → γ) (x : Except Fault α) (k : α → Except Fault β) :
    (x >>= k).map g = x >>= fun a => (k a).map g := by
  cases x <;> rfl

theorem Fault.bind_map {α β γ : Type} (g : α → β) (x : Except Fault α) (k : β → Except Fault γ) :
    x.map g >>= k = x >>= fun a => k (g a) := by
  cases x <;> rfl

/-- The change of a monitor goes along with telling it of events. -/
def Monitor.Compatible (f : Monitor → Monitor) : Prop :=
  ∀ monitor stamped, f (monitor.emit stamped) = (f monitor).emit stamped

variable {f : Monitor → Monitor}

namespace Scheduler

/-- The scheduler with its monitor changed. -/
def mapMonitor (f : Monitor → Monitor) (s : Scheduler) : Scheduler :=
  { s with monitor := f s.monitor }

theorem emit_mapMonitor (hf : Monitor.Compatible f) (s : Scheduler) (time : Ticks) (event : Event) :
    (s.mapMonitor f).emit time event = (s.emit time event).mapMonitor f := by
  simp only [emit, mapMonitor, hf s.monitor { time, event }]

theorem admitJob_mapMonitor (hf : Monitor.Compatible f) (s : Scheduler) (i : Nat) (time : Ticks) :
    (s.mapMonitor f).admitJob i time = (s.admitJob i time).map (mapMonitor f) := by
  simp only [admitJob, Fault.map_bind]
  refine congrArg _ (funext fun machine => congrArg _ (funext fun job => ?_))
  exact congrArg Except.ok (emit_mapMonitor hf { s with machine } _ _)

theorem dispatch_mapMonitor (hf : Monitor.Compatible f) (s : Scheduler) :
    (s.mapMonitor f).dispatch =
      s.dispatch.map (Option.map fun (slice, s) => (slice, s.mapMonitor f)) := by
  simp only [dispatch, Fault.map_bind]
  refine congrArg _ (funext fun started => ?_)
  cases started with
  | none => rfl
  | some started =>
    obtain ⟨i, machine⟩ := started
    simp only [Fault.map_bind]
    refine congrArg _ (funext fun job => congrArg _ (funext fun served =>
      congrArg _ (funext fun waited => ?_)))
    exact congrArg (fun s => Except.ok (some (_, s))) (emit_mapMonitor hf
      { s with machine := waited.advance (job.share s.quantum), touched := some i } _ _)

theorem finishSlice_mapMonitor (hf : Monitor.Compatible f) (s : Scheduler) :
    (s.mapMonitor f).finishSlice =
      s.finishSlice.map fun retired => (retired.1, retired.2.mapMonitor f) := by
  have hcurrent : (s.mapMonitor f).machine.current = s.machine.current := rfl
  unfold finishSlice
  rw [hcurrent]
  cases s.machine.current with
  | none => rfl
  | some i =>
    simp only [Fault.map_bind]
    refine congrArg _ (funext fun job => ?_)
    by_cases hwork : job.remaining = 0
    · rw [if_pos hwork, if_pos hwork]
      cases job.response with
      | none => rfl
      | some response =>
        simp only [Fault.map_bind]
        refine congrArg _ (funext fun retired => ?_)
        exact congrArg (fun s => Except.ok (_, s))
          (emit_mapMonitor hf { s with machine := retired.2 } _ _)
    · rw [if_neg hwork, if_neg hwork]
      simp only [Fault.map_bind]
      refine congrArg _ (funext fun machine => congrArg _ (funext fun preemptions => ?_))
      exact congrArg (fun s => Except.ok (_, s))
        (emit_mapMonitor hf { s with machine, preemptions } _ _)

theorem idleUntil_mapMonitor (hf : Monitor.Compatible f) (s : Scheduler) (target : Ticks) :
    (s.mapMonitor f).idleUntil target = (s.idleUntil target).map (mapMonitor f) := by
  simp only [idleUntil, Fault.map_bind]
  refine congrArg _ (funext fun _ => congrArg _ (funext fun _ => ?_))
  exact congrArg Except.ok (emit_mapMonitor hf
    { s with machine := s.machine.advance (target - s.machine.now) } _ _)

end Scheduler

namespace Simulation

/-- The simulation with its monitor changed. -/
def mapMonitor (f : Monitor → Monitor) (s : Simulation) : Simulation :=
  { s with scheduler := s.scheduler.mapMonitor f }

theorem admitUpTo_mapMonitor (hf : Monitor.Compatible f) (arrived : Ticks → Bool) (limit : Nat)
    (s : Simulation) :
    (s.mapMonitor f).admitUpTo arrived limit = (s.admitUpTo arrived limit).map (mapMonitor f) := by
  induction limit generalizing s with
  | zero => rfl
  | succ limit ih =>
    have hnext : (s.mapMonitor f).next? = s.next? := rfl
    unfold admitUpTo
    rw [hnext]
    cases s.next? with
    | none => rfl
    | some p =>
      by_cases htime : arrived p.arrival = true
      · simp only [htime, if_true, Fault.map_bind]
        change (s.scheduler.mapMonitor f).admitJob s.admitted p.arrival >>= _ = _
        rw [Scheduler.admitJob_mapMonitor hf]
        cases s.scheduler.admitJob s.admitted p.arrival with
        | error fault => rfl
        | ok scheduler => exact ih { s with scheduler, admitted := s.admitted + 1 }
      · simp only [htime, Bool.false_eq_true, if_false]
        rfl

theorem admitWhile_mapMonitor (hf : Monitor.Compatible f) (arrived : Ticks → Bool)
    (s : Simulation) :
    (s.mapMonitor f).admitWhile arrived = (s.admitWhile arrived).map (mapMonitor f) :=
  admitUpTo_mapMonitor hf arrived _ s

theorem endSlice_mapMonitor (hf : Monitor.Compatible f) (s : Simulation) (slice : Slice) :
    (s.mapMonitor f).endSlice slice = (s.endSlice slice).map (mapMonitor f) := by
  simp only [endSlice, Fault.map_bind, admitWhile_mapMonitor hf]
  cases s.admitWhile (· < slice.finish) with
  | error fault => rfl
  | ok late =>
    change (late.scheduler.mapMonitor f).finishSlice >>= _ = late.scheduler.finishSlice >>= _
    rw [Scheduler.finishSlice_mapMonitor hf]
    cases late.scheduler.finishSlice <;> rfl

theorem skipGap_mapMonitor (hf : Monitor.Compatible f) (s : Simulation) :
    (s.mapMonitor f).skipGap = s.skipGap.map (mapMonitor f) := by
  simp only [skipGap, Fault.map_bind]
  change s.nextArrival >>= _ = _
  refine congrArg _ (funext fun target => ?_)
  change (s.scheduler.mapMonitor f).idleUntil target >>= _ = _
  rw [Scheduler.idleUntil_mapMonitor hf]
  cases s.scheduler.idleUntil target <;> rfl

theorem proceed_mapMonitor (hf : Monitor.Compatible f) (s : Simulation) :
    (s.mapMonitor f).proceed = s.proceed.map (mapMonitor f) := by
  simp only [proceed, Fault.map_bind]
  change (s.mapMonitor f).admitWhile (· ≤ s.scheduler.machine.now) >>= _ = _
  rw [admitWhile_mapMonitor hf]
  cases s.admitWhile (· ≤ s.scheduler.machine.now) with
  | error fault => rfl
  | ok mid =>
    change (mid.scheduler.mapMonitor f).dispatch >>= _ = mid.scheduler.dispatch >>= _
    rw [Scheduler.dispatch_mapMonitor hf]
    cases mid.scheduler.dispatch with
    | error fault => rfl
    | ok dispatched =>
      cases dispatched with
      | none => exact skipGap_mapMonitor hf mid
      | some dispatched => exact endSlice_mapMonitor hf { mid with scheduler := dispatched.2 } _

/-- Nothing but an observation counts a step. -/
theorem steps_of_proceed {s s' : Simulation} (h : s.proceed = .ok s') :
    s'.scheduler.monitor.steps = s.scheduler.monitor.steps := by
  have hsame := proceed_mapMonitor
    (f := fun monitor => { monitor with steps := s.scheduler.monitor.steps })
    (fun _ _ => rfl) s
  have hs : s.mapMonitor (fun monitor => { monitor with steps := s.scheduler.monitor.steps }) = s :=
    rfl
  rw [hs, h] at hsame
  exact congrArg (fun s => s.scheduler.monitor.steps) (Except.ok.inj hsame)

/-- The simulation with a monitor that neither audits nor traces. -/
def unwatched (s : Simulation) : Simulation :=
  s.mapMonitor fun _ => { checks := false }

/-- Two simulations that differ in their monitors only hand out the same events and still differ in
their monitors only, if both of them step. -/
theorem step_unwatched {s s' t t' : Simulation} {events events' : Array Stamped}
    (hsame : s.unwatched = s'.unwatched) (h : s.step = .ok (events, t))
    (h' : s'.step = .ok (events', t')) : events = events' ∧ t.unwatched = t'.unwatched := by
  have hmachine : s.scheduler.machine = s'.scheduler.machine :=
    congrArg (fun s => s.scheduler.machine) hsame
  have hdone : s.allCompleted = s'.allCompleted := congrArg Machine.allFinished hmachine
  unfold step at h h'
  rw [← hdone] at h'
  cases hc : s.allCompleted with
  | true =>
    simp only [hc, if_true, Except.ok.injEq, Prod.mk.injEq] at h h'
    obtain ⟨rfl, rfl⟩ := h
    obtain ⟨rfl, rfl⟩ := h'
    exact ⟨rfl, hsame⟩
  | false =>
    simp only [hc, Bool.false_eq_true, if_false, Fault.bind_eq_ok_iff, Fault.pure_eq_ok_iff,
      Scheduler.drain, Scheduler.observe, Prod.mk.injEq] at h h'
    obtain ⟨left, hleft, _, ⟨_, _, rfl⟩, rfl, rfl⟩ := h
    obtain ⟨left', hleft', _, ⟨_, _, rfl⟩, rfl, rfl⟩ := h'
    have hf : Monitor.Compatible fun _ => { checks := false } := fun _ _ => rfl
    have hproceed := proceed_mapMonitor hf s
    have hproceed' := proceed_mapMonitor hf s'
    rw [hleft] at hproceed
    rw [hleft'] at hproceed'
    have heq : left.unwatched = left'.unwatched := by
      have := hproceed.symm.trans ((congrArg proceed hsame).trans hproceed')
      exact Except.ok.inj this
    refine ⟨congrArg (fun s => s.scheduler.pending) heq, ?_⟩
    exact congrArg (fun s : Simulation =>
      { s with scheduler := { s.scheduler with touched := none, pending := #[] } }) heq

end Simulation

end RoundRobin
