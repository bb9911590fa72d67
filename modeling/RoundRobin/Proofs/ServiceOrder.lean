import RoundRobin.Proofs.Alignment

/-!
# Service order

A job that joins the queue is dispatched behind those ahead of it, in the order of the queue, and
before all others: what is in line for the next slice stays in line until it is served
(`dispatches_of_line`). Two jobs that stay queued are therefore dispatched by turns
(`Alternate.moves`). Main statement: `service_order`.
-/

namespace RoundRobin

/-- The process that is dispatched, if the event is a dispatch. -/
def Event.dispatched? : Event → Option Pid
  | .dispatched pid _ _ => some pid
  | _ => none

/-- The position of a process in the list. -/
def ProcessList.position (ps : ProcessList) (pid : Pid) : Nat :=
  ps.findIdx fun p => decide (p.pid = pid)

/-- The positions of the processes that are dispatched, in the order of the events. -/
def dispatches (ps : ProcessList) (events : List Stamped) : List Nat :=
  (events.filterMap (·.event.dispatched?)).map ps.position

variable {ps : ProcessList}

theorem Contract.Kept.position_eq (hk : Contract.Kept ps) {i : Nat} {p : Process}
    (hp : ps[i]? = some p) : ps.position p.pid = i := by
  obtain ⟨hlt, hget⟩ := List.getElem?_eq_some_iff.1 hp
  rw [ProcessList.position, List.findIdx_eq hlt]
  refine ⟨by simp [hget], fun j hj => ?_⟩
  rw [decide_eq_false_iff_not]
  intro hpid
  have := hk.eq_of_pid_eq (List.getElem?_eq_getElem (by omega)) hp hpid
  omega

theorem dispatches_append (events events' : List Stamped) :
    dispatches ps (events ++ events') = dispatches ps events ++ dispatches ps events' := by
  rw [dispatches, List.filterMap_append, List.map_append]
  rfl

namespace Scheduler

variable {s s' : Scheduler}

theorem slots_of_admitJob {i : Nat} {time : Ticks} (h : s.admitJob i time = .ok s') :
    s'.machine.ready.slots = s.machine.ready.slots ++ [i] := by
  simp only [admitJob, Machine.admitJob, Fault.bind_eq_ok_iff, Fault.pure_eq_ok_iff] at h
  obtain ⟨_, ⟨_, _, _, _, ready, hready, rfl⟩, _, _, rfl⟩ := h
  exact ReadyQueue.toList_of_push hready

/-- The end of a slice puts its job at the back of the queue, unless the job retires. -/
theorem slots_of_finishSlice {retired : Option Nat} (h : s.finishSlice = .ok (retired, s')) :
    s'.machine.ready.slots = s.machine.ready.slots ++
      (if retired.isNone then s.machine.current.toList else []) := by
  unfold finishSlice at h
  cases hcurrent : s.machine.current with
  | none =>
    rw [hcurrent] at h
    cases h
    simp
  | some i =>
    simp only [hcurrent, Fault.bind_eq_ok_iff] at h
    obtain ⟨job, _, h⟩ := h
    split at h
    · split at h
      · cases h
      · simp only [Machine.retireCurrent, hcurrent, Fault.bind_eq_ok_iff, Fault.pure_eq_ok_iff] at h
        obtain ⟨_, ⟨_, _, _, _, _, _, rfl⟩, hend⟩ := h
        cases hend
        exact (List.append_nil _).symm
    · simp only [Machine.requeueCurrent, hcurrent, Fault.bind_eq_ok_iff, Fault.pure_eq_ok_iff] at h
      obtain ⟨_, ⟨_, _, _, _, ready, hready, rfl⟩, _, _, hend⟩ := h
      cases hend
      exact ReadyQueue.toList_of_push hready

end Scheduler

namespace Simulation

variable {s s' t u : Simulation} {turn : Turn}

theorem dispatches_of_serves (hk : Contract.Kept ps) (h : Serves ps s turn s') :
    dispatches ps (turn.events ps s s') = [turn.position] := by
  have hending : (turn.ending s s').event.dispatched? = none :=
    Turn.ending_of (P := fun e => e.event.dispatched? = none) (fun _ _ _ => rfl)
      (fun _ _ _ _ => rfl)
  rw [dispatches, turn.filterMap_events (fun _ _ => rfl), hending]
  exact congrArg (fun i => [i]) (hk.position_eq h.process)

/-- What a pass over the arrivals does to the queue, also one that is cut short. -/
theorem queue_of_admitUpTo {arrived : Ticks → Bool} {limit : Nat}
    (h : s.admitUpTo arrived limit = .ok u) :
    s.admitted ≤ u.admitted ∧ u.machine.current = s.machine.current ∧
      u.queue = s.queue ++ List.range' s.admitted (u.admitted - s.admitted) := by
  induction limit generalizing s with
  | zero =>
    cases h
    simp
  | succ limit ih =>
    unfold admitUpTo at h
    split at h
    · cases h
      simp
    · split at h
      · rw [Fault.bind_eq_ok_iff] at h
        obtain ⟨scheduler, hentry, h⟩ := h
        have hslots := Scheduler.slots_of_admitJob hentry
        obtain ⟨_, hcurrent, _⟩ := Scheduler.admitJob_ok hentry
        obtain ⟨hle, hcurrent', hqueue⟩ := ih h
        refine ⟨by simp only at hle; omega, hcurrent'.trans hcurrent, ?_⟩
        have hone : u.admitted - s.admitted = u.admitted - (s.admitted + 1) + 1 := by
          simp only at hle
          omega
        rw [hqueue, hone, List.range'_succ]
        change scheduler.machine.ready.slots ++ _ = _
        rw [hslots, List.append_assoc]
        rfl
      · cases h
        simp

/-- A pass whose next process does not pass the test is over. -/
theorem admitUpTo_of_stopped {arrived : Ticks → Bool}
    (h : ∀ p, s.next? = some p → arrived p.arrival = false) (limit : Nat) :
    s.admitUpTo arrived limit = .ok s := by
  cases limit with
  | zero => rfl
  | succ limit =>
    unfold admitUpTo
    cases hp : s.next? with
    | none => rfl
    | some p => simp [h p hp]

theorem admitUpTo_succ {arrived : Ticks → Bool} {p : Process} (hp : s.next? = some p)
    (htime : arrived p.arrival = true) (limit : Nat) :
    s.admitUpTo arrived (limit + 1) = s.scheduler.admitJob s.admitted p.arrival >>= fun scheduler =>
      admitUpTo arrived { s with scheduler, admitted := s.admitted + 1 } limit := by
  rw [admitUpTo, hp]
  exact if_pos htime

theorem admitUpTo_add (arrived : Ticks → Bool) (m n : Nat) (s : Simulation) :
    s.admitUpTo arrived (m + n) = s.admitUpTo arrived m >>= (·.admitUpTo arrived n) := by
  induction m generalizing s with
  | zero =>
    rw [Nat.zero_add]
    rfl
  | succ m ih =>
    by_cases hstop : ∀ p, s.next? = some p → arrived p.arrival = false
    · rw [admitUpTo_of_stopped hstop, admitUpTo_of_stopped hstop, Fault.ok_bind,
        admitUpTo_of_stopped hstop]
    · simp only [Classical.not_forall, Bool.not_eq_false, exists_prop] at hstop
      obtain ⟨p, hp, htime⟩ := hstop
      rw [Nat.add_right_comm, admitUpTo_succ hp htime, admitUpTo_succ hp htime]
      cases s.scheduler.admitJob s.admitted p.arrival with
      | error fault => rfl
      | ok scheduler => exact ih { s with scheduler, admitted := s.admitted + 1 }

/-- What is queued on the way of a pass stays at the front of the queue until its end. -/
theorem queue_prefix_of_admitWhile {arrived : Ticks → Bool} {limit : Nat}
    (hlimit : limit ≤ s.processes.size - s.admitted) (h : s.admitUpTo arrived limit = .ok u)
    (hall : s.admitWhile arrived = .ok t) : u.queue <+: t.queue := by
  obtain ⟨rest, hrest⟩ := Nat.le.dest hlimit
  rw [admitWhile, ← hrest, admitUpTo_add, h, Fault.ok_bind] at hall
  obtain ⟨_, _, hqueue⟩ := queue_of_admitUpTo hall
  exact ⟨_, hqueue.symm⟩

/-- The rest of a step behind the dispatch of a slice. -/
theorem step_of_dispatch {mid : Simulation} {slice : Slice} {scheduler : Scheduler}
    {events : Array Stamped} (hopen : s.allCompleted = false)
    (hmid : s.admitWhile (· ≤ s.now) = .ok mid)
    (hdispatch : mid.scheduler.dispatch = .ok (some (slice, scheduler)))
    (hstep : s.step = .ok (events, s')) :
    ∃ last retired ended,
      ({ mid with scheduler } : Simulation).admitWhile (· < slice.finish) = .ok last ∧
        last.scheduler.finishSlice = .ok (retired, ended) ∧
        s'.queue = ended.machine.ready.slots := by
  simp only [step, hopen, Bool.false_eq_true, if_false, proceed, hmid, Fault.ok_bind, hdispatch,
    endSlice, Fault.bind_eq_ok_iff, Fault.pure_eq_ok_iff, Scheduler.observe, Scheduler.drain,
    Prod.mk.injEq] at hstep
  obtain ⟨_, ⟨last, hlast, ⟨retired, ended⟩, hend, rfl⟩, _, ⟨_, _, rfl⟩, _, rfl⟩ := hstep
  exact ⟨last, retired, ended, hlast, hend, rfl⟩

/-- The jobs in line for the next slice: those that are queued, and behind them those that have
arrived by now and are still to be let in. -/
def line (ps : ProcessList) (s : Simulation) : List Nat :=
  s.queue ++ List.range' s.admitted (arrivedBefore ps (s.now.toNat + 1) - s.admitted)

theorem queue_prefix_line (ps : ProcessList) (s : Simulation) : s.queue <+: s.line ps :=
  List.prefix_append _ _

theorem Serves.line_eq_cons (h : Serves ps s turn s') (hk : Contract.Kept ps)
    (hsound : s.Sound ps) : s.line ps = turn.position :: turn.rest := by
  rw [Simulation.line, ← h.early_eq hk hsound]
  exact h.line

theorem Skips.line_eq_nil {p : Process} (h : Skips ps s p s') (hk : Contract.Kept ps) :
    s.line ps = [] := by
  have hnone : arrivedBefore ps (s.now.toNat + 1) ≤ s.admitted := by
    apply Nat.le_of_not_lt
    intro hlt
    have harrived := (lt_arrivedBefore_iff hk h.next _).1 hlt
    have hlater := UInt64.lt_iff_toNat_lt.1 h.later
    omega
  rw [line, h.empty, Nat.sub_eq_zero_of_le hnone]
  rfl

namespace Sound

theorem line_eq_nil_of_completed (h : s.Sound ps) (hdone : s.allCompleted = true) :
    s.line ps = [] := by
  obtain ⟨hall, hempty⟩ := h.allCompleted_iff.1 hdone
  have hle := arrivedBefore_le_length ps (s.now.toNat + 1)
  rw [line, hempty, Nat.sub_eq_zero_of_le (by omega)]
  rfl

/-- The pass at the start of a step queues the jobs in line. -/
theorem queue_of_early (h : s.Sound ps) (hk : Contract.Kept ps) {mid : Simulation}
    (hmid : s.admitWhile (· ≤ s.now) = .ok mid) :
    mid.queue = s.line ps ∧ mid.queue.Nodup ∧ ∀ i ∈ mid.queue, i < ps.length := by
  obtain ⟨early, mid', hmid', hadmits, hpassed⟩ := h.early hk
  rw [hmid, Except.ok.injEq] at hmid'
  subst hmid'
  have hearly : early = arrivedBefore ps (s.now.toNat + 1) := by
    apply hadmits.eq_arrivedBefore hk
    intro i p hp hlt
    have := UInt64.le_iff_toNat_le.1 (h.arrived i p hp hlt)
    omega
  refine ⟨?_, hpassed.consistent.nodup, fun i hi => ?_⟩
  · rw [hpassed.queue, hearly]
    rfl
  · obtain ⟨_, p, _, hp, _⟩ := h.job_of_line hadmits hpassed hi
    exact (List.getElem?_eq_some_iff.1 hp).1

/-- No job is in line twice, and all of them are jobs of the list. -/
theorem nodup_of_line (h : s.Sound ps) (hk : Contract.Kept ps) :
    (s.line ps).Nodup ∧ ∀ i ∈ s.line ps, i < ps.length := by
  obtain ⟨_, mid, hmid, _, _⟩ := h.early hk
  obtain ⟨hline, hnodup, hlt⟩ := h.queue_of_early hk hmid
  rw [← hline]
  exact ⟨hnodup, hlt⟩

end Sound

/-- A move dispatches the job at the front of the line, if there is one. -/
theorem Moves.line_cases {events : List Stamped} (hm : Moves ps s events s')
    (hk : Contract.Kept ps) (hsound : s.Sound ps) :
    (∃ turn, Serves ps s turn s' ∧ s.line ps = turn.position :: turn.rest ∧
      dispatches ps events = [turn.position]) ∨ s.line ps = [] := by
  cases hm with
  | serves turn h =>
    exact .inl ⟨turn, h, h.line_eq_cons hk hsound, dispatches_of_serves hk h⟩
  | skips p h => exact .inr (h.line_eq_nil hk)

/-- With a job in line, a step serves it. -/
theorem Orderly.turn_of_line (h : s.Orderly ps) (hk : Contract.Kept ps) {new : Array Stamped}
    (hstep : s.step = .ok (new, s')) (hline : s.line ps ≠ []) :
    ∃ turn, Serves ps s turn s' ∧ new.toList = turn.events ps s s' := by
  rcases h.of_step hk hstep with ⟨hdone, _, _⟩ | ⟨_, hmoves, _, _⟩
  · exact absurd (h.sound.line_eq_nil_of_completed hdone) hline
  generalize new.toList = events at hmoves
  cases hmoves with
  | serves turn hm => exact ⟨turn, hm, rfl⟩
  | skips p hm => exact absurd (hm.line_eq_nil hk) hline

/-- With no job in line, a step skips a gap, or all jobs have finished. -/
theorem Orderly.gap_of_line (h : s.Orderly ps) (hk : Contract.Kept ps) {new : Array Stamped}
    (hstep : s.step = .ok (new, s')) (hline : s.line ps = []) :
    (s.allCompleted = true ∧ new = #[] ∧ s' = s) ∨
      ∃ p, Skips ps s p s' ∧ new.toList = [{ time := s.now, event := .idle p.arrival }] := by
  rcases h.of_step hk hstep with ⟨hdone, hnew, hsame⟩ | ⟨_, hmoves, _, _⟩
  · exact .inl ⟨hdone, hnew, hsame⟩
  generalize new.toList = events at hmoves
  cases hmoves with
  | serves turn hm =>
    rw [hm.line_eq_cons hk h.sound] at hline
    cases hline
  | skips p hm => exact .inr ⟨p, hm, rfl⟩

/-- If jobs are in line in both of two states or in neither, and the same goes for processes that
are still to be let in, then a step does the same kind of thing in both. -/
theorem Orderly.steps_alike {qs : ProcessList} {new new' : Array Stamped} {u' : Simulation}
    (h : s.Orderly ps) (h' : u.Orderly qs) (hk : Contract.Kept ps) (hk' : Contract.Kept qs)
    (hstep : s.step = .ok (new, s')) (hstep' : u.step = .ok (new', u'))
    (hline : s.line ps = [] ↔ u.line qs = [])
    (hnext : s.admitted = ps.length ↔ u.admitted = qs.length) :
    (s' = s ∧ u' = u) ∨ (∃ p q, Skips ps s p s' ∧ Skips qs u q u') ∨
      ∃ turn turn', Serves ps s turn s' ∧ Serves qs u turn' u' := by
  by_cases hempty : s.line ps = []
  · rcases h.gap_of_line hk hstep hempty with ⟨hdone, _, hsame⟩ | ⟨p, hm, _⟩
    · rcases h'.gap_of_line hk' hstep' (hline.1 hempty) with ⟨_, _, hsame'⟩ | ⟨q, hm', _⟩
      · exact .inl ⟨hsame, hsame'⟩
      · have hall := hnext.1 (h.sound.allCompleted_iff.1 hdone).1
        have hlt := (List.getElem?_eq_some_iff.1 hm'.next).1
        omega
    · rcases h'.gap_of_line hk' hstep' (hline.1 hempty) with ⟨hdone, _, _⟩ | ⟨q, hm', _⟩
      · have hall := hnext.2 (h'.sound.allCompleted_iff.1 hdone).1
        have hlt := (List.getElem?_eq_some_iff.1 hm.next).1
        omega
      · exact .inr (.inl ⟨p, q, hm, hm'⟩)
  · obtain ⟨turn, hm, _⟩ := h.turn_of_line hk hstep hempty
    obtain ⟨turn', hm', _⟩ := h'.turn_of_line hk' hstep' (mt hline.2 hempty)
    exact .inr (.inr ⟨turn, turn', hm, hm'⟩)

/-- The jobs at the front of the line are dispatched one after the other, one in a step. -/
theorem Orderly.dispatches_of_line (h : s.Orderly ps) (hk : Contract.Kept ps) {front : List Nat}
    (hfront : front <+: s.line ps) {n : Nat} {events : Array Stamped}
    (hrun : s.steps n = .ok (events, u)) :
    (dispatches ps events.toList).take front.length = front.take n := by
  induction n generalizing s front events with
  | zero =>
    cases hrun
    exact List.take_nil
  | succ n ih =>
    cases front with
    | nil => rw [List.length_nil, List.take_zero, List.take_nil]
    | cons i front =>
      obtain ⟨new, t, after, hstep, hrest, rfl⟩ := steps_first_eq_ok_iff.1 hrun
      rcases h.of_step hk hstep with ⟨hdone, _, _⟩ | ⟨_, hmoves, horderly, _⟩
      · rw [h.sound.line_eq_nil_of_completed hdone] at hfront
        cases List.prefix_nil.1 hfront
      rcases hmoves.line_cases hk h.sound with ⟨turn, hserves, hline, hnew⟩ | hnone
      · rw [hline, List.cons_prefix_cons] at hfront
        obtain ⟨rfl, hfront⟩ := hfront
        -- what is in line behind the front is at the front of the queue when the turn is over
        have hqueue : front <+: t.queue := by
          rw [hserves.queue, List.append_assoc]
          exact hfront.trans (List.prefix_append _ _)
        have hrest' := ih horderly (hqueue.trans (queue_prefix_line ps t)) hrest
        rw [Array.toList_append, dispatches_append, hnew, List.length_cons, List.singleton_append,
          List.take_succ_cons, List.take_succ_cons, hrest']
      · rw [hnone] at hfront
        cases List.prefix_nil.1 hfront

/-- A point of a run at which job `i` has just been put at the back of the queue: the queue there,
and how many steps of the run have been through their dispatch. A pass over the arrivals puts one
job after the other there, and the end of a slice puts the job there that ran. -/
inductive Joins (s : Simulation) (i : Nat) : List Nat → Nat → Prop where
  /-- Let in at the start of a step. -/
  | early {k limit : Nat} {events : Array Stamped} {t u : Simulation}
      (hrun : s.steps k = .ok (events, t)) (hopen : t.allCompleted = false)
      (hlimit : limit ≤ t.processes.size - t.admitted)
      (hpass : t.admitUpTo (· ≤ t.now) limit = .ok u)
      (hnew : t.admitted ≤ i) (hlast : u.admitted = i + 1) : Joins s i u.queue k
  /-- Let in while the slice of the step lasts. -/
  | late {k limit : Nat} {events : Array Stamped} {t mid u : Simulation} {slice : Slice}
      {scheduler : Scheduler}
      (hrun : s.steps k = .ok (events, t)) (hopen : t.allCompleted = false)
      (hmid : t.admitWhile (· ≤ t.now) = .ok mid)
      (hdispatch : mid.scheduler.dispatch = .ok (some (slice, scheduler)))
      (hlimit : limit ≤ mid.processes.size - mid.admitted)
      (hpass : ({ mid with scheduler } : Simulation).admitUpTo (· < slice.finish) limit = .ok u)
      (hnew : mid.admitted ≤ i) (hlast : u.admitted = i + 1) : Joins s i u.queue (k + 1)
  /-- Preempted at the end of the slice of the step. -/
  | preempted {k : Nat} {queue : List Nat} {events : Array Stamped} {t mid last : Simulation}
      {slice : Slice} {scheduler ended : Scheduler}
      (hrun : s.steps k = .ok (events, t)) (hopen : t.allCompleted = false)
      (hmid : t.admitWhile (· ≤ t.now) = .ok mid)
      (hdispatch : mid.scheduler.dispatch = .ok (some (slice, scheduler)))
      (hpass : ({ mid with scheduler } : Simulation).admitWhile (· < slice.finish) = .ok last)
      (hend : last.scheduler.finishSlice = .ok (none, ended)) (hjob : slice.job = i)
      (hqueue : ended.machine.ready.slots = queue) : Joins s i queue (k + 1)

theorem queue_of_last {arrived : Ticks → Bool} {limit i : Nat}
    (hpass : s.admitUpTo arrived limit = .ok u) (hnew : s.admitted ≤ i)
    (hlast : u.admitted = i + 1) :
    u.queue = (s.queue ++ List.range' s.admitted (i - s.admitted)) ++ [i] := by
  obtain ⟨_, _, hqueue⟩ := queue_of_admitUpTo hpass
  have hsplit : u.admitted - s.admitted = i - s.admitted + 1 := by omega
  rw [hqueue, hsplit, List.range'_1_concat, Nat.add_sub_cancel' hnew, List.append_assoc]

namespace Joins

variable {i k : Nat} {queue : List Nat}

/-- The job that joins is the last one in the queue. -/
theorem exists_ahead (h : s.Joins i queue k) : ∃ ahead, queue = ahead ++ [i] := by
  cases h with
  | early _ _ _ hpass hnew hlast => exact ⟨_, queue_of_last hpass hnew hlast⟩
  | late _ _ _ _ _ hpass hnew hlast => exact ⟨_, queue_of_last hpass hnew hlast⟩
  | preempted _ _ _ hdispatch hpass hend hjob hqueue =>
    obtain ⟨_, hcurrent, _⟩ := queue_of_admitUpTo hpass
    obtain ⟨hstarted, _⟩ := Scheduler.dispatch_ok hdispatch
    rw [← hqueue, Scheduler.slots_of_finishSlice hend, hcurrent.trans hstarted, hjob]
    exact ⟨_, rfl⟩

/-- The queue that a job joins is at the front of the line once the dispatches before are over. -/
theorem prefix_line (h : s.Joins i queue k) (horderly : s.Orderly ps) (hk : Contract.Kept ps)
    (hroom : s.scheduler.monitor.steps.toNat + k < UInt64.size) :
    ∃ before t, s.steps k = .ok (before, t) ∧ queue <+: t.line ps := by
  cases h with
  | early hrun hopen hlimit hpass hnew hlast =>
    have hsound := (horderly.run hk hrun).2.1.sound
    obtain ⟨_, mid, hmid, _, _⟩ := hsound.early hk
    refine ⟨_, _, hrun, ?_⟩
    rw [← (hsound.queue_of_early hk hmid).1]
    exact queue_prefix_of_admitWhile hlimit hpass hmid
  | @late k _ _ t mid u slice scheduler hrun hopen hmid hdispatch hlimit hpass hnew hlast =>
    obtain ⟨events, u, hsteps⟩ := horderly.steps_ok hk _ hroom
    obtain ⟨before, t, new, hrun', hstep, rfl⟩ := steps_succ_eq_ok_iff.1 hsteps
    rw [hrun, Except.ok.injEq, Prod.mk.injEq] at hrun'
    obtain ⟨rfl, rfl⟩ := hrun'
    obtain ⟨last, retired, ended, hlate, hend, hqueue⟩ :=
      step_of_dispatch hopen hmid hdispatch hstep
    have hslots := Scheduler.slots_of_finishSlice hend
    refine ⟨_, u, hsteps, ?_⟩
    have hfront := queue_prefix_of_admitWhile (s := { mid with scheduler }) hlimit hpass hlate
    apply hfront.trans
    apply List.IsPrefix.trans _ (queue_prefix_line ps u)
    rw [hqueue, hslots]
    exact List.prefix_append _ _
  | preempted hrun hopen hmid hdispatch hpass hend hjob hslots =>
    obtain ⟨events, u, hsteps⟩ := horderly.steps_ok hk _ hroom
    obtain ⟨before, t, new, hrun', hstep, rfl⟩ := steps_succ_eq_ok_iff.1 hsteps
    rw [hrun, Except.ok.injEq, Prod.mk.injEq] at hrun'
    obtain ⟨rfl, rfl⟩ := hrun'
    obtain ⟨last, retired, ended, hlate, hend', hqueue⟩ :=
      step_of_dispatch hopen hmid hdispatch hstep
    rw [hpass, Except.ok.injEq] at hlate
    subst hlate
    rw [hend, Except.ok.injEq, Prod.mk.injEq] at hend'
    obtain ⟨_, rfl⟩ := hend'
    refine ⟨_, u, hsteps, ?_⟩
    rw [← hslots, ← hqueue]
    exact queue_prefix_line ps u

end Joins

/-- Of two jobs in a queue, one is ahead of the other. -/
theorem sublist_of_mem {l : List Nat} {i j : Nat} (hi : i ∈ l) (hj : j ∈ l) (hij : i ≠ j) :
    [i, j].Sublist l ∨ [j, i].Sublist l := by
  obtain ⟨before, after, rfl⟩ := List.append_of_mem hi
  rw [List.mem_append, List.mem_cons] at hj
  rcases hj with hbefore | rfl | hafter
  · exact .inr ((List.singleton_sublist.2 hbefore).append
      (List.singleton_sublist.2 List.mem_cons_self))
  · exact absurd rfl hij
  · exact .inl ((List.Sublist.cons_cons i (List.singleton_sublist.2 hafter)).trans
      (List.sublist_append_right _ _))

/-- Of two jobs that stay queued, the one ahead goes behind the other when it is dispatched, and the
other one is not dispatched. -/
theorem Serves.alternates (h : Serves ps s turn s') (hsound : s.Sound ps) {i j : Nat}
    (hqueue : [i, j].Sublist s.queue) (hi : i ∈ s'.queue) :
    (turn.position ≠ i ∧ turn.position ≠ j ∧ [i, j].Sublist s'.queue) ∨
      (turn.position = i ∧ turn.position ≠ j ∧ [j, i].Sublist s'.queue) := by
  have hline : [i, j].Sublist (turn.position :: turn.rest) := by
    rw [← h.line]
    exact hqueue.trans (List.sublist_append_left _ _)
  have hfresh := (List.nodup_cons.1 (hsound.nodup_line h)).1
  by_cases hposition : turn.position = i
  · subst hposition
    have hj : j ∈ turn.rest := List.singleton_sublist.1 (List.cons_sublist_cons.1 hline)
    have hne : turn.position ≠ j := fun heq => hfresh (heq ▸ hj)
    refine .inr ⟨rfl, hne, ?_⟩
    -- the job is still queued, so the turn has put it at the back
    have hback : ¬ turn.Ends s.quantum := by
      have hlt := hsound.lt_early h (.inl rfl)
      rcases (h.mem_queue_iff _).1 hi with hrest | hrange | ⟨_, hback⟩
      · exact absurd hrest hfresh
      · omega
      · exact hback
    rw [h.queue, if_neg hback]
    exact ((List.singleton_sublist.2 hj).trans (List.sublist_append_left _ _)).append
      (List.Sublist.refl [turn.position])
  · have hrest : [i, j].Sublist turn.rest := by
      cases hline with
      | cons _ hrest => exact hrest
      | cons_cons _ hrest => exact absurd rfl hposition
    have hj : j ∈ turn.rest := hrest.subset (by simp)
    refine .inl ⟨hposition, fun heq => hfresh (heq ▸ hj), ?_⟩
    rw [h.queue, List.append_assoc]
    exact hrest.trans (List.sublist_append_left _ _)

/-- Job `i` has been dispatched as often as job `j` and is ahead of it, or it has been dispatched
once more and is behind it. -/
def Alternate (i j : Nat) (queue served : List Nat) : Prop :=
  ([i, j].Sublist queue ∧ served.count i = served.count j) ∨
    ([j, i].Sublist queue ∧ served.count i = served.count j + 1)

namespace Alternate

variable {i j : Nat} {served : List Nat}

theorem moves {events : List Stamped} (h : Alternate i j s.queue served)
    (hk : Contract.Kept ps) (hsound : s.Sound ps) (hm : Moves ps s events s')
    (hi : i ∈ s'.queue) (hj : j ∈ s'.queue) :
    Alternate i j s'.queue (served ++ dispatches ps events) := by
  rcases hm.line_cases hk hsound with ⟨turn, hserves, _, hnew⟩ | hnone
  · have hother : ∀ k, turn.position ≠ k → [turn.position].count k = 0 := fun k hk =>
      List.count_cons_of_ne hk
    have hself : [turn.position].count turn.position = 1 := List.count_singleton_self
    rw [hnew, Alternate, List.count_append, List.count_append]
    rcases h with ⟨hqueue, hcount⟩ | ⟨hqueue, hcount⟩
    · rcases hserves.alternates hsound hqueue hi with
        ⟨hne, hne', hqueue'⟩ | ⟨rfl, hne, hqueue'⟩
      · exact .inl ⟨hqueue', by rw [hother i hne, hother j hne', hcount]⟩
      · exact .inr ⟨hqueue', by rw [hself, hother j hne, hcount]⟩
    · rcases hserves.alternates hsound hqueue hj with
        ⟨hne, hne', hqueue'⟩ | ⟨rfl, hne, hqueue'⟩
      · exact .inr ⟨hqueue', by rw [hother i hne', hother j hne, hcount]⟩
      · exact .inl ⟨hqueue', by rw [hother i hne, hself, hcount]⟩
  · have hempty : s.queue = [] := List.prefix_nil.1 (hnone ▸ queue_prefix_line ps s)
    rcases h with ⟨hqueue, _⟩ | ⟨hqueue, _⟩
    · rw [hempty] at hqueue
      cases hqueue
    · rw [hempty] at hqueue
      cases hqueue

/-- Jobs that stay queued are dispatched by turns. -/
theorem steps (h : s.Orderly ps) (hk : Contract.Kept ps)
    (hfirst : [i, j].Sublist s.queue) {n : Nat} {events : Array Stamped}
    (hrun : s.steps n = .ok (events, u))
    (hqueued : ∀ m ≤ n, ∀ before t, s.steps m = .ok (before, t) → i ∈ t.queue ∧ j ∈ t.queue) :
    Alternate i j u.queue (dispatches ps events.toList) := by
  induction n generalizing events u with
  | zero =>
    cases hrun
    exact .inl ⟨hfirst, rfl⟩
  | succ n ih =>
    obtain ⟨before, t, new, hbefore, hstep, rfl⟩ := steps_succ_eq_ok_iff.1 hrun
    have halternate := ih hbefore fun m hm => hqueued m (Nat.le_succ_of_le hm)
    have horderly := (h.run hk hbefore).2.1
    obtain ⟨hi, hj⟩ := hqueued (n + 1) (Nat.le_refl _) _ u hrun
    rw [Array.toList_append, dispatches_append]
    rcases horderly.of_step hk hstep with ⟨_, rfl, rfl⟩ | ⟨_, hmoves, _, _⟩
    · rw [show dispatches ps (#[] : Array Stamped).toList = [] from rfl, List.append_nil]
      exact halternate
    · exact halternate.moves hk horderly.sound hmoves hi hj

theorem count_le {queue : List Nat} (h : Alternate i j queue served) :
    served.count i ≤ served.count j + 1 ∧ served.count j ≤ served.count i + 1 := by
  rcases h with ⟨_, hcount⟩ | ⟨_, hcount⟩
  · omega
  · omega

end Alternate

/-- Jobs that stay queued are dispatched equally often, up to one dispatch. -/
theorem Orderly.count_dispatches_le (h : s.Orderly ps) (hk : Contract.Kept ps) {i j n : Nat}
    {events : Array Stamped} (hrun : s.steps n = .ok (events, u))
    (hqueued : ∀ m ≤ n, ∀ before t, s.steps m = .ok (before, t) → i ∈ t.queue ∧ j ∈ t.queue) :
    (dispatches ps events.toList).count i ≤ (dispatches ps events.toList).count j + 1 ∧
      (dispatches ps events.toList).count j ≤ (dispatches ps events.toList).count i + 1 := by
  by_cases hij : i = j
  · rw [hij]
    exact ⟨Nat.le_succ _, Nat.le_succ _⟩
  obtain ⟨hi, hj⟩ := hqueued 0 (Nat.zero_le n) #[] s rfl
  rcases sublist_of_mem hi hj hij with hfirst | hfirst
  · exact (Alternate.steps h hk hfirst hrun hqueued).count_le
  · have halternate := Alternate.steps h hk hfirst hrun fun m hm before t ht =>
      (hqueued m hm before t ht).symm
    exact halternate.count_le.symm

/-- When a job has joined the queue, the next dispatches of the run are those of the jobs ahead of
it, each one once and in the order of the queue, and then its own. Two jobs that stay queued from
one state between steps to another are dispatched equally often in between, up to one dispatch. -/
theorem service_order {config : Config} (hstart : start ps config = .ok s) :
    (∀ i queue k n, s.Joins i queue k → k + n < UInt64.size →
      ∃ ahead before t events u, queue = ahead ++ [i] ∧ queue.Nodup ∧ (∀ j ∈ queue, j < ps.length) ∧
        s.steps k = .ok (before, t) ∧ t.steps n = .ok (events, u) ∧
        (dispatches ps events.toList).take queue.length = queue.take n) ∧
    (∀ i j m n before t events u, s.steps m = .ok (before, t) → t.steps n = .ok (events, u) →
      (∀ l ≤ n, ∀ between v, t.steps l = .ok (between, v) → i ∈ v.queue ∧ j ∈ v.queue) →
      (dispatches ps events.toList).count i ≤ (dispatches ps events.toList).count j + 1 ∧
        (dispatches ps events.toList).count j ≤ (dispatches ps events.toList).count i + 1) := by
  have hk := kept_of_start hstart
  have horderly := orderly_start hstart
  have hzero : s.scheduler.monitor.steps.toNat = 0 := congrArg UInt64.toNat (steps_of_start hstart)
  constructor
  · intro i queue k n hjoins hroom
    obtain ⟨ahead, hahead⟩ := hjoins.exists_ahead
    obtain ⟨before, t, hrun, hline⟩ := hjoins.prefix_line horderly hk (by omega)
    obtain ⟨_, horderly', hsteps⟩ := horderly.run hk hrun
    obtain ⟨events, u, hrest⟩ := horderly'.steps_ok hk n (by omega)
    obtain ⟨hnodup, hlt⟩ := horderly'.sound.nodup_of_line hk
    exact ⟨ahead, before, t, events, u, hahead, hnodup.sublist hline.sublist,
      fun j hj => hlt j (hline.subset hj), hrun, hrest, horderly'.dispatches_of_line hk hline hrest⟩
  · intro i j m n before t events u hrun hrest hqueued
    exact (horderly.run hk hrun).2.1.count_dispatches_le hk hrest hqueued

theorem service_order_arrivalsAtSlices :
    ∃ s, start arrivalsAtSlices { quantum := 2, checks := true } = .ok s ∧ s.Joins 0 [1, 0] 1 ∧
      (∀ i queue k n, s.Joins i queue k → k + n < UInt64.size →
        ∃ ahead before t events u, queue = ahead ++ [i] ∧ queue.Nodup ∧
          (∀ j ∈ queue, j < arrivalsAtSlices.length) ∧
          s.steps k = .ok (before, t) ∧ t.steps n = .ok (events, u) ∧
          (dispatches arrivalsAtSlices events.toList).take queue.length = queue.take n) ∧
      (∀ i j m n before t events u, s.steps m = .ok (before, t) → t.steps n = .ok (events, u) →
        (∀ l ≤ n, ∀ between v, t.steps l = .ok (between, v) → i ∈ v.queue ∧ j ∈ v.queue) →
        (dispatches arrivalsAtSlices events.toList).count i ≤
            (dispatches arrivalsAtSlices events.toList).count j + 1 ∧
          (dispatches arrivalsAtSlices events.toList).count j ≤
            (dispatches arrivalsAtSlices events.toList).count i + 1) := by
  have hstart : start arrivalsAtSlices { quantum := 2, checks := true } = .ok _ := rfl
  refine ⟨_, hstart, ?_, service_order hstart⟩
  exact .preempted rfl rfl rfl rfl rfl rfl rfl rfl

end Simulation

end RoundRobin
