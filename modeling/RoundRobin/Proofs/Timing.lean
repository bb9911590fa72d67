import RoundRobin.Proofs.ExactTime

/-!
# Where the time of a process goes

If the clock fits, the time from the arrival of a process to its completion is spent in three ways:
on the rest of the slice in which it arrived (`offset`), waiting in the queue, and on the processor.
`Charged` says so of every job at every instant, and `completion_identity` of the end of a run.
-/

namespace RoundRobin

/-- How long a slice of another process goes on after `p` has arrived strictly within it. -/
def Stamped.rest? (p : Process) : Stamped → Option Nat
  | { time, event := .dispatched pid slice _ } =>
    if pid ≠ p.pid ∧ time.toNat < p.arrival.toNat ∧
        p.arrival.toNat < time.toNat + slice.toNat then
      some (time.toNat + slice.toNat - p.arrival.toNat)
    else none
  | _ => none

/-- The time that `p` spends on the rest of the slice within which it arrives, if there is one. -/
def offset (events : List Stamped) (p : Process) : Nat :=
  (events.findSome? (Stamped.rest? p)).getD 0

/-- A later slice does not matter for a process that has arrived. -/
theorem Stamped.rest?_of_arrived {p : Process} {e : Stamped} (h : p.arrival ≤ e.time) :
    e.rest? p = none := by
  rcases e with ⟨time, event⟩
  cases event with
  | dispatched pid slice firstRun =>
    rw [rest?, if_neg]
    rintro ⟨_, hlt, _⟩
    exact absurd (UInt64.le_iff_toNat_le.1 h) (Nat.not_le_of_lt hlt)
  | admitted | preempted | retired | idle => rfl

theorem offset_append_of_none {events new : List Stamped} {p : Process}
    (h : ∀ e ∈ new, e.rest? p = none) : offset (events ++ new) p = offset events p := by
  rw [offset, List.findSome?_append, List.findSome?_eq_none_iff.2 h, Option.or_none, offset]

theorem offset_append_of_ahead {events : List Stamped} {p : Process} (new : List Stamped)
    (h : ∀ e ∈ events, e.rest? p = none) : offset (events ++ new) p = offset new p := by
  rw [offset, List.findSome?_append, List.findSome?_eq_none_iff.2 h, Option.none_or, offset]

namespace Simulation

variable {ps : ProcessList} {s s' : Simulation} {turn : Turn} {p : Process}

/-- Of the events of a turn, only the one that opens it can matter for an offset. -/
theorem Turn.mem_events_cases {e : Stamped} (he : e ∈ turn.events ps s s') :
    e = turn.opening s ∨ e.rest? p = none := by
  have hadmission : ∀ a b, e ∈ admissions ps a b → e.rest? p = none := by
    intro a b hmem
    rcases mem_admissions_iff.1 hmem with ⟨_, _, _, _, _, rfl⟩
    rfl
  rcases Turn.mem_events_iff.1 he with hearly | hopening | hlate | hending
  · exact .inr (hadmission _ _ hearly)
  · exact .inl hopening
  · exact .inr (hadmission _ _ hlate)
  · right
    rw [hending, Turn.ending]
    unfold Job.closing
    split <;> rfl

theorem Turn.opening_mem_events (ps : ProcessList) (turn : Turn) (s s' : Simulation) :
    turn.opening s ∈ turn.events ps s s' :=
  Turn.mem_events_iff.2 (.inr (.inl rfl))

/-- The offset that the events of a turn give a process. -/
theorem Turn.offset_events (turn : Turn) (s s' : Simulation) :
    offset (turn.events ps s s') p = ((turn.opening s).rest? p).getD 0 := by
  have hmem := turn.opening_mem_events ps s s'
  unfold offset
  cases hfound : (turn.events ps s s').findSome? (Stamped.rest? p) with
  | none => rw [List.findSome?_eq_none_iff.1 hfound _ hmem]
  | some d =>
    rcases List.exists_of_findSome?_eq_some hfound with ⟨e, he, hrest⟩
    rcases Turn.mem_events_cases he with rfl | hnone
    · rw [hrest]
    · rw [hnone] at hrest
      cases hrest

/-- What the events so far say about the offset of a process. -/
structure Settled (s : Simulation) (events : List Stamped) (i : Nat) (p : Process) : Prop where
  ahead : s.admitted ≤ i → ∀ e ∈ events, e.rest? p = none
  offset_eq : ∀ e ∈ events, ∀ d, e.rest? p = some d → d = offset events p
  offset_lt : offset events p < s.quantum.toNat

/-- All time of a job from its arrival up to now, or up to its completion, is accounted for. -/
structure Charged (s : Simulation) (events : List Stamped) (p : Process) (job : Job) : Prop where
  spent : (job.completion.getD s.now).toNat =
    p.arrival.toNat + offset events p + job.waiting.toNat + job.cpuTime.toNat
  unserved : job.response = none → job.cpuTime = 0
  response_le : ∀ response, job.response = some response →
    response.toNat ≤ offset events p + job.waiting.toNat

/-- The account of the time of every process. -/
structure Charges (ps : ProcessList) (s : Simulation) (events : List Stamped) : Prop where
  settled : ∀ i p, ps[i]? = some p → s.Settled events i p
  charged : ∀ i p job, ps[i]? = some p → s.job? i = some job → i < s.admitted →
    s.Charged events p job

/-- A turn that starts when a process has arrived leaves its offset. -/
theorem Turn.rest?_of_arrived {e : Stamped} (harrival : p.arrival ≤ s.now)
    (he : e ∈ turn.events ps s s') : e.rest? p = none := by
  rcases Turn.mem_events_cases he with rfl | hnone
  · exact Stamped.rest?_of_arrived harrival
  · exact hnone

namespace Serves

/-- The offset of a process that arrives within a turn is what is left of the turn then. -/
theorem rest?_of_late (h : Serves ps s turn s') (hk : Contract.Kept ps) (hsound : s.Sound ps)
    (hnow : s'.now.toNat = s.now.toNat + (turn.run s.quantum).toNat) {i : Nat}
    (hp : ps[i]? = some p) (hearly : turn.early ≤ i) (hlate : i < turn.late) :
    (turn.opening s).rest? p = some (s'.now.toNat - p.arrival.toNat) := by
  have hahead := h.early.ahead i p hp hearly
  have harrived := h.late.arrived i p hp hearly hlate
  have hother : turn.process.pid ≠ p.pid := by
    intro hpid
    have heq := hk.eq_of_pid_eq h.process hp hpid
    have := hsound.lt_early h (.inl rfl)
    omega
  rw [Turn.opening, Stamped.rest?, if_pos ⟨hother, by omega, by omega⟩, hnow]

/-- A turn leaves the offset of a process that arrives when it has ended or later. -/
theorem rest?_of_ahead (h : Serves ps s turn s')
    (hnow : s'.now.toNat = s.now.toNat + (turn.run s.quantum).toNat) {i : Nat}
    (hp : ps[i]? = some p) (hlate : turn.late ≤ i) : (turn.opening s).rest? p = none := by
  have hahead := h.late.ahead i p hp hlate
  rw [Turn.opening, Stamped.rest?, if_neg]
  rintro ⟨_, _, hlt⟩
  omega

/-- A process that was let in before the turn had arrived by then. -/
theorem arrival_le (h : Serves ps s turn s') (hsound : s.Sound ps) {i : Nat}
    (hp : ps[i]? = some p) (hearly : i < turn.early) : p.arrival ≤ s.now := by
  by_cases hold : i < s.admitted
  · exact hsound.arrived i p hp hold
  · have := h.early.arrived i p hp (by omega) hearly
    rw [UInt64.le_iff_toNat_le]
    omega

end Serves

/-- Events that do not matter for a process leave its offset. -/
theorem Settled.keep {events new : List Stamped} {i : Nat} (hset : s.Settled events i p)
    (hnew : ∀ e ∈ new, e.rest? p = none) (hquantum : s'.quantum = s.quantum)
    (hadmitted : s'.admitted ≤ i → s.admitted ≤ i) : s'.Settled (events ++ new) i p := by
  have hoffset : offset (events ++ new) p = offset events p := offset_append_of_none hnew
  refine ⟨?_, ?_, ?_⟩
  · intro hle e he
    rcases List.mem_append.1 he with hold | hfresh
    · exact hset.ahead (hadmitted hle) e hold
    · exact hnew e hfresh
  · intro e he d hd
    rw [hoffset]
    rcases List.mem_append.1 he with hold | hfresh
    · exact hset.offset_eq e hold d hd
    · rw [hnew e hfresh] at hd
      cases hd
  · rw [hoffset, hquantum]
    exact hset.offset_lt

/-- A turn settles the offsets of the processes that arrive within it, and leaves all others. -/
theorem Settled.serves {events : List Stamped} {i : Nat} (hset : s.Settled events i p)
    (h : Serves ps s turn s') (hk : Contract.Kept ps) (hsound : s.Sound ps)
    (hnow : s'.now.toNat = s.now.toNat + (turn.run s.quantum).toNat) (hp : ps[i]? = some p) :
    s'.Settled (events ++ turn.events ps s s') i p := by
  have hquantum : s'.quantum = s.quantum := h.frame.quantum
  by_cases hearly : i < turn.early
  · have hnew : ∀ e ∈ turn.events ps s s', e.rest? p = none := fun e he =>
      Turn.rest?_of_arrived (h.arrival_le hsound hp hearly) he
    apply hset.keep hnew hquantum
    intro hle
    have := h.late.le
    rw [h.admitted] at hle
    omega
  have hle := h.early.le
  have hold := hset.ahead (by omega)
  have hoffset := offset_append_of_ahead (turn.events ps s s') hold
  rw [turn.offset_events] at hoffset
  have hcases : ∀ e ∈ events ++ turn.events ps s s', e = turn.opening s ∨ e.rest? p = none := by
    intro e he
    rcases List.mem_append.1 he with hbefore | hfresh
    · exact .inr (hold e hbefore)
    · exact Turn.mem_events_cases hfresh
  by_cases hlate : i < turn.late
  · have hrest := h.rest?_of_late hk hsound hnow hp (by omega) hlate
    rw [hrest, Option.getD_some] at hoffset
    refine ⟨?_, ?_, ?_⟩
    · intro hge
      rw [h.admitted] at hge
      omega
    · intro e he d hd
      rcases hcases e he with rfl | hnone
      · rw [hrest, Option.some.injEq] at hd
        rw [hoffset, hd]
      · rw [hnone] at hd
        cases hd
    · have hahead := h.early.ahead i p hp (by omega)
      have hrun := turn.toNat_run s.quantum
      have hpos := quantum_pos s
      rw [hoffset, hquantum]
      omega
  · have hrest := h.rest?_of_ahead hnow hp (by omega)
    rw [hrest, Option.getD_none] at hoffset
    have hall : ∀ e ∈ events ++ turn.events ps s s', e.rest? p = none := by
      intro e he
      rcases hcases e he with rfl | hnone
      · exact hrest
      · exact hnone
    refine ⟨fun _ => hall, ?_, ?_⟩
    · intro e he d hd
      rw [hall e he] at hd
      cases hd
    · rw [hoffset]
      exact quantum_pos s'

/-- In line for a turn, the time of a job since its arrival is accounted for. -/
theorem Charges.line {events : List Stamped} (hc : Charges ps s events) (h : Serves ps s turn s')
    (hsound : s.Sound ps) {i : Nat} {job : Job} (hline : i = turn.position ∨ i ∈ turn.rest)
    (hp : ps[i]? = some p) (hjob : s.job? i = some job) :
    s.Charged events p job := by
  rcases (h.mem_line_iff i).1 hline with hqueue | ⟨hle, hlt⟩
  · exact hc.charged i p job hp hjob (hsound.queue_lt i hqueue)
  · obtain rfl := hsound.eq_of_ahead hp hle hjob
    have hnone := (hc.settled i p hp).ahead hle
    have hoffset : offset events p = 0 := by
      rw [offset, List.findSome?_eq_none_iff.2 hnone, Option.getD_none]
    -- a process that is let in at the start of a step arrives right then
    have hahead := UInt64.le_iff_toNat_le.1 (hsound.ahead i p hp hle)
    have harrived := h.early.arrived i p hp hle hlt
    refine ⟨?_, fun _ => rfl, nofun⟩
    change s.now.toNat = p.arrival.toNat + offset events p + 0 + 0
    omega

/-- The job that had the turn has spent it on the processor. -/
theorem Charged.served {events new : List Stamped} {job : Job} (hc : s.Charged events p job)
    (hready : s.Eligible p job) (hoffset : offset (events ++ new) p = offset events p)
    (hnow : s'.now.toNat = s.now.toNat + (job.share s.quantum).toNat) :
    s'.Charged (events ++ new) p ((job.served s.now s.quantum).leave s'.now) := by
  rcases hready with ⟨haccounts, harrival, _, hcompletion, _⟩
  have hspent := hc.spent
  have hcpu := Job.toNat_cpuTime_served haccounts s.now s.quantum
  rw [hcompletion, Option.getD_none] at hspent
  have hfinish := Job.getD_completion_leave hcompletion s.now s'.now s.quantum
  have hkeep : ((job.served s.now s.quantum).leave s'.now).waiting = job.waiting ∧
      ((job.served s.now s.quantum).leave s'.now).cpuTime =
        (job.served s.now s.quantum).cpuTime ∧
      ((job.served s.now s.quantum).leave s'.now).response = some (job.responseFrom s.now) := by
    unfold Job.leave
    split <;> exact ⟨rfl, rfl, rfl⟩
  refine ⟨?_, ?_, ?_⟩
  · rw [hfinish, hkeep.1, hkeep.2.1, hoffset]
    omega
  · rw [hkeep.2.2]
    exact nofun
  · intro response hresponse
    rw [hkeep.2.2, Option.some.injEq] at hresponse
    subst hresponse
    rw [hkeep.1, hoffset, Job.responseFrom]
    cases hbefore : job.response with
    | some response => exact hc.response_le response hbefore
    | none =>
      have hzero := hc.unserved hbefore
      rw [hzero, UInt64.toNat_zero] at hspent
      rw [Option.getD_none, haccounts.arrival, UInt64.toNat_sub_of_le _ _ harrival]
      omega

/-- A job behind the one that had the turn has spent it waiting. -/
theorem Charged.waited {events : List Stamped} {job : Job} (hc : s.Charged events p job)
    (hcompletion : job.completion = none) {new : List Stamped} {run : Ticks}
    (hoffset : offset (events ++ new) p = offset events p)
    (hnow : s'.now.toNat = s.now.toNat + run.toNat) :
    s'.Charged (events ++ new) p (job.enter.wait run) := by
  have hspent := hc.spent
  have hbound := s'.now.toNat_lt_size
  rw [hcompletion, Option.getD_none] at hspent
  have hwaiting : (job.enter.wait run).waiting.toNat = job.waiting.toNat + run.toNat := by
    change (job.waiting.satAdd run).toNat = _
    rw [Word.toNat_satAdd]
    omega
  refine ⟨?_, hc.unserved, ?_⟩
  · change (job.completion.getD s'.now).toNat = _ + _ + _ + job.cpuTime.toNat
    rw [hcompletion, Option.getD_none, hoffset, hwaiting]
    omega
  · intro response hresponse
    have := hc.response_le response hresponse
    rw [hoffset, hwaiting]
    omega

/-- A finished job has no time left to account for. -/
theorem Charged.finished {events new : List Stamped} {job : Job} {completion : Ticks}
    (hc : s.Charged events p job) (hcompletion : job.completion = some completion)
    (hoffset : offset (events ++ new) p = offset events p) : s'.Charged (events ++ new) p job := by
  have hspent := hc.spent
  rw [hcompletion, Option.getD_some] at hspent
  refine ⟨?_, hc.unserved, ?_⟩
  · rw [hcompletion, Option.getD_some, hoffset]
    exact hspent
  · rw [hoffset]
    exact hc.response_le

/-- A turn keeps the account of every process. -/
theorem Charges.serves {events : List Stamped} (hc : Charges ps s events)
    (h : Serves ps s turn s') (hk : Contract.Kept ps) (hsound : s.Sound ps)
    (hnow : s'.now.toNat = s.now.toNat + (turn.run s.quantum).toNat) :
    Charges ps s' (events ++ turn.events ps s s') where
  settled i p hp := (hc.settled i p hp).serves h hk hsound hnow hp
  charged := by
    intro i p job hp hjob hlt
    have hline_eq : i < turn.early → offset (events ++ turn.events ps s s') p = offset events p :=
      fun hearly => offset_append_of_none fun e he =>
        Turn.rest?_of_arrived (h.arrival_le hsound hp hearly) he
    cases hsound.fate hk h hp hjob with
    | served hposition hready =>
      subst hposition
      have hearly := hsound.lt_early h (.inl rfl)
      exact (hc.line h hsound (.inl rfl) hp h.job).served hready (hline_eq hearly) hnow
    | waited hrest hold hready =>
      have hearly := hsound.lt_early h (.inr hrest)
      exact (hc.line h hsound (.inr hrest) hp hold).waited hready.completion (hline_eq hearly) hnow
    | entered _ hge hbefore _ =>
      have hnone := (hc.settled i p hp).ahead (Nat.le_trans h.early.le hge)
      have harrived := h.late.arrived i p hp hge hbefore
      have hoffset : offset (events ++ turn.events ps s s') p =
          s'.now.toNat - p.arrival.toNat := by
        rw [offset_append_of_ahead _ hnone, turn.offset_events,
          h.rest?_of_late hk hsound hnow hp hge hbefore, Option.getD_some]
      refine ⟨?_, fun _ => rfl, nofun⟩
      change s'.now.toNat = p.arrival.toNat + offset (events ++ turn.events ps s s') p + 0 + 0
      omega
    | completed _ hadmitted hold hcompletion =>
      have hle := h.early.le
      exact (hc.charged i p job hp hold hadmitted).finished hcompletion (hline_eq (by omega))
    | ahead _ hge _ =>
      rw [h.admitted] at hlt
      omega

/-- A skip keeps the account of every process. -/
theorem Charges.skips {events : List Stamped} (hc : Charges ps s events) {next : Process}
    (h : Skips ps s next s') (hsound : s.Sound ps) {e : Stamped}
    (hidle : e.event = .idle next.arrival) : Charges ps s' (events ++ [e]) := by
  have hrest : ∀ p, e.rest? p = none := by
    rcases e with ⟨time, event⟩
    cases hidle
    exact fun _ => rfl
  have hnone : ∀ p, ∀ e' ∈ [e], Stamped.rest? p e' = none := by
    intro p e' he'
    rw [List.mem_singleton.1 he']
    exact hrest p
  refine ⟨?_, ?_⟩
  · intro i p hp
    apply (hc.settled i p hp).keep (hnone p) h.frame.quantum
    intro hle
    rwa [h.admitted] at hle
  · intro i p job hp hjob hlt
    rw [h.job_eq] at hjob
    rw [h.admitted] at hlt
    -- nothing is queued when a gap is skipped, so the job has finished
    obtain ⟨completion, hcompletion⟩ :=
      hsound.completed_of_not_mem hp hlt (by rw [h.empty]; exact List.not_mem_nil) hjob
    exact (hc.charged i p job hp hjob hlt).finished hcompletion (offset_append_of_none (hnone p))

theorem Charges.reaches {events : List Stamped} (hk : Contract.Kept ps) (hfits : ps.FitsClock)
    (hsound : s.Sound ps) (ht : s.InTime ps) (hzero : s.admitted = 0)
    (hr : Reaches ps s events s') : Charges ps s' events := by
  induction hr with
  | refl =>
    refine ⟨fun i p _ => ⟨fun _ _ he => ?_, fun _ he => ?_, quantum_pos s⟩, fun i _ _ _ _ hlt => ?_⟩
    · cases he
    · cases he
    · omega
  | snoc hr hm ih =>
    have hmid := hsound.reaches hk hr
    have hmid_time := ht.reaches hfits hr
    cases hm with
    | serves turn h => exact ih.serves h hk hmid (h.now_exact hfits hmid_time)
    | skips p h => exact ih.skips h hmid rfl

theorem Reaches.charges {config : Config} (hstart : start ps config = .ok s)
    (hfits : ps.FitsClock) {events : List Stamped} (hr : Reaches ps s events s') :
    Charges ps s' events :=
  Charges.reaches (kept_of_start hstart) hfits (sound_start hstart) (inTime_start hstart)
    (admitted_of_start hstart) hr

/-- A move leaves the offset of a process that has arrived. -/
theorem Moves.offset_eq {events new : List Stamped} (hm : Moves ps s new s')
    (harrival : p.arrival ≤ s.now) : offset (events ++ new) p = offset events p := by
  apply offset_append_of_none
  intro e he
  cases hm with
  | serves turn h => exact Turn.rest?_of_arrived harrival he
  | skips q h =>
    rw [List.mem_singleton.1 he]
    rfl

/-- A job with a response belongs to a process that has arrived. -/
theorem Sound.arrival_le_of_response (h : s.Sound ps) {i : Nat} {job : Job} {response : Ticks}
    (hp : ps[i]? = some p) (hjob : s.job? i = some job) (hresponse : job.response = some response) :
    p.arrival ≤ s.now := by
  apply h.arrived i p hp
  apply Nat.lt_of_not_le
  intro hle
  obtain rfl := h.eq_of_ahead hp hle hjob
  cases hresponse

/-- At the start of the step that dispatches job `i` for the first time, the job has waited for
`waiting` ticks. -/
def FirstWait (s : Simulation) (i : Nat) (waiting : Ticks) : Prop :=
  ∃ m events t new u before after, s.steps m = .ok (events, t) ∧ t.step = .ok (new, u) ∧
    t.job? i = some before ∧ before.dispatches = 0 ∧ before.waiting = waiting ∧
    u.job? i = some after ∧ after.dispatches = 1

/-- The first dispatch of a job fixes its response: the offset, and the waiting up to then. -/
theorem Charges.first_response {events : List Stamped} (hc : Charges ps s events)
    (h : Serves ps s turn s') (hk : Contract.Kept ps) (hsound : s.Sound ps)
    (hp : ps[turn.position]? = some p) (hnone : turn.job.response = none) :
    turn.job.dispatches = 0 ∧
      (s.now - turn.job.arrival).toNat = offset events p + turn.job.waiting.toNat := by
  rcases hsound.eligible hk h hp with ⟨haccounts, harrival, _, hcompletion, _⟩
  have hcharged := hc.line h hsound (.inl rfl) hp h.job
  constructor
  · have hiff := haccounts.response_iff
    rw [hnone] at hiff
    apply UInt64.toNat_inj.1
    apply Nat.eq_zero_of_not_pos
    intro hpos
    exact absurd (hiff.2 hpos) (by decide)
  · have hspent := hcharged.spent
    rw [hcompletion, Option.getD_none, hcharged.unserved hnone, UInt64.toNat_zero] at hspent
    rw [haccounts.arrival, UInt64.toNat_sub_of_le _ _ harrival]
    omega

/-- The response of a job is its offset and the waiting before its first dispatch. -/
theorem Orderly.exists_firstWait (h : s.Orderly ps) (hk : Contract.Kept ps)
    (hfits : ps.FitsClock) (ht : s.InTime ps) (hzero : s.admitted = 0) {n : Nat}
    {events : Array Stamped} {t : Simulation} (hrun : s.steps n = .ok (events, t)) {i : Nat}
    {job : Job} {response : Ticks} (hp : ps[i]? = some p) (hjob : t.job? i = some job)
    (hresponse : job.response = some response) :
    ∃ waiting, s.FirstWait i waiting ∧
      response.toNat = offset events.toList p + waiting.toNat := by
  induction n generalizing events t job with
  | zero =>
    cases hrun
    have harrival := h.sound.arrival_le_of_response hp hjob hresponse
    obtain rfl := h.sound.eq_of_ahead hp (by omega) hjob
    cases hresponse
  | succ n ih =>
    rcases steps_succ_eq_ok_iff.1 hrun with ⟨before, u, new, hbefore, hstep, rfl⟩
    rcases h.run hk hbefore with ⟨hreaches, horderly, _⟩
    have hsound := horderly.sound
    rcases horderly.of_step hk hstep with ⟨_, rfl, rfl⟩ | ⟨_, hmoves, _, _⟩
    · rw [Array.append_empty]
      exact ih hbefore hjob hresponse
    rw [Array.toList_append]
    rcases hmoves.response_cases hjob hresponse with
      ⟨old, hold, hold_response⟩ | ⟨turn, hserves, rfl, hfirst, hserved, hcount⟩
    · rw [hmoves.offset_eq (hsound.arrival_le_of_response hp hold hold_response)]
      exact ih hbefore hold hold_response
    · have hcharges := Charges.reaches hk hfits h.sound ht hzero hreaches
      rcases hcharges.first_response hserves hk hsound hp hfirst with ⟨hnever, hwaited⟩
      have harrival := hserves.arrival_le hsound hp (hsound.lt_early hserves (.inl rfl))
      have hdispatched : job.dispatches = 1 := by
        rw [hcount, hnever]
        rfl
      refine ⟨turn.job.waiting, ⟨n, before, u, new, t, turn.job, job, hbefore, hstep,
        hserves.job, hnever, rfl, hjob, hdispatched⟩, ?_⟩
      rw [hmoves.offset_eq harrival, hserved, hwaited]

/-- How a process has spent its time in a run from `s` that handed out `events` and left its job as
`job`. -/
structure Spent (s : Simulation) (events : List Stamped) (i : Nat) (p : Process) (job : Job)
    (completion response : Ticks) : Prop where
  completed : job.completion = some completion
  responded : job.response = some response
  offset_eq : ∀ e ∈ events, ∀ d, e.rest? p = some d → d = offset events p
  offset_lt : offset events p < s.quantum.toNat
  arrival_le : p.arrival ≤ completion
  turnaround : completion.toNat - p.arrival.toNat =
    offset events p + job.waiting.toNat + p.burst.toNat
  firstWait : ∃ waiting, s.FirstWait i waiting ∧ response.toNat = offset events p + waiting.toNat
  response_le : response.toNat ≤ offset events p + job.waiting.toNat
  response_add_burst_le : response.toNat + p.burst.toNat ≤ completion.toNat - p.arrival.toNat

/-- Every process of a complete run has spent the time from its arrival to its completion on its
offset, which is shorter than the quantum, waiting, and on the processor. Its response is the offset
and the waiting before its first dispatch. -/
theorem completion_identity {config : Config} (hstart : start ps config = .ok s)
    (hfits : ps.FitsClock) :
    ∃ n events fin, s.steps n = .ok (events, fin) ∧ fin.allCompleted = true ∧
      s.complete = .ok fin ∧ ∀ i p, ps[i]? = some p →
        ∃ job completion response, fin.job? i = some job ∧
          s.Spent events.toList i p job completion response := by
  rcases exists_completed hstart hfits with ⟨n, events, fin, hrun, hdone, hcomplete, hreaches⟩
  refine ⟨n, events, fin, hrun, hdone, hcomplete, ?_⟩
  intro i p hp
  have hk := kept_of_start hstart
  have ht := inTime_start hstart
  have horderly := orderly_start hstart
  have hzero := admitted_of_start hstart
  have hsound := horderly.sound.reaches hk hreaches
  rcases hsound.allCompleted_iff.1 hdone with ⟨hall, hempty⟩
  have hlt := (List.getElem?_eq_some_iff.1 hp).1
  rcases hsound.finished_of_not_mem hp (by omega) (by rw [hempty]; exact List.not_mem_nil) with
    ⟨job, completion, hjob, _, haccounts, hremaining, hresponse, hcompletion, _⟩
  rcases Option.isSome_iff_exists.1 hresponse with ⟨response, hresponse⟩
  have hcharges := Charges.reaches hk hfits horderly.sound ht hzero hreaches
  have hsettled := hcharges.settled i p hp
  have hcharged := hcharges.charged i p job hp hjob (by omega)
  have hspent := hcharged.spent
  have hburst := haccounts.spent
  have hle := hcharged.response_le response hresponse
  rw [hcompletion, Option.getD_some] at hspent
  rw [hremaining, UInt64.toNat_zero] at hburst
  refine ⟨job, completion, response, hjob, ?_⟩
  exact {
    completed := hcompletion
    responded := hresponse
    offset_eq := hsettled.offset_eq
    offset_lt := by
      rw [← hreaches.quantum]
      exact hsettled.offset_lt
    arrival_le := by
      rw [UInt64.le_iff_toNat_le]
      omega
    turnaround := by omega
    firstWait := horderly.exists_firstWait hk hfits ht hzero hrun hp hjob hresponse
    response_le := hle
    response_add_burst_le := by omega }

theorem completion_identity_arrivalsAtSlices :
    ∃ s, start arrivalsAtSlices { quantum := 2, checks := true } = .ok s ∧
      arrivalsAtSlices.FitsClock ∧
      ∃ n events fin, s.steps n = .ok (events, fin) ∧ fin.allCompleted = true ∧
        s.complete = .ok fin ∧ ∀ i p, arrivalsAtSlices[i]? = some p →
          ∃ job completion response, fin.job? i = some job ∧
            s.Spent events.toList i p job completion response := by
  have hstart : start arrivalsAtSlices { quantum := 2, checks := true } = .ok _ := rfl
  have hfits : arrivalsAtSlices.FitsClock := by decide
  exact ⟨_, hstart, hfits, completion_identity hstart hfits⟩

end Simulation

end RoundRobin
