import RoundRobin.Proofs.Histories
import RoundRobin.Proofs.ServiceOrder

/-!
# The account that the events give

A process waits for the slices of others that stand in the stream while it is queued (`Tallied`).
With its history this recovers its timing, so the stream of events is an account of the whole run.
Main statement: `event_stream`.
-/

namespace RoundRobin

/-- What a reader of the stream keeps about one process: whether it is queued, and how long it has
waited so far. -/
structure Tally where
  queued : Bool := false
  waited : Nat := 0
  deriving DecidableEq

/-- The tally of a process after one more event. -/
def Tally.next (pid : Pid) (tally : Tally) (e : Stamped) : Tally :=
  match e.event with
  | .admitted pid' => { tally with queued := tally.queued || decide (pid' = pid) }
  | .preempted pid' _ => { tally with queued := tally.queued || decide (pid' = pid) }
  | .dispatched pid' slice _ =>
    if pid' = pid then { tally with queued := false }
    else if tally.queued then { tally with waited := tally.waited + slice.toNat }
    else tally
  | .retired .. => tally
  | .idle _ => tally

/-- The tally of a process after a stream of events. -/
def tallyOf (pid : Pid) (events : List Stamped) : Tally :=
  events.foldl (Tally.next pid) {}

/-- As long as nothing is dispatched, only the events about the process matter. -/
theorem foldl_next_eventsOf {pid : Pid} {events : List Stamped}
    (h : ∀ e ∈ events, e.event.dispatched? = none) (tally : Tally) :
    events.foldl (Tally.next pid) tally = (eventsOf pid events).foldl (Tally.next pid) tally := by
  induction events generalizing tally with
  | nil => rfl
  | cons e events ih =>
    have hrest := ih fun e' he' => h e' (List.mem_cons_of_mem _ he')
    by_cases hpid : e.event.pid? = some pid
    · rw [eventsOf, List.filter_cons_of_pos (by simp [hpid]), List.foldl_cons, List.foldl_cons,
        hrest, eventsOf]
    · have hnext : tally.next pid e = tally := by
        have hnone := h e List.mem_cons_self
        rcases e with ⟨time, event⟩
        cases event with
        | admitted pid' =>
          have hne : ¬ pid' = pid := fun heq => hpid (congrArg some heq)
          simp [Tally.next, hne]
        | preempted pid' remaining =>
          have hne : ¬ pid' = pid := fun heq => hpid (congrArg some heq)
          simp [Tally.next, hne]
        | dispatched pid' slice firstRun => cases hnone
        | retired | idle => rfl
      rw [eventsOf, List.filter_cons_of_neg (by simp [hpid]), List.foldl_cons, hnext, hrest,
        eventsOf]

variable {ps : ProcessList}

theorem foldl_next_admissions (hk : Contract.Kept ps) {i a b : Nat} {p : Process}
    (hp : ps[i]? = some p) (hab : a ≤ b) (hb : b ≤ ps.length) (tally : Tally) :
    (admissions ps a b).foldl (Tally.next p.pid) tally =
      { tally with queued := tally.queued || decide (a ≤ i ∧ i < b) } := by
  rw [foldl_next_eventsOf, eventsOf_admissions hk hp hab hb]
  · split
    · next hin => simp [Tally.next, hin]
    · next hout =>
      rw [decide_eq_false hout, Bool.or_false]
      rfl
  · intro e he
    obtain ⟨_, _, _, _, _, rfl⟩ := mem_admissions_iff.1 he
    rfl

namespace Simulation

variable {s s' : Simulation} {turn : Turn} {p : Process} {i : Nat}

namespace Serves

/-- A turn adds its length to the tally of the processes behind it, and leaves each process in the
tally as it is in the queue. -/
theorem foldl_next_events (h : Serves ps s turn s') (hk : Contract.Kept ps) (hsound : s.Sound ps)
    (hp : ps[i]? = some p) (waited : Nat) :
    (turn.events ps s s').foldl (Tally.next p.pid)
        { queued := decide (i ∈ s.queue), waited } =
      { queued := decide (i ∈ s'.queue)
        waited := waited + (if i ∈ turn.rest then (turn.run s.quantum).toNat else 0) } := by
  have hfresh := (List.nodup_cons.1 (hsound.nodup_line h)).1
  have hturn : turn.process.pid = p.pid ↔ i = turn.position := by
    constructor
    · intro hpid
      exact (hk.eq_of_pid_eq h.process hp hpid).symm
    · intro hi
      rw [hi, h.process, Option.some.injEq] at hp
      rw [hp]
  have hready := hsound.eligible hk h h.process
  have hearly : (admissions ps s.admitted turn.early).foldl (Tally.next p.pid)
      { queued := decide (i ∈ s.queue), waited } =
        { queued := decide (i = turn.position ∨ i ∈ turn.rest), waited } := by
    rw [foldl_next_admissions hk hp h.early.le h.early.le_length, Tally.mk.injEq, ← Bool.decide_or,
      decide_eq_decide]
    exact ⟨(h.mem_line_iff i).symm, rfl⟩
  have hopening : Tally.next p.pid
      { queued := decide (i = turn.position ∨ i ∈ turn.rest), waited } (turn.opening s) =
        { queued := decide (i ∈ turn.rest)
          waited := waited + (if i ∈ turn.rest then (turn.run s.quantum).toNat else 0) } := by
    by_cases hi : i = turn.position
    · have hnot : i ∉ turn.rest := hi ▸ hfresh
      simp [Tally.next, Turn.opening, hturn.2 hi, hnot]
    · by_cases hrest : i ∈ turn.rest
      · simp [Tally.next, Turn.opening, mt hturn.1 hi, hi, hrest]
      · simp [Tally.next, Turn.opening, mt hturn.1 hi, hi, hrest]
  have hlate : ∀ total, (admissions ps turn.early turn.late).foldl (Tally.next p.pid)
      { queued := decide (i ∈ turn.rest), waited := total } =
        { queued := decide (i ∈ turn.rest ∨ turn.early ≤ i ∧ i < turn.late), waited := total } := by
    intro total
    rw [foldl_next_admissions hk hp h.late.le h.late.le_length, ← Bool.decide_or]
  have hending : ∀ total, Tally.next p.pid
      { queued := decide (i ∈ turn.rest ∨ turn.early ≤ i ∧ i < turn.late), waited := total }
        (turn.ending s s') = { queued := decide (i ∈ s'.queue), waited := total } := by
    intro total
    have hqueue : i ∈ s'.queue ↔ (i ∈ turn.rest ∨ (turn.early ≤ i ∧ i < turn.late)) ∨
        (i = turn.position ∧ ¬ turn.Ends s.quantum) := by
      rw [h.mem_queue_iff, or_assoc]
    rw [Turn.ending, Job.closing]
    by_cases hends : turn.Ends s.quantum
    · rw [if_pos (h.served_eq_zero_iff.2 hends)]
      simp [Tally.next, hqueue, hends]
    · rw [if_neg (mt h.served_eq_zero_iff.1 hends)]
      have hpid : (turn.job.served s.now s.quantum).pid = turn.process.pid := hready.accounts.pid
      simp [Tally.next, hqueue, hends, hpid, hturn]
  rw [Turn.events, List.foldl_append, List.foldl_append, hearly, List.foldl_cons, List.foldl_cons,
    List.foldl_nil, hopening, hlate, hending]

/-- A turn adds its length to the waiting of the jobs behind it. -/
theorem toNat_waiting (h : Serves ps s turn s') (hk : Contract.Kept ps) (hsound : s.Sound ps)
    {events : List Stamped} (hc : Charges ps s events)
    (hnow : s'.now.toNat = s.now.toNat + (turn.run s.quantum).toNat) {job : Job}
    (hp : ps[i]? = some p) (hjob : s'.job? i = some job) :
    ∃ old, s.job? i = some old ∧ job.waiting.toNat =
      old.waiting.toNat + (if i ∈ turn.rest then (turn.run s.quantum).toNat else 0) := by
  have hfresh := (List.nodup_cons.1 (hsound.nodup_line h)).1
  obtain ⟨old, hold, hwaiting⟩ := h.waiting_eq hfresh hjob
  refine ⟨old, hold, ?_⟩
  rw [hwaiting]
  by_cases hrest : i ∈ turn.rest
  · obtain ⟨_, old', _, hold', hready⟩ := hsound.eligible_of_line hk h (.inr hrest)
    rw [hold, Option.some.injEq] at hold'
    subst hold'
    -- what it has waited so far is on the clock, so the sum does not saturate
    have hspent := (hc.line h hsound (.inr hrest) hp hold).spent
    have hbound := s'.now.toNat_lt_size
    rw [hready.completion, Option.getD_none] at hspent
    rw [if_pos hrest, if_pos hrest, Word.toNat_satAdd]
    omega
  · rw [if_neg hrest, if_neg hrest, Nat.add_zero]

end Serves

/-- A reader of the stream knows which processes are queued, and how long each one has waited. -/
def Tallied (ps : ProcessList) (s : Simulation) (events : List Stamped) : Prop :=
  ∀ i p job, ps[i]? = some p → s.job? i = some job →
    tallyOf p.pid events = { queued := decide (i ∈ s.queue), waited := job.waiting.toNat }

namespace Tallied

variable {events : List Stamped}

theorem serves (ht : Tallied ps s events) (h : Serves ps s turn s') (hk : Contract.Kept ps)
    (hsound : s.Sound ps) (hc : Charges ps s events)
    (hnow : s'.now.toNat = s.now.toNat + (turn.run s.quantum).toNat) :
    Tallied ps s' (events ++ turn.events ps s s') := by
  intro i p job hp hjob
  obtain ⟨old, hold, hwaiting⟩ := h.toNat_waiting hk hsound hc hnow hp hjob
  have hbefore := ht i p old hp hold
  rw [tallyOf] at hbefore
  rw [tallyOf, List.foldl_append, hbefore, h.foldl_next_events hk hsound hp, hwaiting]

theorem skips (ht : Tallied ps s events) {next : Process} (h : Skips ps s next s') :
    Tallied ps s' (events ++ [{ time := s.now, event := .idle next.arrival }]) := by
  intro i p job hp hjob
  rw [h.job_eq] at hjob
  have hqueue : s'.queue = s.queue := congrArg (·.ready.slots) h.machine
  have hbefore := ht i p job hp hjob
  rw [tallyOf] at hbefore
  rw [tallyOf, List.foldl_append, hbefore, hqueue]
  rfl

theorem reaches {config : Config} (hstart : start ps config = .ok s) (hfits : ps.FitsClock)
    (hr : Reaches ps s events s') : Tallied ps s' events := by
  have hk := kept_of_start hstart
  have hsound := sound_start hstart
  have hzero := admitted_of_start hstart
  induction hr with
  | refl =>
    intro i p job hp hjob
    obtain ⟨hfresh, hnot⟩ := hsound.job_of_ahead hp (by omega : s.admitted ≤ i)
    rw [hjob, Option.some.injEq] at hfresh
    subst hfresh
    rw [decide_eq_false hnot]
    rfl
  | snoc hr hm ih =>
    cases hm with
    | serves turn h =>
      exact ih.serves h hk (hr.sound hstart) (hr.charges hstart hfits)
        (h.now_exact hfits (hr.inTime hstart hfits))
    | skips next h => exact ih.skips h

end Tallied

/-- What the events of a run say about a process agrees with its timing. Its history leads from its
arrival through its rounds to its retirement. The response is the delay of its first round, the
completion is the stamp of the retirement, and the waiting is the length of the slices of others
that stand in the stream while the process is queued. Together with the rest of the slice in which
it arrives and its burst, the waiting makes up all of its time. -/
structure Recounts (quantum : Ticks) (events : List Stamped) (p : Process) (timing : Timing) :
    Prop where
  pid : timing.pid = p.pid
  history : ∃ starts, starts.length = p.rounds quantum ∧
    eventsOf p.pid events = p.history quantum timing.waiting timing.response starts ∧
    (∀ (k : Nat) start, starts[k]? = some start →
      start.toNat + (p.slice quantum k).toNat < UInt64.size) ∧
    ∃ first, starts.head? = some first ∧ p.arrival ≤ first ∧
      timing.response = first - p.arrival
  completion : (eventsOf p.pid events).getLast? =
    some { time := timing.completion, event := .retired p.pid timing.waiting timing.response }
  waiting : (tallyOf p.pid events).waited = timing.waiting.toNat
  turnaround : timing.completion.toNat =
    p.arrival.toNat + offset events p + timing.waiting.toNat + p.burst.toNat

/-- The events of a run are an account of it: they are in the order of their stamps, the processes
are admitted in the order of the list, each gap ends with the admission of the process that arrives
then, and the timings of all processes can be read off. -/
structure Account (ps : ProcessList) (quantum : Ticks) (events : List Stamped)
    (timings : List Timing) : Prop where
  sorted : events.Pairwise fun e e' => e.time ≤ e'.time
  admissions_eq : events.filter (·.event.isAdmission) = admissions ps 0 ps.length
  idle_next : ∀ before after time target,
    events = before ++ { time, event := .idle target } :: after →
      ∃ pid rest, after = { time := target, event := .admitted pid } :: rest
  recounts : ∀ (i : Nat) p, ps[i]? = some p →
    ∃ timing, timings[i]? = some timing ∧ Recounts quantum events p timing

theorem Reaches.recounts {config : Config} (hstart : start ps config = .ok s)
    (hfits : ps.FitsClock) {events : List Stamped} (hr : Reaches ps s events s')
    (hdone : s'.allCompleted = true) {timings : List Timing}
    (htimings : s'.machine.jobs.toList.mapM Job.timing = .ok timings) (hp : ps[i]? = some p) :
    ∃ timing, timings[i]? = some timing ∧ Recounts config.quantum events p timing := by
  have hsound := hr.sound hstart
  have hquantum : s'.quantum = config.quantum := hr.quantum_eq hstart
  have hlt := hsound.lt_admitted_of_completed hdone hp
  obtain ⟨job, timing, hjob, hentry, haccounts, hremaining, hresponse, hcompletion, hpid, hwaiting,
    _⟩ := hsound.timing_of_completed hdone htimings hp
  obtain ⟨starts, htold⟩ := Tells.reaches hstart hfits hr i p job hp hjob
  have htally := Tallied.reaches hstart hfits hr i p job hp hjob
  have hspent := ((hr.charges hstart hfits).charged i p job hp hjob hlt).spent
  have hburst := haccounts.spent
  have hcount := hr.dispatches_eq hstart hp hjob hremaining
  have hhistory := htold.history_eq
  have hlast := htold.completion timing.completion hcompletion
  have hfits' := htold.fits
  rw [hresponse, Option.getD_some] at hhistory hlast
  rw [if_pos hlt] at hhistory
  rw [hquantum] at hhistory hfits'
  rw [hcompletion, Option.getD_some] at hspent
  rw [hremaining, UInt64.toNat_zero, Nat.add_zero] at hburst
  have hlength : starts.length = p.rounds config.quantum := htold.length.trans hcount
  -- there is a first round, because there is work to do
  have hrounds : 0 < p.rounds config.quantum := by
    rw [← hcount]
    exact haccounts.response_iff.1 (by rw [hresponse]; rfl)
  obtain ⟨first, hfirst⟩ : ∃ first, starts.head? = some first := by
    cases starts with
    | nil =>
      rw [List.length_nil] at hlength
      omega
    | cons first rest => exact ⟨first, rfl⟩
  obtain ⟨harrival, hfirst_response⟩ := htold.response first hfirst
  rw [hresponse, Option.some.injEq] at hfirst_response
  refine ⟨timing, hentry, ?_⟩
  exact {
    pid := hpid
    history := by
      rw [hwaiting]
      exact ⟨starts, hlength, hhistory, hfits', first, hfirst, harrival, hfirst_response⟩
    completion := by
      rw [hwaiting]
      exact hlast
    waiting := by rw [htally, hwaiting]
    turnaround := by
      rw [hwaiting]
      omega }

/-- If the clock fits, a run ends, and the events that its steps have handed out are those that a
trace has received, and an account of the run. -/
theorem event_stream {config : Config} (hstart : start ps config = .ok s) (hfits : ps.FitsClock) :
    ∃ n events fin traced timings, s.steps n = .ok (events, fin) ∧ fin.allCompleted = true ∧
      s.complete = .ok fin ∧ s.traced.steps n = .ok (events, traced) ∧
      traced.scheduler.monitor.trace = some events ∧
      fin.machine.jobs.toList.mapM Job.timing = .ok timings ∧
      (∀ report, s.run = .ok report → report.timings = timings) ∧
      Account ps config.quantum events.toList timings := by
  obtain ⟨n, events, fin, timings, hrun, hdone, hcomplete, hreaches, htimings, hreport⟩ :=
    exists_timings hstart hfits
  have hk := kept_of_start hstart
  have htraced := (orderly_start hstart).tracedIf true
  have htimely : (s.tracedIf true).Timely ps :=
    ⟨⟨(inTime_start hstart).work_le, (inTime_start hstart).now_le⟩, (timely_start hstart).steps_le⟩
  obtain ⟨events', traced, hrun'⟩ := htraced.steps_ok_of_timely hk hfits htimely n
  obtain ⟨rfl, _⟩ := steps_unwatched (unwatched_tracedIf s true) hrun' hrun
  have htrace : traced.scheduler.monitor.trace = some (#[] ++ events') :=
    htraced.trace_of_steps hk hrun' rfl
  rw [Array.empty_append] at htrace
  refine ⟨n, events', fin, traced, timings, hrun, hdone, hcomplete, hrun', htrace, htimings,
    hreport, ?_⟩
  have hstreamed := Streamed.reaches hstart hreaches
  obtain ⟨hall, _⟩ := ((sound_start hstart).reaches hk hreaches).allCompleted_iff.1 hdone
  exact {
    sorted := hstreamed.sorted
    admissions_eq := by
      rw [hstreamed.admissions_eq, hall]
    idle_next := by
      intro before after time target heq
      rcases hstreamed.idle_next before after time target heq with hnext | ⟨_, _, next, hnext, _⟩
      · exact hnext
      · have hlt := (List.getElem?_eq_some_iff.1 hnext).1
        omega
    recounts := fun i p hp => hreaches.recounts hstart hfits hdone htimings hp }

theorem event_stream_arrivalsAtSlices :
    ∃ s report, start arrivalsAtSlices { quantum := 2, checks := true } = .ok s ∧
      s.run = .ok report ∧ arrivalsAtSlices.FitsClock ∧
      ∃ n events fin traced timings, s.steps n = .ok (events, fin) ∧ fin.allCompleted = true ∧
        s.complete = .ok fin ∧ s.traced.steps n = .ok (events, traced) ∧
        traced.scheduler.monitor.trace = some events ∧
        fin.machine.jobs.toList.mapM Job.timing = .ok timings ∧
        (∀ report, s.run = .ok report → report.timings = timings) ∧
        Account arrivalsAtSlices 2 events.toList timings := by
  obtain ⟨s, report, hstart, hreport⟩ := exists_report_arrivalsAtSlices
  have hfits : arrivalsAtSlices.FitsClock := by decide
  exact ⟨s, report, hstart, hreport, hfits, event_stream hstart hfits⟩

end Simulation

end RoundRobin
