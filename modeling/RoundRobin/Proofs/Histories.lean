import RoundRobin.Proofs.EventStream
import RoundRobin.Proofs.Rounds
import RoundRobin.Proofs.Timing
import RoundRobin.Proofs.Totals

/-!
# Histories

The events about one process are its history: it is admitted when it arrives, and then goes through
its rounds, each of which is a dispatch and the end of the slice (`Told`). The slices of others that
stand in the stream while it is queued are what it waits for (`Tallied`). So nothing that a report
says of a process is missing from the stream. Main statement: `event_stream`.
-/

namespace RoundRobin

/-- The events about a process, in their order. -/
def eventsOf (pid : Pid) (events : List Stamped) : List Stamped :=
  events.filter fun e => decide (e.event.pid? = some pid)

theorem eventsOf_append (pid : Pid) (events events' : List Stamped) :
    eventsOf pid (events ++ events') = eventsOf pid events ++ eventsOf pid events' :=
  List.filter_append _ _

namespace Process

/-- The slice of round `k`: a quantum, and in the last round the work that is left by then. -/
def slice (p : Process) (quantum : Ticks) (k : Nat) : Ticks :=
  if k + 1 = p.rounds quantum then UInt64.ofNat (p.burst.toNat - k * quantum.toNat) else quantum

/-- The two events of round `k`. The first round is marked as such, and the last one ends with the
retirement. -/
def round (p : Process) (quantum waiting response : Ticks) (k : Nat) (start : Ticks) :
    List Stamped :=
  [{ time := start, event := .dispatched p.pid (p.slice quantum k) (k == 0) },
    { time := start + p.slice quantum k
      event := if k + 1 = p.rounds quantum then .retired p.pid waiting response
        else .preempted p.pid (UInt64.ofNat (p.burst.toNat - (k + 1) * quantum.toNat)) }]

/-- The events about a process whose rounds start at the given instants. -/
def history (p : Process) (quantum waiting response : Ticks) (starts : List Ticks) : List Stamped :=
  { time := p.arrival, event := .admitted p.pid } ::
    starts.zipIdx.flatMap fun (start, k) => p.round quantum waiting response k start

variable {p : Process} {quantum : Ticks}

theorem history_concat (p : Process) (quantum waiting response : Ticks) (starts : List Ticks)
    (start : Ticks) :
    p.history quantum waiting response (starts ++ [start]) =
      p.history quantum waiting response starts ++
        p.round quantum waiting response starts.length start := by
  rw [history, history, List.zipIdx_append, List.flatMap_append, Nat.zero_add, List.cons_append]
  simp

/-- The times of a process are told by its last round only. -/
theorem history_congr {waiting response waiting' response' : Ticks} {starts : List Ticks}
    (h : starts.length < p.rounds quantum) :
    p.history quantum waiting response starts = p.history quantum waiting' response' starts := by
  rw [history, history, List.cons.injEq]
  refine ⟨rfl, ?_⟩
  rw [List.flatMap_def, List.flatMap_def]
  congr 1
  apply List.map_congr_left
  rintro ⟨start, k⟩ hmem
  have hlt := (List.mk_mem_zipIdx_iff_le_and_getElem?_sub.1 hmem).2
  have hk := (List.getElem?_eq_some_iff.1 hlt).1
  change p.round quantum waiting response k start = p.round quantum waiting' response' k start
  rw [Process.round, Process.round, if_neg (by omega), if_neg (by omega)]

end Process

namespace Job.InRounds

variable {job : Job} {p : Process} {quantum : Ticks}

theorem lt_rounds (h : job.InRounds p quantum) (hq : 0 < quantum.toNat)
    (hwork : 0 < job.remaining.toNat) : job.dispatches.toNat < p.rounds quantum := by
  have hremaining := h.remaining
  apply Nat.lt_of_not_le
  intro hle
  have hdone := (quantaFor_le_iff hq).1 hle
  omega

/-- The round that comes next is the last one exactly if a quantum is enough for the rest. -/
theorem last_iff (h : job.InRounds p quantum) (hq : 0 < quantum.toNat)
    (hwork : 0 < job.remaining.toNat) :
    job.dispatches.toNat + 1 = p.rounds quantum ↔ job.remaining.toNat ≤ quantum.toNat := by
  have hremaining := h.remaining
  have hlt := h.lt_rounds hq hwork
  have hle : p.rounds quantum ≤ job.dispatches.toNat + 1 ↔
      p.burst.toNat ≤ job.dispatches.toNat * quantum.toNat + quantum.toNat := by
    rw [← Nat.succ_mul]
    exact quantaFor_le_iff hq
  omega

/-- What a job receives next is the slice of its round. -/
theorem share_eq (h : job.InRounds p quantum) (hq : 0 < quantum.toNat)
    (hwork : 0 < job.remaining.toNat) :
    job.share quantum = p.slice quantum job.dispatches.toNat := by
  have hlast := h.last_iff hq hwork
  rw [← UInt64.toNat_inj, toNat_share, Process.slice]
  split
  · next hround =>
    rw [← h.remaining, UInt64.ofNat_toNat]
    have := hlast.1 hround
    omega
  · next hround =>
    have := mt hlast.2 hround
    omega

end Job.InRounds

variable {ps : ProcessList}

theorem eventsOf_admissions (hk : Contract.Kept ps) {i a b : Nat} {p : Process}
    (hp : ps[i]? = some p) (hab : a ≤ b) (hb : b ≤ ps.length) :
    eventsOf p.pid (admissions ps a b) =
      if a ≤ i ∧ i < b then [{ time := p.arrival, event := .admitted p.pid }] else [] := by
  obtain ⟨n, rfl⟩ := Nat.le.dest hab
  induction n generalizing a with
  | zero =>
    rw [Nat.add_zero, admissions_self, if_neg (by omega)]
    rfl
  | succ n ih =>
    have hq : ps[a]? = some ps[a] := List.getElem?_eq_getElem (by omega)
    have hrest := ih (a := a + 1) (by omega) (by omega)
    rw [admissions_cons hq (by omega), show a + (n + 1) = a + 1 + n by omega]
    by_cases hia : a = i
    · subst hia
      rw [hp, Option.some.injEq] at hq
      rw [eventsOf, List.filter_cons_of_pos (by simp [Event.pid?, ← hq]), ← eventsOf, hrest,
        if_neg (by omega), if_pos (by omega), ← hq]
    · have hne : ¬ ps[a].pid = p.pid := fun hpid => hia (hk.eq_of_pid_eq hq hp hpid)
      rw [eventsOf, List.filter_cons_of_neg (by simp [Event.pid?, hne]), ← eventsOf, hrest]
      by_cases hin : a + 1 ≤ i ∧ i < a + 1 + n
      · rw [if_pos hin, if_pos (by omega)]
      · rw [if_neg hin, if_neg (by omega)]

namespace Simulation

variable {s s' : Simulation} {turn : Turn} {p : Process}

namespace Serves

theorem pid_ending (h : Serves ps s turn s') (hk : Contract.Kept ps) (hsound : s.Sound ps) :
    (turn.ending s s').event.pid? = some turn.process.pid := by
  rw [← (hsound.eligible hk h h.process).accounts.pid, Turn.ending, Job.closing]
  split <;> rfl

/-- The events about the process that has the turn. -/
theorem eventsOf_position (h : Serves ps s turn s') (hk : Contract.Kept ps)
    (hsound : s.Sound ps) :
    eventsOf turn.process.pid (turn.events ps s s') =
      (if s.admitted ≤ turn.position then
        [{ time := turn.process.arrival, event := .admitted turn.process.pid }] else []) ++
      [turn.opening s, turn.ending s s'] := by
  have hearly := hsound.lt_early h (.inl rfl)
  have hle := h.early.le_length
  have hopening : eventsOf turn.process.pid [turn.opening s] = [turn.opening s] := by
    rw [eventsOf, List.filter_cons_of_pos (by simp [Turn.opening, Event.pid?]), List.filter_nil]
  have hpid := h.pid_ending hk hsound
  have hending : eventsOf turn.process.pid [turn.ending s s'] = [turn.ending s s'] := by
    rw [eventsOf, List.filter_cons_of_pos (by simp [hpid]), List.filter_nil]
  rw [Turn.events_eq, eventsOf_append, eventsOf_append, eventsOf_append, hopening, hending,
    eventsOf_admissions hk h.process h.early.le h.early.le_length,
    eventsOf_admissions hk h.process h.late.le h.late.le_length,
    if_neg (by omega : ¬ (turn.early ≤ turn.position ∧ turn.position < turn.late))]
  by_cases hnew : s.admitted ≤ turn.position
  · rw [if_pos ⟨hnew, hearly⟩, if_pos hnew]
    rfl
  · rw [if_neg (by omega), if_neg hnew]
    rfl

/-- The events about a process that does not have the turn. -/
theorem eventsOf_other (h : Serves ps s turn s') (hk : Contract.Kept ps) (hsound : s.Sound ps)
    {i : Nat} (hp : ps[i]? = some p) (hi : i ≠ turn.position) :
    eventsOf p.pid (turn.events ps s s') =
      if s.admitted ≤ i ∧ i < turn.late then
        [{ time := p.arrival, event := .admitted p.pid }] else [] := by
  have hne : ¬ turn.process.pid = p.pid := fun hpid =>
    hi (hk.eq_of_pid_eq h.process hp hpid).symm
  have hopening : eventsOf p.pid [turn.opening s] = [] := by
    rw [eventsOf, List.filter_cons_of_neg (by simp [Turn.opening, Event.pid?, hne]),
      List.filter_nil]
  have hpid := h.pid_ending hk hsound
  have hending : eventsOf p.pid [turn.ending s s'] = [] := by
    rw [eventsOf, List.filter_cons_of_neg (by simp [hpid, hne]), List.filter_nil]
  have hle := h.early.le
  have hle' := h.late.le
  rw [Turn.events_eq, eventsOf_append, eventsOf_append, eventsOf_append, hopening, hending,
    List.nil_append, List.append_nil, ← eventsOf_append,
    admissions_append hle hle' h.late.le_length]
  exact eventsOf_admissions hk hp (by omega) h.late.le_length

/-- The events of a turn are those of the round of its job. -/
theorem round_eq (h : Serves ps s turn s') (hk : Contract.Kept ps) (hsound : s.Sound ps)
    (hrounds : s.InRounds ps) (hnow : s'.now.toNat = s.now.toNat + (turn.run s.quantum).toNat) :
    [turn.opening s, turn.ending s s'] =
      turn.process.round s.quantum turn.job.waiting (turn.job.responseFrom s.now)
        turn.job.dispatches.toNat s.now := by
  have hready := hsound.eligible hk h h.process
  have hin := hrounds _ _ _ h.process h.job
  have hslice := hin.share_eq (quantum_pos s) hready.work
  have hlast := hin.last_iff (quantum_pos s) hready.work
  have hserved := (hin.served s.now hready.work h.dispatches_lt).remaining
  rw [Job.toNat_dispatches_served s.now h.dispatches_lt] at hserved
  have hfirst : turn.job.response.isNone = (turn.job.dispatches.toNat == 0) := by
    have hiff := hready.accounts.response_iff
    cases hresponse : turn.job.response with
    | none =>
      rw [hresponse, Option.isSome_none] at hiff
      have hzero := Nat.eq_zero_of_not_pos fun hpos => Bool.false_ne_true (hiff.2 hpos)
      simp [hzero]
    | some response =>
      have hpos := hiff.1 (by rw [hresponse]; rfl)
      rw [Option.isNone_some, eq_comm, beq_eq_false_iff_ne]
      omega
  have hfinish : s'.now = s.now + turn.process.slice s.quantum turn.job.dispatches.toNat := by
    rw [← hslice, ← UInt64.toNat_inj, hnow, UInt64.toNat_add, Nat.mod_eq_of_lt]
    · rfl
    · change s.now.toNat + (turn.run s.quantum).toNat < _
      rw [← hnow]
      exact s'.now.toNat_lt_size
  have hclosing : (turn.job.served s.now s.quantum).closing =
      if turn.job.dispatches.toNat + 1 = turn.process.rounds s.quantum then
        .retired turn.process.pid turn.job.waiting (turn.job.responseFrom s.now)
      else .preempted turn.process.pid (UInt64.ofNat (turn.process.burst.toNat -
        (turn.job.dispatches.toNat + 1) * s.quantum.toNat)) := by
    rw [← hserved, UInt64.ofNat_toNat, ← hready.accounts.pid, Job.closing]
    by_cases hround : turn.job.dispatches.toNat + 1 = turn.process.rounds s.quantum
    · rw [if_pos hround, if_pos (h.served_eq_zero_iff.2 (hlast.1 hround))]
      rfl
    · rw [if_neg hround, if_neg (mt h.served_eq_zero_iff.1 (mt hlast.2 hround))]
      rfl
  rw [Process.round, Turn.opening, Turn.ending, hclosing, hfinish, hfirst, Turn.run, hslice]

/-- A job without the turn stays as it is, or it has work left and has not been served. -/
theorem job_other (h : Serves ps s turn s') (hk : Contract.Kept ps) (hsound : s.Sound ps) {i : Nat}
    {job : Job} (hp : ps[i]? = some p) (hi : i ≠ turn.position) (hjob : s'.job? i = some job) :
    ∃ old, s.job? i = some old ∧ old.Unserved job ∧ (job = old ∨ 0 < old.remaining.toNat) := by
  cases hsound.fate hk h hp hjob with
  | served hposition _ => exact absurd hposition hi
  | waited _ hold hready => exact ⟨_, hold, ⟨rfl, rfl, rfl, rfl, rfl⟩, .inr hready.work⟩
  | entered _ _ _ hold =>
    exact ⟨_, hold, ⟨rfl, rfl, rfl, rfl, rfl⟩, .inr (hk.burst_toNat_pos hp)⟩
  | completed _ _ hold _ => exact ⟨_, hold, ⟨rfl, rfl, rfl, rfl, rfl⟩, .inl rfl⟩
  | ahead _ _ hold => exact ⟨_, hold, ⟨rfl, rfl, rfl, rfl, rfl⟩, .inl rfl⟩

end Serves

/-- A job with a completion was let in and has no work left. -/
theorem Sound.done_of_completion (h : s.Sound ps) {i : Nat} {job : Job} {completion : Ticks}
    (hp : ps[i]? = some p) (hjob : s.job? i = some job)
    (hcompletion : job.completion = some completion) : i < s.admitted ∧ job.remaining = 0 := by
  obtain ⟨job', hjob', _, hstanding⟩ := h.standing i p hp
  rw [hjob, Option.some.injEq] at hjob'
  subst hjob'
  unfold Standing at hstanding
  cases hphase : job.phase with
  | unarrived =>
    simp only [hphase] at hstanding
    rw [hstanding.2.2] at hcompletion
    cases hcompletion
  | ready =>
    simp only [hphase] at hstanding
    rw [hstanding.2.2.2] at hcompletion
    cases hcompletion
  | running => simp only [hphase] at hstanding
  | finished =>
    simp only [hphase] at hstanding
    exact ⟨hstanding.1, hstanding.2.2.1⟩

/-- The events so far tell all that has happened to a process. Its rounds start at the instants in
`starts`. -/
structure Told (s : Simulation) (events : List Stamped) (i : Nat) (p : Process) (job : Job)
    (starts : List Ticks) : Prop where
  length : starts.length = job.dispatches.toNat
  history_eq : eventsOf p.pid events =
    if i < s.admitted then p.history s.quantum job.waiting (job.response.getD 0) starts else []
  fits : ∀ (k : Nat) start, starts[k]? = some start →
    start.toNat + (p.slice s.quantum k).toNat < UInt64.size
  response : ∀ start, starts.head? = some start →
    p.arrival ≤ start ∧ job.response = some (start - p.arrival)
  completion : ∀ completion, job.completion = some completion →
    (eventsOf p.pid events).getLast? =
      some { time := completion, event := .retired p.pid job.waiting (job.response.getD 0) }

namespace Told

variable {events : List Stamped} {starts : List Ticks} {i : Nat} {job : Job}

/-- The history of the job that has the turn, once it is admitted. -/
theorem admitted (h : Told s events i p job starts) (hsound : s.Sound ps) (hp : ps[i]? = some p)
    (hjob : s.job? i = some job) :
    eventsOf p.pid events ++ (if s.admitted ≤ i then
        [{ time := p.arrival, event := .admitted p.pid }] else []) =
      p.history s.quantum job.waiting (job.response.getD 0) starts := by
  rw [h.history_eq]
  by_cases hadmitted : i < s.admitted
  · rw [if_pos hadmitted, if_neg (by omega), List.append_nil]
  · obtain rfl := hsound.eq_of_ahead hp (by omega) hjob
    have hnone : starts = [] := List.eq_nil_of_length_eq_zero h.length
    rw [if_neg hadmitted, if_pos (by omega), hnone]
    rfl

/-- A turn is one more round in the history of its job. -/
theorem served (h : Told s events turn.position turn.process turn.job starts)
    (hm : Serves ps s turn s') (hk : Contract.Kept ps) (hsound : s.Sound ps)
    (hrounds : s.InRounds ps) (hnow : s'.now.toNat = s.now.toNat + (turn.run s.quantum).toNat) :
    Told s' (events ++ turn.events ps s s') turn.position turn.process
      ((turn.job.served s.now s.quantum).leave s'.now) (starts ++ [s.now]) := by
  have hready := hsound.eligible hk hm hm.process
  have hin := hrounds _ _ _ hm.process hm.job
  have hlt := hin.lt_rounds (quantum_pos s) hready.work
  have hquantum : s'.quantum = s.quantum := hm.frame.quantum
  have hlength := h.length
  have hwaiting : ((turn.job.served s.now s.quantum).leave s'.now).waiting = turn.job.waiting :=
    Job.waiting_leave _ _
  have hresponse : ((turn.job.served s.now s.quantum).leave s'.now).response =
      some (turn.job.responseFrom s.now) := Job.response_leave _ _
  have hround := hm.round_eq hk hsound hrounds hnow
  have hevents : eventsOf turn.process.pid (events ++ turn.events ps s s') =
      turn.process.history s.quantum turn.job.waiting (turn.job.responseFrom s.now) starts ++
        [turn.opening s, turn.ending s s'] := by
    rw [eventsOf_append, hm.eventsOf_position hk hsound, ← List.append_assoc,
      h.admitted hsound hm.process hm.job, Process.history_congr (by omega)]
  have hadmitted : turn.position < s'.admitted := by
    have := hsound.lt_early hm (.inl rfl)
    have := hm.late.le
    rw [hm.admitted]
    omega
  exact {
    length := by
      rw [Job.dispatches_leave, Job.toNat_dispatches_served s.now hm.dispatches_lt,
        List.length_append, hlength]
      rfl
    history_eq := by
      rw [hevents, if_pos hadmitted, hwaiting, hresponse, Option.getD_some, hquantum,
        Process.history_concat, hround, hlength]
    fits := by
      intro k start hstart
      rw [hquantum]
      rw [List.getElem?_append] at hstart
      split at hstart
      · exact h.fits k start hstart
      · next hk' =>
        have hk0 : k - starts.length = 0 := by
          have := (List.getElem?_eq_some_iff.1 hstart).1
          rw [List.length_singleton] at this
          omega
        rw [hk0, List.getElem?_cons_zero, Option.some.injEq] at hstart
        have hkeq : k = turn.job.dispatches.toNat := by omega
        rw [← hstart, hkeq, ← hin.share_eq (quantum_pos s) hready.work]
        change s.now.toNat + (turn.run s.quantum).toNat < _
        rw [← hnow]
        exact s'.now.toNat_lt_size
    response := by
      intro start hstart
      rw [hresponse]
      cases starts with
      | nil =>
        have hfirst : turn.job.response = none := by
          have hiff := hready.accounts.response_iff
          rw [← hlength] at hiff
          exact Option.not_isSome_iff_eq_none.1 (mt hiff.1 (Nat.lt_irrefl 0))
        rw [List.nil_append, List.head?_cons, Option.some.injEq] at hstart
        rw [← hstart, Job.responseFrom, hfirst, Option.getD_none, hready.accounts.arrival]
        exact ⟨hready.arrived, rfl⟩
      | cons first rest =>
        rw [List.cons_append, List.head?_cons] at hstart
        obtain ⟨harrival, hbefore⟩ := h.response start hstart
        rw [Job.responseFrom, hbefore, Option.getD_some]
        exact ⟨harrival, rfl⟩
    completion := by
      intro completion hcompletion
      rw [Job.completion_leave] at hcompletion
      split at hcompletion
      · next hdone =>
        have hlast : turn.ending s s' = {
            time := s'.now
            event := .retired turn.process.pid turn.job.waiting
              (turn.job.responseFrom s.now) } := by
          rw [Turn.ending, Job.closing, if_pos hdone, ← hready.accounts.pid]
          rfl
        rw [hevents, hwaiting, hresponse, Option.getD_some, hlast]
        rw [Option.some.injEq] at hcompletion
        rw [List.getLast?_append, hcompletion]
        rfl
      · rw [show (turn.job.served s.now s.quantum).completion = none from hready.completion]
          at hcompletion
        cases hcompletion }

/-- A turn adds nothing but an admission to the history of a process that does not have it. -/
theorem unserved (h : Told s events i p job starts) (hm : Serves ps s turn s')
    (hk : Contract.Kept ps) (hsound : s.Sound ps) (hrounds : s.InRounds ps)
    (hp : ps[i]? = some p) (hjob : s.job? i = some job) (hi : i ≠ turn.position) {job' : Job}
    (hunserved : job.Unserved job') (hsame : job' = job ∨ 0 < job.remaining.toNat) :
    Told s' (events ++ turn.events ps s s') i p job' starts := by
  have hquantum : s'.quantum = s.quantum := hm.frame.quantum
  have hlength := h.length
  -- the history does not depend on times that may still change
  have hhistory : p.history s.quantum job.waiting (job.response.getD 0) starts =
      p.history s.quantum job'.waiting (job'.response.getD 0) starts := by
    rcases hsame with rfl | hwork
    · rfl
    · have hlt := (hrounds i p job hp hjob).lt_rounds (quantum_pos s) hwork
      exact Process.history_congr (by omega)
  have hnew := hm.eventsOf_other hk hsound hp hi
  have hle := hm.early.le
  have hle' := hm.late.le
  exact {
    length := by rw [hlength, hunserved.dispatches]
    history_eq := by
      rw [eventsOf_append, hnew, hquantum, hm.admitted, ← hhistory]
      by_cases hadmitted : i < turn.late
      · rw [if_pos hadmitted, ← h.admitted hsound hp hjob]
        by_cases hge : s.admitted ≤ i
        · rw [if_pos ⟨hge, hadmitted⟩, if_pos hge]
        · rw [if_neg (by omega), if_neg hge]
      · rw [if_neg hadmitted, if_neg (by omega), h.history_eq, if_neg (by omega)]
        rfl
    fits := by
      rw [hquantum]
      exact h.fits
    response := by
      rw [hunserved.response]
      exact h.response
    completion := by
      intro completion hcompletion
      rw [hunserved.completion] at hcompletion
      obtain ⟨hadmitted, hdone⟩ := hsound.done_of_completion hp hjob hcompletion
      rcases hsame with rfl | hwork
      · rw [eventsOf_append, hnew, if_neg (by omega), List.append_nil]
        exact h.completion completion hcompletion
      · rw [hdone, UInt64.toNat_zero] at hwork
        exact absurd hwork (Nat.lt_irrefl 0) }

end Told

/-- The events so far tell all that has happened to the processes. -/
def Tells (ps : ProcessList) (s : Simulation) (events : List Stamped) : Prop :=
  ∀ i p job, ps[i]? = some p → s.job? i = some job → ∃ starts, Told s events i p job starts

namespace Tells

variable {events : List Stamped}

theorem serves (h : Tells ps s events) (hm : Serves ps s turn s') (hk : Contract.Kept ps)
    (hsound : s.Sound ps) (hrounds : s.InRounds ps)
    (hnow : s'.now.toNat = s.now.toNat + (turn.run s.quantum).toNat) :
    Tells ps s' (events ++ turn.events ps s s') := by
  intro i p job hp hjob
  by_cases hi : i = turn.position
  · subst hi
    rw [hm.process, Option.some.injEq] at hp
    subst hp
    rw [hm.served, Option.some.injEq] at hjob
    subst hjob
    obtain ⟨starts, htold⟩ := h _ _ _ hm.process hm.job
    exact ⟨_, htold.served hm hk hsound hrounds hnow⟩
  · obtain ⟨old, hold, hunserved, hsame⟩ := hm.job_other hk hsound hp hi hjob
    obtain ⟨starts, htold⟩ := h i p old hp hold
    exact ⟨starts, htold.unserved hm hk hsound hrounds hp hold hi hunserved hsame⟩

theorem skips (h : Tells ps s events) {next : Process} (hm : Skips ps s next s') :
    Tells ps s' (events ++ [{ time := s.now, event := .idle next.arrival }]) := by
  intro i p job hp hjob
  rw [hm.job_eq] at hjob
  obtain ⟨starts, htold⟩ := h i p job hp hjob
  have hquantum : s'.quantum = s.quantum := hm.frame.quantum
  have hevents : eventsOf p.pid (events ++ [{ time := s.now, event := .idle next.arrival }]) =
      eventsOf p.pid events := by
    rw [eventsOf_append]
    exact List.append_nil _
  refine ⟨starts, htold.length, ?_, ?_, htold.response, ?_⟩
  · rw [hevents, hm.admitted, hquantum]
    exact htold.history_eq
  · rw [hquantum]
    exact htold.fits
  · rw [hevents]
    exact htold.completion

theorem reaches {config : Config} (hstart : start ps config = .ok s) (hfits : ps.FitsClock)
    (hr : Reaches ps s events s') : Tells ps s' events := by
  have hk := kept_of_start hstart
  have hsound := sound_start hstart
  induction hr with
  | refl =>
    intro i p job hp hjob
    have hzero := admitted_of_start hstart
    obtain rfl := hsound.eq_of_ahead hp (by omega) hjob
    refine ⟨[], rfl, ?_, nofun, nofun, nofun⟩
    rw [if_neg (by omega)]
    rfl
  | snoc hr hm ih =>
    have hmid := hr.sound hstart
    cases hm with
    | serves turn h =>
      exact ih.serves h hk hmid (hr.inRounds hstart)
        (h.now_exact hfits (hr.inTime hstart hfits))
    | skips next h => exact ih.skips h

end Tells

end Simulation

end RoundRobin
