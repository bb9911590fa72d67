import RoundRobin.Proofs.Contract
import RoundRobin.Proofs.Scheduler

/-!
# What a step does

A step of a simulation that is not complete either serves one slice or skips one gap. `Serves` and
`Skips` say all that such a step does to the clock, the queue, every job and the counters, and
`Moves` adds the events. Everything proved about runs is derived from these relations.
-/

namespace RoundRobin

/-- Of the processes from position `a` on, those before `b` are the ones that arrive before `t`. -/
structure Admits (ps : ProcessList) (t a b : Nat) : Prop where
  le : a ≤ b
  le_length : b ≤ ps.length
  arrived : ∀ i p, ps[i]? = some p → a ≤ i → i < b → p.arrival.toNat < t
  ahead : ∀ i p, ps[i]? = some p → b ≤ i → t ≤ p.arrival.toNat

/-- The admissions of the processes from position `a` up to `b`, each at its arrival. -/
def admissions (ps : ProcessList) (a b : Nat) : List Stamped :=
  ((ps.take b).drop a).map fun p => { time := p.arrival, event := .admitted p.pid }

theorem admissions_self (ps : ProcessList) (a : Nat) : admissions ps a a = [] := by
  simp [admissions, List.drop_eq_nil_of_le (List.length_take_le a ps)]

theorem admissions_cons {ps : ProcessList} {a b : Nat} {p : Process} (hp : ps[a]? = some p)
    (hab : a < b) :
    admissions ps a b = { time := p.arrival, event := .admitted p.pid } ::
      admissions ps (a + 1) b := by
  obtain ⟨ha, rfl⟩ := List.getElem?_eq_some_iff.1 hp
  have hlen : a < (ps.take b).length := by
    rw [List.length_take]
    omega
  rw [admissions, List.drop_eq_getElem_cons hlen, List.map_cons, List.getElem_take]
  rfl

/-- The events of admissions are those of the processes let in. -/
theorem mem_admissions_iff {ps : ProcessList} {a b : Nat} {e : Stamped} :
    e ∈ admissions ps a b ↔
      ∃ i p, ps[i]? = some p ∧ a ≤ i ∧ i < b ∧
        e = { time := p.arrival, event := .admitted p.pid } := by
  rw [admissions, List.mem_map]
  simp only [List.mem_iff_getElem? (l := (ps.take b).drop a), List.getElem?_drop,
    List.getElem?_take]
  constructor
  · rintro ⟨p, ⟨k, hk⟩, rfl⟩
    split at hk
    · exact ⟨a + k, p, hk, by omega, by omega, rfl⟩
    · simp at hk
  · rintro ⟨i, p, hp, ha, hb, rfl⟩
    refine ⟨p, ⟨i - a, ?_⟩, rfl⟩
    rw [show a + (i - a) = i by omega, if_pos hb, hp]

/-- A job that may have entered the queue or waited in it, but has not been served. -/
structure Job.Unserved (old job : Job) : Prop where
  remaining : job.remaining = old.remaining
  cpuTime : job.cpuTime = old.cpuTime
  response : job.response = old.response
  dispatches : job.dispatches = old.dispatches
  completion : job.completion = old.completion

namespace Simulation

/-- The machine that the simulation drives. -/
abbrev machine (s : Simulation) : Machine :=
  s.scheduler.machine

/-- The clock. -/
abbrev now (s : Simulation) : Ticks :=
  s.scheduler.machine.now

/-- The queued jobs, oldest first. -/
abbrev queue (s : Simulation) : List Nat :=
  s.scheduler.machine.ready.slots

/-- The job at a position, if there is one. -/
abbrev job? (s : Simulation) (i : Nat) : Option Job :=
  s.scheduler.machine.jobs[i]?

/-- The longest slice. -/
abbrev quantum (s : Simulation) : Ticks :=
  s.scheduler.quantum

/-- The turn that a slice gives to a job: its position, the queue behind it, its process, the job as
it stood before the step, and how many processes are in once the slice starts and once it ends. -/
structure Turn where
  position : Nat
  rest : List Nat
  process : Process
  job : Job
  early : Nat
  late : Nat

/-- How long the slice lasts. -/
def Turn.run (turn : Turn) (quantum : Ticks) : Ticks :=
  turn.job.share quantum

/-- The slice ends the work of the job. -/
def Turn.Ends (turn : Turn) (quantum : Ticks) : Prop :=
  turn.job.remaining.toNat ≤ quantum.toNat

instance (turn : Turn) (quantum : Ticks) : Decidable (turn.Ends quantum) :=
  inferInstanceAs (Decidable (_ ≤ _))

/-- What every step keeps, and the state of the processor between steps. -/
structure Frame (s s' : Simulation) : Prop where
  processes : s'.processes = s.processes
  quantum : s'.quantum = s.quantum
  free : s'.machine.current = none
  consistent : s'.machine.ready.Consistent
  size : s'.machine.jobs.size = s.machine.jobs.size

/-- What a step does that gives a turn to a job. -/
structure Serves (ps : ProcessList) (s : Simulation) (turn : Turn) (s' : Simulation) : Prop where
  frame : Frame s s'
  early : Admits ps (s.now.toNat + 1) s.admitted turn.early
  late : Admits ps s'.now.toNat turn.early turn.late
  line : s.queue ++ List.range' s.admitted (turn.early - s.admitted) = turn.position :: turn.rest
  process : ps[turn.position]? = some turn.process
  job : s.job? turn.position = some turn.job
  now : s'.now = s.now.satAdd (turn.run s.quantum)
  admitted : s'.admitted = turn.late
  queue : s'.queue = turn.rest ++ List.range' turn.early (turn.late - turn.early) ++
    (if turn.Ends s.quantum then [] else [turn.position])
  served : s'.job? turn.position = some ((turn.job.served s.now s.quantum).leave s'.now)
  waited : ∀ k ∈ turn.rest, s'.job? k = (s.job? k).map (·.enter.wait (turn.run s.quantum))
  entered : ∀ k, turn.early ≤ k → k < turn.late → s'.job? k = (s.job? k).map Job.enter
  untouched : ∀ k, k ≠ turn.position → k ∉ turn.rest → (k < turn.early ∨ turn.late ≤ k) →
    s'.job? k = s.job? k
  finished : s'.machine.finished.toNat =
    s.machine.finished.toNat + (if turn.Ends s.quantum then 1 else 0)
  preemptions : s'.scheduler.preemptions.toNat =
    s.scheduler.preemptions.toNat + (if turn.Ends s.quantum then 0 else 1)
  dispatches_lt : turn.job.dispatches.toNat + 1 < UInt64.size

/-- What a step does that moves the clock to the arrival of the next process. -/
structure Skips (ps : ProcessList) (s : Simulation) (p : Process) (s' : Simulation) : Prop where
  frame : Frame s s'
  empty : s.queue = []
  next : ps[s.admitted]? = some p
  later : s.now < p.arrival
  machine : s'.machine = { s.machine with now := p.arrival }
  admitted : s'.admitted = s.admitted
  preemptions : s'.scheduler.preemptions = s.scheduler.preemptions

/-- The event that opens a turn. -/
def Turn.opening (turn : Turn) (s : Simulation) : Stamped where
  time := s.now
  event := .dispatched turn.process.pid (turn.run s.quantum) turn.job.response.isNone

/-- The event that ends a turn. -/
def Turn.ending (turn : Turn) (s s' : Simulation) : Stamped where
  time := s'.now
  event := (turn.job.served s.now s.quantum).closing

/-- The events of a turn, in their order. -/
def Turn.events (ps : ProcessList) (s : Simulation) (turn : Turn) (s' : Simulation) :
    List Stamped :=
  admissions ps s.admitted turn.early ++ turn.opening s ::
    admissions ps turn.early turn.late ++ [turn.ending s s']

/-- What a step of an unfinished simulation does, with the events that it hands out. -/
inductive Moves (ps : ProcessList) (s : Simulation) : List Stamped → Simulation → Prop where
  | serves {s' : Simulation} (turn : Turn) : Serves ps s turn s' →
      Moves ps s (turn.events ps s s') s'
  | skips {s' : Simulation} (p : Process) : Skips ps s p s' →
      Moves ps s [{ time := s.now, event := .idle p.arrival }] s'

variable {ps : ProcessList} {s s' : Simulation}

theorem Turn.events_eq (ps : ProcessList) (turn : Turn) (s s' : Simulation) :
    turn.events ps s s' = admissions ps s.admitted turn.early ++ ([turn.opening s] ++
      (admissions ps turn.early turn.late ++ [turn.ending s s'])) := by
  rw [Turn.events, List.append_assoc]
  rfl

theorem Turn.mem_events_iff {turn : Turn} {e : Stamped} :
    e ∈ turn.events ps s s' ↔ e ∈ admissions ps s.admitted turn.early ∨ e = turn.opening s ∨
      e ∈ admissions ps turn.early turn.late ∨ e = turn.ending s s' := by
  rw [Turn.events_eq, List.mem_append, List.mem_append, List.mem_append, List.mem_singleton,
    List.mem_singleton]

/-- What holds of every preemption and of every retirement holds of the event that ends a turn. -/
theorem Turn.ending_of {turn : Turn} {P : Stamped → Prop}
    (hpreempted : ∀ time pid remaining, P { time, event := .preempted pid remaining })
    (hretired : ∀ time pid waiting response, P { time, event := .retired pid waiting response }) :
    P (turn.ending s s') := by
  unfold Turn.ending Job.closing
  split
  · exact hretired _ _ _ _
  · exact hpreempted _ _ _

/-- What is picked from the events of a turn, if no admissions are, comes from the event that opens
it and the one that ends it. -/
theorem Turn.filterMap_events {α : Type} {f : Stamped → Option α} (turn : Turn)
    (hadmitted : ∀ time pid, f { time, event := .admitted pid } = none) :
    (turn.events ps s s').filterMap f =
      (f (turn.opening s)).toList ++ (f (turn.ending s s')).toList := by
  have hnone : ∀ a b, (admissions ps a b).filterMap f = [] := by
    intro a b
    rw [List.filterMap_eq_nil_iff]
    intro e he
    obtain ⟨_, _, _, _, _, rfl⟩ := mem_admissions_iff.1 he
    exact hadmitted _ _
  have hone : ∀ e, [e].filterMap f = (f e).toList := by
    intro e
    cases he : f e with
    | none => exact List.filterMap_cons_none he
    | some a => exact List.filterMap_cons_some he
  rw [Turn.events_eq]
  simp only [List.filterMap_append, hnone, hone, List.nil_append]

/-- What a turn makes of a job: it has the turn, waits behind it, is let in while it lasts, or is
left as it is. -/
theorem Serves.job_roles {turn : Turn} (h : Serves ps s turn s') {i : Nat} {job : Job}
    (hjob : s'.job? i = some job) :
    (i = turn.position ∧ job = (turn.job.served s.now s.quantum).leave s'.now) ∨
      (i ≠ turn.position ∧ i ∈ turn.rest ∧
        ∃ old, s.job? i = some old ∧ job = old.enter.wait (turn.run s.quantum)) ∨
      (i ≠ turn.position ∧ i ∉ turn.rest ∧ turn.early ≤ i ∧ i < turn.late ∧
        ∃ old, s.job? i = some old ∧ job = old.enter) ∨
      (i ≠ turn.position ∧ i ∉ turn.rest ∧ (i < turn.early ∨ turn.late ≤ i) ∧
        s.job? i = some job) := by
  by_cases hposition : i = turn.position
  · rw [hposition, h.served, Option.some.injEq] at hjob
    exact .inl ⟨hposition, hjob.symm⟩
  by_cases hrest : i ∈ turn.rest
  · rw [h.waited i hrest, Option.map_eq_some_iff] at hjob
    obtain ⟨old, hold, heq⟩ := hjob
    exact .inr (.inl ⟨hposition, hrest, old, hold, heq.symm⟩)
  by_cases hlate : turn.early ≤ i ∧ i < turn.late
  · rw [h.entered i hlate.1 hlate.2, Option.map_eq_some_iff] at hjob
    obtain ⟨old, hold, heq⟩ := hjob
    exact .inr (.inr (.inl ⟨hposition, hrest, hlate.1, hlate.2, old, hold, heq.symm⟩))
  · have hout : i < turn.early ∨ turn.late ≤ i := by omega
    rw [h.untouched i hposition hrest hout] at hjob
    exact .inr (.inr (.inr ⟨hposition, hrest, hout, hjob⟩))

/-- A job after a turn is the one that had the turn, or it has not been served. -/
theorem Serves.job_cases {turn : Turn} (h : Serves ps s turn s') {i : Nat} {job : Job}
    (hjob : s'.job? i = some job) :
    (i = turn.position ∧ job = (turn.job.served s.now s.quantum).leave s'.now) ∨
      (i ≠ turn.position ∧ ∃ old, s.job? i = some old ∧ old.Unserved job) := by
  rcases h.job_roles hjob with hserved | ⟨hne, _, old, hold, rfl⟩ |
    ⟨hne, _, _, _, old, hold, rfl⟩ | ⟨hne, _, _, hold⟩
  · exact .inl hserved
  · exact .inr ⟨hne, old, hold, rfl, rfl, rfl, rfl, rfl⟩
  · exact .inr ⟨hne, old, hold, rfl, rfl, rfl, rfl, rfl⟩
  · exact .inr ⟨hne, job, hold, rfl, rfl, rfl, rfl, rfl⟩

/-- A turn lets the jobs behind it wait for as long as it lasts. -/
theorem Serves.waiting_eq {turn : Turn} (h : Serves ps s turn s')
    (hfresh : turn.position ∉ turn.rest) {i : Nat} {job : Job} (hjob : s'.job? i = some job) :
    ∃ old, s.job? i = some old ∧ job.waiting =
      if i ∈ turn.rest then old.waiting.satAdd (turn.run s.quantum) else old.waiting := by
  rcases h.job_roles hjob with ⟨rfl, rfl⟩ | ⟨_, hrest, old, hold, rfl⟩ |
    ⟨_, hrest, _, _, old, hold, rfl⟩ | ⟨_, hrest, _, hold⟩
  · refine ⟨turn.job, h.job, ?_⟩
    rw [if_neg hfresh, Job.waiting_leave]
    rfl
  · refine ⟨old, hold, ?_⟩
    rw [if_pos hrest]
    rfl
  · refine ⟨old, hold, ?_⟩
    rw [if_neg hrest]
    rfl
  · refine ⟨job, hold, ?_⟩
    rw [if_neg hrest]

theorem Skips.job_eq {p : Process} (h : Skips ps s p s') (i : Nat) : s'.job? i = s.job? i :=
  congrArg (·.jobs[i]?) h.machine

end Simulation

end RoundRobin
