import RoundRobin.Proofs.Delay
import RoundRobin.Proofs.Makespan

/-!
# Processes that arrive together

Processes that arrive at one instant take turns in the order of the list. While one of them is at
the front of the line, every other one has had as many turns as it, and one more if it comes before
it in the list, unless it needed less (`Rotates`). This says what is left of all work when a turn
starts (`Rotates.remainders_eq`), and so when it starts. Main statement: `times_of_together`.
-/

namespace RoundRobin

namespace ProcessList

/-- How much work the processes have, counting no more than `limit` of each. -/
def workWithin (ps : ProcessList) (limit : Nat) : Nat :=
  (ps.map fun p => min p.burst.toNat limit).sum

/-- How much work the processes have left once each has received `limit`, if it needs as much. -/
def workBeyond (ps : ProcessList) (limit : Nat) : Nat :=
  (ps.map fun p => p.burst.toNat - limit).sum

/-- All processes arrive at one instant. -/
def Together (ps : ProcessList) (arrival : Ticks) : Prop :=
  ∀ p ∈ ps, p.arrival = arrival

instance (ps : ProcessList) (arrival : Ticks) : Decidable (ps.Together arrival) :=
  inferInstanceAs (Decidable (∀ p ∈ ps, _))

variable {ps : ProcessList} {arrival : Ticks}

theorem workWithin_add_workBeyond (ps : ProcessList) (limit : Nat) :
    ps.workWithin limit + ps.workBeyond limit = ps.totalBurst := by
  induction ps with
  | nil => rfl
  | cons p rest ih =>
    simp only [workWithin, workBeyond, List.map_cons, List.sum_cons] at ih ⊢
    rw [totalBurst_cons, ← ih]
    omega

theorem workWithin_zero (ps : ProcessList) : ps.workWithin 0 = 0 := by
  induction ps with
  | nil => rfl
  | cons p rest ih =>
    simp only [workWithin, List.map_cons, List.sum_cons] at ih ⊢
    rw [ih, Nat.min_zero]

/-- All work is that of the processes before a position, at it and behind it. -/
theorem totalBurst_split {i : Nat} {p : Process} (hp : ps[i]? = some p) :
    ps.totalBurst =
      totalBurst (ps.take i) + (p.burst.toNat + totalBurst (ps.drop (i + 1))) := by
  obtain ⟨hlt, rfl⟩ := List.getElem?_eq_some_iff.1 hp
  rw [← totalBurst_cons, ← List.drop_eq_getElem_cons hlt, ← totalBurst_append,
    List.take_append_drop]

namespace Together

theorem arrival_eq (h : ps.Together arrival) {i : Nat} {p : Process} (hp : ps[i]? = some p) :
    p.arrival = arrival :=
  h p (List.mem_of_getElem? hp)

/-- Processes that arrive together are sorted by their arrivals. -/
theorem kept (h : ps.Together arrival) (hne : ps ≠ []) (hburst : ∀ p ∈ ps, 0 < p.burst)
    (hdistinct : ps.Pairwise fun p later => p.pid ≠ later.pid) : Contract.Kept ps where
  ne_nil := hne
  sorted := by
    apply List.pairwise_of_forall_mem_list
    intro p hp q hq
    exact UInt64.le_of_eq ((h p hp).trans (h q hq).symm)
  burst_pos := hburst
  distinct := hdistinct

theorem fitsClock (h : ps.Together arrival)
    (hfits : arrival.toNat + ps.totalBurst < UInt64.size) : ps.FitsClock := by
  have hlast : ps.lastArrival ≤ arrival.toNat := by
    apply lastArrival_le
    intro p hp
    exact Nat.le_of_eq (congrArg UInt64.toNat (h p hp))
  unfold FitsClock
  omega

theorem finish (h : ps.Together arrival) (hne : ps ≠ []) :
    ps.finish = arrival.toNat + ps.totalBurst := by
  cases ps with
  | nil => exact absurd rfl hne
  | cons first rest =>
    have hfirst : first.arrival = arrival := h first List.mem_cons_self
    rw [ProcessList.finish, finishFrom_of_gap (Nat.zero_le _), hfirst]
    intro p hp
    have hother : p.arrival = arrival := h p (List.mem_cons_of_mem first hp)
    exact Nat.le_of_eq (congrArg UInt64.toNat (hother.trans hfirst.symm))

end Together

end ProcessList

namespace Simulation

variable {ps : ProcessList} {s s' : Simulation} {turn : Turn} {arrival : Ticks}
  {events : List Stamped}

/-- How many turns the job at a position has had. -/
def turns (s : Simulation) (i : Nat) : Nat :=
  ((s.job? i).map (·.dispatches.toNat)).getD 0

theorem turns_of_job {i : Nat} {job : Job} (hjob : s.job? i = some job) :
    s.turns i = job.dispatches.toNat := by
  rw [turns, hjob]
  rfl

theorem Serves.turns_eq (h : Serves ps s turn s') (i : Nat) :
    s'.turns i = s.turns i + if i = turn.position then 1 else 0 := by
  cases hjob : s'.job? i with
  | none =>
    have hle : s.machine.jobs.size ≤ i := h.frame.size ▸ Array.getElem?_eq_none_iff.1 hjob
    have hlt : turn.position < s.machine.jobs.size := (Array.getElem?_eq_some_iff.1 h.job).1
    have hnone : s.job? i = none := Array.getElem?_eq_none_iff.2 hle
    rw [turns, turns, hjob, hnone, if_neg (by omega)]
    rfl
  | some job =>
    rw [turns_of_job hjob]
    rcases h.job_cases hjob with ⟨rfl, rfl⟩ | ⟨hne, old, hold, hunserved⟩
    · rw [turns_of_job h.job, if_pos rfl, Job.dispatches_leave,
        Job.toNat_dispatches_served s.now h.dispatches_lt]
    · rw [turns_of_job hold, if_neg hne, hunserved.dispatches]
      rfl

/-- Those in line are in rotation: of two of them, the one behind has had as many turns, and one
more if it comes first in the list. No other job has had more turns than that either. -/
structure Rotates (ps : ProcessList) (s : Simulation) : Prop where
  order : (s.line ps).Pairwise fun i j => s.turns j = s.turns i + if j < i then 1 else 0
  level : ∀ i ∈ s.line ps, ∀ j, j ≠ i → s.turns j ≤ s.turns i + if j < i then 1 else 0

/-- A turn lets in every process that arrives together with its own. -/
theorem Serves.early_eq_length (h : Serves ps s turn s') (hk : Contract.Kept ps)
    (hsound : s.Sound ps) (htogether : ps.Together arrival) : turn.early = ps.length := by
  have hle := h.early.le_length
  apply Nat.le_antisymm hle
  apply Nat.le_of_not_lt
  intro hlt
  have hp : ps[turn.early]? = some ps[turn.early] := List.getElem?_eq_getElem hlt
  have hahead := h.early.ahead _ _ hp (Nat.le_refl _)
  have harrived := UInt64.le_iff_toNat_le.1 (hsound.eligible hk h h.process).arrived
  rw [htogether.arrival_eq hp] at hahead
  rw [htogether.arrival_eq h.process] at harrived
  omega

/-- A turn moves the front of the line to its back, or out of it. -/
theorem Serves.line_rotate (h : Serves ps s turn s') (hk : Contract.Kept ps)
    (hsound : s.Sound ps) (htogether : ps.Together arrival) :
    s'.line ps = turn.rest ++ if turn.Ends s.quantum then [] else [turn.position] := by
  have hearly := h.early_eq_length hk hsound htogether
  have hlate := h.late.le
  have hlength := h.late.le_length
  have hbound := arrivedBefore_le_length ps (s'.now.toNat + 1)
  have hall : turn.late - turn.early = 0 := by omega
  have hnone : arrivedBefore ps (s'.now.toNat + 1) - s'.admitted = 0 := by
    rw [h.admitted]
    omega
  rw [Simulation.line, h.queue, hall, hnone, List.range'_zero, List.range'_zero, List.append_nil,
    List.append_nil]

namespace Rotates

/-- Before a process is let in, those in line are in the order of the list and have had no turn. -/
theorem of_unadmitted (hsound : s.Sound ps) (hzero : s.admitted = 0) : Rotates ps s := by
  have hempty : s.queue = [] := by
    apply List.eq_nil_iff_forall_not_mem.2
    intro i hi
    have := hsound.queue_lt i hi
    omega
  have hturns : ∀ i, s.turns i = 0 := by
    intro i
    cases hjob : s.job? i with
    | none =>
      rw [turns, hjob]
      rfl
    | some job =>
      have hlt : i < ps.length := hsound.size ▸ (Array.getElem?_eq_some_iff.1 hjob).1
      obtain rfl := hsound.eq_of_ahead (List.getElem?_eq_getElem hlt) (by omega) hjob
      rw [turns_of_job hjob]
      rfl
  constructor
  · rw [line, hempty, List.nil_append]
    apply (List.pairwise_lt_range' 1).imp
    intro i j hij
    rw [hturns, hturns, if_neg (by omega)]
  · intro i _ j _
    rw [hturns]
    exact Nat.zero_le _

/-- With one at the front, every other job in line has had as many turns, and one more if it comes
first in the list. -/
theorem turns_rest (h : Rotates ps s) (hline : s.line ps = turn.position :: turn.rest) {i : Nat}
    (hi : i ∈ turn.rest) :
    s.turns i = s.turns turn.position + if i < turn.position then 1 else 0 := by
  have horder := h.order
  rw [hline, List.pairwise_cons] at horder
  exact horder.1 i hi

theorem serves (h : Rotates ps s) (hm : Serves ps s turn s') (hk : Contract.Kept ps)
    (hsound : s.Sound ps) (htogether : ps.Together arrival) : Rotates ps s' := by
  have hline := hm.line_eq_cons hk hsound
  have hfresh := (List.nodup_cons.1 (hsound.nodup_line hm)).1
  have hrotate := hm.line_rotate hk hsound htogether
  have horder := h.order
  have hlevel := h.level
  rw [hline, List.pairwise_cons] at horder
  rw [hline] at hlevel
  have hne : ∀ i ∈ turn.rest, i ≠ turn.position := fun i hi heq => hfresh (heq ▸ hi)
  have hserved := hm.turns_eq turn.position
  rw [if_pos rfl] at hserved
  have hother : ∀ i, i ≠ turn.position → s'.turns i = s.turns i := by
    intro i hi
    rw [hm.turns_eq, if_neg hi, Nat.add_zero]
  constructor
  · rw [hrotate, List.pairwise_append]
    refine ⟨?_, by split <;> simp, ?_⟩
    · apply horder.2.imp_of_mem
      intro i j hi hj hij
      rw [hother i (hne i hi), hother j (hne j hj), hij]
    · intro i hi j hj
      split at hj
      · cases hj
      obtain rfl := List.mem_singleton.1 hj
      -- the job at the back has caught up with those before it in the list, and passed the others
      have hbefore := horder.1 i hi
      have hi' := hne i hi
      rw [hother i hi']
      split at hbefore <;> split <;> omega
  · intro i hi j hj
    rw [hrotate, List.mem_append] at hi
    rcases hi with hi | hi
    · have hi' := hne i hi
      rw [hother i hi']
      by_cases hposition : j = turn.position
      · subst hposition
        have hbefore := horder.1 i hi
        split at hbefore <;> split <;> omega
      · rw [hother j hposition]
        exact hlevel i (List.mem_cons_of_mem _ hi) j hj
    · split at hi
      · cases hi
      obtain rfl := List.mem_singleton.1 hi
      have hbefore := hlevel _ List.mem_cons_self j hj
      rw [hother j hj]
      omega

/-- A gap comes before the processes only, so nothing is let in before it. -/
theorem skips {next : Process} (hm : Skips ps s next s') (hsound : s.Sound ps)
    (hk : Contract.Kept ps) (htogether : ps.Together arrival) : Rotates ps s' := by
  have hzero : s.admitted = 0 := by
    apply Nat.eq_zero_of_not_pos
    intro hpos
    obtain ⟨first, hfirst⟩ : ∃ first, ps[0]? = some first :=
      ⟨_, List.getElem?_eq_getElem (List.length_pos_iff.2 hk.ne_nil)⟩
    have harrived := UInt64.le_iff_toNat_le.1 (hsound.arrived 0 first hfirst hpos)
    have hlater := UInt64.lt_iff_toNat_lt.1 hm.later
    rw [htogether.arrival_eq hfirst] at harrived
    rw [htogether.arrival_eq hm.next] at hlater
    omega
  exact of_unadmitted (hsound.skips hk hm) (hm.admitted.trans hzero)

theorem reaches {config : Config} (hstart : start ps config = .ok s)
    (htogether : ps.Together arrival) (hr : Reaches ps s events s') : Rotates ps s' := by
  have hk := kept_of_start hstart
  induction hr with
  | refl => exact of_unadmitted (sound_start hstart) (admitted_of_start hstart)
  | snoc hr hm ih =>
    have hsound := hr.sound hstart
    cases hm with
    | serves turn h => exact ih.serves h hk hsound htogether
    | skips next h => exact skips h hsound hk htogether

/-- What is left of the work of a job that does not have the turn. -/
theorem remaining_eq (h : Rotates ps s) (hm : Serves ps s turn s') (hk : Contract.Kept ps)
    (hsound : s.Sound ps) (hrounds : s.InRounds ps) (htogether : ps.Together arrival) {i : Nat}
    {p : Process} {job : Job} (hp : ps[i]? = some p) (hjob : s.job? i = some job)
    (hne : i ≠ turn.position) :
    job.remaining.toNat = p.burst.toNat -
      (turn.job.dispatches.toNat + if i < turn.position then 1 else 0) * s.quantum.toNat := by
  have hline := hm.line_eq_cons hk hsound
  have hremaining := (hrounds i p job hp hjob).remaining
  by_cases hrest : i ∈ turn.rest
  · have hturns := h.turns_rest hline hrest
    rw [turns_of_job hjob, turns_of_job hm.job] at hturns
    rw [hremaining, hturns]
  · -- a job that is not in line has finished, with no more turns than the ones in line
    have hlevel := h.level turn.position (by rw [hline]; exact List.mem_cons_self) i hne
    rw [turns_of_job hjob, turns_of_job hm.job] at hlevel
    have hlt := (List.getElem?_eq_some_iff.1 hp).1
    have hearly := hm.early_eq_length hk hsound htogether
    obtain ⟨hadmitted, hqueue⟩ := hm.admitted_of_not_line hne hrest (by omega)
    obtain ⟨_, _, hjob', _, _, hzero, _⟩ := hsound.finished_of_not_mem hp hadmitted hqueue
    rw [hjob, Option.some.injEq] at hjob'
    subst hjob'
    rw [hzero, UInt64.toNat_zero] at hremaining ⊢
    have hmul := Nat.mul_le_mul_right s.quantum.toNat hlevel
    omega

/-- When a turn starts that comes after `d` others of its job, the jobs before it in the list have
received `d + 1` quanta, and those behind it `d`, or all they need. -/
theorem remainders_eq (h : Rotates ps s) (hm : Serves ps s turn s') (hk : Contract.Kept ps)
    (hsound : s.Sound ps) (hrounds : s.InRounds ps) (htogether : ps.Together arrival) :
    s.machine.remainders =
      (ps.take turn.position).map
          (fun p => p.burst.toNat - (turn.job.dispatches.toNat + 1) * s.quantum.toNat) ++
        turn.job.remaining.toNat ::
          (ps.drop (turn.position + 1)).map
            (fun p => p.burst.toNat - turn.job.dispatches.toNat * s.quantum.toNat) := by
  have hposition := (List.getElem?_eq_some_iff.1 hm.process).1
  have hremainder : ∀ i p, ps[i]? = some p → i ≠ turn.position →
      s.machine.remainders[i]? = some (p.burst.toNat -
        (turn.job.dispatches.toNat + if i < turn.position then 1 else 0) * s.quantum.toNat) := by
    intro i p hp hne
    obtain ⟨job, hjob, _⟩ := hsound.standing i p hp
    rw [Machine.remainders_of_job (Machine.job_eq_ok_iff.2 hjob),
      h.remaining_eq hm hk hsound hrounds htogether hp hjob hne]
  have hsize : s.machine.remainders.length = ps.length := by
    rw [Machine.remainders, List.length_map]
    exact hsound.size
  have htake : ((ps.take turn.position).map fun p =>
      p.burst.toNat - (turn.job.dispatches.toNat + 1) * s.quantum.toNat).length =
        turn.position := by
    rw [List.length_map, List.length_take]
    omega
  apply List.ext_getElem?
  intro i
  rcases Nat.lt_trichotomy i turn.position with hlt | rfl | hgt
  · have hp : ps[i]? = some ps[i] := List.getElem?_eq_getElem (by omega)
    rw [List.getElem?_append_left (by omega), List.getElem?_map, List.getElem?_take_of_lt hlt, hp,
      hremainder i _ hp (by omega), if_pos hlt]
    rfl
  · rw [List.getElem?_append_right (by omega), htake, Nat.sub_self, List.getElem?_cons_zero,
      Machine.remainders_of_job (Machine.job_eq_ok_iff.2 hm.job)]
  · obtain ⟨k, rfl⟩ := Nat.exists_eq_add_of_lt hgt
    rw [List.getElem?_append_right (by omega), htake,
      show turn.position + k + 1 - turn.position = k + 1 by omega, List.getElem?_cons_succ,
      List.getElem?_map, List.getElem?_drop,
      show turn.position + 1 + k = turn.position + k + 1 by omega]
    cases hp : ps[turn.position + k + 1]? with
    | none =>
      have hle := List.getElem?_eq_none_iff.1 hp
      rw [List.getElem?_eq_none_iff.2 (by omega)]
      rfl
    | some p =>
      rw [hremainder _ p hp (by omega), if_neg (by omega)]
      rfl

end Rotates

/-- When the process at a position completes, if all of them arrive together: those before it have
received as many quanta as it needs, and those behind it one less, or all they need. -/
def completionTogether (ps : ProcessList) (arrival quantum : Ticks) (i : Nat) (p : Process) : Nat :=
  arrival.toNat + p.burst.toNat +
    ProcessList.workWithin (ps.take i) (p.rounds quantum * quantum.toNat) +
    ProcessList.workWithin (ps.drop (i + 1)) ((p.rounds quantum - 1) * quantum.toNat)

/-- The timing of a process, if all of them arrive together. -/
structure TimedTogether (ps : ProcessList) (arrival quantum : Ticks) (i : Nat) (p : Process)
    (timing : Timing) : Prop where
  pid : timing.pid = p.pid
  completion : timing.completion.toNat = completionTogether ps arrival quantum i p
  waiting : timing.waiting.toNat = timing.completion.toNat - arrival.toNat - p.burst.toNat
  response : timing.response.toNat = ProcessList.workWithin (ps.take i) quantum.toNat

namespace Reaches

section Together

variable {config : Config} {t t' : Simulation} (hstart : start ps config = .ok s)
  (htogether : ps.Together arrival)

include hstart htogether

/-- No process arrives within a slice, if all of them arrive together. -/
theorem offset_eq_zero (hr : Reaches ps s events t) {p : Process} (hp : p ∈ ps) :
    offset events p = 0 := by
  have hk := kept_of_start hstart
  induction hr with
  | refl => rfl
  | snoc hr hm ih =>
    rw [offset_append_of_none, ih]
    intro e he
    cases hm with
    | serves turn h =>
      have hready := (hr.sound hstart).eligible hk h h.process
      apply Turn.rest?_of_arrived ?_ he
      rw [htogether p hp, ← htogether.arrival_eq h.process]
      exact hready.arrived
    | skips next h =>
      rw [List.mem_singleton.1 he]
      rfl

variable (hfits : ps.FitsClock)

include hfits

/-- When a turn starts, the clock and the work that is left come to all work behind the arrival. -/
theorem now_add_remainingWork (hr : Reaches ps s events t) (hm : Serves ps t turn t') :
    t.now.toNat + t.machine.remainingWork = arrival.toNat + ps.totalBurst := by
  have hk := kept_of_start hstart
  have hsound := hr.sound hstart
  have hearly := hm.early_eq hk hsound
  rw [hm.early_eq_length hk hsound htogether] at hearly
  have hfinish := (Paced.reaches hstart hfits hr).finish
  rw [ProcessList.arrivedBy, ProcessList.comingAfter, ← hearly, List.take_length,
    List.drop_length, htogether.finish hk.ne_nil] at hfinish
  exact hfinish.symm

/-- When a turn starts: all that the jobs have received until then has taken its time. -/
theorem now_add_remaining (hr : Reaches ps s events t) (hm : Serves ps t turn t') :
    t.now.toNat + turn.job.remaining.toNat = arrival.toNat + turn.process.burst.toNat +
      ProcessList.workWithin (ps.take turn.position)
        ((turn.job.dispatches.toNat + 1) * t.quantum.toNat) +
      ProcessList.workWithin (ps.drop (turn.position + 1))
        (turn.job.dispatches.toNat * t.quantum.toNat) := by
  have hk := kept_of_start hstart
  have hsound := hr.sound hstart
  have hrounds := hr.inRounds hstart
  have hremainders := (Rotates.reaches hstart htogether hr).remainders_eq hm hk hsound hrounds
    htogether
  have hnow := hr.now_add_remainingWork hstart htogether hfits hm
  have hsplit := ProcessList.totalBurst_split hm.process
  have hbefore := ProcessList.workWithin_add_workBeyond (ps.take turn.position)
    ((turn.job.dispatches.toNat + 1) * t.quantum.toNat)
  have hbehind := ProcessList.workWithin_add_workBeyond (ps.drop (turn.position + 1))
    (turn.job.dispatches.toNat * t.quantum.toNat)
  rw [Machine.remainingWork_eq_sum, hremainders, List.sum_append_nat, List.sum_cons] at hnow
  unfold ProcessList.workBeyond at hbefore hbehind
  omega

/-- The turn that ends the work of a job is the last of its rounds. -/
theorem now_of_ends (hr : Reaches ps s events t) (hm : Serves ps t turn t')
    (hends : turn.Ends t.quantum) :
    t'.now.toNat = completionTogether ps arrival t.quantum turn.position turn.process := by
  have hk := kept_of_start hstart
  have hsound := hr.sound hstart
  have hrounds := hr.inRounds hstart
  have hnow := hm.now_exact hfits (hr.inTime hstart hfits)
  have hrun := turn.toNat_run t.quantum
  have hstarted := hr.now_add_remaining hstart htogether hfits hm
  have hserved := (hrounds _ _ _ hm.process hm.job).served t.now
    (hsound.eligible hk hm hm.process).work hm.dispatches_lt
  have hcount := hserved.dispatches_eq (quantum_pos t) (hm.served_eq_zero_iff.2 hends)
  rw [Job.toNat_dispatches_served t.now hm.dispatches_lt] at hcount
  unfold Turn.Ends at hends
  rw [completionTogether, ← hcount, Nat.add_sub_cancel]
  omega

/-- The first turn of a job comes when those before it have had one. -/
theorem wait_of_first (hr : Reaches ps s events t) (hm : Serves ps t turn t')
    (hfirst : turn.job.response = none) :
    (t.now - turn.job.arrival).toNat =
      ProcessList.workWithin (ps.take turn.position) t.quantum.toNat := by
  have hk := kept_of_start hstart
  have hready := (hr.sound hstart).eligible hk hm hm.process
  have hrounds := hr.inRounds hstart _ _ _ hm.process hm.job
  obtain ⟨hcount, _⟩ := Job.unserved_of_response hready.accounts hrounds hfirst
  have hstarted := hr.now_add_remaining hstart htogether hfits hm
  have hremaining := hrounds.remaining
  rw [hcount, Nat.zero_mul, Nat.sub_zero] at hremaining
  rw [hcount, hremaining, Nat.zero_add, Nat.one_mul, Nat.zero_mul, ProcessList.workWithin_zero]
    at hstarted
  rw [hready.accounts.arrival, UInt64.toNat_sub_of_le _ _ hready.arrived,
    htogether.arrival_eq hm.process]
  omega

end Together

end Reaches

/-- Processes that arrive together, at an instant that leaves the clock time for all their work, can
be run with any quantum, and their times are known in advance. -/
theorem times_of_together {config : Config} (hne : ps ≠ [])
    (hdistinct : ps.Pairwise fun p later => p.pid ≠ later.pid)
    (hburst : ∀ p ∈ ps, 0 < p.burst) (htogether : ps.Together arrival)
    (hquantum : 0 < config.quantum) (hroom : arrival.toNat + ps.totalBurst < UInt64.size) :
    ∃ s events fin timings, start ps config = .ok s ∧ s.Concludes events fin timings ∧
      ∀ i p, ps[i]? = some p → ∃ timing, timings[i]? = some timing ∧
        TimedTogether ps arrival config.quantum i p timing := by
  have hk := htogether.kept hne hburst hdistinct
  have hfits := htogether.fitsClock hroom
  obtain ⟨s, hstart⟩ : ∃ s, start ps config = .ok s :=
    ⟨_, start_eq_ok_iff.2 ⟨hquantum, hk, rfl⟩⟩
  obtain ⟨events, fin, timings, hends⟩ := exists_concludes hstart hfits
  obtain ⟨hreaches, horderly⟩ := hends.orderly hstart
  refine ⟨s, events, fin, timings, hstart, hends, ?_⟩
  intro i p hp
  obtain ⟨job, timing, hjob, hentry, haccounts, hremaining, hresponse, hcompletion, hpid,
    hwaiting, _⟩ := horderly.sound.timing_of_completed hends.completed hends.timed hp
  obtain ⟨hcompletions, hresponses⟩ := hreaches.recorded hstart
    (fun i p completion => completion.toNat = completionTogether ps arrival config.quantum i p)
    (fun i _ response =>
      response.toNat = ProcessList.workWithin (ps.take i) config.quantum.toNat)
    (fun hr hm hlast => by
      rw [hr.now_of_ends hstart htogether hfits hm hlast, hr.quantum_eq hstart])
    (fun hr hm hfirst => by
      rw [hr.wait_of_first hstart htogether hfits hm hfirst, hr.quantum_eq hstart])
    hp hjob
  have hlt := horderly.sound.lt_admitted_of_completed hends.completed hp
  have hspent := ((hreaches.charges hstart hfits).charged i p job hp hjob hlt).spent
  have hwork := haccounts.spent
  rw [hremaining, UInt64.toNat_zero, Nat.add_zero] at hwork
  rw [hcompletion, Option.getD_some, htogether.arrival_eq hp,
    hreaches.offset_eq_zero hstart htogether (List.mem_of_getElem? hp)] at hspent
  refine ⟨timing, hentry, ?_⟩
  exact {
    pid := hpid
    completion := hcompletions _ hcompletion
    waiting := by
      rw [hwaiting]
      omega
    response := hresponses _ hresponse }

/-- With a quantum of `2`, the first process needs three rounds, and the second one only the
first. -/
def sharedArrival : ProcessList :=
  [{ pid := ⟨7⟩, arrival := 3, burst := 5 }, { pid := ⟨2⟩, arrival := 3, burst := 1 },
    { pid := ⟨4⟩, arrival := 3, burst := 4 }]

theorem times_of_together_sharedArrival :
    sharedArrival ≠ [] ∧ (sharedArrival.Pairwise fun p later => p.pid ≠ later.pid) ∧
      (∀ p ∈ sharedArrival, 0 < p.burst) ∧ sharedArrival.Together 3 ∧
      UInt64.toNat 3 + sharedArrival.totalBurst < UInt64.size ∧
      ∃ s report events fin timings,
        start sharedArrival { quantum := 2, checks := true } = .ok s ∧ s.run = .ok report ∧
        s.Concludes events fin timings ∧ ∀ i p, sharedArrival[i]? = some p →
          ∃ timing, timings[i]? = some timing ∧ TimedTogether sharedArrival 3 2 i p timing := by
  have hne : sharedArrival ≠ [] := List.cons_ne_nil _ _
  have hdistinct : sharedArrival.Pairwise fun p later => p.pid ≠ later.pid := by decide
  have hburst : ∀ p ∈ sharedArrival, 0 < p.burst := by decide
  have htogether : sharedArrival.Together 3 := by decide
  have hroom : UInt64.toNat 3 + sharedArrival.totalBurst < UInt64.size := by decide
  have hquantum : 0 < ({ quantum := 2, checks := true } : Config).quantum := by decide
  obtain ⟨s, events, fin, timings, hstart, hends, htimings⟩ :=
    times_of_together hne hdistinct hburst htogether hquantum hroom
  obtain ⟨t, report, ht, hreport⟩ : ∃ t report,
      start sharedArrival { quantum := 2, checks := true } = .ok t ∧ t.run = .ok report :=
    ⟨_, _, rfl, rfl⟩
  obtain rfl := Except.ok.inj (ht.symm.trans hstart)
  exact ⟨hne, hdistinct, hburst, htogether, hroom, t, report, events, fin, timings, hstart, hreport,
    hends, htimings⟩

end Simulation

end RoundRobin
