import RoundRobin.Proofs.ExactTime

/-!
# Rounds

A job gets as many slices as there are quanta in its work, the last of which need not be full
(`Reaches.dispatches_eq`). So the slices and gaps that a simulation has ahead of it are known from
the work that is left and the arrivals that are still to come, also when the clock has stopped, and
a run whose step counter has room for all of them ends with all jobs finished
(`exists_completed_of_rounds`).
-/

namespace RoundRobin

/-- How many quanta it takes to do some work. -/
def quantaFor (work quantum : Nat) : Nat :=
  (work + quantum - 1) / quantum

section quantaFor

variable {w q d : Nat}

theorem quantaFor_le_iff (hq : 0 < q) : quantaFor w q ≤ d ↔ w ≤ d * q := by
  rw [quantaFor, Nat.div_le_iff_le_mul_add_pred hq, Nat.mul_comm q d]
  omega

theorem eq_quantaFor (hq : 0 < q) (hdone : w ≤ d * q) (hfull : d * q < w + q) :
    d = quantaFor w q := by
  apply Nat.le_antisymm
  · apply Nat.le_of_not_lt
    intro hlt
    have hle := (quantaFor_le_iff hq).1 (Nat.le_sub_one_of_lt hlt)
    have hsucc : d * q = (d - 1) * q + q := by
      rw [← Nat.succ_mul, Nat.succ_eq_add_one, Nat.sub_add_cancel (by omega)]
    omega
  · exact (quantaFor_le_iff hq).2 hdone

/-- One slice less is needed after a slice. -/
theorem quantaFor_sub (hq : 0 < q) (hw : 0 < w) :
    quantaFor (w - min q w) q + 1 = quantaFor w q := by
  have hdone := (quantaFor_le_iff (d := quantaFor (w - min q w) q) hq).1 (Nat.le_refl _)
  have hpos : ¬ quantaFor w q ≤ 0 := by
    rw [quantaFor_le_iff hq]
    omega
  have hcover := (quantaFor_le_iff (w := w) (d := quantaFor w q) hq).1 (Nat.le_refl _)
  have hsucc : quantaFor w q * q = (quantaFor w q - 1) * q + q := by
    rw [← Nat.succ_mul, Nat.succ_eq_add_one, Nat.sub_add_cancel (by omega)]
  have hle : quantaFor w q ≤ quantaFor (w - min q w) q + 1 := by
    rw [quantaFor_le_iff hq, Nat.succ_mul]
    omega
  have hge : quantaFor (w - min q w) q ≤ quantaFor w q - 1 := by
    rw [quantaFor_le_iff hq]
    omega
  omega

end quantaFor

/-- How many slices a process gets. -/
def Process.rounds (p : Process) (quantum : Ticks) : Nat :=
  quantaFor p.burst.toNat quantum.toNat

/-- How many slices all processes get together. -/
def ProcessList.totalRounds (ps : ProcessList) (quantum : Ticks) : Nat :=
  (ps.map (·.rounds quantum)).sum

/-- All slices of a job so far were full, except that the last one may have ended its work. -/
structure Job.InRounds (job : Job) (p : Process) (quantum : Ticks) : Prop where
  remaining : job.remaining.toNat = p.burst.toNat - job.dispatches.toNat * quantum.toNat
  full : job.dispatches.toNat * quantum.toNat < p.burst.toNat + quantum.toNat

namespace Job

variable {job : Job} {p : Process} {quantum : Ticks}

theorem inRounds_ofProcess (hq : 0 < quantum.toNat) : (ofProcess p).InRounds p quantum where
  remaining := by simp [ofProcess]
  full := by
    simp only [ofProcess, UInt64.toNat_zero, Nat.zero_mul]
    omega

theorem toNat_dispatches_served (now : Ticks) (hroom : job.dispatches.toNat + 1 < UInt64.size) :
    (job.served now quantum).dispatches.toNat = job.dispatches.toNat + 1 :=
  Word.toNat_add_of_lt hroom

theorem InRounds.served (h : job.InRounds p quantum) (now : Ticks)
    (hwork : 0 < job.remaining.toNat) (hroom : job.dispatches.toNat + 1 < UInt64.size) :
    (job.served now quantum).InRounds p quantum := by
  have hremaining := h.remaining
  refine ⟨?_, ?_⟩
  · rw [toNat_remaining_served, toNat_dispatches_served now hroom, Nat.succ_mul]
    omega
  · rw [toNat_dispatches_served now hroom, Nat.succ_mul]
    omega

/-- A job without work left has had all its slices. -/
theorem InRounds.dispatches_eq (h : job.InRounds p quantum) (hq : 0 < quantum.toNat)
    (hdone : job.remaining = 0) : job.dispatches.toNat = p.rounds quantum := by
  have hremaining := h.remaining
  rw [hdone, UInt64.toNat_zero] at hremaining
  exact eq_quantaFor hq (by omega) h.full

end Job

/-- From an instant on to a later one that is listed, fewer of the listed instants are ahead. -/
theorem countP_lt_of_mem {instants : List Ticks} {t u : Ticks} (hmem : u ∈ instants) (htu : t < u) :
    instants.countP (u < ·) < instants.countP (t < ·) := by
  have hmono : ∀ l : List Ticks, l.countP (u < ·) ≤ l.countP (t < ·) := by
    intro l
    apply List.countP_mono_left
    intro x _ hx
    rw [decide_eq_true_iff] at hx ⊢
    exact UInt64.lt_trans htu hx
  obtain ⟨before, after, rfl⟩ := List.append_of_mem hmem
  have hbefore := hmono before
  have hafter := hmono after
  simp only [List.countP_append, List.countP_cons, UInt64.lt_irrefl, htu, decide_false,
    decide_true, Bool.false_eq_true, if_false, if_true]
  omega

namespace Simulation

variable {ps : ProcessList} {s s' : Simulation} {turn : Turn}

/-- Every job is in its rounds. -/
def InRounds (ps : ProcessList) (s : Simulation) : Prop :=
  ∀ i p job, ps[i]? = some p → s.job? i = some job → job.InRounds p s.quantum

theorem InRounds.moves {events : List Stamped} (h : s.InRounds ps) (hk : Contract.Kept ps)
    (hsound : s.Sound ps) (hm : Moves ps s events s') : s'.InRounds ps := by
  intro i p job hp hjob
  cases hm with
  | skips q hm =>
    rw [show s'.quantum = s.quantum from hm.frame.quantum]
    exact h i p job hp (hm.job_eq i ▸ hjob)
  | serves turn hm =>
    rw [show s'.quantum = s.quantum from hm.frame.quantum]
    rcases hm.job_cases hjob with ⟨rfl, rfl⟩ | ⟨_, old, hold, hunserved⟩
    · have hserved := (h turn.position p turn.job hp hm.job).served s.now
        (hsound.eligible hk hm hp).work hm.dispatches_lt
      refine ⟨?_, ?_⟩
      · rw [Job.remaining_leave, Job.dispatches_leave]
        exact hserved.remaining
      · rw [Job.dispatches_leave]
        exact hserved.full
    · have hsame := h i p old hp hold
      refine ⟨?_, ?_⟩
      · rw [hunserved.remaining, hunserved.dispatches]
        exact hsame.remaining
      · rw [hunserved.dispatches]
        exact hsame.full

theorem InRounds.reaches (h : s.InRounds ps) (hk : Contract.Kept ps) (hsound : s.Sound ps)
    {events : List Stamped} (hr : Reaches ps s events s') : s'.InRounds ps := by
  induction hr with
  | refl => exact h
  | snoc hr hm ih => exact ih.moves hk (hsound.reaches hk hr) hm

theorem inRounds_start {config : Config} (h : start ps config = .ok s) : s.InRounds ps := by
  intro i p job hp hjob
  have hahead : s.admitted ≤ i := by
    rw [admitted_of_start h]
    exact Nat.zero_le i
  obtain rfl := (sound_start h).eq_of_ahead hp hahead hjob
  exact Job.inRounds_ofProcess (quantum_pos s)

theorem Reaches.inRounds {config : Config} (hstart : start ps config = .ok s)
    {events : List Stamped} (hr : Reaches ps s events s') : s'.InRounds ps :=
  (inRounds_start hstart).reaches (kept_of_start hstart) (sound_start hstart) hr

/-- At the end of a run, every job has had all its slices. -/
theorem Reaches.dispatches_eq {config : Config} (hstart : start ps config = .ok s)
    {events : List Stamped} (hr : Reaches ps s events s') {i : Nat} {p : Process} {job : Job}
    (hp : ps[i]? = some p) (hjob : s'.job? i = some job) (hdone : job.remaining = 0) :
    job.dispatches.toNat = p.rounds config.quantum := by
  have hrounds := hr.inRounds hstart
  rw [← hr.quantum_eq hstart]
  exact (hrounds i p job hp hjob).dispatches_eq (quantum_pos s') hdone

/-- How many slices all jobs still get together. -/
def roundsAhead (s : Simulation) : Nat :=
  (s.machine.remainders.map (quantaFor · s.quantum.toNat)).sum

/-- At most how many steps are ahead: a slice each for the rounds, and a gap for each arrival that
is still to come. -/
def stepsAhead (ps : ProcessList) (s : Simulation) : Nat :=
  s.roundsAhead + (ps.map (·.arrival)).countP (s.now < ·)

theorem rounds_of_job {i : Nat} {job : Job} (hjob : s.job? i = some job) :
    (s.machine.remainders.map (quantaFor · s.quantum.toNat))[i]? =
      some (quantaFor job.remaining.toNat s.quantum.toNat) := by
  rw [List.getElem?_map, Machine.remainders_of_job (Machine.job_eq_ok_iff.2 hjob), Option.map_some]

/-- Once all jobs have finished, no round is ahead. -/
theorem Sound.roundsAhead_of_completed (h : s.Sound ps) (hdone : s.allCompleted = true) :
    s.roundsAhead = 0 := by
  have hnone : quantaFor 0 s.quantum.toNat = 0 :=
    Nat.le_zero.1 ((quantaFor_le_iff (quantum_pos s)).2 (Nat.zero_le _))
  rw [roundsAhead, h.remainders_of_completed hdone, List.map_replicate, hnone,
    List.sum_replicate_nat, Nat.mul_zero]

/-- A turn is one round. -/
theorem Serves.roundsAhead_add_one (h : Serves ps s turn s')
    (hwork : 0 < turn.job.remaining.toNat) : s'.roundsAhead + 1 = s.roundsAhead := by
  have hrun := turn.toNat_run s.quantum
  have hsum := sum_set_add
    (quantaFor (turn.job.remaining.toNat - (turn.run s.quantum).toNat) s.quantum.toNat)
    (rounds_of_job h.job)
  have hless := quantaFor_sub (quantum_pos s) hwork
  rw [← hrun] at hless
  rw [roundsAhead, roundsAhead, h.remainders, show s'.quantum = s.quantum from h.frame.quantum,
    List.map_set]
  omega

theorem Skips.roundsAhead_eq {p : Process} (h : Skips ps s p s') :
    s'.roundsAhead = s.roundsAhead := by
  rw [roundsAhead, roundsAhead, h.remainders, show s'.quantum = s.quantum from h.frame.quantum]

/-- Every move takes a step off those ahead. -/
theorem Moves.stepsAhead_lt {events : List Stamped} (hm : Moves ps s events s')
    (hk : Contract.Kept ps) (hsound : s.Sound ps) : s'.stepsAhead ps < s.stepsAhead ps := by
  cases hm with
  | serves turn hm =>
    have hrounds := hm.roundsAhead_add_one (hsound.eligible hk hm hm.process).work
    have hlater : (ps.map (·.arrival)).countP (s'.now < ·) ≤
        (ps.map (·.arrival)).countP (s.now < ·) := by
      apply List.countP_mono_left
      intro x _ hx
      rw [decide_eq_true_iff] at hx ⊢
      exact UInt64.lt_of_le_of_lt (UInt64.le_iff_toNat_le.2 hm.now_le) hx
    unfold stepsAhead
    omega
  | skips p hm =>
    have hnow : s'.now = p.arrival := congrArg (·.now) hm.machine
    have hrounds := hm.roundsAhead_eq
    have hmem : p.arrival ∈ ps.map (·.arrival) :=
      List.mem_map_of_mem (List.mem_of_getElem? hm.next)
    have hfewer := countP_lt_of_mem hmem hm.later
    rw [stepsAhead, stepsAhead, hnow, hrounds]
    omega

theorem Sound.stepsAhead_pos (h : s.Sound ps) (hk : Contract.Kept ps)
    (hopen : s.allCompleted = false) : 0 < s.stepsAhead ps := by
  obtain ⟨i, job, hjob, hwork⟩ := h.exists_work hk hopen
  have hle := List.le_sum_of_mem (List.mem_of_getElem? (rounds_of_job hjob))
  have hone := quantaFor_sub (quantum_pos s) hwork
  unfold stepsAhead roundsAhead
  omega

theorem roundsAhead_start {config : Config} (h : start ps config = .ok s) :
    s.roundsAhead = ps.totalRounds config.quantum := by
  obtain ⟨_, _, rfl⟩ := start_eq_ok_iff.1 h
  simp only [roundsAhead, machine, Machine.remainders, Scheduler.start, Machine.ofProcesses,
    List.map_map, ProcessList.totalRounds]
  rfl

theorem stepsAhead_start_le {config : Config} (h : start ps config = .ok s) :
    s.stepsAhead ps ≤ ps.totalRounds config.quantum + ps.length := by
  have hcount := List.countP_le_length (p := fun x : Ticks => decide (s.now < x))
    (l := ps.map (·.arrival))
  rw [List.length_map] at hcount
  rw [stepsAhead, roundsAhead_start h]
  exact Nat.add_le_add_left hcount _

/-- If the step counter has room for all rounds and for a gap before each process, a run ends with
all jobs finished, after a chain of moves. The clock may stop on the way. -/
theorem exists_completed_of_rounds {config : Config} (hstart : start ps config = .ok s)
    (hrounds : ps.totalRounds config.quantum + ps.length < UInt64.size) :
    ∃ n events fin, s.steps n = .ok (events, fin) ∧ fin.allCompleted = true ∧
      s.complete = .ok fin ∧ Reaches ps s events.toList fin := by
  have hk := kept_of_start hstart
  have hle := stepsAhead_start_le hstart
  have hsteps : s.scheduler.monitor.steps.toNat = 0 := congrArg UInt64.toNat (steps_of_start hstart)
  apply (orderly_start hstart).exists_completed
    (fun t => t.scheduler.monitor.steps.toNat + t.stepsAhead ps < UInt64.size) hk (by omega)
  · intro t horderly hroom hopen
    have hpos := horderly.sound.stepsAhead_pos hk hopen
    omega
  · intro t new u horderly hroom hmoves hcount
    have hfewer := hmoves.stepsAhead_lt hk horderly.sound
    omega

end Simulation

end RoundRobin
