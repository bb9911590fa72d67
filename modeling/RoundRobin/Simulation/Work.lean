import RoundRobin.Simulation

/-!
# Work ahead

The work that a simulation has ahead of it is a natural number that every step lowers, from any
state in which a step succeeds. An admission moves a process into the queue and pays for it, a slice
uses up processor time or takes its job out of the queue, and an idle step brings the clock to an
arrival, so that the next step admits. Main statement: `work_lt_of_step`.
-/

namespace RoundRobin

namespace Machine

/-- The remaining work of every job, by position. -/
def remainders (m : Machine) : List Nat :=
  m.jobs.toList.map (·.remaining.toNat)

/-- The remaining work of all jobs together. -/
def remainingWork (m : Machine) : Nat :=
  m.remainders.foldr (· + ·) 0

theorem getElem?_of_job {m : Machine} {i : Nat} {job : Job} (h : m.job i = .ok job) :
    m.jobs[i]? = some job := by
  unfold Machine.job at h
  split at h
  · next found hfound =>
    cases h
    exact hfound
  · simp at h

theorem remainders_of_job {m : Machine} {i : Nat} {job : Job} (h : m.job i = .ok job) :
    m.remainders[i]? = some job.remaining.toNat := by
  simp [remainders, getElem?_of_job h]

theorem remainders_setJob (m : Machine) (i : Nat) (job : Job) :
    (m.setJob i job).remainders = m.remainders.set i job.remaining.toNat := by
  simp [remainders, setJob, List.map_set]

/-- Writing back a job with its work unchanged leaves all work unchanged. -/
theorem remainders_setJob_of_eq {m : Machine} {i : Nat} {job job' : Job} (h : m.job i = .ok job)
    (hwork : job'.remaining = job.remaining) : (m.setJob i job').remainders = m.remainders := by
  rw [remainders_setJob, hwork]
  refine List.ext_getElem? fun k => ?_
  rw [List.getElem?_set]
  split
  · next hk =>
    subst hk
    have hrem := remainders_of_job h
    rw [hrem, if_pos (List.getElem?_eq_some_iff.1 hrem).1]
  · rfl

/-- What admissions, waiting and phase changes keep. -/
structure SameWork (m m' : Machine) : Prop where
  now : m'.now = m.now
  remainders : m'.remainders = m.remainders

theorem admitJob_ok {m m' : Machine} {i : Nat} (h : m.admitJob i = .ok m') :
    m.SameWork m' ∧ m'.current = m.current ∧ m'.ready.size = m.ready.size + 1 := by
  simp only [admitJob, Fault.bind_eq_ok_iff, Fault.pure_eq_ok_iff] at h
  obtain ⟨job, hjob, _, _, ready, hready, rfl⟩ := h
  have hpush := congrArg List.length (ReadyQueue.toList_of_push hready)
  rw [List.length_append, List.length_singleton] at hpush
  exact ⟨⟨rfl, remainders_setJob_of_eq hjob rfl⟩, rfl, hpush⟩

theorem startNext_ok {m m' : Machine} {i : Nat} (h : m.startNext = .ok (some (i, m'))) :
    m.SameWork m' ∧ m'.current = some i ∧ m'.ready.size + 1 = m.ready.size := by
  simp only [startNext, Fault.bind_eq_ok_iff] at h
  obtain ⟨_, _, popped, hpop, h⟩ := h
  match popped, h with
  | none, h => simp [Fault.pure_eq_ok_iff] at h
  | some (j, ready), h =>
    simp only [Fault.bind_eq_ok_iff, Fault.pure_eq_ok_iff, Option.some.injEq, Prod.mk.injEq] at h
    obtain ⟨job, hjob, rfl, rfl⟩ := h
    refine ⟨⟨rfl, remainders_setJob_of_eq hjob rfl⟩, rfl, ?_⟩
    unfold ReadyQueue.pop at hpop
    split at hpop
    · simp at hpop
    · next front rest hslots =>
      split at hpop
      · cases hpop
        simp [ReadyQueue.size, hslots]
      · simp at hpop

theorem updateJob_wait_ok {m m' : Machine} {i : Nat} {delta : Ticks}
    (h : m.updateJob i (·.wait delta) = .ok m') :
    m.SameWork m' ∧ m'.current = m.current ∧ m'.ready = m.ready := by
  simp only [updateJob, Fault.bind_eq_ok_iff, Fault.pure_eq_ok_iff] at h
  obtain ⟨job, hjob, rfl⟩ := h
  exact ⟨⟨rfl, remainders_setJob_of_eq hjob rfl⟩, rfl, rfl⟩

theorem foldlM_wait_ok {delta : Ticks} (slots : List Nat) {m m' : Machine}
    (h : slots.foldlM (fun m i => m.updateJob i (·.wait delta)) m = .ok m') :
    m.SameWork m' ∧ m'.current = m.current ∧ m'.ready = m.ready := by
  induction slots generalizing m with
  | nil =>
    rw [List.foldlM_nil, Fault.pure_eq_ok_iff] at h
    subst h
    exact ⟨⟨rfl, rfl⟩, rfl, rfl⟩
  | cons i rest ih =>
    rw [List.foldlM_cons, Fault.bind_eq_ok_iff] at h
    obtain ⟨mid, hmid, h⟩ := h
    obtain ⟨hwork, hcurrent, hready⟩ := updateJob_wait_ok hmid
    obtain ⟨hwork', hcurrent', hready'⟩ := ih h
    exact ⟨⟨hwork'.now.trans hwork.now, hwork'.remainders.trans hwork.remainders⟩,
      hcurrent'.trans hcurrent, hready'.trans hready⟩

theorem accrueWaiting_ok {m m' : Machine} {delta : Ticks} (h : m.accrueWaiting delta = .ok m') :
    m.SameWork m' ∧ m'.current = m.current ∧ m'.ready = m.ready :=
  foldlM_wait_ok _ h

theorem requeueCurrent_ok {m m' : Machine} (h : m.requeueCurrent = .ok m') :
    m.SameWork m' ∧ m'.ready.size = m.ready.size + 1 := by
  unfold requeueCurrent at h
  split at h
  · simp at h
  · simp only [Fault.bind_eq_ok_iff, Fault.pure_eq_ok_iff] at h
    obtain ⟨job, hjob, _, _, ready, hready, rfl⟩ := h
    have hpush := congrArg List.length (ReadyQueue.toList_of_push hready)
    rw [List.length_append, List.length_singleton] at hpush
    exact ⟨⟨rfl, remainders_setJob_of_eq hjob rfl⟩, hpush⟩

theorem retireCurrent_ok {m m' : Machine} {i : Nat} (h : m.retireCurrent = .ok (i, m')) :
    m.SameWork m' ∧ m'.ready = m.ready := by
  unfold retireCurrent at h
  split at h
  · simp at h
  · simp only [Fault.bind_eq_ok_iff, Fault.pure_eq_ok_iff, Prod.mk.injEq] at h
    obtain ⟨job, hjob, _, _, finished, _, _, rfl⟩ := h
    exact ⟨⟨rfl, remainders_setJob_of_eq hjob rfl⟩, rfl⟩

end Machine

namespace Scheduler

theorem admitJob_ok {s s' : Scheduler} {i : Nat} {time : Ticks} (h : s.admitJob i time = .ok s') :
    s.machine.SameWork s'.machine ∧ s'.machine.current = s.machine.current ∧
      s'.machine.ready.size = s.machine.ready.size + 1 := by
  simp only [admitJob, Fault.bind_eq_ok_iff, Fault.pure_eq_ok_iff] at h
  obtain ⟨machine, hadmit, job, _, rfl⟩ := h
  exact Machine.admitJob_ok hadmit

/-- A dispatch takes one job out of the queue, and takes the slice off its work. -/
theorem dispatch_ok {s s' : Scheduler} {slice : Slice} (h : s.dispatch = .ok (some (slice, s'))) :
    s'.machine.current = some slice.job ∧
      s'.machine.ready.size + 1 = s.machine.ready.size ∧
      ∃ work, s.machine.remainders[slice.job]? = some work ∧
        s'.machine.remainders =
          s.machine.remainders.set slice.job (work - min s.quantum.toNat work) := by
  simp only [dispatch, Fault.bind_eq_ok_iff] at h
  obtain ⟨started, hstart, h⟩ := h
  match started, h with
  | none, h => simp [Fault.pure_eq_ok_iff] at h
  | some (i, machine), h =>
    simp only [Fault.bind_eq_ok_iff, Fault.pure_eq_ok_iff, Option.some.injEq, Prod.mk.injEq] at h
    obtain ⟨job, hjob, served, hserved, waited, hwaited, rfl, rfl⟩ := h
    obtain ⟨hwork, hcurrent, hsize⟩ := Machine.startNext_ok hstart
    obtain ⟨hwork', hcurrent', hready'⟩ := Machine.accrueWaiting_ok hwaited
    refine ⟨hcurrent'.trans hcurrent, ?_, job.remaining.toNat, ?_, ?_⟩
    · simpa only [emit, Machine.advance, hready', Machine.setJob] using hsize
    · rw [← hwork.remainders]
      exact Machine.remainders_of_job hjob
    · refine hwork'.remainders.trans ?_
      rw [Machine.remainders_setJob, Job.toNat_remaining_of_serve hserved, hwork.remainders]

/-- The end of a slice keeps all work; the job goes back to the queue if it has work left. -/
theorem finishSlice_ok {s s' : Scheduler} {retired : Option Nat} {i : Nat}
    (hcurrent : s.machine.current = some i) (h : s.finishSlice = .ok (retired, s')) :
    s.machine.SameWork s'.machine ∧
      ∃ work, s.machine.remainders[i]? = some work ∧
        s'.machine.ready.size = s.machine.ready.size + (if work = 0 then 0 else 1) := by
  simp only [finishSlice, hcurrent, Fault.bind_eq_ok_iff] at h
  obtain ⟨job, hjob, h⟩ := h
  have hrem := Machine.remainders_of_job hjob
  split at h
  · next hzero =>
    split at h
    · simp at h
    · simp only [Fault.bind_eq_ok_iff, Fault.pure_eq_ok_iff, Prod.mk.injEq] at h
      obtain ⟨⟨j, machine⟩, hretire, _, rfl⟩ := h
      obtain ⟨hwork, hready⟩ := Machine.retireCurrent_ok hretire
      refine ⟨hwork, _, hrem, ?_⟩
      simp [emit, hready, hzero]
  · next hpos =>
    simp only [Fault.bind_eq_ok_iff, Fault.pure_eq_ok_iff, Prod.mk.injEq] at h
    obtain ⟨machine, hrequeue, preemptions, _, _, rfl⟩ := h
    obtain ⟨hwork, hsize⟩ := Machine.requeueCurrent_ok hrequeue
    refine ⟨hwork, _, hrem, ?_⟩
    have hne : job.remaining.toNat ≠ 0 := fun hz => hpos (UInt64.toNat_inj.1 hz)
    simpa [emit, hne] using hsize

theorem idleUntil_ok {s s' : Scheduler} {target : Ticks} (h : s.idleUntil target = .ok s') :
    s.machine.now < target ∧ s'.machine.now = target ∧
      s'.machine.remainders = s.machine.remainders ∧ s'.machine.ready = s.machine.ready := by
  simp only [idleUntil, Fault.bind_eq_ok_iff, Fault.pure_eq_ok_iff, Fault.require_eq_ok_iff] at h
  obtain ⟨_, _, _, hlt, rfl⟩ := h
  refine ⟨hlt, ?_, rfl, rfl⟩
  have hlt' := UInt64.lt_iff_toNat_lt.1 hlt
  have hsub := UInt64.toNat_sub_of_le _ _ (UInt64.le_iff_toNat_le.2 (Nat.le_of_lt hlt'))
  have hbound := target.toNat_lt_size
  refine UInt64.toNat_inj.1 ?_
  show (Word.satAdd s.machine.now (target - s.machine.now)).toNat = target.toNat
  rw [Word.toNat_satAdd, hsub]
  omega

theorem observe_ok {s s' : Scheduler} (h : s.observe = .ok s') : s'.machine = s.machine := by
  simp only [observe, Fault.bind_eq_ok_iff, Fault.pure_eq_ok_iff] at h
  obtain ⟨_, _, rfl⟩ := h
  rfl

end Scheduler

namespace Simulation

/-- `1` if the next process to be admitted has not arrived yet. -/
def gapAhead (s : Simulation) : Nat :=
  match s.next? with
  | some p => if s.scheduler.machine.now < p.arrival then 1 else 0
  | none => 0

/-- The work ahead: three for every process still to be admitted, the remaining processor time, one
for every queued job, and one for a gap before the next arrival. -/
def work (s : Simulation) : Nat :=
  3 * (s.processes.size - s.admitted) + s.scheduler.machine.remainingWork +
    s.scheduler.machine.ready.size + s.gapAhead

theorem gapAhead_le_one (s : Simulation) : s.gapAhead ≤ 1 := by
  unfold gapAhead
  split
  · split <;> omega
  · omega

/-- What admissions by a test come to: they keep the clock and all work, move each process that they
let in to the queue, and stop at one that does not pass the test. -/
structure Admission (arrived : Ticks → Bool) (s s' : Simulation) : Prop where
  processes : s'.processes = s.processes
  sameWork : s.scheduler.machine.SameWork s'.scheduler.machine
  current : s'.scheduler.machine.current = s.scheduler.machine.current
  le : s.admitted ≤ s'.admitted
  bound : s'.admitted = s.admitted ∨ s'.admitted ≤ s.processes.size
  queued : s'.scheduler.machine.ready.size + s.admitted =
    s.scheduler.machine.ready.size + s'.admitted
  stopped : ∀ p, s'.next? = some p → arrived p.arrival = false

/-- Admissions stop by the test if the limit allows for all processes that are left. -/
theorem admission_of_admitUpTo {arrived : Ticks → Bool} {limit : Nat} {s s' : Simulation}
    (hlimit : s.processes.size ≤ s.admitted + limit) (h : s.admitUpTo arrived limit = .ok s') :
    Admission arrived s s' := by
  induction limit generalizing s with
  | zero =>
    cases h
    refine ⟨rfl, ⟨rfl, rfl⟩, rfl, Nat.le_refl _, .inl rfl, rfl, fun p hp => ?_⟩
    have := (Array.getElem?_eq_some_iff.1 hp).1
    omega
  | succ limit ih =>
    unfold admitUpTo at h
    split at h
    · next hnone =>
      cases h
      refine ⟨rfl, ⟨rfl, rfl⟩, rfl, Nat.le_refl _, .inl rfl, rfl, fun p hp => ?_⟩
      rw [hnone] at hp
      simp at hp
    · next p hnext =>
      split at h
      · rw [Fault.bind_eq_ok_iff] at h
        obtain ⟨scheduler, hadmit, h⟩ := h
        have hlt := (Array.getElem?_eq_some_iff.1 hnext).1
        obtain ⟨hwork, hcurrent, hsize⟩ := Scheduler.admitJob_ok hadmit
        obtain ⟨hprocs, hwork', hcurrent', hle, hbound, hsize', hstop⟩ :=
          ih (s := { s with scheduler, admitted := s.admitted + 1 }) (by simp only; omega) h
        simp only at hprocs hwork' hcurrent' hle hbound hsize'
        exact ⟨hprocs, ⟨hwork'.now.trans hwork.now, hwork'.remainders.trans hwork.remainders⟩,
          hcurrent'.trans hcurrent, by omega, by omega, by omega, hstop⟩
      · next harrived =>
        cases h
        refine ⟨rfl, ⟨rfl, rfl⟩, rfl, Nat.le_refl _, .inl rfl, rfl, fun q hq => ?_⟩
        rw [hnext, Option.some.injEq] at hq
        rw [← hq]
        exact eq_false_of_ne_true harrived

theorem admission_of_admitWhile {arrived : Ticks → Bool} {s s' : Simulation}
    (h : s.admitWhile arrived = .ok s') : Admission arrived s s' :=
  admission_of_admitUpTo (by omega) h

/-- Replacing one entry of a list changes the sum by the difference. -/
theorem foldr_add_set {l : List Nat} {i old : Nat} (new : Nat) (h : l[i]? = some old) :
    (l.set i new).foldr (· + ·) 0 + old = l.foldr (· + ·) 0 + new := by
  induction l generalizing i with
  | nil => simp at h
  | cons a l ih =>
    cases i with
    | zero =>
      rw [List.getElem?_cons_zero, Option.some.injEq] at h
      simp only [List.set_cons_zero, List.foldr_cons, h]
      omega
    | succ i =>
      rw [List.getElem?_cons_succ] at h
      have := ih h
      simp only [List.set_cons_succ, List.foldr_cons]
      omega

/-- The work ahead is the same for simulations with the same machine, list and position. -/
theorem work_congr {s s' : Simulation} (hprocs : s'.processes = s.processes)
    (hadmitted : s'.admitted = s.admitted)
    (hmachine : s'.scheduler.machine = s.scheduler.machine) : s'.work = s.work := by
  simp only [work, gapAhead, next?, hprocs, hadmitted, hmachine]

/-- A slice lowers the work ahead. `s` is the simulation before the step and `mid` the one after
its first admissions. -/
theorem work_lt_of_endSlice {s mid s' : Simulation} {slice : Slice} {scheduler : Scheduler}
    (hmid : s.admitWhile (· ≤ s.scheduler.machine.now) = .ok mid)
    (hdispatch : mid.scheduler.dispatch = .ok (some (slice, scheduler)))
    (hend : endSlice { mid with scheduler } slice = .ok s') : s'.work < s.work := by
  simp only [endSlice, Fault.bind_eq_ok_iff, Fault.pure_eq_ok_iff] at hend
  obtain ⟨late, hlate, ⟨retired, ended⟩, hfinish, rfl⟩ := hend
  obtain ⟨hprocs, hkeep, _, hle, hbound, hsize, hstop⟩ := admission_of_admitWhile hmid
  obtain ⟨hcurrent, hdsize, todo, htodo, hset⟩ := Scheduler.dispatch_ok hdispatch
  obtain ⟨hprocs', hkeep', hcurrent', hle', hbound', hsize', _⟩ := admission_of_admitWhile hlate
  obtain ⟨hkeep'', todo', htodo', hfsize⟩ :=
    Scheduler.finishSlice_ok (hcurrent'.trans hcurrent) hfinish
  simp only at hprocs' hkeep' hle' hbound' hsize' hfsize
  have hq := UInt64.lt_iff_toNat_lt.1 mid.scheduler.quantum_pos
  rw [UInt64.toNat_zero] at hq
  -- what is left of the job that ran
  have hlen := (List.getElem?_eq_some_iff.1 htodo).1
  rw [hkeep'.remainders, hset, List.getElem?_set, if_pos rfl, if_pos hlen,
    Option.some.injEq] at htodo'
  have hsum := foldr_add_set (todo - min mid.scheduler.quantum.toNat todo) htodo
  -- without an admission, a gap that is ahead now was ahead before
  have hgap : late.admitted = s.admitted →
      gapAhead { late with scheduler := ended } ≤ s.gapAhead := by
    intro hsame
    have hsame' : mid.admitted = s.admitted := by omega
    unfold gapAhead next?
    unfold next? at hstop
    rw [hprocs', hprocs, hsame]
    rw [hprocs, hsame'] at hstop
    split
    · next p hp =>
      have hnot := of_decide_eq_false (hstop p hp)
      have hlt : s.scheduler.machine.now < p.arrival := UInt64.not_le.1 hnot
      rw [if_pos hlt]
      split <;> omega
    · omega
  have hone := gapAhead_le_one { late with scheduler := ended }
  unfold work Machine.remainingWork
  generalize gapAhead { late with scheduler := ended } = gap at hgap hone ⊢
  simp only [hprocs', hprocs, hkeep''.remainders, hkeep'.remainders, hset, hkeep.remainders]
  rw [hkeep.remainders] at hsum
  rw [hprocs] at hbound'
  by_cases hdone : todo' = 0
  · rw [if_pos hdone] at hfsize
    by_cases hsame : late.admitted = s.admitted
    · have := hgap hsame
      omega
    · omega
  · rw [if_neg hdone] at hfsize
    by_cases hsame : late.admitted = s.admitted
    · have := hgap hsame
      omega
    · omega

/-- Skipping a gap lowers the work ahead. -/
theorem work_lt_of_skipGap {s mid s' : Simulation}
    (hmid : s.admitWhile (· ≤ s.scheduler.machine.now) = .ok mid)
    (hskip : mid.skipGap = .ok s') : s'.work < s.work := by
  simp only [skipGap, Fault.bind_eq_ok_iff, Fault.pure_eq_ok_iff] at hskip
  obtain ⟨target, htarget, scheduler, hidle, rfl⟩ := hskip
  obtain ⟨hprocs, hkeep, _, hle, hbound, hsize, _⟩ := admission_of_admitWhile hmid
  obtain ⟨hlt, hnow, hrem, hready⟩ := Scheduler.idleUntil_ok hidle
  unfold nextArrival at htarget
  split at htarget
  · next p hp =>
    cases htarget
    have hafter : gapAhead { mid with scheduler } = 0 := by
      have hp' : next? { mid with scheduler } = some p := hp
      simp only [gapAhead, hp', hnow]
      rw [if_neg (UInt64.lt_irrefl _)]
    have hbefore : mid.admitted = s.admitted → s.gapAhead = 1 := by
      intro hsame
      unfold next? at hp
      rw [hprocs, hsame] at hp
      rw [hkeep.now] at hlt
      simp only [gapAhead, next?, hp, if_pos hlt]
    unfold work Machine.remainingWork
    rw [hafter]
    simp only [hprocs, hrem, hready, hkeep.remainders]
    by_cases hsame : mid.admitted = s.admitted
    · have := hbefore hsame
      omega
    · omega
  · simp at htarget

theorem work_lt_of_proceed {s s' : Simulation} (h : s.proceed = .ok s') : s'.work < s.work := by
  simp only [proceed, Fault.bind_eq_ok_iff] at h
  obtain ⟨mid, hmid, dispatched, hdispatch, h⟩ := h
  match dispatched, hdispatch, h with
  | some (slice, scheduler), hdispatch, h => exact work_lt_of_endSlice hmid hdispatch h
  | none, _, h => exact work_lt_of_skipGap hmid h

/-- Every step of a simulation that has not completed lowers the work ahead. -/
theorem work_lt_of_step {s s' : Simulation} {events : Array Stamped}
    (hopen : s.allCompleted = false) (h : s.step = .ok (events, s')) : s'.work < s.work := by
  simp only [step, hopen, Bool.false_eq_true, if_false, Fault.bind_eq_ok_iff,
    Fault.pure_eq_ok_iff, Scheduler.drain, Prod.mk.injEq] at h
  obtain ⟨left, hproceed, scheduler, hobserve, _, rfl⟩ := h
  have hmachine : scheduler.machine = left.scheduler.machine := Scheduler.observe_ok hobserve
  refine Nat.lt_of_le_of_lt (Nat.le_of_eq ?_) (work_lt_of_proceed hproceed)
  exact work_congr rfl rfl hmachine

end Simulation

end RoundRobin
