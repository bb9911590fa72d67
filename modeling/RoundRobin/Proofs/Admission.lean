import RoundRobin.Proofs.Invariant

/-!
# Passes over the arrivals

A step looks twice for processes that have arrived. In a sorted list a pass lets in exactly those
that arrive before some instant (`admitWhile_passed`), and changes nothing but their jobs and the
queue.
-/

namespace RoundRobin

/-- If no process from position `a` on arrives before `t`, none is let in. -/
theorem Admits.none {ps : ProcessList} {t a : Nat} (hle : a ≤ ps.length)
    (hahead : ∀ i p, ps[i]? = some p → a ≤ i → t ≤ p.arrival.toNat) : Admits ps t a a where
  le := Nat.le_refl a
  le_length := hle
  arrived _ _ _ hge hlt := absurd hge (Nat.not_le_of_lt hlt)
  ahead := hahead

theorem Admits.cons {ps : ProcessList} {t a b : Nat} {p : Process} (h : Admits ps t (a + 1) b)
    (hp : ps[a]? = some p) (hlt : p.arrival.toNat < t) : Admits ps t a b where
  le := Nat.le_of_succ_le h.le
  le_length := h.le_length
  arrived := by
    intro i q hq hge hi
    by_cases hsame : i = a
    · rw [hsame, hp, Option.some.injEq] at hq
      exact hq ▸ hlt
    · exact h.arrived i q hq (by omega) hi
  ahead := h.ahead

namespace Simulation

variable {ps : ProcessList} {s s' : Simulation}

theorem next?_eq (hps : s.processes = ps.toArray) : s.next? = ps[s.admitted]? := by
  rw [next?, hps, List.getElem?_toArray]

/-- What a pass over the arrivals leaves that lets in the processes before position `b`. -/
structure Passed (ps : ProcessList) (s : Simulation) (b : Nat) (s' : Simulation) : Prop where
  processes : s'.processes = s.processes
  admitted : s'.admitted = b
  now : s'.now = s.now
  current : s'.machine.current = s.machine.current
  finished : s'.machine.finished = s.machine.finished
  size : s'.machine.jobs.size = s.machine.jobs.size
  consistent : s'.machine.ready.Consistent
  queue : s'.queue = s.queue ++ List.range' s.admitted (b - s.admitted)
  jobs : ∀ k, s'.job? k =
    if s.admitted ≤ k ∧ k < b then (s.job? k).map Job.enter else s.job? k
  preemptions : s'.scheduler.preemptions = s.scheduler.preemptions
  touched : s'.scheduler.touched = s.scheduler.touched
  emitted : s.scheduler.Emitted s'.scheduler (admissions ps s.admitted b)
  unchanged : b = s.admitted → s' = s

theorem Passed.refl (hq : s.machine.ready.Consistent) : Passed ps s s.admitted s where
  processes := rfl
  admitted := rfl
  now := rfl
  current := rfl
  finished := rfl
  size := rfl
  consistent := hq
  queue := by rw [Nat.sub_self, List.range'_zero, List.append_nil]
  jobs k := by rw [if_neg (by omega)]
  preemptions := rfl
  touched := rfl
  emitted := by
    rw [admissions_self]
    exact .refl _
  unchanged _ := rfl

/-- One admission, and the pass that goes on behind it. -/
theorem Passed.cons {scheduler : Scheduler} {p : Process} {b : Nat}
    (hp : ps[s.admitted]? = some p) (hjob : s.job? s.admitted = some (.ofProcess p))
    (hlt : s.admitted < b)
    (hentry : s.scheduler.Admitted scheduler s.admitted (.ofProcess p) p.arrival)
    (h : Passed ps { s with scheduler, admitted := s.admitted + 1 } b s') : Passed ps s b s' where
  processes := h.processes
  admitted := h.admitted
  now := h.now.trans hentry.now
  current := h.current.trans hentry.current
  finished := h.finished.trans hentry.finished
  size := h.size.trans hentry.size
  consistent := h.consistent
  queue := by
    have hone : List.range' s.admitted (b - s.admitted) =
        s.admitted :: List.range' (s.admitted + 1) (b - (s.admitted + 1)) := by
      rw [show b - s.admitted = b - (s.admitted + 1) + 1 by omega, List.range'_succ]
    rw [h.queue, hone]
    change scheduler.machine.ready.slots ++ _ = _
    rw [hentry.slots, List.append_assoc]
    rfl
  jobs k := by
    rw [h.jobs k]
    change (if s.admitted + 1 ≤ k ∧ k < b then (scheduler.machine.jobs[k]?).map Job.enter
      else scheduler.machine.jobs[k]?) = _
    rw [hentry.jobs k]
    by_cases hk : k = s.admitted
    · subst hk
      rw [if_neg (by omega), if_pos rfl, if_pos ⟨Nat.le_refl _, hlt⟩, hjob]
      rfl
    · rw [if_neg hk]
      by_cases hrange : s.admitted ≤ k ∧ k < b
      · rw [if_pos hrange, if_pos ⟨by omega, hrange.2⟩]
      · rw [if_neg hrange, if_neg (by omega)]
  preemptions := h.preemptions.trans hentry.preemptions
  touched := h.touched.trans hentry.touched
  emitted := by
    rw [admissions_cons hp hlt]
    exact hentry.emitted.trans h.emitted
  unchanged hsame := by omega

/-- After one admission, the processes behind it are still to be let in. -/
theorem ahead_of_admitted {scheduler : Scheduler} {job : Job} {time : Ticks}
    (hentry : s.scheduler.Admitted scheduler s.admitted job time)
    (hahead : ∀ k p, ps[k]? = some p → s.admitted ≤ k →
      s.job? k = some (.ofProcess p) ∧ k ∉ s.queue) {k : Nat} {p : Process}
    (hp : ps[k]? = some p) (hk : s.admitted + 1 ≤ k) :
    scheduler.machine.jobs[k]? = some (.ofProcess p) ∧ k ∉ scheduler.machine.ready.slots := by
  rcases hahead k p hp (Nat.le_of_succ_le hk) with ⟨hjob, hnew⟩
  constructor
  · rw [hentry.jobs k, if_neg (by omega)]
    exact hjob
  · rw [hentry.slots, List.mem_append, List.mem_singleton]
    rintro (hmem | rfl)
    · exact hnew hmem
    · omega

/-- A pass by the test whether a process arrives before `t` lets in exactly those that do, if the
limit allows for all that are left. -/
theorem admitUpTo_passed (hk : Contract.Kept ps) {arrived : Ticks → Bool} {t : Nat}
    (htest : ∀ x, arrived x = true ↔ x.toNat < t) (limit : Nat) {s : Simulation}
    (hlimit : ps.length ≤ s.admitted + limit) (hps : s.processes = ps.toArray)
    (hle : s.admitted ≤ ps.length) (hq : s.machine.ready.Consistent)
    (hahead : ∀ k p, ps[k]? = some p → s.admitted ≤ k →
      s.job? k = some (.ofProcess p) ∧ k ∉ s.queue) :
    ∃ b s', s.admitUpTo arrived limit = .ok s' ∧ Admits ps t s.admitted b ∧ Passed ps s b s' := by
  induction limit generalizing s with
  | zero =>
    refine ⟨s.admitted, s, rfl, .none hle ?_, .refl hq⟩
    intro k p hp hge
    have := (List.getElem?_eq_some_iff.1 hp).1
    omega
  | succ limit ih =>
    unfold admitUpTo
    rw [next?_eq hps]
    cases hp : ps[s.admitted]? with
    | none =>
      refine ⟨s.admitted, s, rfl, .none hle ?_, .refl hq⟩
      intro k p hp' hge
      have hlt := (List.getElem?_eq_some_iff.1 hp').1
      have := List.getElem?_eq_none_iff.1 hp
      omega
    | some p =>
      have hlt := (List.getElem?_eq_some_iff.1 hp).1
      by_cases htime : arrived p.arrival = true
      · rcases hahead s.admitted p hp (Nat.le_refl _) with ⟨hjob, hnew⟩
        rcases Scheduler.admitJob_admitted p.arrival hjob rfl hq hnew with
          ⟨scheduler, hentry, hadmitted⟩
        rcases ih (s := { s with scheduler, admitted := s.admitted + 1 }) (by simp only; omega) hps
          hlt hadmitted.consistent (fun k q hq' => ahead_of_admitted hadmitted hahead hq') with
          ⟨b, s', hrest, hadmits, hpassed⟩
        refine ⟨b, s', ?_, hadmits.cons hp ((htest _).1 htime),
          .cons hp hjob hadmits.le hadmitted hpassed⟩
        simp only [htime, if_true, hentry, Fault.ok_bind]
        exact hrest
      · refine ⟨s.admitted, s, ?_, .none hle ?_, .refl hq⟩
        · simp only [htime, Bool.false_eq_true, if_false]
        · intro k q hq' hge
          have hnot := mt (htest _).2 htime
          have := hk.arrival_le hp hq' hge
          omega

theorem admitWhile_passed (hk : Contract.Kept ps) {arrived : Ticks → Bool} {t : Nat}
    (htest : ∀ x, arrived x = true ↔ x.toNat < t) (hps : s.processes = ps.toArray)
    (hle : s.admitted ≤ ps.length) (hq : s.machine.ready.Consistent)
    (hahead : ∀ k p, ps[k]? = some p → s.admitted ≤ k →
      s.job? k = some (.ofProcess p) ∧ k ∉ s.queue) :
    ∃ b s', s.admitWhile arrived = .ok s' ∧ Admits ps t s.admitted b ∧ Passed ps s b s' := by
  apply admitUpTo_passed hk htest _ _ hps hle hq hahead
  rw [hps, List.size_toArray]
  omega

/-- The pass at the start of a step. -/
theorem Sound.early (h : s.Sound ps) (hk : Contract.Kept ps) :
    ∃ early mid, s.admitWhile (· ≤ s.now) = .ok mid ∧
      Admits ps (s.now.toNat + 1) s.admitted early ∧ Passed ps s early mid := by
  refine admitWhile_passed hk (fun x => ?_) h.processes h.admitted_le h.consistent
    (fun k p hp hle => h.job_of_ahead hp hle)
  rw [decide_eq_true_iff, UInt64.le_iff_toNat_le]
  omega

/-- After the pass at the start of a step, the jobs in line are those queued before and those let
in, all of them as jobs that have entered the queue. They have arrived. -/
theorem Sound.job_of_line (h : s.Sound ps) {early : Nat} {mid : Simulation}
    (hearly : Admits ps (s.now.toNat + 1) s.admitted early) (hpassed : Passed ps s early mid)
    {k : Nat} (hmem : k ∈ mid.queue) :
    k < early ∧ ∃ p job, ps[k]? = some p ∧ s.job? k = some job ∧ job.Accounts p ∧
      mid.job? k = some job.enter ∧ job.arrival ≤ s.now := by
  have hle := hearly.le
  have hlen := hearly.le_length
  rw [hpassed.queue, List.mem_append, List.mem_range'_1] at hmem
  rcases hmem with hqueue | hrange
  · have hold := h.queue_lt k hqueue
    rcases h.ready_of_mem hqueue with ⟨p, job, hp, hjob, hphase, haccounts, _⟩
    refine ⟨by omega, p, job, hp, hjob, haccounts, ?_, ?_⟩
    · rw [hpassed.jobs k, if_neg (by omega), hjob, Job.enter_of_ready hphase]
    · rw [haccounts.arrival]
      exact h.arrived k p hp hold
  · have hlt : k < early := by omega
    have hp : ps[k]? = some ps[k] := List.getElem?_eq_getElem (by omega)
    rcases h.job_of_ahead hp hrange.1 with ⟨hjob, _⟩
    refine ⟨hlt, _, _, hp, hjob, Job.accounts_ofProcess _, ?_, ?_⟩
    · rw [hpassed.jobs k, if_pos ⟨hrange.1, hlt⟩, hjob, Option.map_some]
    · have := hearly.arrived k _ hp hrange.1 hlt
      rw [UInt64.le_iff_toNat_le]
      change ps[k].arrival.toNat ≤ _
      omega

end Simulation

end RoundRobin
