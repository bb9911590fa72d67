import RoundRobin.Proofs.Alignment
import RoundRobin.Proofs.Report

/-!
# Refinement of round robin tick by tick

What the events of a run and the times of its jobs say about the ticks that have passed (`Follows`),
and what those of a complete run say about all ticks before its end (`run_refines_ticks`).
-/

namespace RoundRobin

/-- The event dispatches a process for a slice that the tick at instant `t` lies in. -/
def Stamped.servesAt (pid : Pid) (t : Nat) : Stamped → Bool
  | { time, event := .dispatched served slice _ } =>
    served = pid && time.toNat ≤ t && t < time.toNat + slice.toNat
  | _ => false

/-- The event is a gap that the tick at instant `t` lies in. -/
def Stamped.idlesAt (t : Nat) : Stamped → Bool
  | { time, event := .idle target } => time.toNat ≤ t && t < target.toNat
  | _ => false

namespace Simulation

variable {ps : ProcessList} {s s' : Simulation} {turn : Turn} {p : Process}

/-- The first tick in which a job runs is the one that begins at instant `t`. -/
def FirstRun (ps : ProcessList) (q i t : Nat) : Prop :=
  TickMachine.runner? ps q t = some i ∧ ∀ x < t, TickMachine.runner? ps q x ≠ some i

/-- The first instant at which a job has no work left is `t`. -/
def Finishes (ps : ProcessList) (q i t : Nat) : Prop :=
  (TickMachine.atInstant ps q t).left[i]? = some 0 ∧
    ∀ x < t, (TickMachine.atInstant ps q x).left[i]? ≠ some 0

/-- What the response and the completion of a job say about the ticks before `now`. -/
structure Timed (ps : ProcessList) (q now i : Nat) (p : Process) (job : Job) : Prop where
  waiting : job.response = none → ∀ x < now, TickMachine.runner? ps q x ≠ some i
  started : ∀ response, job.response = some response →
    FirstRun ps q i (p.arrival.toNat + response.toNat)
  unfinished : job.completion = none →
    ∀ x ≤ now, (TickMachine.atInstant ps q x).left[i]? ≠ some 0
  finished : ∀ completion, job.completion = some completion →
    Finishes ps q i completion.toNat

/-- A job that is not served while the tick machine runs others or idles. -/
theorem Timed.unserved {q now now' i : Nat} {old job : Job} (hj : Timed ps q now i p old)
    (hunserved : old.Unserved job)
    (hrunner : ∀ x, now ≤ x → x < now' → TickMachine.runner? ps q x ≠ some i)
    (hleft : ∀ x, now ≤ x → x ≤ now' → (TickMachine.atInstant ps q x).left[i]? =
      (TickMachine.atInstant ps q now).left[i]?) : Timed ps q now' i p job where
  waiting := by
    intro hresponse x hx
    by_cases hbefore : x < now
    · exact hj.waiting (hunserved.response ▸ hresponse) x hbefore
    · exact hrunner x (by omega) hx
  started := by
    rw [hunserved.response]
    exact hj.started
  unfinished := by
    intro hcompletion x hx
    have hopen := hj.unfinished (hunserved.completion ▸ hcompletion)
    by_cases hbefore : x ≤ now
    · exact hopen x hbefore
    · rw [hleft x (by omega) hx]
      exact hopen now (Nat.le_refl _)
  finished := by
    rw [hunserved.completion]
    exact hj.finished

/-- What is left of the job that has the turn, tick by tick. -/
theorem Aligned.left_of_turn (ha : s.Aligned ps) (h : Serves ps s turn s') (hk : Contract.Kept ps)
    (hsound : s.Sound ps) (hfits : ps.FitsClock) (ht : s.InTime ps) {x : Nat}
    (hx : s.now.toNat ≤ x) (hx' : x ≤ s'.now.toNat) :
    (TickMachine.atInstant ps s.quantum.toNat x).left[turn.position]? =
      some (turn.job.remaining.toNat - (x - s.now.toNat)) := by
  have hlt := (List.getElem?_eq_some_iff.1 h.work_eq).1
  rw [ha.left_serves h hk hsound hfits ht hx hx', List.getElem?_set, if_pos rfl, if_pos hlt]

/-- Before the end of its turn, a job has work left. -/
theorem Timed.left_ne_zero (hj : Timed ps s.quantum.toNat s.now.toNat turn.position p turn.job)
    (hcompletion : turn.job.completion = none) (ha : s.Aligned ps) (h : Serves ps s turn s')
    (hk : Contract.Kept ps) (hsound : s.Sound ps) (hfits : ps.FitsClock) (ht : s.InTime ps)
    {x : Nat} (hx : x < s'.now.toNat) :
    (TickMachine.atInstant ps s.quantum.toNat x).left[turn.position]? ≠ some 0 := by
  have hnow := h.now_exact hfits ht
  have hrun := turn.toNat_run s.quantum
  by_cases hbefore : x ≤ s.now.toNat
  · exact hj.unfinished hcompletion x hbefore
  · rw [ha.left_of_turn h hk hsound hfits ht (by omega) (by omega), Ne, Option.some.injEq]
    omega

/-- The job that had a turn. It runs from the start of the turn, and if it completes, it has no work
left at the end of the turn for the first time. -/
theorem Timed.served (hj : Timed ps s.quantum.toNat s.now.toNat turn.position p turn.job)
    (ha : s.Aligned ps) (h : Serves ps s turn s') (hk : Contract.Kept ps) (hsound : s.Sound ps)
    (hfits : ps.FitsClock) (ht : s.InTime ps) (hp : ps[turn.position]? = some p) :
    Timed ps s.quantum.toNat s'.now.toNat turn.position p
      ((turn.job.served s.now s.quantum).leave s'.now) := by
  rcases hsound.eligible hk h hp with ⟨haccounts, harrival, hwork, hcompletion, _⟩
  have hnow := h.now_exact hfits ht
  have hrun := turn.toNat_run s.quantum
  have hpos := turn.run_pos s hwork
  have hserved := turn.toNat_remaining_served s.now s.quantum
  have hopen : ∀ x < s'.now.toNat,
      (TickMachine.atInstant ps s.quantum.toNat x).left[turn.position]? ≠ some 0 := fun x =>
    hj.left_ne_zero hcompletion ha h hk hsound hfits ht
  have hend := ha.left_of_turn h hk hsound hfits ht (x := s'.now.toNat) (by omega) (Nat.le_refl _)
  refine ⟨?_, ?_, ?_, ?_⟩
  · rw [Job.response_leave]
    exact nofun
  · intro response hresponse
    rw [Job.response_leave] at hresponse
    have hfirst : turn.job.responseFrom s.now = response := Option.some.inj hresponse
    rw [Job.responseFrom] at hfirst
    cases hbefore : turn.job.response with
    | some old =>
      rw [hbefore, Option.getD_some] at hfirst
      exact hj.started response (by rw [hbefore, hfirst])
    | none =>
      have hle := UInt64.le_iff_toNat_le.1 harrival
      rw [hbefore, Option.getD_none, haccounts.arrival] at hfirst
      rw [← hfirst, UInt64.toNat_sub_of_le _ _ harrival, Nat.add_sub_cancel' hle]
      exact ⟨ha.runner?_serves h hk hsound hfits ht (Nat.le_refl _) (by omega),
        hj.waiting hbefore⟩
  · intro hnone x hx
    rw [Job.completion_leave] at hnone
    split at hnone
    · cases hnone
    · next hzero =>
      rcases Nat.lt_or_eq_of_le hx with hlt | rfl
      · exact hopen x hlt
      · rw [hend, Ne, Option.some.injEq]
        rw [← UInt64.toNat_inj, UInt64.toNat_zero] at hzero
        omega
  · intro completion hsome
    rw [Job.completion_leave] at hsome
    split at hsome
    · next hzero =>
      rw [Option.some.injEq] at hsome
      subst hsome
      rw [← UInt64.toNat_inj, UInt64.toNat_zero] at hzero
      refine ⟨?_, hopen⟩
      rw [hend, Option.some.injEq]
      omega
    · have hstill : turn.job.completion = some completion := hsome
      rw [hcompletion] at hstill
      cases hstill

theorem countP_admissions {f : Stamped → Bool}
    (hf : ∀ time pid, f { time, event := .admitted pid } = false) (ps : ProcessList) (a b : Nat) :
    (admissions ps a b).countP f = 0 := by
  rw [List.countP_eq_zero]
  intro e he
  rcases mem_admissions_iff.1 he with ⟨_, _, _, _, _, rfl⟩
  simp [hf]

/-- Of the events of a turn, only the one that opens it can cover a tick. -/
theorem Turn.countP_events {f : Stamped → Bool}
    (hadmitted : ∀ time pid, f { time, event := .admitted pid } = false)
    (hending : f (turn.ending s s') = false) :
    (turn.events ps s s').countP f = if f (turn.opening s) then 1 else 0 := by
  rw [Turn.events, List.append_assoc, List.countP_append, countP_admissions hadmitted,
    List.cons_append, List.countP_cons, List.countP_append, countP_admissions hadmitted,
    List.countP_singleton, hending]
  simp

theorem Turn.servesAt_ending (turn : Turn) (s s' : Simulation) (pid : Pid) (x : Nat) :
    (turn.ending s s').servesAt pid x = false :=
  Turn.ending_of (P := fun e => e.servesAt pid x = false) (fun _ _ _ => rfl) (fun _ _ _ _ => rfl)

theorem Turn.idlesAt_ending (turn : Turn) (s s' : Simulation) (x : Nat) :
    (turn.ending s s').idlesAt x = false :=
  Turn.ending_of (P := fun e => e.idlesAt x = false) (fun _ _ _ => rfl) (fun _ _ _ _ => rfl)

theorem Turn.any_idlesAt_events (turn : Turn) (x : Nat) :
    (turn.events ps s s').any (·.idlesAt x) = false := by
  rw [List.any_eq_false, ← List.countP_eq_zero,
    Turn.countP_events (fun _ _ => rfl) (turn.idlesAt_ending s s' x)]
  rfl

/-- The events account for every tick before `now`: a tick in which a job runs lies in one slice of
its process and in no slice of another one, and an idle tick lies in a gap. -/
structure Covered (ps : ProcessList) (q now : Nat) (events : List Stamped) : Prop where
  served : ∀ x i p, ps[i]? = some p → events.countP (·.servesAt p.pid x) =
    if x < now ∧ TickMachine.runner? ps q x = some i then 1 else 0
  idle : ∀ x, events.any (·.idlesAt x) = true ↔ x < now ∧ TickMachine.runner? ps q x = none

theorem Covered.serves {events : List Stamped}
    (hc : Covered ps s.quantum.toNat s.now.toNat events) (ha : s.Aligned ps)
    (h : Serves ps s turn s') (hk : Contract.Kept ps) (hsound : s.Sound ps) (hfits : ps.FitsClock)
    (ht : s.InTime ps) :
    Covered ps s.quantum.toNat s'.now.toNat (events ++ turn.events ps s s') := by
  have hnow := h.now_exact hfits ht
  have hrunner : ∀ x, s.now.toNat ≤ x → x < s'.now.toNat →
      TickMachine.runner? ps s.quantum.toNat x = some turn.position := fun x =>
    ha.runner?_serves h hk hsound hfits ht
  refine ⟨?_, ?_⟩
  · intro x i p hp
    rw [List.countP_append, hc.served x i p hp,
      Turn.countP_events (fun _ _ => rfl) (turn.servesAt_ending s s' p.pid x)]
    have hcovers : (turn.opening s).servesAt p.pid x = true ↔
        i = turn.position ∧ s.now.toNat ≤ x ∧ x < s'.now.toNat := by
      have hsame : turn.process.pid = p.pid ↔ i = turn.position := by
        constructor
        · intro hpid
          exact (hk.eq_of_pid_eq h.process hp hpid).symm
        · rintro rfl
          rw [h.process, Option.some.injEq] at hp
          rw [hp]
      simp only [Turn.opening, Stamped.servesAt, Bool.and_eq_true, decide_eq_true_iff, hsame,
        hnow, and_assoc]
    by_cases hbefore : x < s.now.toNat
    · rw [if_neg (mt hcovers.1 (by omega)), Nat.add_zero]
      simp only [hbefore, true_and, show x < s'.now.toNat by omega]
    · rw [if_neg (fun hrun => hbefore hrun.1), Nat.zero_add]
      by_cases hwithin : x < s'.now.toNat
      · simp only [hcovers, hwithin, hrunner x (by omega) hwithin, Option.some.injEq, true_and,
          and_true, show s.now.toNat ≤ x by omega, eq_comm]
      · rw [if_neg (mt hcovers.1 (by omega)), if_neg (fun hrun => hwithin hrun.1)]
  · intro x
    rw [List.any_append, turn.any_idlesAt_events, Bool.or_false, hc.idle x]
    constructor
    · rintro ⟨hx, hrun⟩
      exact ⟨by omega, hrun⟩
    · rintro ⟨hx, hrun⟩
      refine ⟨Nat.lt_of_not_le fun hle => ?_, hrun⟩
      rw [hrunner x hle hx] at hrun
      cases hrun

theorem Covered.skips {events : List Stamped} {next : Process}
    (hc : Covered ps s.quantum.toNat s.now.toNat events) (ha : s.Aligned ps)
    (h : Skips ps s next s') (hk : Contract.Kept ps) (hsound : s.Sound ps) (hfits : ps.FitsClock) :
    Covered ps s.quantum.toNat s'.now.toNat
      (events ++ [{ time := s.now, event := .idle next.arrival }]) := by
  have hlater := UInt64.lt_iff_toNat_lt.1 h.later
  have hnow : s'.now = next.arrival := congrArg (·.now) h.machine
  have hrunner : ∀ x, s.now.toNat ≤ x → x < s'.now.toNat →
      TickMachine.runner? ps s.quantum.toNat x = none := fun x =>
    ha.runner?_skips h hk hsound hfits
  rw [hnow] at hrunner ⊢
  refine ⟨?_, ?_⟩
  · intro x i p hp
    rw [List.countP_append, hc.served x i p hp, List.countP_singleton]
    change _ + 0 = _
    by_cases hwithin : s.now.toNat ≤ x ∧ x < next.arrival.toNat
    · rw [if_neg (by omega), hrunner x hwithin.1 hwithin.2, if_neg (by simp)]
    · have hsame : x < s.now.toNat ↔ x < next.arrival.toNat := by omega
      simp only [hsame, Nat.add_zero]
  · intro x
    rw [List.any_append, Bool.or_eq_true, hc.idle x]
    simp only [List.any_cons, List.any_nil, Bool.or_false, Stamped.idlesAt, Bool.and_eq_true,
      decide_eq_true_iff]
    constructor
    · rintro (⟨hx, hrun⟩ | ⟨hx, hx'⟩)
      · exact ⟨by omega, hrun⟩
      · exact ⟨hx', hrunner x hx hx'⟩
    · rintro ⟨hx, hrun⟩
      by_cases hbefore : x < s.now.toNat
      · exact .inl ⟨hbefore, hrun⟩
      · exact .inr ⟨by omega, hx⟩

/-- What a run says about the ticks that have passed. -/
structure Follows (ps : ProcessList) (s : Simulation) (events : List Stamped) : Prop where
  aligned : s.Aligned ps
  covered : Covered ps s.quantum.toNat s.now.toNat events
  timed : ∀ i p job, ps[i]? = some p → s.job? i = some job →
    Timed ps s.quantum.toNat s.now.toNat i p job

/-- A move goes along with the ticks that pass. -/
theorem Follows.moves {events new : List Stamped} (hf : Follows ps s events)
    (hm : Moves ps s new s') (hk : Contract.Kept ps) (hsound : s.Sound ps) (hfits : ps.FitsClock)
    (ht : s.InTime ps) : Follows ps s' (events ++ new) := by
  cases hm with
  | serves turn h =>
    have hquantum : s'.quantum = s.quantum := h.frame.quantum
    refine ⟨hf.aligned.serves h hk hsound hfits ht, ?_, ?_⟩
    · rw [hquantum]
      exact hf.covered.serves hf.aligned h hk hsound hfits ht
    · intro i p job hp hjob
      rw [hquantum]
      rcases h.job_cases hjob with ⟨rfl, rfl⟩ | ⟨hother, old, hold, hunserved⟩
      · exact (hf.timed turn.position p turn.job hp h.job).served hf.aligned h hk hsound hfits ht hp
      · apply (hf.timed i p old hp hold).unserved hunserved
        · intro x hx hx'
          rw [hf.aligned.runner?_serves h hk hsound hfits ht hx hx', Ne, Option.some.injEq]
          exact Ne.symm hother
        · intro x hx hx'
          rw [hf.aligned.left_serves h hk hsound hfits ht hx hx', hf.aligned.left_eq,
            List.getElem?_set_ne (Ne.symm hother)]
  | skips next h =>
    have hquantum : s'.quantum = s.quantum := h.frame.quantum
    refine ⟨hf.aligned.skips h hk hsound hfits, ?_, ?_⟩
    · rw [hquantum]
      exact hf.covered.skips hf.aligned h hk hsound hfits
    · intro i p job hp hjob
      rw [hquantum]
      rw [h.job_eq] at hjob
      apply (hf.timed i p job hp hjob).unserved ⟨rfl, rfl, rfl, rfl, rfl⟩
      · intro x hx hx'
        rw [hf.aligned.runner?_skips h hk hsound hfits hx hx']
        exact nofun
      · intro x hx hx'
        rw [hf.aligned.left_eq, ← TickMachine.release_left _ s.quantum.toNat,
          hf.aligned.release_skips h hk hsound hfits hx hx']
        rfl

theorem follows_start {config : Config} (h : start ps config = .ok s) : Follows ps s [] := by
  have hk := kept_of_start h
  have haligned := aligned_start h
  refine ⟨haligned, ?_, ?_⟩
  · rcases start_eq_ok_iff.1 h with ⟨_, _, rfl⟩
    refine ⟨?_, ?_⟩
    · intro x i p _
      rw [if_neg (fun hrun => Nat.not_lt_zero x hrun.1)]
      rfl
    · intro x
      constructor
      · intro hany
        cases hany
      · rintro ⟨hx, _⟩
        exact absurd hx (Nat.not_lt_zero x)
  · intro i p job hp hjob
    have hahead : s.admitted ≤ i := by
      rw [admitted_of_start h]
      exact Nat.zero_le i
    have hfresh := ((sound_start h).job_of_ahead hp hahead).1
    rw [hjob, Option.some.injEq] at hfresh
    subst hfresh
    have hwork : s.machine.remainders[i]? = some p.burst.toNat :=
      Machine.remainders_of_job (Machine.job_eq_ok_iff.2 hjob)
    have hnow := now_of_start h
    have hleft := haligned.left_eq
    rw [hnow] at hleft ⊢
    refine ⟨?_, nofun, ?_, nofun⟩
    · intro _ x hx
      exact absurd hx (Nat.not_lt_zero x)
    · intro _ x hx
      have hburst := hk.burst_toNat_pos hp
      rw [Nat.le_zero.1 hx, hleft, hwork, Ne, Option.some.injEq]
      omega

theorem Follows.reaches {events : List Stamped} (hf : Follows ps s []) (hk : Contract.Kept ps)
    (hsound : s.Sound ps) (hfits : ps.FitsClock) (ht : s.InTime ps)
    (hr : Reaches ps s events s') : Follows ps s' events := by
  induction hr with
  | refl => exact hf
  | snoc hr hm ih => exact ih.moves hm hk (hsound.reaches hk hr) hfits (ht.reaches hfits hr)

/-- What the events and the timings of a run up to instant `finish` say about round robin tick by
tick. Every tick in which a process runs lies in exactly one of its slices, and every idle tick lies
in a gap. The response of a process is the delay of its first tick, and its completion is the
instant at which its work has come to an end. -/
structure RefinesTicks (ps : ProcessList) (q finish : Nat) (events : List Stamped)
    (timings : List Timing) : Prop where
  runs : ∀ t < finish, ∀ i p, ps[i]? = some p →
    (TickMachine.runner? ps q t = some i ↔ events.countP (·.servesAt p.pid t) = 1)
  idles : ∀ t < finish,
    (TickMachine.runner? ps q t = none ↔ ∃ e ∈ events, e.idlesAt t = true)
  times : ∀ i p, ps[i]? = some p → ∃ timing, timings[i]? = some timing ∧ timing.pid = p.pid ∧
    FirstRun ps q i (p.arrival.toNat + timing.response.toNat) ∧
    Finishes ps q i timing.completion.toNat

/-- If the clock fits, a run comes to its end, and its events and timings refine round robin tick by
tick. There is a report exactly if its totals are words, and the timings are those of the report. -/
theorem run_refines_ticks {config : Config} (hstart : start ps config = .ok s)
    (hfits : ps.FitsClock) :
    ∃ n events fin timings, s.steps n = .ok (events, fin) ∧ fin.allCompleted = true ∧
      s.complete = .ok fin ∧ fin.machine.jobs.toList.mapM Job.timing = .ok timings ∧
      ((∃ report, s.run = .ok report) ↔ Report.TotalsFit timings) ∧
      (∀ report, s.run = .ok report → report.timings = timings) ∧
      RefinesTicks ps config.quantum.toNat fin.now.toNat events.toList timings := by
  rcases exists_completed hstart hfits with ⟨n, events, fin, hrun, hdone, hcomplete, hreaches⟩
  have hk := kept_of_start hstart
  have hsound := sound_start hstart
  have hfollows := (follows_start hstart).reaches hk hsound hfits (inTime_start hstart) hreaches
  have hquantum : fin.quantum = config.quantum := by
    rcases start_eq_ok_iff.1 hstart with ⟨_, _, rfl⟩
    exact hreaches.quantum
  have hrun_eq : s.run = fin.report := by rw [run, hcomplete, Fault.ok_bind]
  rcases (hsound.reaches hk hreaches).timings hdone with
    ⟨timings, htimings, hfit, hreport, hentries⟩
  rw [← hrun_eq] at hfit hreport
  refine ⟨n, events, fin, timings, hrun, hdone, hcomplete, htimings, hfit, hreport, ?_⟩
  rw [← hquantum]
  refine ⟨?_, ?_, ?_⟩
  · intro t ht i p hp
    rw [hfollows.covered.served t i p hp]
    split
    · next hrun => exact ⟨fun _ => rfl, fun _ => hrun.2⟩
    · next hrun => exact ⟨fun h => absurd ⟨ht, h⟩ hrun, nofun⟩
  · intro t ht
    rw [← List.any_eq_true, hfollows.covered.idle t]
    exact ⟨fun h => ⟨ht, h⟩, fun h => h.2⟩
  · intro i p hp
    rcases hentries i p hp with ⟨job, timing, hjob, hentry, hresponse, hcompletion, hpid⟩
    have htimed := hfollows.timed i p job hp hjob
    exact ⟨timing, hentry, hpid, htimed.started _ hresponse, htimed.finished _ hcompletion⟩

theorem run_refines_ticks_arrivalsAtSlices :
    ∃ s, start arrivalsAtSlices { quantum := 2, checks := true } = .ok s ∧
      arrivalsAtSlices.FitsClock ∧
      ∃ n events fin timings, s.steps n = .ok (events, fin) ∧ fin.allCompleted = true ∧
        s.complete = .ok fin ∧ fin.machine.jobs.toList.mapM Job.timing = .ok timings ∧
        ((∃ report, s.run = .ok report) ↔ Report.TotalsFit timings) ∧
        (∀ report, s.run = .ok report → report.timings = timings) ∧
        RefinesTicks arrivalsAtSlices 2 fin.now.toNat events.toList timings := by
  have hstart : start arrivalsAtSlices { quantum := 2, checks := true } = .ok _ := rfl
  have hfits : arrivalsAtSlices.FitsClock := by decide
  exact ⟨_, hstart, hfits, run_refines_ticks hstart hfits⟩

end Simulation

end RoundRobin
