import Mathlib.Algebra.BigOperators.Ring.List
import RoundRobin.Proofs.Account
import RoundRobin.Proofs.Delay
import RoundRobin.Proofs.Statistics
import RoundRobin.Proofs.Turnover

/-!
# A change of clock

A new clock shows `d` at the old instant `0` and ticks `c` times for each old tick. If arrivals,
bursts and the quantum are given on the new clock, then the run goes through the states of the old
run as the new clock shows them (`Retimed`), and all times in its report are the old ones on the new
clock. Both runs start at `0` on their own clock, so one of them may have a gap ahead of the first
arrival and the other one not; they are compared from the first arrival on. Main statement:
`run_retimed`.
-/

namespace RoundRobin

/-- A process on the new clock. -/
def Process.retime (c d : Nat) (p : Process) : Process :=
  { p with
    arrival := .ofNat (c * p.arrival.toNat + d)
    burst := .ofNat (c * p.burst.toNat) }

/-- The processes of a list on the new clock. -/
def ProcessList.retime (c d : Nat) (ps : ProcessList) : ProcessList :=
  ps.map (Process.retime c d)

/-- With `c` ticks for one, the work takes as many quanta. -/
theorem quantaFor_mul {c w q : Nat} (hc : 0 < c) (hq : 0 < q) :
    quantaFor (c * w) (c * q) = quantaFor w q := by
  have hdone := (quantaFor_le_iff (w := w) hq).1 (Nat.le_refl _)
  have hfull : quantaFor w q * q < w + q := by
    have := Nat.div_mul_le_self (w + q - 1) q
    rw [quantaFor]
    omega
  have hmul : quantaFor w q * (c * q) = c * (quantaFor w q * q) := Nat.mul_left_comm _ _ _
  symm
  apply eq_quantaFor (Nat.mul_pos hc hq)
  · rw [hmul]
    exact Nat.mul_le_mul_left c hdone
  · rw [hmul, ← Nat.mul_add]
    exact Nat.mul_lt_mul_of_pos_left hfull hc

section Lists

variable {ps : ProcessList} {c d i t u : Nat} {p : Process} {quantum quantum' : Ticks}

namespace ProcessList

theorem length_retime (c d : Nat) (ps : ProcessList) : (ps.retime c d).length = ps.length :=
  List.length_map _

theorem getElem?_retime (c d : Nat) (hp : ps[i]? = some p) :
    (ps.retime c d)[i]? = some (p.retime c d) := by
  rw [retime, List.getElem?_map, hp, Option.map_some]

variable (hfits : c * ps.lastArrival + d + c * ps.totalBurst < UInt64.size)

include hfits

/-- If the new clock can show when all work is done, then it can show all times. -/
theorem toNat_retime (hp : p ∈ ps) :
    (p.retime c d).arrival.toNat = c * p.arrival.toNat + d ∧
      (p.retime c d).burst.toNat = c * p.burst.toNat := by
  have harrival := Nat.mul_le_mul_left c (arrival_le_lastArrival hp)
  have hburst : c * p.burst.toNat ≤ c * ps.totalBurst :=
    Nat.mul_le_mul_left c (List.le_sum_of_mem (List.mem_map_of_mem hp))
  exact ⟨UInt64.toNat_ofNat_of_lt' (by omega), UInt64.toNat_ofNat_of_lt' (by omega)⟩

theorem fitsClock_retime : (ps.retime c d).FitsClock := by
  have hlast : (ps.retime c d).lastArrival ≤ c * ps.lastArrival + d := by
    apply lastArrival_le
    intro q hq
    obtain ⟨p, hp, rfl⟩ := List.mem_map.1 hq
    rw [(toNat_retime hfits hp).1]
    exact Nat.add_le_add_right (Nat.mul_le_mul_left c (arrival_le_lastArrival hp)) d
  have hwork : (ps.retime c d).totalBurst = c * ps.totalBurst := by
    rw [totalBurst, totalBurst, ← List.sum_map_mul_left, retime, List.map_map]
    congr 1
    apply List.map_congr_left
    intro p hp
    exact (toNat_retime hfits hp).2
  unfold FitsClock
  omega

theorem rounds_retime (hc : 0 < c) (hquantum : quantum'.toNat = c * quantum.toNat)
    (hpos : 0 < quantum.toNat) (hp : p ∈ ps) :
    (p.retime c d).rounds quantum' = p.rounds quantum := by
  rw [Process.rounds, (toNat_retime hfits hp).2, hquantum, quantaFor_mul hc hpos, Process.rounds]

theorem totalRounds_retime (hc : 0 < c) (hquantum : quantum'.toNat = c * quantum.toNat)
    (hpos : 0 < quantum.toNat) :
    (ps.retime c d).totalRounds quantum' = ps.totalRounds quantum := by
  rw [totalRounds, totalRounds, retime, List.map_map]
  congr 1
  exact List.map_congr_left fun p hp => rounds_retime hfits hc hquantum hpos hp

/-- If the new clock can show when all work is done, then so can the old one. -/
theorem fitsClock_of_retime (hc : 0 < c) : ps.FitsClock := by
  have hlast := Nat.le_mul_of_pos_left ps.lastArrival hc
  have hwork := Nat.le_mul_of_pos_left ps.totalBurst hc
  unfold FitsClock
  omega

end ProcessList

/-- The contract does not depend on the clock. -/
theorem Contract.Kept.retime (hk : Kept ps) (hc : 0 < c)
    (hfits : c * ps.lastArrival + d + c * ps.totalBurst < UInt64.size) : Kept (ps.retime c d) where
  ne_nil := mt List.map_eq_nil_iff.1 hk.ne_nil
  sorted := by
    rw [ProcessList.retime, List.pairwise_map]
    apply hk.sorted.imp_of_mem
    intro p later hp hlater hle
    rw [UInt64.le_iff_toNat_le, (ProcessList.toNat_retime hfits hp).1,
      (ProcessList.toNat_retime hfits hlater).1]
    exact Nat.add_le_add_right (Nat.mul_le_mul_left c (UInt64.le_iff_toNat_le.1 hle)) d
  burst_pos := by
    intro q hq
    obtain ⟨p, hp, rfl⟩ := List.mem_map.1 hq
    rw [UInt64.lt_iff_toNat_lt, (ProcessList.toNat_retime hfits hp).2]
    exact Nat.mul_pos hc (UInt64.lt_iff_toNat_lt.1 (hk.burst_pos p hp))
  distinct := by
    rw [ProcessList.retime, List.pairwise_map]
    exact hk.distinct

/-- As many processes arrive before an instant on the new clock as before the old instant that goes
with it. -/
theorem arrivedBefore_retime (hk : Contract.Kept ps) (hc : 0 < c)
    (hfits : c * ps.lastArrival + d + c * ps.totalBurst < UInt64.size)
    (h : ∀ a : Nat, c * a + d < u ↔ a < t) :
    arrivedBefore (ps.retime c d) u = arrivedBefore ps t := by
  have hle := arrivedBefore_le_length (ps.retime c d) u
  rw [ProcessList.length_retime] at hle
  apply eq_arrivedBefore hk hle
  intro i p hp
  rw [lt_arrivedBefore_iff (hk.retime hc hfits) (ProcessList.getElem?_retime c d hp),
    (ProcessList.toNat_retime hfits (List.mem_of_getElem? hp)).1]
  exact h p.arrival.toNat

end Lists

/-- Two jobs are the same, on the old clock and on the new one. -/
structure Job.Retimed (c d : Nat) (job job' : Job) : Prop where
  remaining : job'.remaining.toNat = c * job.remaining.toNat
  waiting : job'.waiting.toNat = c * job.waiting.toNat
  response : job'.response.map (·.toNat) = job.response.map (c * ·.toNat)
  completion : job'.completion.map (·.toNat) = job.completion.map (c * ·.toNat + d)

namespace Job

variable {c d : Nat} {job job' next next' : Job} {now now' finish finish' quantum quantum' : Ticks}

theorem Retimed.share (h : job.Retimed c d job') (hquantum : quantum'.toNat = c * quantum.toNat) :
    (job'.share quantum').toNat = c * (job.share quantum).toNat := by
  rw [toNat_share, toNat_share, hquantum, h.remaining, Nat.mul_min_mul_left]

/-- A job that has not been served has waited on both clocks. -/
theorem Retimed.unserved (h : job.Retimed c d job') (hun : job.Unserved next)
    (hun' : job'.Unserved next') (hwaiting : next'.waiting.toNat = c * next.waiting.toNat) :
    next.Retimed c d next' where
  remaining := by rw [hun.remaining, hun'.remaining, h.remaining]
  waiting := hwaiting
  response := by rw [hun.response, hun'.response, h.response]
  completion := by rw [hun.completion, hun'.completion, h.completion]

/-- The response is fixed on both clocks. -/
theorem Retimed.responseFrom (h : job.Retimed c d job') (hnow : now'.toNat = c * now.toNat + d)
    (harrival : job'.arrival.toNat = c * job.arrival.toNat + d) (hle : job.arrival ≤ now) :
    (job'.responseFrom now').toNat = c * (job.responseFrom now).toNat := by
  have hresponse := h.response
  unfold Job.responseFrom
  cases hold : job.response with
  | some response =>
    rw [hold, Option.map_some, Option.map_eq_some_iff] at hresponse
    obtain ⟨response', hold', heq⟩ := hresponse
    rw [hold', Option.getD_some, Option.getD_some, heq]
  | none =>
    rw [hold, Option.map_none, Option.map_eq_none_iff] at hresponse
    have hle' := Nat.mul_le_mul_left c (UInt64.le_iff_toNat_le.1 hle)
    have hlater : job'.arrival ≤ now' := by
      rw [UInt64.le_iff_toNat_le]
      omega
    rw [hresponse, Option.getD_none, Option.getD_none, UInt64.toNat_sub_of_le _ _ hlater,
      UInt64.toNat_sub_of_le _ _ hle, Nat.mul_sub]
    omega

/-- A job has its turn on both clocks. -/
theorem Retimed.served (h : job.Retimed c d job') (hc : 0 < c)
    (hquantum : quantum'.toNat = c * quantum.toNat) (hnow : now'.toNat = c * now.toNat + d)
    (hfinish : finish'.toNat = c * finish.toNat + d)
    (harrival : job'.arrival.toNat = c * job.arrival.toNat + d) (hle : job.arrival ≤ now) :
    ((job.served now quantum).leave finish).Retimed c d
      ((job'.served now' quantum').leave finish') where
  remaining := by
    rw [remaining_leave, remaining_leave, toNat_remaining_served, toNat_remaining_served, hquantum,
      h.remaining, Nat.mul_sub]
  waiting := by
    rw [waiting_leave, waiting_leave]
    exact h.waiting
  response := by
    rw [response_leave, response_leave]
    exact congrArg some (h.responseFrom hnow harrival hle)
  completion := by
    have hends : (job'.served now' quantum').remaining = 0 ↔
        (job.served now quantum).remaining = 0 := by
      rw [remaining_served_eq_zero_iff, remaining_served_eq_zero_iff, hquantum, h.remaining]
      exact Nat.mul_le_mul_left_iff hc
    rw [completion_leave, completion_leave]
    by_cases hdone : (job.served now quantum).remaining = 0
    · rw [if_pos hdone, if_pos (hends.2 hdone), Option.map_some, Option.map_some, hfinish]
    · rw [if_neg hdone, if_neg (mt hends.1 hdone)]
      exact h.completion

end Job

/-- Two timings are the same, on the old clock and on the new one. -/
structure Timing.Retimed (c d : Nat) (timing timing' : Timing) : Prop where
  pid : timing'.pid = timing.pid
  waiting : timing'.waiting.toNat = c * timing.waiting.toNat
  response : timing'.response.toNat = c * timing.response.toNat
  completion : timing'.completion.toNat = c * timing.completion.toNat + d
  dispatches : timing'.dispatches = timing.dispatches

/-- If the totals on the new clock are words, then so are those on the old one. -/
theorem Report.TotalsFit.of_retimed {c d : Nat} {timings timings' : List Timing} (hc : 0 < c)
    (hlen : timings.length = timings'.length)
    (h : ∀ (i : Nat) timing timing', timings[i]? = some timing → timings'[i]? = some timing' →
      timing.Retimed c d timing') (hfits : TotalsFit timings') : TotalsFit timings := by
  have hle : ∀ f : Timing → Nat,
      (∀ timing timing', timing.Retimed c d timing' → f timing ≤ f timing') →
      (timings.map f).sum ≤ (timings'.map f).sum := by
    intro f hf
    apply sum_le_sum_of_getElem?
    · rw [List.length_map, List.length_map, hlen]
    · intro i a b ha hb
      rw [List.getElem?_map, Option.map_eq_some_iff] at ha hb
      obtain ⟨timing, htiming, rfl⟩ := ha
      obtain ⟨timing', htiming', rfl⟩ := hb
      exact hf _ _ (h i timing timing' htiming htiming')
  refine ⟨Nat.lt_of_le_of_lt (hle _ ?_) hfits.waiting, Nat.lt_of_le_of_lt (hle _ ?_) hfits.response,
    Nat.lt_of_le_of_lt (hle _ ?_) hfits.dispatches⟩
  · intro timing timing' hretimed
    rw [hretimed.waiting]
    exact Nat.le_mul_of_pos_left _ hc
  · intro timing timing' hretimed
    rw [hretimed.response]
    exact Nat.le_mul_of_pos_left _ hc
  · intro timing timing' hretimed
    exact Nat.le_of_eq (congrArg UInt64.toNat hretimed.dispatches.symm)

namespace Simulation

variable {ps : ProcessList} {c d : Nat} {config config' : Config} {s s' a a' b b' : Simulation}
  {ta tb : Turn}

/-- A state on the way of a run whose clock does not stop. -/
structure Underway (ps : ProcessList) (s : Simulation) : Prop where
  kept : Contract.Kept ps
  fits : ps.FitsClock
  orderly : s.Orderly ps
  inTime : s.InTime ps
  charges : ∃ events, Charges ps s events

namespace Underway

theorem of_steps (hstart : start ps config = .ok s) (hfits : ps.FitsClock) {n : Nat}
    {events : Array Stamped} (hrun : s.steps n = .ok (events, s')) : s'.Underway ps := by
  have hk := kept_of_start hstart
  have ht := inTime_start hstart
  obtain ⟨hreaches, horderly, _⟩ := (orderly_start hstart).run hk hrun
  exact ⟨hk, hfits, horderly, ht.reaches hfits hreaches, _,
    Charges.reaches hk hfits (sound_start hstart) ht (admitted_of_start hstart) hreaches⟩

theorem step {new : Array Stamped} (h : s.Underway ps) (hstep : s.step = .ok (new, s')) :
    s'.Underway ps := by
  rcases h.orderly.of_step h.kept hstep with ⟨_, _, rfl⟩ | ⟨_, hmoves, horderly, _⟩
  · exact h
  have ht := h.inTime.moves h.fits hmoves
  obtain ⟨events, hcharges⟩ := h.charges
  refine ⟨h.kept, h.fits, horderly, ht, ?_⟩
  generalize new.toList = stream at hmoves
  cases hmoves with
  | serves turn hm =>
    exact ⟨_, hcharges.serves hm h.kept h.orderly.sound (hm.now_exact h.fits h.inTime)⟩
  | skips p hm => exact ⟨_, hcharges.skips (e := ⟨s.now, .idle p.arrival⟩) hm h.orderly.sound rfl⟩

/-- A turn adds its length to the waiting of the jobs behind it. -/
theorem waiting_eq (h : s.Underway ps) (hm : Serves ps s ta s') {i : Nat} {p : Process} {job : Job}
    (hp : ps[i]? = some p) (hjob : s'.job? i = some job) :
    ∃ old, s.job? i = some old ∧ job.waiting.toNat =
      old.waiting.toNat + (if i ∈ ta.rest then (ta.run s.quantum).toNat else 0) := by
  obtain ⟨_, hcharges⟩ := h.charges
  exact hm.toNat_waiting h.kept h.orderly.sound hcharges (hm.now_exact h.fits h.inTime) hp hjob

end Underway

/-- A state on the old clock is the same as another one on the new clock. -/
structure Retimed (c d : Nat) (a b : Simulation) : Prop where
  now : b.now.toNat = c * a.now.toNat + d
  quantum : b.quantum.toNat = c * a.quantum.toNat
  admitted : b.admitted = a.admitted
  queue : b.queue = a.queue
  jobs : ∀ i job job', a.job? i = some job → b.job? i = some job' → job.Retimed c d job'

namespace Retimed

section States

variable (hfits : c * ps.lastArrival + d + c * ps.totalBurst < UInt64.size)

include hfits

/-- The same gap leads to the same state on both clocks. -/
theorem skips {p q : Process} (h : Retimed c d a b) (hma : Skips ps a p a')
    (hmb : Skips (ps.retime c d) b q b') : Retimed c d a' b' := by
  have hnext := hmb.next
  rw [h.admitted, ProcessList.getElem?_retime c d hma.next, Option.some.injEq] at hnext
  subst hnext
  have hnow : a'.now = p.arrival := congrArg (·.now) hma.machine
  have hnow' : b'.now = (p.retime c d).arrival := congrArg (·.now) hmb.machine
  have hqueue : a'.queue = a.queue := congrArg (·.ready.slots) hma.machine
  have hqueue' : b'.queue = b.queue := congrArg (·.ready.slots) hmb.machine
  refine ⟨?_, ?_, ?_, ?_, fun i job job' hjob hjob' => ?_⟩
  · rw [hnow, hnow']
    exact (ProcessList.toNat_retime hfits (List.mem_of_getElem? hma.next)).1
  · rw [hmb.frame.quantum, hma.frame.quantum, h.quantum]
  · rw [hmb.admitted, hma.admitted, h.admitted]
  · rw [hqueue, hqueue', h.queue]
  · rw [hma.job_eq] at hjob
    rw [hmb.job_eq] at hjob'
    exact h.jobs i job job' hjob hjob'

variable (hc : 0 < c)

include hc

/-- The same processes have arrived by now. -/
theorem arrivedBefore_eq (h : Retimed c d a b) (hk : Contract.Kept ps) :
    arrivedBefore (ps.retime c d) (b.now.toNat + 1) = arrivedBefore ps (a.now.toNat + 1) := by
  apply arrivedBefore_retime hk hc hfits
  intro t
  have hle : c * t ≤ c * a.now.toNat ↔ t ≤ a.now.toNat := Nat.mul_le_mul_left_iff hc
  rw [h.now]
  omega

/-- The same jobs are in line. -/
theorem line_eq (h : Retimed c d a b) (hk : Contract.Kept ps) :
    b.line (ps.retime c d) = a.line ps := by
  rw [line, line, h.arrivedBefore_eq hfits hc hk, h.queue, h.admitted]

section Turns

variable (ha : a.Underway ps) (hb : b.Underway (ps.retime c d)) (hma : Serves ps a ta a')
  (hmb : Serves (ps.retime c d) b tb b')

include ha hb hma hmb

/-- The same job has the turn, with the same jobs behind it. -/
theorem turn (h : Retimed c d a b) : tb.position = ta.position ∧ tb.rest = ta.rest ∧
    tb.early = ta.early ∧ ta.job.Retimed c d tb.job := by
  have hline := h.line_eq hfits hc ha.kept
  rw [hmb.line_eq_cons hb.kept hb.orderly.sound, hma.line_eq_cons ha.kept ha.orderly.sound,
    List.cons.injEq] at hline
  obtain ⟨hposition, hrest⟩ := hline
  have hjob := hmb.job
  rw [hposition] at hjob
  refine ⟨hposition, hrest, ?_, h.jobs _ _ _ hma.job hjob⟩
  rw [hmb.early_eq hb.kept hb.orderly.sound, hma.early_eq ha.kept ha.orderly.sound]
  exact h.arrivedBefore_eq hfits hc ha.kept

theorem now_serves (h : Retimed c d a b) : b'.now.toNat = c * a'.now.toNat + d ∧
    (tb.run b.quantum).toNat = c * (ta.run a.quantum).toNat := by
  obtain ⟨_, _, _, hjob⟩ := h.turn hfits hc ha hb hma hmb
  have hrun : (tb.run b.quantum).toNat = c * (ta.run a.quantum).toNat := hjob.share h.quantum
  refine ⟨?_, hrun⟩
  rw [hmb.now_exact hb.fits hb.inTime, hma.now_exact ha.fits ha.inTime, hrun, h.now, Nat.mul_add]
  omega

/-- After the turn, every job is the same on both clocks. -/
theorem jobs_serves (h : Retimed c d a b) {i : Nat} {job job' : Job} (hjob : a'.job? i = some job)
    (hjob' : b'.job? i = some job') : job.Retimed c d job' := by
  obtain ⟨hposition, hrest, _, hturn⟩ := h.turn hfits hc ha hb hma hmb
  obtain ⟨hnow, hrun⟩ := h.now_serves hfits hc ha hb hma hmb
  have hlt : i < ps.length := by
    rw [← ha.orderly.sound.size, ← hma.frame.size]
    exact (Array.getElem?_eq_some_iff.1 hjob).1
  have hp : ps[i]? = some ps[i] := List.getElem?_eq_getElem hlt
  obtain ⟨old, hold, hwaiting⟩ := ha.waiting_eq hma hp hjob
  obtain ⟨old', hold', hwaiting'⟩ := hb.waiting_eq hmb (ProcessList.getElem?_retime c d hp) hjob'
  have hbefore := h.jobs i old old' hold hold'
  rcases hma.job_cases hjob with ⟨hi, rfl⟩ | ⟨hother, before, hsame, hun⟩
  · rcases hmb.job_cases hjob' with ⟨_, rfl⟩ | ⟨hother', _⟩
    · -- the turn is that of a process that has arrived, on both clocks
      have hready := ha.orderly.sound.eligible ha.kept hma hma.process
      have hprocess := ProcessList.getElem?_retime c d hma.process
      rw [← hposition] at hprocess
      have hready' := hb.orderly.sound.eligible hb.kept hmb hprocess
      apply hturn.served hc h.quantum h.now hnow
      · rw [hready'.accounts.arrival, hready.accounts.arrival]
        exact (ProcessList.toNat_retime hfits (List.mem_of_getElem? hma.process)).1
      · rw [hready.accounts.arrival]
        exact hready.arrived
    · exact absurd (hi.trans hposition.symm) hother'
  · rcases hmb.job_cases hjob' with ⟨hi', _⟩ | ⟨_, before', hsame', hun'⟩
    · exact absurd (hi'.trans hposition) hother
    · rw [hold, Option.some.injEq] at hsame
      rw [hold', Option.some.injEq] at hsame'
      subst hsame hsame'
      apply hbefore.unserved hun hun'
      rw [hwaiting', hwaiting, hrest, hrun, hbefore.waiting, Nat.mul_add]
      split
      · rfl
      · rw [Nat.mul_zero]

/-- The same turn leads to the same state on both clocks. -/
theorem serves (h : Retimed c d a b) : Retimed c d a' b' := by
  obtain ⟨hposition, hrest, hearly, hturn⟩ := h.turn hfits hc ha hb hma hmb
  obtain ⟨hnow, _⟩ := h.now_serves hfits hc ha hb hma hmb
  have hadmitted : b'.admitted = a'.admitted := by
    rw [(hb.orderly.sound.serves hb.kept hmb).admitted_eq hb.kept hb.fits,
      (ha.orderly.sound.serves ha.kept hma).admitted_eq ha.kept ha.fits]
    apply arrivedBefore_retime ha.kept hc hfits
    intro t
    have hlt : c * t < c * a'.now.toNat ↔ t < a'.now.toNat := Nat.mul_lt_mul_left hc
    omega
  have hlate : tb.late = ta.late := by rw [← hmb.admitted, ← hma.admitted, hadmitted]
  have hends : tb.Ends b.quantum ↔ ta.Ends a.quantum := by
    unfold Turn.Ends
    rw [h.quantum, hturn.remaining]
    exact Nat.mul_le_mul_left_iff hc
  refine ⟨hnow, ?_, hadmitted, ?_, fun i job job' => h.jobs_serves hfits hc ha hb hma hmb⟩
  · rw [hmb.frame.quantum, hma.frame.quantum, h.quantum]
  · rw [hmb.queue, hma.queue, hposition, hrest, hearly, hlate]
    simp only [hends]

end Turns

/-- Steps from the same state on both clocks lead to the same state on both clocks. -/
theorem step {new new' : Array Stamped} (h : Retimed c d a b) (ha : a.Underway ps)
    (hb : b.Underway (ps.retime c d)) (hstep : a.step = .ok (new, a'))
    (hstep' : b.step = .ok (new', b')) : Retimed c d a' b' := by
  have hline : a.line ps = [] ↔ b.line (ps.retime c d) = [] := by
    rw [h.line_eq hfits hc ha.kept]
  have hnext : a.admitted = ps.length ↔ b.admitted = (ps.retime c d).length := by
    rw [h.admitted, ProcessList.length_retime]
  rcases ha.orderly.steps_alike hb.orderly ha.kept hb.kept hstep hstep' hline hnext with
    ⟨rfl, rfl⟩ | ⟨p, q, hma, hmb⟩ | ⟨ta, tb, hma, hmb⟩
  · exact h
  · exact h.skips hfits hma hmb
  · exact h.serves hfits hc ha hb hma hmb

theorem steps {n : Nat} {events events' : Array Stamped} (h : Retimed c d a b)
    (ha : a.Underway ps) (hb : b.Underway (ps.retime c d)) (hrun : a.steps n = .ok (events, a'))
    (hrun' : b.steps n = .ok (events', b')) : Retimed c d a' b' := by
  induction n generalizing a b events events' with
  | zero =>
    cases hrun
    cases hrun'
    exact h
  | succ n ih =>
    obtain ⟨new, t, after, hstep, hrest, _⟩ := steps_first_eq_ok_iff.1 hrun
    obtain ⟨new', t', after', hstep', hrest', _⟩ := steps_first_eq_ok_iff.1 hrun'
    have hnext := h.step hfits hc ha hb hstep hstep'
    exact ih hnext (ha.step hstep) (hb.step hstep') hrest hrest'

end States

end Retimed

section Ends

variable {events events' : Array Stamped} {fin fin' : Simulation} {timings timings' : List Timing}
  (hfits : c * ps.lastArrival + d + c * ps.totalBurst < UInt64.size) (hc : 0 < c)
  (hstart : start ps config = .ok s) (hstart' : start (ps.retime c d) config' = .ok s')
  (hquantum : config'.quantum.toNat = c * config.quantum.toNat)

include hfits hc hstart hstart' hquantum

/-- At the first arrival, both runs are in the same state. -/
theorem exists_retimed : ∃ n events u n' events' u', s.steps n = .ok (events, u) ∧
    s'.steps n' = .ok (events', u') ∧ Retimed c d u u' := by
  have hk := kept_of_start hstart
  have hk' := kept_of_start hstart'
  obtain ⟨first, rest, rfl⟩ := List.exists_cons_of_ne_nil hk.ne_nil
  obtain ⟨n, events, u, hrun, hnow, hadmitted, hempty⟩ :=
    exists_first_arrival hstart (ProcessList.fitsClock_of_retime hfits hc)
  obtain ⟨n', events', u', hrun', hnow', hadmitted', hempty'⟩ :=
    exists_first_arrival hstart' (ProcessList.fitsClock_retime hfits)
  obtain ⟨hreaches, horderly, _⟩ := (orderly_start hstart).run hk hrun
  obtain ⟨hreaches', horderly', _⟩ := (orderly_start hstart').run hk' hrun'
  refine ⟨n, events, u, n', events', u', hrun, hrun', ?_, ?_, ?_, ?_, ?_⟩
  · rw [hnow, hnow']
    exact (ProcessList.toNat_retime hfits List.mem_cons_self).1
  · rw [hreaches.quantum_eq hstart, hreaches'.quantum_eq hstart', hquantum]
  · rw [hadmitted, hadmitted']
  · rw [hempty, hempty']
  · intro i job job' hjob hjob'
    have hlt : i < (first :: rest).length :=
      horderly.sound.size ▸ (Array.getElem?_eq_some_iff.1 hjob).1
    have hp : (first :: rest)[i]? = some (first :: rest)[i] := List.getElem?_eq_getElem hlt
    have hp' := ProcessList.getElem?_retime c d hp
    obtain rfl := horderly.sound.eq_of_ahead hp (hadmitted ▸ Nat.zero_le i) hjob
    obtain rfl := horderly'.sound.eq_of_ahead hp' (hadmitted' ▸ Nat.zero_le i) hjob'
    exact ⟨(ProcessList.toNat_retime hfits (List.mem_of_getElem? hp)).2, (Nat.mul_zero c).symm,
      rfl, rfl⟩

variable (hends : s.Concludes events fin timings) (hends' : s'.Concludes events' fin' timings')

include hends hends'

/-- At the end, every job is the same on both clocks. -/
theorem jobs_retimed {i : Nat} {job job' : Job} (hjob : fin.job? i = some job)
    (hjob' : fin'.job? i = some job') : job.Retimed c d job' := by
  obtain ⟨m, before, u, m', before', u', hbefore, hbefore', hretimed⟩ :=
    exists_retimed hfits hc hstart hstart' hquantum
  have hu := Underway.of_steps hstart (ProcessList.fitsClock_of_retime hfits hc) hbefore
  have hu' := Underway.of_steps hstart' (ProcessList.fitsClock_retime hfits) hbefore'
  obtain ⟨n, hrun⟩ := hends.steps
  obtain ⟨n', hrun'⟩ := hends'.steps
  obtain ⟨_, hafter⟩ := exists_steps_to_end hbefore hrun hends.completed
  obtain ⟨_, hafter'⟩ := exists_steps_to_end hbefore' hrun' hends'.completed
  obtain ⟨k, hlong, hlong'⟩ :=
    exists_steps_of_completed hafter hends.completed hafter' hends'.completed
  exact (hretimed.steps hfits hc hu hu' hlong hlong').jobs i job job' hjob hjob'

theorem timings_retimed {i : Nat} {p : Process} (hp : ps[i]? = some p) :
    ∃ timing timing', timings[i]? = some timing ∧ timings'[i]? = some timing' ∧
      timing.pid = p.pid ∧ timing.Retimed c d timing' := by
  have hp' := ProcessList.getElem?_retime c d hp
  obtain ⟨hreaches, horderly⟩ := hends.orderly hstart
  obtain ⟨hreaches', horderly'⟩ := hends'.orderly hstart'
  obtain ⟨job, timing, hjob, hentry, _, _, hresponse, hcompletion, hpid, hwaiting, _⟩ :=
    horderly.sound.timing_of_completed hends.completed hends.timed hp
  obtain ⟨job', timing', hjob', hentry', _, _, hresponse', hcompletion', hpid', hwaiting', _⟩ :=
    horderly'.sound.timing_of_completed hends'.completed hends'.timed hp'
  obtain ⟨_, hsame, _, hrounds⟩ := hreaches.timing_eq hstart hends.completed hends.timed hp
  obtain ⟨_, hsame', _, hrounds'⟩ := hreaches'.timing_eq hstart' hends'.completed hends'.timed hp'
  rw [hentry, Option.some.injEq] at hsame
  rw [hentry', Option.some.injEq] at hsame'
  subst hsame hsame'
  have hjobs := jobs_retimed hfits hc hstart hstart' hquantum hends hends' hjob hjob'
  have hpos := quantum_pos_of_start hstart
  refine ⟨timing, timing', hentry, hentry', hpid, hpid'.trans hpid.symm, ?_, ?_, ?_, ?_⟩
  · rw [hwaiting, hwaiting', hjobs.waiting]
  · have hsame := hjobs.response
    rw [hresponse, hresponse', Option.map_some, Option.map_some, Option.some.injEq] at hsame
    exact hsame
  · have hsame := hjobs.completion
    rw [hcompletion, hcompletion', Option.map_some, Option.map_some, Option.some.injEq] at hsame
    exact hsame
  · rw [← UInt64.toNat_inj, hrounds, hrounds',
      ProcessList.rounds_retime hfits hc hquantum hpos (List.mem_of_getElem? hp)]

theorem preemptions_retimed : fin'.scheduler.preemptions = fin.scheduler.preemptions := by
  have hcount := (hends.orderly hstart).1.preemptions_add_length hstart hends.completed
  have hcount' := (hends'.orderly hstart').1.preemptions_add_length hstart' hends'.completed
  have hpos := quantum_pos_of_start hstart
  rw [ProcessList.totalRounds_retime hfits hc hquantum hpos, ProcessList.length_retime] at hcount'
  rw [← UInt64.toNat_inj]
  omega

/-- If the run on the new clock has a report, then so has the one on the old clock. -/
theorem exists_report_retimed {report' : Report} (hreport' : s'.run = .ok report') :
    ∃ report, s.run = .ok report ∧ report.timings = timings ∧ report'.timings = timings' ∧
      report'.preemptions = report.preemptions := by
  have hlen := length_of_mapM (hends.orderly hstart).2.sound hends.timed
  have hlen' := length_of_mapM (hends'.orderly hstart').2.sound hends'.timed
  have hpreemptions := preemptions_retimed hfits hc hstart hstart' hquantum hends hends'
  rw [ProcessList.length_retime] at hlen'
  rw [hends'.run_eq] at hreport'
  have hentries : ∀ (i : Nat) timing timing', timings[i]? = some timing →
      timings'[i]? = some timing' → timing.Retimed c d timing' := by
    intro i timing timing' htiming htiming'
    have hlt : i < ps.length := hlen ▸ (List.getElem?_eq_some_iff.1 htiming).1
    obtain ⟨_, _, hsame, hsame', _, hretimed⟩ := timings_retimed hfits hc hstart hstart' hquantum
      hends hends' (List.getElem?_eq_getElem hlt)
    rw [htiming, Option.some.injEq] at hsame
    rw [htiming', Option.some.injEq] at hsame'
    rwa [hsame, hsame']
  have htotals := Report.TotalsFit.of_retimed hc (hlen.trans hlen'.symm) hentries
    ((Report.exists_ofTimings_iff _ _).1 ⟨report', hreport'⟩)
  obtain ⟨report, hreport⟩ :=
    (Report.exists_ofTimings_iff timings fin.scheduler.preemptions).2 htotals
  have htold := Report.totals_of_ofTimings hreport
  have htold' := Report.totals_of_ofTimings hreport'
  refine ⟨report, hends.run_eq.trans hreport, htold.timings_eq, htold'.timings_eq, ?_⟩
  rw [htold.preemptions_eq, htold'.preemptions_eq, hpreemptions]

end Ends

/-- Runs do not depend on the clock. If the new clock can show when all work is done, then a run
with all arrivals, bursts and the quantum on the new clock comes to its end with the same waiting,
responses and completions on that clock, and with as many dispatches and preemptions. -/
theorem run_retimed (hc : 1 ≤ c) (hstart : start ps config = .ok s)
    (hfits : c * ps.lastArrival + d + c * ps.totalBurst < UInt64.size)
    (hquantum : config'.quantum.toNat = c * config.quantum.toNat) :
    ∃ s' events fin timings events' fin' timings',
      start (ps.retime c d) config' = .ok s' ∧ s.Concludes events fin timings ∧
      s'.Concludes events' fin' timings' ∧
      (∀ (i : Nat) p, ps[i]? = some p → ∃ timing timing', timings[i]? = some timing ∧
        timings'[i]? = some timing' ∧ timing.pid = p.pid ∧ timing.Retimed c d timing') ∧
      fin'.scheduler.preemptions = fin.scheduler.preemptions ∧
      ∀ report', s'.run = .ok report' → ∃ report, s.run = .ok report ∧
        report.timings = timings ∧ report'.timings = timings' ∧
        report'.preemptions = report.preemptions := by
  have hpos : 0 < config'.quantum := by
    rw [UInt64.lt_iff_toNat_lt, hquantum]
    exact Nat.mul_pos hc (quantum_pos_of_start hstart)
  have hstart' : start (ps.retime c d) config' = .ok _ :=
    start_eq_ok_iff.2 ⟨hpos, (kept_of_start hstart).retime hc hfits, rfl⟩
  obtain ⟨events, fin, timings, hends⟩ :=
    exists_concludes hstart (ProcessList.fitsClock_of_retime hfits hc)
  obtain ⟨events', fin', timings', hends'⟩ :=
    exists_concludes hstart' (ProcessList.fitsClock_retime hfits)
  exact ⟨_, events, fin, timings, events', fin', timings', hstart', hends, hends',
    fun _ _ hp => timings_retimed hfits hc hstart hstart' hquantum hends hends' hp,
    preemptions_retimed hfits hc hstart hstart' hquantum hends hends',
    fun _ hreport' => exists_report_retimed hfits hc hstart hstart' hquantum hends hends' hreport'⟩

theorem run_retimed_arrivalsAtSlices :
    ∃ s, start arrivalsAtSlices { quantum := 2, checks := true } = .ok s ∧ (1 : Nat) ≤ 3 ∧
      3 * arrivalsAtSlices.lastArrival + 5 + 3 * arrivalsAtSlices.totalBurst < UInt64.size ∧
      (6 : Ticks).toNat = 3 * (2 : Ticks).toNat ∧
      ∃ s' report' events fin timings events' fin' timings',
        start (arrivalsAtSlices.retime 3 5) { quantum := 6, checks := true } = .ok s' ∧
        s'.run = .ok report' ∧ s.Concludes events fin timings ∧
        s'.Concludes events' fin' timings' ∧
        (∀ (i : Nat) p, arrivalsAtSlices[i]? = some p → ∃ timing timing',
          timings[i]? = some timing ∧ timings'[i]? = some timing' ∧ timing.pid = p.pid ∧
            timing.Retimed 3 5 timing') ∧
        fin'.scheduler.preemptions = fin.scheduler.preemptions ∧
        ∃ report, s.run = .ok report ∧ report.timings = timings ∧ report'.timings = timings' ∧
          report'.preemptions = report.preemptions := by
  have hc : (1 : Nat) ≤ 3 := by decide
  have hstart : start arrivalsAtSlices { quantum := 2, checks := true } = .ok _ := rfl
  have hfits : 3 * arrivalsAtSlices.lastArrival + 5 + 3 * arrivalsAtSlices.totalBurst <
      UInt64.size := by decide
  have hquantum : ({ quantum := 6, checks := true } : Config).quantum.toNat =
      3 * (2 : Ticks).toNat := by decide
  obtain ⟨s', report', hstart', hreport'⟩ : ∃ s' report',
      start (arrivalsAtSlices.retime 3 5) { quantum := 6, checks := true } = .ok s' ∧
        s'.run = .ok report' := ⟨_, _, rfl, rfl⟩
  obtain ⟨t, events, fin, timings, events', fin', timings', ht, hends, hends', htimings,
    hpreemptions, hreports⟩ := run_retimed hc hstart hfits hquantum
  obtain rfl := Except.ok.inj (hstart'.symm.trans ht)
  exact ⟨_, hstart, hc, hfits, hquantum, s', report', events, fin, timings, events', fin', timings',
    hstart', hreport', hends, hends', htimings, hpreemptions, hreports report' hreport'⟩

end Simulation

end RoundRobin
