import RoundRobin.Proofs.ExactTime
import RoundRobin.Proofs.Ticks

/-!
# The tick machine behind a simulation

A simulation moves by slices and gaps, and the tick machine by single ticks. If the clock fits, then
both stand alike whenever a step has ended (`Aligned`): the same jobs are queued in the same order,
with the same work left. In between, the tick machine runs the job that has the turn, or idles.
-/

namespace RoundRobin

namespace Simulation

variable {ps : ProcessList} {s s' : Simulation} {turn : Turn} {p : Process}

/-- Once the job whose turn is over has left the processor, the tick machine stands as the
simulation does. -/
def Aligned (ps : ProcessList) (s : Simulation) : Prop :=
  (TickMachine.atInstant ps s.quantum.toNat s.now.toNat).release s.quantum.toNat =
    .free s.now.toNat s.queue s.machine.remainders

theorem Aligned.left_eq (ha : s.Aligned ps) :
    (TickMachine.atInstant ps s.quantum.toNat s.now.toNat).left = s.machine.remainders := by
  rw [← TickMachine.release_left _ s.quantum.toNat, ha]
  rfl

theorem aligned_start {config : Config} (h : start ps config = .ok s) : s.Aligned ps := by
  obtain ⟨_, _, rfl⟩ := start_eq_ok_iff.1 h
  have hleft : (Machine.ofProcesses ps).remainders = ps.map (·.burst.toNat) := by
    simp only [Machine.remainders, Machine.ofProcesses, List.map_map]
    rfl
  change TickMachine.ofProcesses ps = .free 0 [] (Machine.ofProcesses ps).remainders
  rw [hleft]
  rfl

theorem Sound.admitted_eq (h : s.Sound ps) (hk : Contract.Kept ps) (hfits : ps.FitsClock) :
    s.admitted = arrivedBefore ps s.now.toNat :=
  eq_arrivedBefore hk h.admitted_le fun _ _ hp => h.lt_admitted_iff hk hfits hp

namespace Serves

theorem early_eq (h : Serves ps s turn s') (hk : Contract.Kept ps) (hsound : s.Sound ps) :
    turn.early = arrivedBefore ps (s.now.toNat + 1) := by
  apply h.early.eq_arrivedBefore hk
  intro i p hp hlt
  have := UInt64.le_iff_toNat_le.1 (hsound.arrived i p hp hlt)
  omega

theorem line_eq (h : Serves ps s turn s') (hk : Contract.Kept ps) (hsound : s.Sound ps)
    (hfits : ps.FitsClock) :
    s.queue ++ TickMachine.arrivals ps s.now.toNat = turn.position :: turn.rest := by
  rw [arrivals_eq hk, ← hsound.admitted_eq hk hfits, ← h.early_eq hk hsound]
  exact h.line

theorem work_eq (h : Serves ps s turn s') :
    s.machine.remainders[turn.position]? = some turn.job.remaining.toNat :=
  Machine.remainders_of_job (Machine.job_eq_ok_iff.2 h.job)

end Serves

/-- During a turn, the tick machine runs its job. -/
theorem Aligned.runner?_serves (ha : s.Aligned ps) (h : Serves ps s turn s')
    (hk : Contract.Kept ps) (hsound : s.Sound ps) (hfits : ps.FitsClock) (ht : s.InTime ps)
    {x : Nat}
    (hx : s.now.toNat ≤ x) (hx' : x < s'.now.toNat) :
    TickMachine.runner? ps s.quantum.toNat x = some turn.position := by
  have hnow := h.now_exact hfits ht
  have hrun := turn.toNat_run s.quantum
  have hticks := TickMachine.runner?_of_line hk ha (h.line_eq hk hsound hfits) h.work_eq
    (j := x - s.now.toNat) (by omega)
  rwa [Nat.add_sub_cancel' hx] at hticks

/-- During a turn, the work of its job goes down, and that of the others stays. -/
theorem Aligned.left_serves (ha : s.Aligned ps) (h : Serves ps s turn s')
    (hk : Contract.Kept ps) (hsound : s.Sound ps) (hfits : ps.FitsClock) (ht : s.InTime ps)
    {x : Nat}
    (hx : s.now.toNat ≤ x) (hx' : x ≤ s'.now.toNat) :
    (TickMachine.atInstant ps s.quantum.toNat x).left =
      s.machine.remainders.set turn.position
        (turn.job.remaining.toNat - (x - s.now.toNat)) := by
  have hnow := h.now_exact hfits ht
  have hrun := turn.toNat_run s.quantum
  have hticks := TickMachine.left_of_line hk ha (h.line_eq hk hsound hfits) h.work_eq
    (j := x - s.now.toNat) (by omega)
  rwa [Nat.add_sub_cancel' hx] at hticks

/-- The tick machine stands alike again when a turn has ended. -/
theorem Aligned.serves (ha : s.Aligned ps) (h : Serves ps s turn s') (hk : Contract.Kept ps)
    (hsound : s.Sound ps) (hfits : ps.FitsClock) (ht : s.InTime ps) : s'.Aligned ps := by
  have hnow := h.now_exact hfits ht
  have hrun := turn.toNat_run s.quantum
  have hsound' := hsound.serves hk h
  have hquantum : s'.quantum = s.quantum := h.frame.quantum
  have hadmitted : turn.late = arrivedBefore ps s'.now.toNat := by
    rw [← hsound'.admitted_eq hk hfits, h.admitted]
  have hpos := turn.run_pos s (hsound.eligible hk h h.process).work
  have hrelease := TickMachine.release_of_line hk ha (h.line_eq hk hsound hfits) h.work_eq
    (by omega)
  rw [← hrun, ← hnow, ← h.early_eq hk hsound, ← hadmitted] at hrelease
  unfold Aligned
  rw [hquantum, hrelease, h.queue, h.remainders]
  rfl

namespace Aligned

variable {next : Process}

/-- No process arrives from a skip on up to the instant that it leads to. -/
theorem arrivals_skips (h : Skips ps s next s') (hk : Contract.Kept ps) (hsound : s.Sound ps)
    (hfits : ps.FitsClock) {x : Nat} (hx : s.now.toNat ≤ x) (hx' : x < s'.now.toNat) :
    TickMachine.arrivals ps x = [] := by
  have hnow : s'.now = next.arrival := congrArg (·.now) h.machine
  have hbetween : ∀ y, s.now.toNat ≤ y → y ≤ s'.now.toNat → arrivedBefore ps y = s.admitted := by
    intro y hy hy'
    rw [eq_comm]
    apply eq_arrivedBefore hk hsound.admitted_le
    intro i p hp
    constructor
    · intro hlt
      have := (hsound.lt_admitted_iff hk hfits hp).1 hlt
      omega
    · intro hlt
      apply Nat.lt_of_not_le
      intro hle
      have := hk.arrival_le h.next hp hle
      rw [hnow] at hy'
      omega
  rw [arrivals_eq hk, hbetween x hx (by omega), hbetween (x + 1) (by omega) (by omega),
    Nat.sub_self, List.range'_zero]

theorem free_skips (ha : s.Aligned ps) (h : Skips ps s next s') :
    (TickMachine.atInstant ps s.quantum.toNat s.now.toNat).release s.quantum.toNat =
      .free s.now.toNat [] s.machine.remainders := by
  rw [← h.empty]
  exact ha

/-- During a gap, the tick machine idles. -/
theorem runner?_skips (ha : s.Aligned ps) (h : Skips ps s next s') (hk : Contract.Kept ps)
    (hsound : s.Sound ps) (hfits : ps.FitsClock) {x : Nat} (hx : s.now.toNat ≤ x)
    (hx' : x < s'.now.toNat) : TickMachine.runner? ps s.quantum.toNat x = none := by
  have hticks := TickMachine.runner?_of_gap (ha.free_skips h) (j := x - s.now.toNat)
    (fun y => arrivals_skips h hk hsound hfits) (by omega)
  rwa [Nat.add_sub_cancel' hx] at hticks

theorem release_skips (ha : s.Aligned ps) (h : Skips ps s next s') (hk : Contract.Kept ps)
    (hsound : s.Sound ps) (hfits : ps.FitsClock) {x : Nat} (hx : s.now.toNat ≤ x)
    (hx' : x ≤ s'.now.toNat) :
    (TickMachine.atInstant ps s.quantum.toNat x).release s.quantum.toNat =
      .free x [] s.machine.remainders := by
  have hticks := TickMachine.release_of_gap (ha.free_skips h) (j := x - s.now.toNat)
    (fun y => arrivals_skips h hk hsound hfits) (by omega)
  rwa [Nat.add_sub_cancel' hx] at hticks

/-- The tick machine stands alike again when a gap is over. -/
theorem skips (ha : s.Aligned ps) (h : Skips ps s next s') (hk : Contract.Kept ps)
    (hsound : s.Sound ps) (hfits : ps.FitsClock) : s'.Aligned ps := by
  have hlater := UInt64.lt_iff_toNat_lt.1 h.later
  have hnow : s'.now = next.arrival := congrArg (·.now) h.machine
  have hqueue : s'.queue = s.queue := congrArg (·.ready.slots) h.machine
  have hquantum : s'.quantum = s.quantum := h.frame.quantum
  have hle : s.now.toNat ≤ s'.now.toNat := by
    rw [hnow]
    omega
  unfold Aligned
  rw [hquantum, hqueue, h.empty, h.remainders]
  exact ha.release_skips h hk hsound hfits hle (Nat.le_refl _)

end Aligned

end Simulation

end RoundRobin
