import Mathlib.Data.List.Dedup
import Mathlib.Data.List.Perm.Subperm
import RoundRobin.Proofs.EventStream
import RoundRobin.Proofs.Rounds

/-!
# How many steps a run takes

A step before the end of a run serves one round or skips one gap, and behind every gap a process is
let in and served (`Moves.productive`). The gaps lead to different arrivals (`Gapped.length_le`). So
the number of steps is known exactly, also when the clock stops on the way
(`steps_eq_rounds_add_gaps`).
-/

namespace RoundRobin

/-- The instant that a gap leads to, if the event is one. -/
def Event.target? : Event → Option Ticks
  | .idle target => some target
  | _ => none

/-- The instants that the gaps of a run lead to, one for each gap, in the order of the events. -/
def gapTargets (events : List Stamped) : List Ticks :=
  events.filterMap (·.event.target?)

theorem gapTargets_append (events events' : List Stamped) :
    gapTargets (events ++ events') = gapTargets events ++ gapTargets events' :=
  List.filterMap_append

namespace Simulation

variable {ps : ProcessList} {s s' t : Simulation} {turn : Turn} {events new : List Stamped}

theorem Turn.gapTargets_events (turn : Turn) : gapTargets (turn.events ps s s') = [] := by
  have hending : (turn.ending s s').event.target? = none :=
    Turn.ending_of (P := fun e => e.event.target? = none) (fun _ _ _ => rfl) (fun _ _ _ _ => rfl)
  rw [gapTargets, turn.filterMap_events (fun _ _ => rfl), hending]
  rfl

/-- The gaps so far lead to later and later arrivals, none of them ahead of the clock. -/
structure Gapped (ps : ProcessList) (s : Simulation) (events : List Stamped) : Prop where
  sorted : (gapTargets events).Pairwise (· < ·)
  le_now : ∀ target ∈ gapTargets events, target ≤ s.now
  arrival : ∀ target ∈ gapTargets events, target ∈ ps.map (·.arrival)

namespace Gapped

theorem moves (h : Gapped ps s events) (hm : Moves ps s new s') :
    Gapped ps s' (events ++ new) := by
  cases hm with
  | serves turn hm =>
    have hnow := UInt64.le_iff_toNat_le.2 hm.now_le
    have hsame : gapTargets (events ++ turn.events ps s s') = gapTargets events := by
      rw [gapTargets_append, turn.gapTargets_events, List.append_nil]
    refine ⟨?_, ?_, ?_⟩
    · rw [hsame]
      exact h.sorted
    · rw [hsame]
      exact fun target htarget => UInt64.le_trans (h.le_now target htarget) hnow
    · rw [hsame]
      exact h.arrival
  | skips p hm =>
    have hnow : s'.now = p.arrival := congrArg (·.now) hm.machine
    have hlater : ∀ target ∈ gapTargets events, target < p.arrival := fun target htarget =>
      UInt64.lt_of_le_of_lt (h.le_now target htarget) hm.later
    have hnew : gapTargets [{ time := s.now, event := .idle p.arrival }] = [p.arrival] := rfl
    refine ⟨?_, ?_, ?_⟩
    · rw [gapTargets_append, hnew, List.pairwise_append]
      refine ⟨h.sorted, List.pairwise_singleton _ _, fun target htarget a ha => ?_⟩
      rw [List.mem_singleton.1 ha]
      exact hlater target htarget
    · rw [gapTargets_append, hnew, hnow]
      intro target htarget
      rcases List.mem_append.1 htarget with hold | hlast
      · exact UInt64.le_of_lt (hlater target hold)
      · rw [List.mem_singleton.1 hlast]
        exact UInt64.le_refl _
    · rw [gapTargets_append, hnew]
      intro target htarget
      rcases List.mem_append.1 htarget with hold | hlast
      · exact h.arrival target hold
      · rw [List.mem_singleton.1 hlast]
        exact List.mem_map_of_mem (List.mem_of_getElem? hm.next)

theorem reaches (hr : Reaches ps s events s') : Gapped ps s' events := by
  induction hr with
  | refl => exact ⟨List.Pairwise.nil, nofun, nofun⟩
  | snoc _ hm ih => exact ih.moves hm

/-- There are no more gaps than instants at which a process arrives. -/
theorem length_le (h : Gapped ps s events) :
    (gapTargets events).length ≤ (ps.map (·.arrival)).dedup.length := by
  have hnodup : (gapTargets events).Nodup := h.sorted.imp UInt64.ne_of_lt
  have hsubset : gapTargets events ⊆ (ps.map (·.arrival)).dedup := fun target htarget =>
    List.mem_dedup.2 (h.arrival target htarget)
  exact (hnodup.subperm hsubset).length_le

end Gapped

/-- A move is one round or one gap. -/
theorem Moves.roundsAhead_add_one (hm : Moves ps s new s') (hk : Contract.Kept ps)
    (hsound : s.Sound ps) : s'.roundsAhead + 1 = s.roundsAhead + (gapTargets new).length := by
  cases hm with
  | serves turn h =>
    rw [turn.gapTargets_events]
    exact h.roundsAhead_add_one (hsound.eligible hk h h.process).work
  | skips p h => exact congrArg (· + 1) h.roundsAhead_eq

/-- As long as work is left, every step is counted, and is one round or one gap. -/
theorem Orderly.steps_eq (h : s.Orderly ps) (hk : Contract.Kept ps) {n : Nat}
    {events : Array Stamped} (hrun : s.steps n = .ok (events, s'))
    (hopen : ∀ m < n, ∀ before t, s.steps m = .ok (before, t) → t.allCompleted = false) :
    s'.scheduler.monitor.steps.toNat = s.scheduler.monitor.steps.toNat + n ∧
      n + s'.roundsAhead = s.roundsAhead + (gapTargets events.toList).length := by
  induction n generalizing events s' with
  | zero =>
    cases hrun
    exact ⟨rfl, Nat.zero_add _⟩
  | succ n ih =>
    obtain ⟨before, t, new, hbefore, hstep, rfl⟩ := steps_succ_eq_ok_iff.1 hrun
    obtain ⟨hcount, hrounds⟩ := ih hbefore fun m hm => hopen m (by omega)
    have hunfinished := hopen n (Nat.lt_succ_self n) before t hbefore
    have horderly := (h.run hk hbefore).2.1
    obtain ⟨hmoves, _, hobserved⟩ := horderly.moves_of_step hk hunfinished hstep
    have hone := hmoves.roundsAhead_add_one hk horderly.sound
    have hroom := steps_lt_of_step hunfinished hstep
    have hcounted : (t.scheduler.monitor.steps + 1).toNat = t.scheduler.monitor.steps.toNat + 1 :=
      Word.toNat_add_of_lt hroom
    rw [hobserved.steps_eq, hcounted, Array.toList_append, gapTargets_append, List.length_append]
    omega

/-- The first steps of a run go through. -/
theorem exists_steps_of_le {m n : Nat} {events : Array Stamped} (hle : m ≤ n)
    (hrun : s.steps n = .ok (events, s')) : ∃ before t, s.steps m = .ok (before, t) := by
  induction hle generalizing events s' with
  | refl => exact ⟨events, s', hrun⟩
  | step _ ih =>
    obtain ⟨before, t, _, hbefore, _⟩ := steps_succ_eq_ok_iff.1 hrun
    exact ih hbefore

/-- A run that has come to its end did so after some number of steps, and not before. -/
theorem exists_first_completed {n : Nat} {events : Array Stamped}
    (hrun : s.steps n = .ok (events, s')) (hdone : s'.allCompleted = true) :
    ∃ k, s.steps k = .ok (events, s') ∧
      ∀ m < k, ∀ before t, s.steps m = .ok (before, t) → t.allCompleted = false := by
  induction n generalizing events s' with
  | zero => exact ⟨0, hrun, fun m hm => absurd hm (Nat.not_lt_zero m)⟩
  | succ n ih =>
    obtain ⟨before, t, new, hbefore, hstep, hevents⟩ := steps_succ_eq_ok_iff.1 hrun
    cases hend : t.allCompleted with
    | true =>
      rw [step_of_completed hend] at hstep
      cases hstep
      rw [hevents, Array.append_empty]
      exact ih hbefore hend
    | false =>
      refine ⟨n + 1, hrun, fun m hm before' u hu => ?_⟩
      -- a run that had come to its end by then would have stood still from there on
      apply eq_false_of_ne_true
      intro hearly
      obtain ⟨rest, rfl⟩ := Nat.le.dest (Nat.le_of_lt_succ hm)
      rw [steps_add_of_completed hu hearly rest, Except.ok.injEq, Prod.mk.injEq] at hbefore
      rw [← hbefore.2, hearly] at hend
      cases hend

/-- Behind a gap, the process to whose arrival it has led is let in and served for the first time.
-/
theorem Serves.mem_events_of_empty (h : Serves ps s turn s') (hsound : s.Sound ps)
    (hempty : s.queue = []) {p : Process} (hp : ps[s.admitted]? = some p)
    (hnow : s.now = p.arrival) :
    { time := p.arrival, event := .admitted p.pid } ∈ turn.events ps s s' ∧
      { time := p.arrival, event := .dispatched p.pid (turn.run s.quantum) true } ∈
        turn.events ps s s' := by
  constructor
  · obtain ⟨rest, hevents⟩ := h.events_cons hp hnow.symm
    rw [hevents]
    exact List.mem_cons_self
  · have hline := h.line
    have hposition : turn.position = s.admitted := by
      rw [hempty, List.nil_append] at hline
      cases hcount : turn.early - s.admitted with
      | zero =>
        rw [hcount] at hline
        cases hline
      | succ k =>
        rw [hcount, List.range'_succ, List.cons.injEq] at hline
        exact hline.1.symm
    have hprocess := h.process
    have hjob := h.job
    rw [hposition, hp, Option.some.injEq] at hprocess
    rw [hposition, (hsound.job_of_ahead hp (Nat.le_refl _)).1, Option.some.injEq] at hjob
    rw [Turn.mem_events_iff, Turn.opening, hnow, ← hprocess, ← hjob]
    exact .inr (.inl rfl)

/-- What a step comes to, with the events that it hands out: it lowers the work that is left, or it
skips a gap, and the next step lets in and serves the process to whose arrival the gap leads. -/
inductive Productive (ps : ProcessList) (s : Simulation) : List Stamped → Simulation → Prop where
  | works {new : List Stamped} {s' : Simulation} :
      s'.machine.remainingWork < s.machine.remainingWork → Productive ps s new s'
  | leads {s' s'' : Simulation} {p : Process} {next : Array Stamped} {slice : Ticks} : p ∈ ps →
      s'.step = .ok (next, s'') → { time := p.arrival, event := .admitted p.pid } ∈ next.toList →
      { time := p.arrival, event := .dispatched p.pid slice true } ∈ next.toList →
      Productive ps s [{ time := s.now, event := .idle p.arrival }] s'

/-- A move is productive if the step behind it goes through. -/
theorem Moves.productive (hm : Moves ps s new s') (hk : Contract.Kept ps) (hsound : s.Sound ps)
    (horderly : s'.Orderly ps)
    (hnext : s'.allCompleted = false → ∃ next s'', s'.step = .ok (next, s'')) :
    Productive ps s new s' := by
  cases hm with
  | serves turn h =>
    have hrun := turn.run_pos s (hsound.eligible hk h h.process).work
    have hwork := h.remainingWork_add
    exact .works (by omega)
  | skips p h =>
    have hnow : s'.now = p.arrival := congrArg (·.now) h.machine
    have hempty : s'.queue = [] := (congrArg (·.ready.slots) h.machine).trans h.empty
    have hp : ps[s'.admitted]? = some p := by rw [h.admitted, h.next]
    have hopen : s'.allCompleted = false := by
      apply eq_false_of_ne_true
      intro hdone
      have hlt := (List.getElem?_eq_some_iff.1 hp).1
      have hall := (horderly.sound.allCompleted_iff.1 hdone).1
      omega
    obtain ⟨next, s'', hstep⟩ := hnext hopen
    obtain ⟨hmoves, _, _⟩ := horderly.moves_of_step hk hopen hstep
    generalize hevents : next.toList = events at hmoves
    cases hmoves with
    | skips q h' =>
      -- a second gap would lead to where the clock is already
      have hnext := h'.next
      have hlater := h'.later
      rw [hp, Option.some.injEq] at hnext
      rw [hnow, ← hnext] at hlater
      exact absurd hlater (UInt64.lt_irrefl _)
    | serves turn h' =>
      obtain ⟨hadmitted, hdispatched⟩ :=
        h'.mem_events_of_empty horderly.sound hempty hp hnow
      rw [← hevents] at hadmitted hdispatched
      exact .leads (List.mem_of_getElem? h.next) hstep hadmitted hdispatched

/-- If the step counter has room for all rounds and for a gap before each process, then a run ends
with all jobs finished, whatever the times of the processes. It takes one step for each round and
one for each gap, the step counter counts them, and there are no more gaps than different arrivals.
Every step before the end is productive. -/
theorem steps_eq_rounds_add_gaps {config : Config} (hstart : start ps config = .ok s)
    (hrounds : ps.totalRounds config.quantum + ps.length < UInt64.size) :
    ∃ n events fin, s.steps n = .ok (events, fin) ∧ fin.allCompleted = true ∧
      s.complete = .ok fin ∧ fin.scheduler.monitor.steps.toNat = n ∧
      n = ps.totalRounds config.quantum + (gapTargets events.toList).length ∧
      (gapTargets events.toList).length ≤ (ps.map (·.arrival)).dedup.length ∧
      ∀ m < n, ∃ before t new u, s.steps m = .ok (before, t) ∧ t.allCompleted = false ∧
        t.step = .ok (new, u) ∧ Productive ps t new.toList u := by
  obtain ⟨_, events, fin, hrun, hdone, hcomplete, hreaches⟩ :=
    exists_completed_of_rounds hstart hrounds
  have hk := kept_of_start hstart
  have horderly := orderly_start hstart
  obtain ⟨n, hsteps, hopen⟩ := exists_first_completed hrun hdone
  obtain ⟨hcount, hahead⟩ := horderly.steps_eq hk hsteps hopen
  have hnone := ((sound_start hstart).reaches hk hreaches).roundsAhead_of_completed hdone
  rw [steps_of_start hstart, UInt64.toNat_zero, Nat.zero_add] at hcount
  rw [hnone, roundsAhead_start hstart] at hahead
  refine ⟨n, events, fin, hsteps, hdone, hcomplete, hcount, hahead,
    (Gapped.reaches hreaches).length_le, fun m hm => ?_⟩
  obtain ⟨_, u, hnext⟩ := exists_steps_of_le hm hsteps
  obtain ⟨before, t, new, hbefore, hstep, _⟩ := steps_succ_eq_ok_iff.1 hnext
  have hunfinished := hopen m hm before t hbefore
  have horderly' := (horderly.run hk hbefore).2.1
  obtain ⟨hmoves, horderly_u, _⟩ := horderly'.moves_of_step hk hunfinished hstep
  refine ⟨before, t, new, u, hbefore, hunfinished, hstep, ?_⟩
  apply hmoves.productive hk horderly'.sound horderly_u
  intro hopen_u
  -- the end of the run is behind this state, so one more step goes through
  have hlt : m + 1 < n := by
    apply Nat.lt_of_le_of_ne hm
    intro heq
    rw [heq, hsteps, Except.ok.injEq, Prod.mk.injEq] at hnext
    rw [← hnext.2, hdone] at hopen_u
    cases hopen_u
  obtain ⟨_, v, hlast⟩ := exists_steps_of_le hlt hsteps
  obtain ⟨_, u', next, hmid, hstep', _⟩ := steps_succ_eq_ok_iff.1 hlast
  rw [hnext, Except.ok.injEq, Prod.mk.injEq] at hmid
  exact ⟨next, v, hmid.2 ▸ hstep'⟩

theorem steps_eq_rounds_add_gaps_lastArrivals :
    ∃ s, start lastArrivals { quantum := 4, checks := true } = .ok s ∧
      lastArrivals.totalRounds 4 + lastArrivals.length < UInt64.size ∧
      ∃ n events fin, s.steps n = .ok (events, fin) ∧ fin.allCompleted = true ∧
        s.complete = .ok fin ∧ fin.scheduler.monitor.steps.toNat = n ∧
        n = lastArrivals.totalRounds 4 + (gapTargets events.toList).length ∧
        (gapTargets events.toList).length ≤ (lastArrivals.map (·.arrival)).dedup.length ∧
        ∀ m < n, ∃ before t new u, s.steps m = .ok (before, t) ∧ t.allCompleted = false ∧
          t.step = .ok (new, u) ∧ Productive lastArrivals t new.toList u := by
  have hstart : start lastArrivals { quantum := 4, checks := true } = .ok _ := rfl
  have hrounds : lastArrivals.totalRounds 4 + lastArrivals.length < UInt64.size := by decide
  exact ⟨_, hstart, hrounds, steps_eq_rounds_add_gaps hstart hrounds⟩

end Simulation

end RoundRobin
