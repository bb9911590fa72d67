import RoundRobin.Proofs.Runs

/-!
# The event stream

The events that the steps of a run hand out are those that a trace receives (`trace_of_steps`).
Their stamps never decrease, the processes are admitted in their order in the list, and after every
gap a process is admitted at the instant to which the gap leads (`Streamed.reaches`).
-/

namespace RoundRobin

/-- The event is an admission. -/
def Event.isAdmission : Event → Bool
  | .admitted _ => true
  | _ => false

variable {ps : ProcessList}

theorem admissions_append {a b c : Nat} (hab : a ≤ b) (hbc : b ≤ c) (hc : c ≤ ps.length) :
    admissions ps a b ++ admissions ps b c = admissions ps a c := by
  have hsplit : ps.take c = ps.take b ++ (ps.take c).drop b := by
    conv => lhs; rw [← List.take_append_drop b (ps.take c)]
    rw [List.take_take, Nat.min_eq_left hbc]
  have hlen : a ≤ (ps.take b).length := by
    rw [List.length_take]
    omega
  have hdrop : (ps.take c).drop a = (ps.take b).drop a ++ (ps.take c).drop b := by
    conv => lhs; rw [hsplit]
    exact List.drop_append_of_le_length hlen
  rw [admissions, admissions, admissions, hdrop, List.map_append]

theorem filter_admissions (ps : ProcessList) (a b : Nat) :
    (admissions ps a b).filter (·.event.isAdmission) = admissions ps a b := by
  rw [List.filter_eq_self]
  intro e he
  obtain ⟨_, _, _, _, _, rfl⟩ := mem_admissions_iff.1 he
  rfl

theorem admissions_pairwise (hk : Contract.Kept ps) (a b : Nat) :
    (admissions ps a b).Pairwise fun e e' => e.time ≤ e'.time := by
  rw [admissions, List.pairwise_map]
  exact hk.sorted.sublist ((List.drop_sublist _ _).trans (List.take_sublist _ _))

theorem trace_emit (monitor : Monitor) (events : List Stamped) :
    (events.foldl Monitor.emit monitor).trace = monitor.trace.map (· ++ events.toArray) := by
  induction events generalizing monitor with
  | nil => simp
  | cons e events ih =>
    rw [List.foldl_cons, ih, Monitor.emit, Option.map_map]
    congr 1
    funext trace
    simp

/-- An entry of a list put together from two lies in the second one, or in the first one and ahead
of the second one. -/
theorem append_eq_append_cons {α : Type} {l l' before after : List α} {a : α}
    (h : l ++ l' = before ++ a :: after) :
    (∃ front, l' = front ++ a :: after) ∨ ∃ back, l = before ++ a :: back ∧ after = back ++ l' := by
  rcases List.append_eq_append_iff.1 h with ⟨front, _, hnew⟩ | ⟨back, hold, hafter⟩
  · exact .inl ⟨front, hnew⟩
  · cases back with
    | nil => exact .inl ⟨[], hafter.symm⟩
    | cons b back =>
      rw [List.cons_append, List.cons.injEq] at hafter
      obtain ⟨rfl, hafter⟩ := hafter
      exact .inr ⟨back, hold, hafter⟩

namespace Simulation

variable {s s' t : Simulation} {turn : Turn}

/-- A trace receives the events that the steps hand out. -/
theorem Orderly.trace_of_steps (h : s.Orderly ps) (hk : Contract.Kept ps) {n : Nat}
    {events before : Array Stamped} (hrun : s.steps n = .ok (events, t))
    (htrace : s.scheduler.monitor.trace = some before) :
    t.scheduler.monitor.trace = some (before ++ events) := by
  induction n generalizing events t with
  | zero =>
    cases hrun
    rw [htrace, Array.append_empty]
  | succ n ih =>
    obtain ⟨first, u, new, hfirst, hstep, rfl⟩ := steps_succ_eq_ok_iff.1 hrun
    have hu := ih hfirst
    rcases (h.run hk hfirst).2.1.of_step hk hstep with ⟨_, rfl, rfl⟩ | ⟨_, _, _, hobserved⟩
    · rw [hu, Array.append_empty]
    · rw [show t.scheduler.monitor.trace = _ from congrArg Monitor.trace hobserved]
      change (List.foldl Monitor.emit u.scheduler.monitor new.toList).trace = _
      rw [trace_emit, hu, Option.map_some, Array.append_assoc]

namespace Serves

/-- The processes that are let in at the start of a turn arrive right then. -/
theorem arrival_of_early (h : Serves ps s turn s') (hsound : s.Sound ps) {i : Nat} {p : Process}
    (hp : ps[i]? = some p) (hge : s.admitted ≤ i) (hlt : i < turn.early) : p.arrival = s.now := by
  have hahead := UInt64.le_iff_toNat_le.1 (hsound.ahead i p hp hge)
  have harrived := h.early.arrived i p hp hge hlt
  rw [← UInt64.toNat_inj]
  omega

/-- The events of a turn are stamped with instants of the turn. -/
theorem time_of_mem (h : Serves ps s turn s') (hsound : s.Sound ps) {e : Stamped}
    (he : e ∈ turn.events ps s s') : s.now ≤ e.time ∧ e.time ≤ s'.now := by
  have hnow := UInt64.le_iff_toNat_le.2 h.now_le
  rcases Turn.mem_events_iff.1 he with hearly | rfl | hlate | rfl
  · obtain ⟨i, p, hp, hge, hlt, rfl⟩ := mem_admissions_iff.1 hearly
    rw [h.arrival_of_early hsound hp hge hlt]
    exact ⟨UInt64.le_refl _, hnow⟩
  · exact ⟨UInt64.le_refl _, hnow⟩
  · obtain ⟨i, p, hp, hge, hlt, rfl⟩ := mem_admissions_iff.1 hlate
    have hahead := h.early.ahead i p hp hge
    have harrived := h.late.arrived i p hp hge hlt
    rw [UInt64.le_iff_toNat_le, UInt64.le_iff_toNat_le]
    change s.now.toNat ≤ p.arrival.toNat ∧ p.arrival.toNat ≤ s'.now.toNat
    omega
  · exact ⟨hnow, UInt64.le_refl _⟩

theorem events_pairwise (h : Serves ps s turn s') (hk : Contract.Kept ps) (hsound : s.Sound ps) :
    (turn.events ps s s').Pairwise fun e e' => e.time ≤ e'.time := by
  have hbounds : ∀ e ∈ turn.events ps s s', s.now ≤ e.time ∧ e.time ≤ s'.now := fun e he =>
    h.time_of_mem hsound he
  rw [Turn.events] at hbounds ⊢
  have hearly : ∀ e ∈ admissions ps s.admitted turn.early, e.time = s.now := by
    intro e he
    obtain ⟨i, p, hp, hge, hlt, rfl⟩ := mem_admissions_iff.1 he
    exact h.arrival_of_early hsound hp hge hlt
  rw [List.pairwise_append, List.pairwise_append, List.pairwise_cons]
  refine ⟨⟨admissions_pairwise hk _ _, ⟨?_, admissions_pairwise hk _ _⟩, ?_⟩,
    List.pairwise_singleton _ _, ?_⟩
  · intro e he
    exact (hbounds e (List.mem_append_left _
      (List.mem_append_right _ (List.mem_cons_of_mem _ he)))).1
  · intro e he e' he'
    rw [hearly e he]
    exact (hbounds e' (List.mem_append_left _ (List.mem_append_right _ he'))).1
  · intro e he e' he'
    obtain rfl := List.mem_singleton.1 he'
    exact (hbounds e (List.mem_append_left _ he)).2

theorem filter_events (h : Serves ps s turn s') :
    (turn.events ps s s').filter (·.event.isAdmission) = admissions ps s.admitted turn.late := by
  have hending : (turn.ending s s').event.isAdmission = false :=
    Turn.ending_of (P := fun e => e.event.isAdmission = false) (fun _ _ _ => rfl)
      (fun _ _ _ _ => rfl)
  have hopening : (turn.opening s).event.isAdmission = false := rfl
  rw [Turn.events, List.filter_append, List.filter_append, filter_admissions,
    List.filter_cons_of_neg (by rw [hopening]; exact Bool.false_ne_true), filter_admissions,
    List.filter_cons_of_neg (by rw [hending]; exact Bool.false_ne_true), List.filter_nil,
    List.append_nil]
  exact admissions_append h.early.le h.late.le h.late.le_length

/-- A turn in which a process is let in at the start opens with its admission. -/
theorem events_cons (h : Serves ps s turn s') {p : Process} (hp : ps[s.admitted]? = some p)
    (hnow : p.arrival = s.now) :
    ∃ rest, turn.events ps s s' = { time := p.arrival, event := .admitted p.pid } :: rest := by
  have hlt : s.admitted < turn.early := by
    apply Nat.lt_of_not_le
    intro hle
    have hahead := h.early.ahead s.admitted p hp hle
    rw [hnow] at hahead
    omega
  rw [Turn.events, admissions_cons hp hlt]
  exact ⟨_, rfl⟩

theorem not_idle (_h : Serves ps s turn s') {e : Stamped} (he : e ∈ turn.events ps s s')
    (target : Ticks) : e.event ≠ .idle target := by
  rcases Turn.mem_events_iff.1 he with hearly | rfl | hlate | rfl
  · obtain ⟨_, _, _, _, _, rfl⟩ := mem_admissions_iff.1 hearly
    exact nofun
  · exact nofun
  · obtain ⟨_, _, _, _, _, rfl⟩ := mem_admissions_iff.1 hlate
    exact nofun
  · exact Turn.ending_of (P := fun e => e.event ≠ .idle target) (fun _ _ _ => nofun)
      (fun _ _ _ _ => nofun)

end Serves

/-- What the order of the events so far is like. A gap that has no event behind it has led to now,
and now is when the next process arrives. -/
structure Streamed (ps : ProcessList) (s : Simulation) (events : List Stamped) : Prop where
  sorted : events.Pairwise fun e e' => e.time ≤ e'.time
  le_now : ∀ e ∈ events, e.time ≤ s.now
  admissions_eq : events.filter (·.event.isAdmission) = admissions ps 0 s.admitted
  idle_next : ∀ before after time target,
    events = before ++ { time, event := .idle target } :: after →
      (∃ pid rest, after = { time := target, event := .admitted pid } :: rest) ∨
        (after = [] ∧ s.now = target ∧
          ∃ next, ps[s.admitted]? = some next ∧ next.arrival = target)

namespace Streamed

variable {events : List Stamped}

/-- Events of later instants go behind. -/
theorem sorted_append (h : Streamed ps s events) {new : List Stamped}
    (hsorted : new.Pairwise fun e e' => e.time ≤ e'.time)
    (hbounds : ∀ e ∈ new, s.now ≤ e.time) :
    (events ++ new).Pairwise fun e e' => e.time ≤ e'.time := by
  rw [List.pairwise_append]
  exact ⟨h.sorted, hsorted, fun e he e' he' =>
    UInt64.le_trans (h.le_now e he) (hbounds e' he')⟩

theorem serves (h : Streamed ps s events) (hm : Serves ps s turn s') (hk : Contract.Kept ps)
    (hsound : s.Sound ps) : Streamed ps s' (events ++ turn.events ps s s') where
  sorted := h.sorted_append (hm.events_pairwise hk hsound) fun e he =>
    (hm.time_of_mem hsound he).1
  le_now := by
    intro e he
    rcases List.mem_append.1 he with hold | hnew
    · exact UInt64.le_trans (h.le_now e hold) (UInt64.le_iff_toNat_le.2 hm.now_le)
    · exact (hm.time_of_mem hsound hnew).2
  admissions_eq := by
    rw [List.filter_append, h.admissions_eq, hm.filter_events, hm.admitted]
    exact admissions_append (Nat.zero_le _) (Nat.le_trans hm.early.le hm.late.le)
      hm.late.le_length
  idle_next := by
    intro before after time target heq
    rcases append_eq_append_cons heq with ⟨front, hnew⟩ | ⟨back, hold, rfl⟩
    · have hmem : ({ time, event := .idle target } : Stamped) ∈ turn.events ps s s' := by
        rw [hnew]
        exact List.mem_append_right _ List.mem_cons_self
      exact absurd rfl (hm.not_idle hmem target)
    · left
      rcases h.idle_next before back time target hold with
        ⟨pid, rest, rfl⟩ | ⟨rfl, hnow, next, hnext, harrival⟩
      · exact ⟨pid, _, rfl⟩
      · obtain ⟨rest, hevents⟩ := hm.events_cons hnext (harrival.trans hnow.symm)
        rw [List.nil_append, hevents, harrival]
        exact ⟨next.pid, rest, rfl⟩

theorem skips (h : Streamed ps s events) {next : Process} (hm : Skips ps s next s') :
    Streamed ps s' (events ++ [{ time := s.now, event := .idle next.arrival }]) := by
  have hnow : s'.now = next.arrival := congrArg (·.now) hm.machine
  have hlater := UInt64.le_of_lt hm.later
  exact {
    sorted := by
      apply h.sorted_append (List.pairwise_singleton _ _)
      intro e he
      rw [List.mem_singleton.1 he]
      exact UInt64.le_refl _
    le_now := by
      intro e he
      rw [hnow]
      rcases List.mem_append.1 he with hold | hnew
      · exact UInt64.le_trans (h.le_now e hold) hlater
      · rw [List.mem_singleton.1 hnew]
        exact hlater
    admissions_eq := by
      rw [List.filter_append, h.admissions_eq, hm.admitted]
      exact List.append_nil _
    idle_next := by
      intro before after time target heq
      rcases append_eq_append_cons heq with ⟨front, hnew⟩ | ⟨back, hold, rfl⟩
      · right
        rcases List.singleton_eq_append_iff.1 hnew with ⟨_, hone⟩ | ⟨_, hnil⟩
        · rw [List.cons.injEq, Stamped.mk.injEq, Event.idle.injEq] at hone
          obtain ⟨⟨_, rfl⟩, rfl⟩ := hone
          refine ⟨rfl, hnow, next, ?_, rfl⟩
          rw [hm.admitted]
          exact hm.next
        · cases hnil
      · left
        rcases h.idle_next before back time target hold with
          ⟨pid, rest, rfl⟩ | ⟨_, hreached, p, hp, harrival⟩
        · exact ⟨pid, _, rfl⟩
        · -- a second gap would lead to where the clock is already
          rw [hm.next, Option.some.injEq] at hp
          have hlater' := hm.later
          rw [hp, harrival, hreached] at hlater'
          exact absurd hlater' (UInt64.lt_irrefl _) }

theorem reaches {config : Config} (hstart : start ps config = .ok s)
    (hr : Reaches ps s events s') : Streamed ps s' events := by
  have hk := kept_of_start hstart
  induction hr with
  | refl =>
    refine ⟨List.Pairwise.nil, fun e he => absurd he List.not_mem_nil, ?_, ?_⟩
    · rw [admitted_of_start hstart, admissions_self]
      rfl
    · intro before after time target heq
      simp at heq
  | snoc hr hm ih =>
    cases hm with
    | serves turn h => exact ih.serves h hk (hr.sound hstart)
    | skips next h => exact ih.skips h

end Streamed

end Simulation

end RoundRobin
