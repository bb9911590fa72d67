import RoundRobin.Proofs.Step

/-!
# Refused process lists

A list is refused for its first process that breaks the contract: one that arrives before the
process in front of it, that has no work to do, or whose identifier stands in front of it already.
Of several of these at one process, the first in this order is named (`NamedAt`). The check reads
the list from left to right, and at every position its arguments say what stands in front of it
(`Scanned`). Main statement: `start_decides`.
-/

namespace RoundRobin

namespace Contract

section Positions

variable (ps : ProcessList) (i : Nat)

/-- The process at a position arrives before the one in front of it. -/
def ArrivesEarly : Prop :=
  ∃ previous p, 0 < i ∧ ps[i - 1]? = some previous ∧ ps[i]? = some p ∧
    p.arrival < previous.arrival

/-- The process at a position has no work to do. -/
def HasNoWork : Prop :=
  ∃ p, ps[i]? = some p ∧ p.burst = 0

/-- The identifier of the process at a position belongs to a process in front of it, too. -/
def IsRepeated : Prop :=
  ∃ j earlier p, j < i ∧ ps[j]? = some earlier ∧ ps[i]? = some p ∧ earlier.pid = p.pid

/-- The process at a position breaks the contract. -/
def BrokenAt : Prop :=
  ArrivesEarly ps i ∨ HasNoWork ps i ∨ IsRepeated ps i

/-- What is named of the process at a position: an early arrival, or else missing work, or else a
repeated identifier. -/
inductive NamedAt : Violation → Prop where
  | early {previous p : Process} : 0 < i → ps[i - 1]? = some previous → ps[i]? = some p →
      p.arrival < previous.arrival →
      NamedAt (.unsortedArrivals i p.pid p.arrival previous.arrival)
  | noWork {p : Process} : ¬ ArrivesEarly ps i → ps[i]? = some p → p.burst = 0 →
      NamedAt (.zeroBurst p.pid)
  | repeated {p : Process} : ¬ ArrivesEarly ps i → ¬ HasNoWork ps i → ps[i]? = some p →
      IsRepeated ps i → NamedAt (.duplicatePid p.pid)

/-- The identifiers in front of a position, and the arrival right in front of it. -/
structure Scanned (seen : Std.TreeSet UInt32) (previous : Ticks) : Prop where
  mem_iff : ∀ pid, pid ∈ seen ↔ ∃ j earlier, j < i ∧ ps[j]? = some earlier ∧ earlier.pid.val = pid
  first : i = 0 → previous = 0
  later : ∀ earlier, 0 < i → ps[i - 1]? = some earlier → previous = earlier.arrival

end Positions

variable {ps : ProcessList} {i : Nat} {p : Process} {violation : Violation} {config : Config}
  {seen : Std.TreeSet UInt32} {previous : Ticks}

theorem NamedAt.broken (h : NamedAt ps i violation) : BrokenAt ps i := by
  cases h with
  | early hpos hprevious hp hlt => exact .inl ⟨_, _, hpos, hprevious, hp, hlt⟩
  | noWork _ hp hburst => exact .inr (.inl ⟨_, hp, hburst⟩)
  | repeated _ _ _ hrepeated => exact .inr (.inr hrepeated)

/-- Of a process that breaks the contract, something is named. -/
theorem BrokenAt.exists_named (h : BrokenAt ps i) : ∃ violation, NamedAt ps i violation := by
  by_cases hearly : ArrivesEarly ps i
  · obtain ⟨previous, p, hpos, hprevious, hp, hlt⟩ := hearly
    exact ⟨_, .early hpos hprevious hp hlt⟩
  · by_cases hwork : HasNoWork ps i
    · obtain ⟨p, hp, hburst⟩ := hwork
      exact ⟨_, .noWork hearly hp hburst⟩
    · have hrepeated := (h.resolve_left hearly).resolve_left hwork
      obtain ⟨_, _, p, _, _, hp, _⟩ := id hrepeated
      exact ⟨_, .repeated hearly hwork hp hrepeated⟩

theorem BrokenAt.lt_length (h : BrokenAt ps i) : i < ps.length := by
  rcases h with ⟨_, p, _, _, hp, _⟩ | ⟨p, hp, _⟩ | ⟨_, _, p, _, _, hp, _⟩
  all_goals exact (List.getElem?_eq_some_iff.1 hp).1

namespace Scanned

theorem start (ps : ProcessList) : Scanned ps 0 ∅ 0 where
  mem_iff pid := by
    refine iff_of_false Std.TreeSet.not_mem_emptyc ?_
    rintro ⟨j, _, hlt, _⟩
    exact absurd hlt (Nat.not_lt_zero j)
  first _ := rfl
  later _ hpos _ := absurd hpos (Nat.lt_irrefl 0)

theorem next (h : Scanned ps i seen previous) (hp : ps[i]? = some p) :
    Scanned ps (i + 1) (seen.insert p.pid.val) p.arrival where
  mem_iff pid := by
    rw [Std.TreeSet.mem_insert, Std.LawfulEqOrd.compare_eq_iff_eq, h.mem_iff]
    constructor
    · rintro (hpid | ⟨j, earlier, hlt, hearlier, hpid⟩)
      · exact ⟨i, p, Nat.lt_succ_self i, hp, hpid⟩
      · exact ⟨j, earlier, Nat.lt_succ_of_lt hlt, hearlier, hpid⟩
    · rintro ⟨j, earlier, hlt, hearlier, hpid⟩
      rcases Nat.lt_succ_iff_lt_or_eq.1 hlt with hlt | rfl
      · exact .inr ⟨j, earlier, hlt, hearlier, hpid⟩
      · rw [hp, Option.some.injEq] at hearlier
        exact .inl (hearlier ▸ hpid)
  first hzero := absurd hzero (Nat.succ_ne_zero i)
  later earlier _ hearlier := by
    rw [Nat.add_sub_cancel, hp, Option.some.injEq] at hearlier
    rw [hearlier]

variable (h : Scanned ps i seen previous) (hp : ps[i]? = some p)

include h hp

theorem arrivesEarly_iff : ArrivesEarly ps i ↔ p.arrival < previous := by
  constructor
  · rintro ⟨earlier, q, hpos, hearlier, hq, hlt⟩
    rw [hp, Option.some.injEq] at hq
    rwa [h.later earlier hpos hearlier, hq]
  · intro hlt
    rcases Nat.eq_zero_or_pos i with hzero | hpos
    · rw [h.first hzero] at hlt
      exact absurd hlt UInt64.not_lt_zero
    · have hbound := (List.getElem?_eq_some_iff.1 hp).1
      have hearlier : ps[i - 1]? = some ps[i - 1] := List.getElem?_eq_getElem (by omega)
      exact ⟨_, p, hpos, hearlier, hp, h.later _ hpos hearlier ▸ hlt⟩

theorem isRepeated_iff : IsRepeated ps i ↔ seen.contains p.pid.val = true := by
  rw [Std.TreeSet.contains_iff_mem, h.mem_iff]
  constructor
  · rintro ⟨j, earlier, q, hlt, hearlier, hq, hpid⟩
    rw [hp, Option.some.injEq] at hq
    subst hq
    exact ⟨j, earlier, hlt, hearlier, congrArg Pid.val hpid⟩
  · rintro ⟨j, earlier, hlt, hearlier, hpid⟩
    exact ⟨j, earlier, p, hlt, hearlier, hp, congrArg Pid.mk hpid⟩

omit h in
theorem hasNoWork_iff : HasNoWork ps i ↔ p.burst = 0 := by
  constructor
  · rintro ⟨q, hq, hburst⟩
    rw [hp, Option.some.injEq] at hq
    rwa [hq]
  · exact fun hburst => ⟨p, hp, hburst⟩

theorem violationAt_eq_of_named (hnamed : NamedAt ps i violation) :
    violationAt seen previous i p = some violation := by
  unfold violationAt
  cases hnamed with
  | early hpos hearlier hq hlt =>
    rw [hp, Option.some.injEq] at hq
    rw [h.later _ hpos hearlier, hq, if_pos hlt]
  | noWork hnot hq hburst =>
    rw [hp, Option.some.injEq] at hq
    rw [if_neg (mt (h.arrivesEarly_iff hp).2 hnot), hq, if_pos hburst]
  | repeated hnot hwork hq hrepeated =>
    rw [if_neg (mt (h.arrivesEarly_iff hp).2 hnot), if_neg (mt (hasNoWork_iff hp).2 hwork),
      if_pos ((h.isRepeated_iff hp).1 hrepeated)]
    rw [hp, Option.some.injEq] at hq
    rw [hq]

theorem violationAt_eq_none (hnot : ¬ BrokenAt ps i) : violationAt seen previous i p = none := by
  have hearly := mt (fun hlt => .inl ((h.arrivesEarly_iff hp).2 hlt)) hnot
  have hwork := mt (fun hburst => .inr (.inl ((hasNoWork_iff hp).2 hburst))) hnot
  have hrepeated := mt (fun hseen => .inr (.inr ((h.isRepeated_iff hp).2 hseen))) hnot
  rw [violationAt, if_neg hearly, if_neg hwork, if_neg hrepeated]

/-- The check of one process names what is to be named of its position. -/
theorem violationAt_eq_some_iff :
    violationAt seen previous i p = some violation ↔ NamedAt ps i violation := by
  refine ⟨fun hfound => ?_, h.violationAt_eq_of_named hp⟩
  have hbroken : BrokenAt ps i := by
    apply Classical.byContradiction
    intro hnot
    rw [h.violationAt_eq_none hp hnot] at hfound
    cases hfound
  obtain ⟨named, hnamed⟩ := hbroken.exists_named
  rw [h.violationAt_eq_of_named hp hnamed, Option.some.injEq] at hfound
  exact hfound ▸ hnamed

omit hp in
/-- The check of the rest of a list names what is to be named of the first position there that
breaks the contract. -/
theorem firstViolation_eq_some_iff :
    firstViolation seen previous i (ps.drop i) = some violation ↔
      ∃ k, i ≤ k ∧ (∀ j, i ≤ j → j < k → ¬ BrokenAt ps j) ∧ NamedAt ps k violation := by
  -- by induction on what is left of the list; the arguments of the check go along with the position
  generalize hrest : ps.drop i = rest
  induction rest generalizing i seen previous with
  | nil =>
    refine iff_of_false (Option.some_ne_none _).symm ?_
    rintro ⟨k, hle, _, hnamed⟩
    have hlt := hnamed.broken.lt_length
    have hlength := List.drop_eq_nil_iff.1 hrest
    omega
  | cons p rest ih =>
    have hp : ps[i]? = some p := by
      rw [← Nat.add_zero i, ← List.getElem?_drop, hrest, List.getElem?_cons_zero]
    have hlater : ps.drop (i + 1) = rest := by
      rw [← List.drop_drop, hrest, List.drop_one, List.tail_cons]
    unfold firstViolation
    cases hfound : violationAt seen previous i p with
    | some found =>
      have hnamed := (h.violationAt_eq_some_iff hp).1 hfound
      change some found = some violation ↔ _
      rw [← hfound, h.violationAt_eq_some_iff hp]
      constructor
      · intro hnamed'
        exact ⟨i, Nat.le_refl i, fun j hge hlt => absurd hge (Nat.not_le_of_lt hlt), hnamed'⟩
      · rintro ⟨k, hle, hfirst, hnamed'⟩
        rcases Nat.lt_or_eq_of_le hle with hlt | rfl
        · exact absurd hnamed.broken (hfirst i (Nat.le_refl i) hlt)
        · exact hnamed'
    | none =>
      have hnot : ¬ BrokenAt ps i := by
        intro hbroken
        obtain ⟨named, hnamed⟩ := hbroken.exists_named
        rw [h.violationAt_eq_of_named hp hnamed] at hfound
        cases hfound
      change firstViolation _ _ _ rest = some violation ↔ _
      rw [ih (h.next hp) hlater]
      constructor
      · rintro ⟨k, hle, hfirst, hnamed⟩
        refine ⟨k, Nat.le_of_succ_le hle, fun j hge hlt => ?_, hnamed⟩
        rcases Nat.lt_or_eq_of_le hge with hgt | rfl
        · exact hfirst j hgt hlt
        · exact hnot
      · rintro ⟨k, hle, hfirst, hnamed⟩
        rcases Nat.lt_or_eq_of_le hle with hlt | rfl
        · exact ⟨k, hlt, fun j hge => hfirst j (Nat.le_of_succ_le hge), hnamed⟩
        · exact absurd hnamed.broken hnot

end Scanned

/-- In a list, the check finds what is to be named of the first position that breaks the
contract. -/
theorem firstViolation_eq_some_iff_named :
    firstViolation ∅ 0 0 ps = some violation ↔
      ∃ i, (∀ j < i, ¬ BrokenAt ps j) ∧ NamedAt ps i violation := by
  have hscan : firstViolation ∅ 0 0 (ps.drop 0) = some violation ↔ _ :=
    (Scanned.start ps).firstViolation_eq_some_iff
  rw [List.drop_zero] at hscan
  simpa only [Nat.zero_le, true_and, forall_const] using hscan

theorem firstViolation_eq_none_iff_not_broken :
    firstViolation ∅ 0 0 ps = none ↔ ∀ i, ¬ BrokenAt ps i := by
  constructor
  · intro hnone i
    induction i using Nat.strongRecOn with
    | ind i ih =>
      intro hbroken
      obtain ⟨violation, hnamed⟩ := hbroken.exists_named
      rw [firstViolation_eq_some_iff_named.2 ⟨i, ih, hnamed⟩] at hnone
      cases hnone
  · intro hnot
    cases hfound : firstViolation ∅ 0 0 ps with
    | none => rfl
    | some violation =>
      obtain ⟨i, _, hnamed⟩ := firstViolation_eq_some_iff_named.1 hfound
      exact absurd hnamed.broken (hnot i)

/-- No position breaks the contract exactly if the arrivals never decrease, all processes have work
to do and no identifier comes twice. -/
theorem not_broken_iff :
    (∀ i, ¬ BrokenAt ps i) ↔ ps.Pairwise (fun p later => p.arrival ≤ later.arrival) ∧
      (∀ p ∈ ps, 0 < p.burst) ∧ ps.Pairwise (fun p later => p.pid ≠ later.pid) := by
  rw [← firstViolation_eq_none_iff_not_broken, firstViolation_eq_none_iff]
  constructor
  · rintro ⟨hall, hsorted, hdistinct⟩
    exact ⟨hsorted, fun p hp => (hall p hp).2.1, hdistinct⟩
  · rintro ⟨hsorted, hburst, hdistinct⟩
    exact ⟨fun p hp => ⟨UInt64.zero_le, hburst p hp, Std.TreeSet.not_mem_emptyc⟩, hsorted,
      hdistinct⟩

/-- Why a list is refused under a configuration: the quantum is `0`, or else the list is empty, or
else some process breaks the contract, and then the first one that does is looked at. -/
inductive Refused (ps : ProcessList) (config : Config) : Violation → Prop where
  | quantum : config.quantum = 0 → Refused ps config (.invalidQuantum 0)
  | empty : config.quantum ≠ 0 → ps = [] → Refused ps config .emptyProcessSet
  | process {i : Nat} {violation : Violation} : config.quantum ≠ 0 →
      (∀ j < i, ¬ BrokenAt ps j) → NamedAt ps i violation → Refused ps config violation

end Contract

namespace Simulation

open Contract

variable {ps : ProcessList} {config : Config} {violation : Violation} {s : Simulation}

/-- A simulation before its first step: the clock shows `0`, nothing is queued or running, and there
is one unarrived job for each process, in the order of the list. -/
structure Fresh (ps : ProcessList) (s : Simulation) : Prop where
  now : s.now = 0
  queue : s.queue = []
  members : ∀ i, s.machine.ready.contains i = false
  free : s.machine.current = none
  finished : s.machine.finished = 0
  admitted : s.admitted = 0
  jobs : s.machine.jobs.toList = ps.map fun p => {
    pid := p.pid
    phase := .unarrived
    arrival := p.arrival
    burst := p.burst
    remaining := p.burst
    waiting := 0
    response := none
    cpuTime := 0
    dispatches := 0
    completion := none }

theorem fresh_of_start (h : start ps config = .ok s) : s.Fresh ps := by
  obtain ⟨_, _, rfl⟩ := start_eq_ok_iff.1 h
  exact {
    now := rfl
    queue := rfl
    members := fun _ => Std.TreeSet.contains_emptyc
    free := rfl
    finished := rfl
    admitted := rfl
    jobs := rfl }

/-- A simulation is refused for the reasons there are, and for the first of them. -/
theorem start_eq_error_iff_refused :
    start ps config = .error violation ↔ Refused ps config violation := by
  by_cases hquantum : config.quantum = 0
  · rw [start, dif_neg (by rw [hquantum]; exact UInt64.lt_irrefl 0), Except.error.injEq, hquantum]
    constructor
    · rintro rfl
      exact .quantum hquantum
    · intro hrefused
      cases hrefused with
      | quantum => rfl
      | empty hpos => exact absurd hquantum hpos
      | process hpos => exact absurd hquantum hpos
  · rw [start_eq_error_iff (UInt64.pos_iff_ne_zero.2 hquantum)]
    cases ps with
    | nil =>
      change some Violation.emptyProcessSet = some violation ↔ _
      rw [Option.some.injEq]
      constructor
      · rintro rfl
        exact .empty hquantum rfl
      · intro hrefused
        cases hrefused with
        | quantum hzero => exact absurd hzero hquantum
        | empty => rfl
        | process _ _ hnamed => exact absurd hnamed.broken.lt_length (Nat.not_lt_zero _)
    | cons p rest =>
      change firstViolation ∅ 0 0 (p :: rest) = some violation ↔ _
      rw [firstViolation_eq_some_iff_named]
      constructor
      · rintro ⟨i, hfirst, hnamed⟩
        exact .process hquantum hfirst hnamed
      · intro hrefused
        cases hrefused with
        | quantum hzero => exact absurd hzero hquantum
        | empty _ hnil => cases hnil
        | process _ hfirst hnamed => exact ⟨_, hfirst, hnamed⟩

/-- A simulation starts exactly from a positive quantum and a list that is not empty and in which no
process breaks the contract. -/
theorem exists_start_iff :
    (∃ s, start ps config = .ok s) ↔
      config.quantum ≠ 0 ∧ ps ≠ [] ∧ ∀ i, ¬ BrokenAt ps i := by
  simp only [start_eq_ok_iff, not_broken_iff]
  constructor
  · rintro ⟨_, hpos, hk, _⟩
    exact ⟨UInt64.pos_iff_ne_zero.1 hpos, hk.ne_nil, hk.sorted, hk.burst_pos, hk.distinct⟩
  · rintro ⟨hquantum, hne, hsorted, hburst, hdistinct⟩
    exact ⟨_, UInt64.pos_iff_ne_zero.2 hquantum, ⟨hne, hsorted, hburst, hdistinct⟩, rfl⟩

/-- A list and a configuration are either refused, for a zero quantum before an empty list and for
that before the first process that breaks the contract, or accepted, and then the simulation is
fresh. A list is free of such processes exactly if its arrivals never decrease, its bursts are
positive and its identifiers are distinct. -/
theorem start_decides (ps : ProcessList) (config : Config) :
    (∀ violation, start ps config = .error violation ↔ Refused ps config violation) ∧
    ((∃ s, start ps config = .ok s) ↔
      config.quantum ≠ 0 ∧ ps ≠ [] ∧ ∀ i, ¬ BrokenAt ps i) ∧
    ((∀ i, ¬ BrokenAt ps i) ↔ ps.Pairwise (fun p later => p.arrival ≤ later.arrival) ∧
      (∀ p ∈ ps, 0 < p.burst) ∧ ps.Pairwise (fun p later => p.pid ≠ later.pid)) ∧
    ∀ s, start ps config = .ok s → s.Fresh ps :=
  ⟨fun _ => start_eq_error_iff_refused, exists_start_iff, not_broken_iff,
    fun _ => fresh_of_start⟩

/-- A list with three violations at one position, and with another one behind it: the early arrival
is named. -/
example :
    start [⟨⟨1⟩, 5, 2⟩, ⟨⟨1⟩, 3, 0⟩, ⟨⟨2⟩, 9, 0⟩] { quantum := 1, checks := true } =
      .error (.unsortedArrivals 1 ⟨1⟩ 3 5) :=
  rfl

end Simulation

end RoundRobin
