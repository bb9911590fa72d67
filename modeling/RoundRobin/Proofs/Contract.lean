import RoundRobin.Simulation

/-!
# Accepted process lists

What the contract promises about a list that passes it, and the simulation that an accepted list
starts. Main statements: `check_eq_none_iff` and `start_eq_ok_iff`.
-/

namespace RoundRobin

namespace Contract

/-- The contract of a process list: it is not empty, arrivals never decrease, every process has work
to do, and no identifier comes twice. -/
structure Kept (ps : ProcessList) : Prop where
  ne_nil : ps ≠ []
  sorted : ps.Pairwise (fun p later => p.arrival ≤ later.arrival)
  burst_pos : ∀ p ∈ ps, 0 < p.burst
  distinct : ps.Pairwise (fun p later => p.pid ≠ later.pid)

theorem violationAt_eq_none_iff {seen : Std.TreeSet UInt32} {previous : Ticks} {index : Nat}
    {p : Process} :
    violationAt seen previous index p = none ↔
      previous ≤ p.arrival ∧ 0 < p.burst ∧ p.pid.val ∉ seen := by
  have hburst : 0 < p.burst ↔ ¬ p.burst = 0 := UInt64.pos_iff_ne_zero
  rw [hburst, ← UInt64.not_lt, ← Std.TreeSet.contains_iff_mem]
  unfold violationAt
  split
  · simp_all
  · split
    · simp_all
    · split <;> simp_all

/-- Nothing is found exactly if the rest of the list keeps the contract and goes with what came
before it. -/
theorem firstViolation_eq_none_iff {seen : Std.TreeSet UInt32} {previous : Ticks} {index : Nat}
    {ps : ProcessList} :
    firstViolation seen previous index ps = none ↔
      (∀ p ∈ ps, previous ≤ p.arrival ∧ 0 < p.burst ∧ p.pid.val ∉ seen) ∧
        ps.Pairwise (fun p later => p.arrival ≤ later.arrival) ∧
          ps.Pairwise (fun p later => p.pid ≠ later.pid) := by
  induction ps generalizing seen previous index with
  | nil => simp [firstViolation]
  | cons p rest ih =>
    unfold firstViolation
    cases hp : violationAt seen previous index p with
    | some violation =>
      simp only [reduceCtorEq, List.forall_mem_cons, false_iff]
      intro h
      rw [violationAt_eq_none_iff.2 h.1.1] at hp
      simp at hp
    | none =>
      have hgood := violationAt_eq_none_iff.1 hp
      simp only [ih, List.forall_mem_cons, List.pairwise_cons, Std.TreeSet.mem_insert,
        Std.LawfulEqOrd.compare_eq_iff_eq, not_or]
      constructor
      · rintro ⟨hrest, hsorted, hdistinct⟩
        refine ⟨⟨hgood, fun q hq => ?_⟩, ⟨fun q hq => (hrest q hq).1, hsorted⟩,
          ⟨fun q hq hpid => (hrest q hq).2.2.1 (congrArg Pid.val hpid), hdistinct⟩⟩
        obtain ⟨harrival, hburst, _, hseen⟩ := hrest q hq
        exact ⟨UInt64.le_trans hgood.1 harrival, hburst, hseen⟩
      · rintro ⟨⟨_, hrest⟩, ⟨hsorted, hsorted'⟩, ⟨hdistinct, hdistinct'⟩⟩
        refine ⟨fun q hq => ?_, hsorted', hdistinct'⟩
        obtain ⟨_, hburst, hseen⟩ := hrest q hq
        refine ⟨hsorted q hq, hburst, fun hpid => hdistinct q hq ?_, hseen⟩
        exact congrArg Pid.mk hpid

theorem check_eq_none_iff {ps : ProcessList} : check ps = none ↔ Kept ps := by
  cases ps with
  | nil =>
    simp only [check, List.isEmpty_nil, if_true, reduceCtorEq, false_iff]
    exact fun h => h.ne_nil rfl
  | cons p rest =>
    simp only [check, List.isEmpty_cons, Bool.false_eq_true, if_false, firstViolation_eq_none_iff]
    constructor
    · rintro ⟨hall, hsorted, hdistinct⟩
      exact ⟨List.cons_ne_nil _ _, hsorted, fun q hq => (hall q hq).2.1, hdistinct⟩
    · rintro ⟨_, hsorted, hburst, hdistinct⟩
      refine ⟨fun q hq => ⟨UInt64.zero_le, hburst q hq, ?_⟩, hsorted, hdistinct⟩
      exact Std.TreeSet.not_mem_emptyc

/-- If all processes have work to do, only the order of the arrivals and the identifiers can break
the contract. -/
theorem firstViolation_cases {seen : Std.TreeSet UInt32} {previous : Ticks} {index : Nat}
    {ps : ProcessList} {violation : Violation} (hburst : ∀ p ∈ ps, 0 < p.burst)
    (h : firstViolation seen previous index ps = some violation) :
    (∃ index pid arrival previous, violation = .unsortedArrivals index pid arrival previous) ∨
      ∃ pid, violation = .duplicatePid pid := by
  induction ps generalizing seen previous index with
  | nil => cases h
  | cons p rest ih =>
    rw [List.forall_mem_cons] at hburst
    have hwork : ¬ p.burst = 0 := UInt64.pos_iff_ne_zero.1 hburst.1
    unfold firstViolation violationAt at h
    rw [if_neg hwork] at h
    split at h
    · next hfound =>
      cases h
      split at hfound
      · exact .inl ⟨_, _, _, _, (Option.some.inj hfound).symm⟩
      · split at hfound
        · exact .inr ⟨_, (Option.some.inj hfound).symm⟩
        · cases hfound
    · exact ih hburst.2 h

namespace Kept

variable {ps : ProcessList}

theorem arrival_le (h : Kept ps) {i j : Nat} {p q : Process} (hp : ps[i]? = some p)
    (hq : ps[j]? = some q) (hij : i ≤ j) : p.arrival.toNat ≤ q.arrival.toNat := by
  obtain ⟨hi, rfl⟩ := List.getElem?_eq_some_iff.1 hp
  obtain ⟨hj, rfl⟩ := List.getElem?_eq_some_iff.1 hq
  rcases Nat.lt_or_eq_of_le hij with hlt | rfl
  · exact UInt64.le_iff_toNat_le.1 (List.pairwise_iff_getElem.1 h.sorted i j hi hj hlt)
  · exact Nat.le_refl _

theorem burst_toNat_pos (h : Kept ps) {i : Nat} {p : Process} (hp : ps[i]? = some p) :
    0 < p.burst.toNat :=
  UInt64.lt_iff_toNat_lt.1 (h.burst_pos p (List.mem_of_getElem? hp))

/-- An identifier belongs to one position only. -/
theorem eq_of_pid_eq (h : Kept ps) {i j : Nat} {p q : Process} (hp : ps[i]? = some p)
    (hq : ps[j]? = some q) (hpid : p.pid = q.pid) : i = j := by
  obtain ⟨hi, rfl⟩ := List.getElem?_eq_some_iff.1 hp
  obtain ⟨hj, rfl⟩ := List.getElem?_eq_some_iff.1 hq
  rcases Nat.lt_trichotomy i j with hlt | heq | hgt
  · exact absurd hpid (List.pairwise_iff_getElem.1 h.distinct i j hi hj hlt)
  · exact heq
  · exact absurd hpid.symm (List.pairwise_iff_getElem.1 h.distinct j i hj hi hgt)

end Kept

end Contract

namespace Simulation

/-- A simulation starts exactly from a positive quantum and a list that keeps the contract. -/
theorem start_eq_ok_iff {ps : ProcessList} {config : Config} {s : Simulation} :
    start ps config = .ok s ↔
      ∃ h : 0 < config.quantum, Contract.Kept ps ∧
        s = { scheduler := .start ps config.quantum h config.checks, processes := ps.toArray } := by
  unfold start
  split
  · next hpos =>
    rw [← Contract.check_eq_none_iff]
    split
    · simp_all
    · simp_all [eq_comm]
  · simp_all

/-- With a positive quantum, a simulation is refused for the first violation of the contract. -/
theorem start_eq_error_iff {ps : ProcessList} {config : Config} {violation : Violation}
    (hquantum : 0 < config.quantum) :
    start ps config = .error violation ↔ Contract.check ps = some violation := by
  unfold start
  rw [dif_pos hquantum]
  cases Contract.check ps <;> simp

end Simulation

end RoundRobin
