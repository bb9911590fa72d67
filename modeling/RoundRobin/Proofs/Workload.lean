import RoundRobin.Workload
import RoundRobin.Proofs.Contract
import RoundRobin.Proofs.Draw
import Mathlib.Data.List.Perm.Subperm

/-!
# Random workloads as input

Whatever is drawn, a workload of fewer than `2 ^ 32` ticks is generated without a fault, and a
simulation takes it unless no process arrived (`yields_of_lt_size`). The induction is on the ticks:
`Fits` says what the processes of the first `t` ticks are like, and one more tick keeps it, whether
a process arrives (`Fits.arrive`) or not (`Fits.pass`). As no two processes arrive at one tick,
there are never more of them than ticks, so their numbers do not run out.
-/

namespace RoundRobin.Workload

variable {w : Workload} {ps : ProcessList} {t : Nat} {source : Random.Source}

/-- What the processes of the first `t` ticks are like: they arrive one after the other, they are
numbered from `1`, and there is one at every tick or none at all if the chance leaves no choice. -/
structure Fits (w : Workload) (t : Nat) (ps : ProcessList) : Prop where
  arrivals : ps.Pairwise fun p later => p.arrival < later.arrival
  arrival_lt : ∀ p ∈ ps, p.arrival.toNat < t
  pids : ps.map (·.pid.val.toNat) = List.range' 1 ps.length
  bursts : ∀ p ∈ ps, p.burst = w.short ∨ p.burst = w.long
  certain : 1 ≤ w.arrivalChance → ps.map (·.arrival.toNat) = List.range t
  impossible : w.arrivalChance ≤ 0 ∨ w.arrivalChance.isNaN → ps = []

namespace Fits

/-- There are no more processes than ticks. -/
theorem length_le (h : w.Fits t ps) : ps.length ≤ t := by
  have hnodup : (ps.map (·.arrival.toNat)).Nodup :=
    List.pairwise_map.2 (h.arrivals.imp fun hlt => Nat.ne_of_lt (UInt64.lt_iff_toNat_lt.1 hlt))
  have hticks : ps.map (·.arrival.toNat) ⊆ List.range t := by
    intro a ha
    obtain ⟨p, hp, rfl⟩ := List.mem_map.1 ha
    exact List.mem_range.2 (h.arrival_lt p hp)
  have hle := (hnodup.subperm hticks).length_le
  rwa [List.length_map, List.length_range] at hle

/-- Nothing happens before the first tick. -/
theorem nil : w.Fits 0 [] where
  arrivals := List.Pairwise.nil
  arrival_lt := List.forall_mem_nil _
  pids := rfl
  bursts := List.forall_mem_nil _
  certain _ := rfl
  impossible _ := rfl

/-- At a tick at which a process may not have arrived, none has. -/
theorem pass (h : w.Fits t ps) (hchance : ¬ 1 ≤ w.arrivalChance) : w.Fits (t + 1) ps where
  arrivals := h.arrivals
  arrival_lt p hp := Nat.lt_succ_of_lt (h.arrival_lt p hp)
  pids := h.pids
  bursts := h.bursts
  certain hcertain := absurd hcertain hchance
  impossible := h.impossible

/-- At a tick at which a process may have arrived, the next one has. -/
theorem arrive (h : w.Fits t ps) {p : Process}
    (hchance : ¬ (w.arrivalChance ≤ 0 ∨ w.arrivalChance.isNaN)) (harrival : p.arrival.toNat = t)
    (hpid : p.pid.val.toNat = ps.length + 1) (hburst : p.burst = w.short ∨ p.burst = w.long) :
    w.Fits (t + 1) (ps ++ [p]) where
  arrivals := by
    refine List.pairwise_append.2 ⟨h.arrivals, List.pairwise_singleton _ _, fun q hq => ?_⟩
    rw [List.forall_mem_singleton, UInt64.lt_iff_toNat_lt, harrival]
    exact h.arrival_lt q hq
  arrival_lt := List.forall_mem_append.2
    ⟨fun q hq => Nat.lt_succ_of_lt (h.arrival_lt q hq),
      List.forall_mem_singleton.2 (harrival ▸ Nat.lt_succ_self _)⟩
  pids := by
    rw [List.map_append, h.pids, List.length_append, List.length_singleton,
      List.range'_concat, List.map_singleton, hpid, Nat.one_mul, Nat.add_comm 1]
  bursts := List.forall_mem_append.2 ⟨h.bursts, List.forall_mem_singleton.2 hburst⟩
  certain hcertain := by
    rw [List.map_append, h.certain hcertain, List.map_singleton, harrival, List.range_succ]
  impossible himpossible := absurd himpossible hchance

/-- With bursts that are positive, only the contract's demand for a process is left. -/
theorem kept_iff (h : w.Fits t ps) (hshort : 0 < w.short) (hlong : 0 < w.long) :
    Contract.Kept ps ↔ ps ≠ [] := by
  refine ⟨fun hk => hk.ne_nil, fun hne => ⟨hne, ?_, ?_, ?_⟩⟩
  · exact h.arrivals.imp fun hlt => UInt64.le_of_lt hlt
  · intro p hp
    rcases h.bursts p hp with hburst | hburst
    · rwa [hburst]
    · rwa [hburst]
  · have hnodup : (ps.map (·.pid.val.toNat)).Nodup := h.pids ▸ List.nodup_range'
    exact (List.pairwise_map.1 hnodup).imp fun hne hpid => hne (by rw [hpid])

end Fits

/-- There is a number for the next process, the one after those given out, as long as they are
fewer than the last 32-bit word. -/
theorem exists_nextPid (processes : Array Process) (h : processes.size + 1 < UInt32.size) :
    ∃ pid, nextPid processes = .ok pid ∧ pid.val.toNat = processes.size + 1 := by
  have hcount : (UInt32.ofNat processes.size).toNat = processes.size :=
    UInt32.toNat_ofNat_of_lt' (Nat.lt_of_succ_lt h)
  have hlast : UInt32.ofNat processes.size ≠ 0xFFFFFFFF := by
    rw [ne_eq, ← UInt32.toNat_inj, hcount]
    exact Nat.ne_of_lt (Nat.lt_of_succ_lt_succ h)
  refine ⟨_, if_neg hlast, ?_⟩
  rw [UInt32.toNat_add, hcount]
  exact Nat.mod_eq_of_lt h

/-- One tick goes through, and the processes go on to fit. -/
theorem tick_fits (hsource : source.Proper) {p : Progress} {time : Ticks}
    (h : w.Fits t p.processes.toList) (htime : time.toNat = t) (ht : t + 1 < UInt32.size) :
    ∃ next, w.tick source time p = .ok next ∧ w.Fits (t + 1) next.processes.toList := by
  unfold tick
  split
  · next harrives =>
    have hsize : p.processes.size ≤ t := h.length_le
    obtain ⟨pid, hpid, hval⟩ := exists_nextPid p.processes (by omega)
    rw [hpid]
    refine ⟨_, rfl, ?_⟩
    rw [Array.toList_push]
    refine h.arrive ?_ htime hval ?_
    · intro himpossible
      rw [hsource.impossible _ _ himpossible] at harrives
      cases harrives
    · change (if _ then _ else _) = _ ∨ (if _ then _ else _) = _
      split
      · exact .inl rfl
      · exact .inr rfl
  · next hpasses =>
    exact ⟨_, rfl, h.pass fun hcertain => hpasses (hsource.certain _ _ hcertain)⟩

/-- Any number of ticks goes through. -/
theorem ticksFrom_fits (hsource : source.Proper) (p : Progress) (time : Ticks) (count : Nat)
    (h : w.Fits t p.processes.toList) (htime : time.toNat = t) (ht : t + count < UInt32.size) :
    ∃ last, w.ticksFrom source time p count = .ok last ∧
      w.Fits (t + count) last.processes.toList := by
  induction count generalizing t p time with
  | zero => exact ⟨p, rfl, h⟩
  | succ count ih =>
    obtain ⟨next, htick, hnext⟩ := tick_fits hsource h htime (by omega)
    have hclock : UInt32.size < UInt64.size := by decide
    have hthen : (time + 1).toNat = t + 1 := by
      rw [← htime]
      exact Word.toNat_add_of_lt (by rw [htime, UInt64.toNat_one]; omega)
    obtain ⟨last, hlast, hfits⟩ := ih next (time + 1) hnext hthen (by omega)
    refine ⟨last, ?_, ?_⟩
    · rw [ticksFrom, htick]
      exact hlast
    · rwa [Nat.add_assoc, Nat.add_comm 1] at hfits

/-- There is a workload, it fits, and a simulation with a positive quantum takes it exactly if it
has a process, provided that both bursts are positive. -/
def Yields (w : Workload) (outcome : Except Fault ProcessList) : Prop :=
  ∃ ps, outcome = .ok ps ∧ w.Fits w.ticks.toNat ps ∧
    (0 < w.short → 0 < w.long → ∀ config : Config, 0 < config.quantum →
      ((∃ s, Simulation.start ps config = .ok s) ↔ ps ≠ []))

theorem yields_ofSource (hticks : w.ticks.toNat < UInt32.size) (hsource : source.Proper) :
    w.Yields (w.ofSource source) := by
  obtain ⟨last, hlast, hfits⟩ :=
    ticksFrom_fits hsource {} 0 w.ticks.toNat Fits.nil rfl (by rwa [Nat.zero_add])
  rw [Nat.zero_add] at hfits
  refine ⟨last.processes.toList, ?_, hfits, fun hshort hlong config hquantum => ?_⟩
  · rw [ofSource, hlast]
    rfl
  · rw [← hfits.kept_iff hshort hlong]
    simp only [Simulation.start_eq_ok_iff]
    constructor
    · rintro ⟨_, _, hk, _⟩
      exact hk
    · intro hk
      exact ⟨_, hquantum, hk, rfl⟩

/-- For up to `2 ^ 32 - 1` ticks, any chances and any bursts, the workload that is drawn with
doubles from `0` to below `1`, or from a seed, is a valid input. -/
theorem yields_of_lt_size (w : Workload) (hticks : w.ticks.toNat < UInt32.size) :
    (∀ draw : Nat → Float, (∀ position, 0 ≤ draw position ∧ draw position < 1) →
      w.Yields (w.ofSource (.ofDoubles draw))) ∧
    ∀ seed, w.Yields (w.generate seed) :=
  ⟨fun _ hdraw => yields_ofSource hticks (Random.Source.proper_ofDoubles hdraw),
    fun seed => yields_ofSource hticks (Random.Source.proper_ofSeed seed)⟩

/-- A workload with a process at every tick, which is short or long with even chances. -/
def everyTick : Workload where
  ticks := 3
  arrivalChance := 1
  shortChance := 0.5
  short := 1
  long := 4

theorem yields_everyTick :
    everyTick.ticks.toNat < UInt32.size ∧ (0 ≤ (0.25 : Float) ∧ (0.25 : Float) < 1) ∧
      everyTick.Yields (everyTick.ofSource (.ofDoubles fun _ => 0.25)) ∧
      everyTick.Yields (everyTick.generate 7) := by
  have hticks : everyTick.ticks.toNat < UInt32.size := by decide
  have hdraw : 0 ≤ (0.25 : Float) ∧ (0.25 : Float) < 1 := by decide +kernel
  obtain ⟨hdoubles, hseed⟩ := yields_of_lt_size everyTick hticks
  exact ⟨hticks, hdraw, hdoubles _ fun _ => hdraw, hseed 7⟩

end RoundRobin.Workload
