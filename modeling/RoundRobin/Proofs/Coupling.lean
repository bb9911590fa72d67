import RoundRobin.Proofs.Workload

/-!
# Workloads of the same draws

How far the draws have come at a tick depends on the arrivals at the ticks before it and on nothing
else. Workloads that share their source and the chance of an arrival therefore ask for the same
draws at every tick: more ticks only add later processes (`ticksFrom_add`, `Extends`), and other
bursts or another chance of a short one change bursts only (`Coupled`). Main statement:
`generate_coupled`.
-/

namespace RoundRobin

/-- Two processes have the same identifier and arrive at the same instant. -/
structure Process.ArrivesLike (p p' : Process) : Prop where
  pid : p'.pid = p.pid
  arrival : p'.arrival = p.arrival

namespace Workload

variable {w w' : Workload} {source : Random.Source} {p p' next : Progress} {time : Ticks}
  {count : Nat} {fit : Ticks → Ticks → Prop}

/-- The burst of a process that arrives, by the draw at a position. -/
def burstAt (w : Workload) (source : Random.Source) (position : Nat) : Ticks :=
  if source position w.shortChance then w.short else w.long

/-- Two workloads in the making have made as many draws, and have the same processes except that
their bursts are only known to fit each other. -/
structure Coupled (fit : Ticks → Ticks → Prop) (p p' : Progress) : Prop where
  drawn : p'.drawn = p.drawn
  processes : List.Forall₂ (fun q q' => q.ArrivesLike q' ∧ fit q.burst q'.burst)
    p.processes.toList p'.processes.toList

/-- Later processes have been added, all of which arrive at an instant or after it. -/
def Extends (time : Ticks) (p p' : Progress) : Prop :=
  ∃ later, p'.processes.toList = p.processes.toList ++ later ∧ ∀ q ∈ later, time ≤ q.arrival

theorem Coupled.nextPid_eq (h : Coupled fit p p') : nextPid p'.processes = nextPid p.processes := by
  have hlength := h.processes.length_eq
  rw [Array.length_toList, Array.length_toList] at hlength
  rw [nextPid, nextPid, hlength]

/-- At one tick, the same happens in both workloads, apart from the burst. -/
theorem Coupled.tick (h : Coupled fit p p') (hchance : w'.arrivalChance = w.arrivalChance)
    (hfit : ∀ position, fit (w.burstAt source position) (w'.burstAt source position))
    (hnext : w.tick source time p = .ok next) :
    ∃ next', w'.tick source time p' = .ok next' ∧ Coupled fit next next' := by
  unfold Workload.tick at hnext ⊢
  rw [h.drawn, hchance, h.nextPid_eq]
  by_cases harrives : source p.drawn w.arrivalChance = true
  · rw [if_pos harrives] at hnext ⊢
    obtain ⟨pid, hpid, hnext⟩ := Fault.bind_eq_ok_iff.1 hnext
    cases hnext
    rw [hpid]
    refine ⟨_, rfl, rfl, ?_⟩
    rw [Array.toList_push, Array.toList_push]
    exact List.rel_append h.processes (.cons ⟨⟨rfl, rfl⟩, hfit _⟩ .nil)
  · rw [if_neg harrives] at hnext ⊢
    cases hnext
    exact ⟨_, rfl, rfl, h.processes⟩

theorem Coupled.ticksFrom (h : Coupled fit p p') (hchance : w'.arrivalChance = w.arrivalChance)
    (hfit : ∀ position, fit (w.burstAt source position) (w'.burstAt source position))
    (hnext : w.ticksFrom source time p count = .ok next) :
    ∃ next', w'.ticksFrom source time p' count = .ok next' ∧ Coupled fit next next' := by
  induction count generalizing time p p' with
  | zero =>
    cases hnext
    exact ⟨p', rfl, h⟩
  | succ count ih =>
    obtain ⟨mid, htick, hrest⟩ := Fault.bind_eq_ok_iff.1 hnext
    obtain ⟨mid', htick', hmid⟩ := h.tick hchance hfit htick
    rw [Workload.ticksFrom, htick']
    exact ih hmid hrest

/-- At a tick, no process is added but one that arrives then. -/
theorem extends_of_tick (h : w.tick source time p = .ok next) : Extends time p next := by
  unfold tick at h
  split at h
  · obtain ⟨pid, _, h⟩ := Fault.bind_eq_ok_iff.1 h
    cases h
    exact ⟨_, Array.toList_push, List.forall_mem_singleton.2 (UInt64.le_refl time)⟩
  · cases h
    exact ⟨[], (List.append_nil _).symm, List.forall_mem_nil _⟩

/-- Ticks only add processes that arrive at them. -/
theorem extends_of_ticksFrom (h : w.ticksFrom source time p count = .ok next)
    (hclock : time.toNat + count < UInt64.size) : Extends time p next := by
  induction count generalizing time p with
  | zero =>
    cases h
    exact ⟨[], (List.append_nil _).symm, List.forall_mem_nil _⟩
  | succ count ih =>
    obtain ⟨mid, htick, hrest⟩ := Fault.bind_eq_ok_iff.1 h
    have hthen : (time + 1).toNat = time.toNat + 1 :=
      Word.toNat_add_of_lt (by rw [UInt64.toNat_one]; omega)
    obtain ⟨first, hmid, hfirst⟩ := extends_of_tick htick
    obtain ⟨later, hlast, hlater⟩ := ih hrest (by omega)
    refine ⟨first ++ later, by rw [hlast, hmid, List.append_assoc],
      List.forall_mem_append.2 ⟨hfirst, fun q hq => UInt64.le_trans ?_ (hlater q hq)⟩⟩
    rw [UInt64.le_iff_toNat_le, hthen]
    exact Nat.le_succ _

/-- Ticks may be taken in two parts. -/
theorem ticksFrom_add (w : Workload) (source : Random.Source) (time : Ticks) (p : Progress)
    (m k : Nat) :
    w.ticksFrom source time p (m + k) =
      w.ticksFrom source time p m >>= fun mid =>
        w.ticksFrom source (time + UInt64.ofNat m) mid k := by
  induction m generalizing time p with
  | zero =>
    rw [Nat.zero_add]
    change _ = w.ticksFrom source (time + 0) p k
    rw [UInt64.add_zero]
  | succ m ih =>
    rw [Nat.add_right_comm, ticksFrom, ticksFrom, bind_assoc]
    refine bind_congr fun mid => ?_
    rw [ih, UInt64.add_assoc, UInt64.add_comm 1, UInt64.ofNat_add]
    rfl

/-- How many ticks there are in all does not matter to a tick. -/
theorem ticksFrom_withTicks (w : Workload) (source : Random.Source) (ticks time : Ticks)
    (p : Progress) (count : Nat) :
    { w with ticks }.ticksFrom source time p count = w.ticksFrom source time p count := by
  induction count generalizing time p with
  | zero => rfl
  | succ count ih =>
    rw [ticksFrom, ticksFrom]
    exact bind_congr fun mid => ih (time + 1) mid

theorem ofSource_eq_ok_iff {ps : ProcessList} : w.ofSource source = .ok ps ↔
    ∃ last, w.ticksFrom source 0 {} w.ticks.toNat = .ok last ∧ last.processes.toList = ps := by
  rw [ofSource, Fault.bind_eq_ok_iff]
  exact exists_congr fun last => and_congr_right fun _ => Fault.pure_eq_ok_iff

/-- The processes of the first ticks are those of all ticks that arrive by then. -/
theorem ofSource_withTicks (hsource : source.Proper) {ps : ProcessList}
    (hps : w.ofSource source = .ok ps) (hticks : w.ticks.toNat < UInt32.size) {m : Ticks}
    (hm : m ≤ w.ticks) :
    { w with ticks := m }.ofSource source = .ok (ps.filter (·.arrival < m)) ∧
      ps.filter (·.arrival < m) <+: ps := by
  obtain ⟨last, hlast, rfl⟩ := ofSource_eq_ok_iff.1 hps
  have hle := UInt64.le_iff_toNat_le.1 hm
  have hclock : UInt32.size < UInt64.size := by decide
  rw [← Nat.add_sub_cancel' hle, ticksFrom_add, Fault.bind_eq_ok_iff] at hlast
  obtain ⟨mid, hmid, hrest⟩ := hlast
  rw [UInt64.ofNat_toNat, UInt64.zero_add] at hrest
  obtain ⟨first, hfirst, hfits⟩ := ticksFrom_fits (w := w) hsource {} 0 m.toNat Fits.nil rfl
    (by rw [Nat.zero_add]; omega)
  rw [hmid, Except.ok.injEq] at hfirst
  subst hfirst
  obtain ⟨later, heq, hlater⟩ := extends_of_ticksFrom hrest (by omega)
  -- the test on the arrival tells the two parts of the list from each other
  have hearly : mid.processes.toList.filter (·.arrival < m) = mid.processes.toList := by
    rw [List.filter_eq_self]
    intro q hq
    have hlt := hfits.arrival_lt q hq
    rw [Nat.zero_add] at hlt
    exact decide_eq_true (UInt64.lt_iff_toNat_lt.2 hlt)
  have hlate : later.filter (·.arrival < m) = [] := by
    rw [List.filter_eq_nil_iff]
    intro q hq
    rw [decide_eq_true_iff]
    exact UInt64.not_lt.2 (hlater q hq)
  rw [heq, List.filter_append, hearly, hlate, List.append_nil]
  refine ⟨ofSource_eq_ok_iff.2 ⟨mid, ?_, rfl⟩, List.prefix_append _ _⟩
  rw [ticksFrom_withTicks]
  exact hmid

/-- Workloads that share the ticks and the chance of an arrival have the same processes, except that
their bursts are only known to fit each other. -/
theorem ofSource_coupled (fit : Ticks → Ticks → Prop) {ps : ProcessList}
    (hps : w.ofSource source = .ok ps) (w' : Workload) (hticks : w'.ticks = w.ticks)
    (hchance : w'.arrivalChance = w.arrivalChance)
    (hfit : ∀ position, fit (w.burstAt source position) (w'.burstAt source position)) :
    ∃ ps', w'.ofSource source = .ok ps' ∧
      List.Forall₂ (fun q q' => q.ArrivesLike q' ∧ fit q.burst q'.burst) ps ps' := by
  obtain ⟨last, hlast, rfl⟩ := ofSource_eq_ok_iff.1 hps
  have hnothing : Coupled fit {} {} := ⟨rfl, .nil⟩
  obtain ⟨last', hlast', hcoupled⟩ := hnothing.ticksFrom hchance hfit hlast
  exact ⟨_, ofSource_eq_ok_iff.2 ⟨last', hticks ▸ hlast', rfl⟩, hcoupled.processes⟩

/-- With a greater chance of a short burst, a burst that was short is short again. -/
theorem burstAt_short (hsource : source.Monotone) {shortChance : Float}
    (hle : w.shortChance ≤ shortChance) {position : Nat}
    (hshort : w.burstAt source position = w.short) :
    { w with shortChance }.burstAt source position = w.short := by
  unfold burstAt at hshort ⊢
  by_cases hdraw : source position w.shortChance = true
  · exact if_pos (hsource position _ _ hle hdraw)
  · rw [if_neg hdraw] at hshort
    change (if _ then w.short else w.long) = w.short
    rw [hshort, ite_self]

/-- The workloads that are made of one source of draws agree with `w`, which has the processes `ps`.
The one for the first ticks has the processes that arrive by then, and they are in front. Another
chance of a short burst and other bursts change neither identifiers nor arrivals, and with a greater
chance no short burst becomes a long one. -/
structure SharesDraws (w : Workload) (make : Workload → Except Fault ProcessList)
    (ps : ProcessList) : Prop where
  made : make w = .ok ps
  first : ∀ m ≤ w.ticks, make { w with ticks := m } = .ok (ps.filter (·.arrival < m)) ∧
    ps.filter (·.arrival < m) <+: ps
  alike : ∀ shortChance short long, ∃ ps', make { w with shortChance, short, long } = .ok ps' ∧
    List.Forall₂ Process.ArrivesLike ps ps'
  short : ∀ shortChance, w.shortChance ≤ shortChance → ∃ ps',
    make { w with shortChance } = .ok ps' ∧
      List.Forall₂ (fun p p' => p.ArrivesLike p' ∧ (p.burst = w.short → p'.burst = w.short)) ps ps'

theorem sharesDraws_ofSource (hticks : w.ticks.toNat < UInt32.size) (hproper : source.Proper)
    (hmonotone : source.Monotone) : ∃ ps, w.SharesDraws (·.ofSource source) ps := by
  obtain ⟨ps, hps, _⟩ := yields_ofSource hticks hproper
  refine ⟨ps, hps, fun m hm => ofSource_withTicks hproper hps hticks hm, ?_, ?_⟩
  · intro shortChance short long
    obtain ⟨ps', hps', hcoupled⟩ := ofSource_coupled (fun _ _ => True) hps
      { w with shortChance, short, long } rfl rfl fun _ => trivial
    exact ⟨ps', hps', hcoupled.imp fun _ _ halike => halike.1⟩
  · intro shortChance hle
    exact ofSource_coupled (fun burst burst' => burst = w.short → burst' = w.short) hps
      { w with shortChance } rfl rfl fun _ => burstAt_short hmonotone hle

/-- Workloads for up to `2 ^ 32 - 1` ticks that are made of the same draws agree, whatever proper
and monotone source the draws are from. So do those of one seed. -/
theorem generate_coupled (w : Workload) (hticks : w.ticks.toNat < UInt32.size) :
    (∀ source : Random.Source, source.Proper → source.Monotone →
      ∃ ps, w.SharesDraws (·.ofSource source) ps) ∧
    ∀ seed, ∃ ps, w.SharesDraws (·.generate seed) ps :=
  ⟨fun _ hproper hmonotone => sharesDraws_ofSource hticks hproper hmonotone,
    fun seed => sharesDraws_ofSource hticks (Random.Source.proper_ofSeed seed)
      (Random.Source.monotone_ofSeed seed)⟩

/-- A workload that leaves everything to chance. -/
def evenChances : Workload where
  ticks := 6
  arrivalChance := 0.5
  shortChance := 0.25
  short := 1
  long := 4

/-- Draws that go round the eighths in steps of five. -/
def eighths : Random.Source :=
  fun position => (Random.Draw.mk (5 * position % 8 * 0x4000000000000) (by omega)).isBelow

theorem generate_coupled_evenChances :
    evenChances.ticks.toNat < UInt32.size ∧ eighths.Proper ∧ eighths.Monotone ∧
      (3 : Ticks) ≤ evenChances.ticks ∧ evenChances.shortChance ≤ 0.75 ∧
      (∃ ps, evenChances.SharesDraws (·.ofSource eighths) ps ∧
        ps.map (fun p => (p.arrival, p.burst)) = [(0, 4), (1, 4), (3, 4), (4, 1)]) ∧
      ∃ ps, evenChances.generate 11 = .ok ps ∧
        { evenChances with ticks := 3 }.generate 11 = .ok (ps.filter (·.arrival < 3)) ∧
        ps.filter (·.arrival < 3) <+: ps ∧
        (∃ ps', { evenChances with shortChance := 0.75, short := 2, long := 9 }.generate 11 =
          .ok ps' ∧ List.Forall₂ Process.ArrivesLike ps ps') ∧
        ∃ ps', { evenChances with shortChance := 0.75 }.generate 11 = .ok ps' ∧
          List.Forall₂ (fun p p' => p.ArrivesLike p' ∧ (p.burst = 1 → p'.burst = 1)) ps ps' := by
  have hticks : evenChances.ticks.toNat < UInt32.size := by decide
  have hproper : eighths.Proper := Random.Source.proper_ofDraws _
  have hmonotone : eighths.Monotone := Random.Source.monotone_ofDraws _
  have hm : (3 : Ticks) ≤ evenChances.ticks := by decide
  have hle : evenChances.shortChance ≤ 0.75 := by decide +kernel
  obtain ⟨hsource, hseed⟩ := generate_coupled evenChances hticks
  obtain ⟨qs, hqs⟩ := hsource eighths hproper hmonotone
  obtain ⟨drawn, hdrawn, hfour⟩ : ∃ drawn, evenChances.ofSource eighths = .ok drawn ∧
      drawn.map (fun p => (p.arrival, p.burst)) = [(0, 4), (1, 4), (3, 4), (4, 1)] :=
    ⟨_, rfl, by decide +kernel⟩
  obtain rfl := Except.ok.inj (hdrawn.symm.trans hqs.made)
  obtain ⟨ps, hps⟩ := hseed 11
  obtain ⟨hless, hprefix⟩ := hps.first 3 hm
  exact ⟨hticks, hproper, hmonotone, hm, hle, ⟨drawn, hqs, hfour⟩, ps, hps.made, hless, hprefix,
    hps.alike 0.75 2 9, hps.short 0.75 hle⟩

end Workload

end RoundRobin
