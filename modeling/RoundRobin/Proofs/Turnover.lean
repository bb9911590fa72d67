import RoundRobin.Proofs.Makespan

/-!
# Between two lists

If a list of processes is done by the time that the first process of a second list arrives, then the
run of both lists comes through a state at just that instant in which all processes of the first
list have finished and none of the second has been let in (`exists_turnover`). It makes no
difference whether a gap leads there or the last slice of the first list ends there.
-/

namespace RoundRobin

section Lists

variable {ps us : ProcessList} {first : Process} {rest : ProcessList}

namespace Contract.Kept

theorem left (h : Kept (ps ++ us)) (hne : ps ≠ []) : Kept ps where
  ne_nil := hne
  sorted := (List.pairwise_append.1 h.sorted).1
  burst_pos p hp := h.burst_pos p (List.mem_append_left us hp)
  distinct := (List.pairwise_append.1 h.distinct).1

theorem right (h : Kept (ps ++ us)) (hne : us ≠ []) : Kept us where
  ne_nil := hne
  sorted := (List.pairwise_append.1 h.sorted).2.1
  burst_pos p hp := h.burst_pos p (List.mem_append_right ps hp)
  distinct := (List.pairwise_append.1 h.distinct).2.1

theorem first_arrival_le (h : Kept (first :: rest)) :
    ∀ p ∈ first :: rest, first.arrival.toNat ≤ p.arrival.toNat := by
  rw [List.forall_mem_cons]
  refine ⟨Nat.le_refl _, fun p hp => ?_⟩
  exact UInt64.le_iff_toNat_le.1 ((List.pairwise_cons.1 h.sorted).1 p hp)

end Contract.Kept

namespace ProcessList

theorem lastArrival_append (ps us : ProcessList) :
    lastArrival (ps ++ us) = max ps.lastArrival us.lastArrival := by
  induction ps with
  | nil => exact (Nat.zero_max _).symm
  | cons p rest ih =>
    change max p.arrival.toNat (lastArrival (rest ++ us)) = max (max _ (lastArrival rest)) _
    rw [ih, Nat.max_assoc]

theorem FitsClock.left (h : FitsClock (ps ++ us)) : ps.FitsClock := by
  unfold FitsClock at h ⊢
  rw [lastArrival_append, totalBurst_append] at h
  omega

theorem FitsClock.right (h : FitsClock (ps ++ us)) : us.FitsClock := by
  unfold FitsClock at h ⊢
  rw [lastArrival_append, totalBurst_append] at h
  omega

theorem totalRounds_append (ps us : ProcessList) (quantum : Ticks) :
    totalRounds (ps ++ us) quantum = ps.totalRounds quantum + us.totalRounds quantum := by
  rw [totalRounds, List.map_append, List.sum_append_nat]
  rfl

end ProcessList

/-- Processes that have arrived all count. -/
theorem arrivedBefore_append_left {t : Nat} (hearly : ∀ p ∈ ps, p.arrival.toNat < t)
    (us : ProcessList) : arrivedBefore (ps ++ us) t = ps.length + arrivedBefore us t := by
  have hall : ps.findIdx (fun p => decide (t ≤ p.arrival.toNat)) = ps.length := by
    rw [List.findIdx_eq_length]
    intro p hp
    exact decide_eq_false (Nat.not_le_of_lt (hearly p hp))
  rw [arrivedBefore, List.findIdx_append, hall, if_neg (Nat.lt_irrefl _), Nat.add_comm]
  rfl

namespace ProcessList

/-- Up to the first arrival of the second list, only processes of the first one have arrived. -/
theorem arrivedBy_append {T t : Nat} (hlate : ∀ p ∈ us, T ≤ p.arrival.toNat) (ht : t < T) :
    arrivedBy (ps ++ us) t = ps.arrivedBy t := by
  have hle := arrivedBefore_le_length ps (t + 1)
  rw [arrivedBy, arrivedBefore_append hlate ht, List.take_append_of_le_length hle, arrivedBy]

theorem finish_arrivedBy_le (ps : ProcessList) (t : Nat) : (ps.arrivedBy t).finish ≤ ps.finish := by
  have hall := finish_append (ps.arrivedBy t) (ps.comingAfter t)
  rw [arrivedBy_append_comingAfter] at hall
  rw [hall]
  exact le_finishFrom _ _

/-- A list that is done by an instant has arrived before it. -/
theorem arrival_lt_of_finish (hk : Contract.Kept (ps ++ us)) {T : Nat} (hfinish : ps.finish ≤ T) :
    ∀ p ∈ ps, p.arrival.toNat < T := by
  intro p hp
  have hburst := UInt64.lt_iff_toNat_lt.1 (hk.burst_pos p (List.mem_append_left us hp))
  have hdone : p.arrival.toNat + p.burst.toNat ≤ ps.finish :=
    arrival_add_burst_le_finishFrom hp 0
  rw [UInt64.toNat_zero] at hburst
  omega

/-- When the second list starts, the time needed is that of its work. -/
theorem finish_arrivedBy_first (hk : Contract.Kept (ps ++ first :: rest))
    (hfinish : ps.finish ≤ first.arrival.toNat) :
    (arrivedBy (ps ++ first :: rest) first.arrival.toNat).finish +
        (comingAfter (ps ++ first :: rest) first.arrival.toNat).totalBurst =
      first.arrival.toNat + totalBurst (first :: rest) := by
  have hkept := hk.right (List.cons_ne_nil first rest)
  have hearly : ∀ p ∈ ps, p.arrival.toNat < first.arrival.toNat + 1 := fun p hp =>
    Nat.lt_succ_of_lt (arrival_lt_of_finish hk hfinish p hp)
  have hcount := arrivedBefore_append_left hearly (first :: rest)
  have hin := (lt_arrivedBefore_iff hkept (i := 0) rfl (first.arrival.toNat + 1)).2
    (Nat.lt_succ_self _)
  obtain ⟨k, hk'⟩ := Nat.exists_eq_succ_of_ne_zero (Nat.ne_of_gt hin)
  have hfound : ∀ p ∈ rest.take k, p.arrival.toNat ≤ first.arrival.toNat := by
    intro p hp
    apply arrival_le_of_arrivedBy hkept
    rw [arrivedBy, hk', List.take_succ_cons]
    exact List.mem_cons_of_mem first hp
  rw [arrivedBy, comingAfter, hcount, List.take_length_add_append, List.drop_length_add_append, hk',
    List.take_succ_cons, List.drop_succ_cons, finish_append, finishFrom_of_gap hfinish hfound,
    Nat.add_assoc, ← totalBurst_append, List.cons_append, List.take_append_drop]

end ProcessList

end Lists

namespace Simulation

variable {ps : ProcessList} {first : Process} {rest : ProcessList} {s s' : Simulation}
  {events new : List Stamped}

/-- Before the second list starts, no step leads past its first arrival. -/
theorem Paced.now_le_first (h : Paced (ps ++ first :: rest) s events)
    (hm : Moves (ps ++ first :: rest) s new s') (hk : Contract.Kept (ps ++ first :: rest))
    (hsound : s.Sound (ps ++ first :: rest)) (hfits : (ps ++ first :: rest).FitsClock)
    (ht : s.InTime (ps ++ first :: rest)) (hfinish : ps.finish ≤ first.arrival.toNat)
    (hbefore : s.now.toNat < first.arrival.toNat) : s'.now.toNat ≤ first.arrival.toNat := by
  have hlate := (hk.right (List.cons_ne_nil first rest)).first_arrival_le
  cases hm with
  | serves turn hm =>
    have hbusy := h.now_le_finish hm hk hsound hfits ht
    have hdone := ps.finish_arrivedBy_le s.now.toNat
    rw [ProcessList.arrivedBy_append hlate hbefore] at hbusy
    omega
  | skips next hm =>
    have hnow : s'.now = next.arrival := congrArg (·.now) hm.machine
    have hnext := hm.next
    have hadmitted := hsound.admitted_eq hk hfits
    rw [arrivedBefore_append hlate (Nat.le_of_lt hbefore)] at hadmitted
    have hle := arrivedBefore_le_length ps s.now.toNat
    rw [hnow]
    -- the gap leads to a process of the first list, or to the first one of the second
    rcases Nat.lt_or_eq_of_le (hadmitted ▸ hle) with hlt | hall
    · rw [List.getElem?_append_left hlt] at hnext
      have := ProcessList.arrival_lt_of_finish hk hfinish next (List.mem_of_getElem? hnext)
      omega
    · rw [hall, List.getElem?_append_right (Nat.le_refl _), Nat.sub_self] at hnext
      cases hnext
      exact Nat.le_refl _

/-- At the first arrival of the second list, the first list is done. -/
theorem Paced.queue_eq_nil (h : Paced (ps ++ first :: rest) s events)
    (hk : Contract.Kept (ps ++ first :: rest)) (hsound : s.Sound (ps ++ first :: rest))
    (hfits : (ps ++ first :: rest).FitsClock) (hfinish : ps.finish ≤ first.arrival.toNat)
    (hnow : s.now = first.arrival) : s.admitted = ps.length ∧ s.queue = [] := by
  have hlate := (hk.right (List.cons_ne_nil first rest)).first_arrival_le
  have hearly := ProcessList.arrival_lt_of_finish hk hfinish
  have hadmitted : s.admitted = ps.length := by
    rw [hsound.admitted_eq hk hfits, hnow, arrivedBefore_append_left hearly,
      arrivedBefore_of_late hlate (Nat.le_refl _), Nat.add_zero]
  refine ⟨hadmitted, ?_⟩
  have hpaced := h.finish
  rw [hnow, ProcessList.finish_arrivedBy_first hk hfinish] at hpaced
  have hsplit := hsound.remainingWork_eq (Nat.le_refl s.admitted)
  have hrest : (ps ++ first :: rest).drop s.admitted = first :: rest := by
    rw [hadmitted, List.drop_left]
  rw [hrest] at hsplit
  rw [List.eq_nil_iff_forall_not_mem]
  intro i hi
  obtain ⟨_, job, _, hjob, _, _, hwork, _⟩ := hsound.ready_of_mem hi
  have hentry : (s.machine.remainders.take s.admitted)[i]? = some job.remaining.toNat := by
    rw [List.getElem?_take_of_lt (hsound.queue_lt i hi)]
    exact Machine.remainders_of_job (Machine.job_eq_ok_iff.2 hjob)
  have hle := List.le_sum_of_mem (List.mem_of_getElem? hentry)
  omega

section Start

variable {config : Config} (hstart : start (ps ++ first :: rest) config = .ok s)
  (hfits : (ps ++ first :: rest).FitsClock) (hfinish : ps.finish ≤ first.arrival.toNat)

include hstart hfits hfinish

/-- A run of two lists is still before the instant at which the second one starts, or has come
through it. -/
theorem now_lt_first_or_exists {n : Nat} {stream : Array Stamped}
    (hrun : s.steps n = .ok (stream, s')) :
    s'.now.toNat < first.arrival.toNat ∨
      ∃ m before u, s.steps m = .ok (before, u) ∧ u.now = first.arrival := by
  have hk := kept_of_start hstart
  induction n generalizing stream s' with
  | zero =>
    cases hrun
    rcases Nat.eq_zero_or_pos first.arrival.toNat with hzero | hpos
    · refine .inr ⟨0, #[], s, rfl, ?_⟩
      rw [← UInt64.toNat_inj, now_of_start hstart, hzero]
    · exact .inl (by rw [now_of_start hstart]; exact hpos)
  | succ n ih =>
    obtain ⟨before, u, last, hbefore, hstep, _⟩ := steps_succ_eq_ok_iff.1 hrun
    rcases ih hbefore with hearlier | hfound
    · obtain ⟨hreaches, horderly, _⟩ := (orderly_start hstart).run hk hbefore
      rcases horderly.of_step hk hstep with ⟨_, _, rfl⟩ | ⟨_, hmoves, _, _⟩
      · exact .inl hearlier
      · have hle := (Paced.reaches hstart hfits hreaches).now_le_first hmoves hk horderly.sound
          hfits (hreaches.inTime hstart hfits) hfinish hearlier
        rcases Nat.lt_or_eq_of_le hle with hlt | heq
        · exact .inl hlt
        · exact .inr ⟨n + 1, _, s', hrun, UInt64.toNat_inj.1 heq⟩
    · exact .inr hfound

/-- A run of two lists comes to the instant at which the second one starts. -/
theorem exists_turnover : ∃ n events u, s.steps n = .ok (events, u) ∧ u.now = first.arrival ∧
    u.admitted = ps.length ∧ u.queue = [] := by
  have hk := kept_of_start hstart
  obtain ⟨events, fin, _, hends⟩ := exists_concludes hstart hfits
  obtain ⟨n, hrun⟩ := hends.steps
  rcases now_lt_first_or_exists hstart hfits hfinish hrun with
    hbefore | ⟨m, before, u, hrun', hnow⟩
  · -- the run is not over before the second list starts
    have hnow := (hends.finish hstart hfits).1
    have hlast : first.arrival.toNat + first.burst.toNat ≤ (ps ++ first :: rest).finish :=
      ProcessList.arrival_add_burst_le_finishFrom
        (List.mem_append_right ps List.mem_cons_self) 0
    omega
  · obtain ⟨hreaches', horderly, _⟩ := (orderly_start hstart).run hk hrun'
    obtain ⟨hadmitted, hempty⟩ := (Paced.reaches hstart hfits hreaches').queue_eq_nil hk
      horderly.sound hfits hfinish hnow
    exact ⟨m, before, u, hrun', hnow, hadmitted, hempty⟩

end Start

/-- A run comes to the instant at which the first process arrives. -/
theorem exists_first_arrival {config : Config} (hstart : start (first :: rest) config = .ok s)
    (hfits : ProcessList.FitsClock (first :: rest)) :
    ∃ n events u, s.steps n = .ok (events, u) ∧ u.now = first.arrival ∧ u.admitted = 0 ∧
      u.queue = [] := by
  have hstart' : start ([] ++ first :: rest) config = .ok s := hstart
  exact exists_turnover hstart' hfits (Nat.zero_le _)

end Simulation

end RoundRobin
