import Mathlib.Data.List.InsertIdx
import RoundRobin.Proofs.Rounds
import RoundRobin.Proofs.Timing
import RoundRobin.Proofs.Totals

/-!
# How long a process is held up

If the clock fits, all time since the arrival of a process that it does not spend on the processor
belongs to other jobs. Between two turns of the process each of them gets one slice at most, and the
one whose slice is on when the process arrives goes behind it (`Shared`). This bounds the response
and the turnaround of every process by the work and the slices of the others (`delay_le`).
-/

namespace RoundRobin

/-- How much work the processes other than the one at a position have, counting no more than `limit`
of each. -/
def ProcessList.othersWithin (ps : ProcessList) (i limit : Nat) : Nat :=
  ((ps.map fun p => min p.burst.toNat limit).eraseIdx i).sum

/-- Sums compare as the entries do, position by position. -/
theorem sum_le_sum_of_getElem? {l l' : List Nat} (hlen : l.length = l'.length)
    (h : ∀ (k : Nat) a b, l[k]? = some a → l'[k]? = some b → a ≤ b) : l.sum ≤ l'.sum := by
  apply List.Forall₂.sum_le_sum
  rw [List.forall₂_iff_get]
  exact ⟨hlen, fun k hk hk' =>
    h k _ _ (List.getElem?_eq_getElem hk) (List.getElem?_eq_getElem hk')⟩

/-- Shares of the processes other than `i` add up to no more than the work counted of each. -/
theorem ProcessList.sum_le_othersWithin {ps : ProcessList} {shares : List Nat} {i : Nat}
    {p : Process} (limit : Nat) (hlen : shares.length = ps.length) (hp : ps[i]? = some p)
    (hown : shares[i]? = some 0)
    (h : ∀ (j : Nat) share q, shares[j]? = some share → ps[j]? = some q →
      share ≤ min q.burst.toNat limit) :
    shares.sum ≤ ps.othersWithin i limit := by
  obtain ⟨hi, rfl⟩ := List.getElem?_eq_some_iff.1 hp
  have hothers := List.CommMonoid.add_sum_eraseIdx
    (l := ps.map fun q => min q.burst.toNat limit) (i := i) (by rwa [List.length_map])
  rw [List.getElem_map] at hothers
  have hset := sum_set_add (min ps[i].burst.toNat limit) hown
  have hle : (shares.set i (min ps[i].burst.toNat limit)).sum ≤
      (ps.map fun q => min q.burst.toNat limit).sum := by
    apply sum_le_sum_of_getElem?
    · rw [List.length_set, List.length_map, hlen]
    · intro j share bound hshare hbound
      rw [List.getElem?_map, Option.map_eq_some_iff] at hbound
      obtain ⟨q, hq, rfl⟩ := hbound
      by_cases hj : i = j
      · subst hj
        rw [hp, Option.some.injEq] at hq
        rw [List.getElem?_set_self (List.getElem?_eq_some_iff.1 hown).1,
          Option.some.injEq] at hshare
        exact Nat.le_of_eq (hshare.symm.trans (by rw [hq]))
      · rw [List.getElem?_set_ne hj] at hshare
        exact h j share q hshare hq
  unfold othersWithin
  omega

theorem ProcessList.othersWithin_le (ps : ProcessList) (i limit : Nat) :
    ps.othersWithin i limit ≤ totalBurst (ps.eraseIdx i) := by
  rw [othersWithin, totalBurst, List.eraseIdx_map]
  exact List.sum_le_sum fun q _ => Nat.min_le_left _ _

/-- What is ahead of an entry of the first part of a list is in the first part. -/
theorem sublist_of_append {l l' : List Nat} {i j : Nat} (h : [j, i].Sublist (l ++ l'))
    (hi : i ∉ l') : [j, i].Sublist l := by
  obtain ⟨front, back, heq, hfront, hback⟩ := List.sublist_append_iff.1 h
  match front, heq with
  | [], heq =>
    rw [List.nil_append] at heq
    subst heq
    exact absurd (hback.subset (by simp)) hi
  | [_], heq =>
    rw [List.singleton_append, List.cons.injEq] at heq
    obtain ⟨_, rfl⟩ := heq
    exact absurd (hback.subset (by simp)) hi
  | a :: b :: front, heq =>
    simp only [List.cons_append, List.cons.injEq, List.nil_eq, List.append_eq_nil_iff] at heq
    obtain ⟨rfl, rfl, rfl, _⟩ := heq
    exact hfront

namespace Job

/-- A job without a response has not been served. -/
theorem unserved_of_response {job : Job} {p : Process} {quantum : Ticks} (h : job.Accounts p)
    (hrounds : job.InRounds p quantum) (hnone : job.response = none) :
    job.dispatches.toNat = 0 ∧ job.cpuTime.toNat = 0 := by
  have hiff := h.response_iff
  have hspent := h.spent
  have hremaining := hrounds.remaining
  have hzero : job.dispatches.toNat = 0 := by
    rw [hnone, Option.isSome_none] at hiff
    apply Nat.eq_zero_of_not_pos
    intro hpos
    exact absurd (hiff.2 hpos) Bool.false_ne_true
  rw [hzero, Nat.zero_mul] at hremaining
  omega

end Job

namespace Simulation

variable {ps : ProcessList} {s s' : Simulation} {turn : Turn} {p : Process}

/-- The time from the arrival of a job up to now, or up to its completion, is its own and that of
the others. The share of another job comes from its work. It is one slice more than the job has had
at most, and no slice more once the job has completed and while the other one is ahead in line. -/
structure Shared (ps : ProcessList) (s : Simulation) (line : List Nat) (i : Nat) (p : Process)
    (job : Job) (shares : List Nat) : Prop where
  length : shares.length = ps.length
  own : shares[i]? = some 0
  total : (job.completion.getD s.now).toNat =
    p.arrival.toNat + shares.sum + job.cpuTime.toNat
  work : ∀ (j : Nat) share other, shares[j]? = some share → s.job? j = some other →
    share ≤ other.cpuTime.toNat
  stint : ∀ (j : Nat) share, shares[j]? = some share →
    share ≤ (job.dispatches.toNat + 1) * s.quantum.toNat
  past : ∀ (j : Nat) share, shares[j]? = some share →
    job.completion.isSome ∨ [j, i].Sublist line → share ≤ job.dispatches.toNat * s.quantum.toNat

/-- A turn adds its length to the processor time of its job, and of no other. -/
theorem Serves.cpuTime_eq (h : Serves ps s turn s') (hk : Contract.Kept ps) (hsound : s.Sound ps)
    {j : Nat} {other : Job} (hother : s'.job? j = some other) :
    ∃ old, s.job? j = some old ∧ other.cpuTime.toNat =
      old.cpuTime.toNat + (if j = turn.position then (turn.run s.quantum).toNat else 0) := by
  rcases h.job_cases hother with ⟨rfl, rfl⟩ | ⟨hne, old, hold, hunserved⟩
  · have haccounts := (hsound.eligible hk h h.process).accounts
    refine ⟨turn.job, h.job, ?_⟩
    rw [Job.cpuTime_leave, Job.toNat_cpuTime_served haccounts, if_pos rfl]
    rfl
  · refine ⟨old, hold, ?_⟩
    rw [hunserved.cpuTime, if_neg hne, Nat.add_zero]

namespace Shared

variable {line shares : List Nat} {i : Nat} {job : Job}

/-- A share is no more than the burst of its process. -/
theorem le_burst (h : Shared ps s line i p job shares) (hsound : s.Sound ps) {j share : Nat}
    {q : Process} (hshare : shares[j]? = some share) (hq : ps[j]? = some q) :
    share ≤ q.burst.toNat := by
  obtain ⟨other, hother, haccounts, _⟩ := hsound.standing j q hq
  have hwork := h.work j share other hshare hother
  have hspent := haccounts.spent
  omega

/-- A job that is let in at the start of a step arrives right then. -/
theorem early (h : Serves ps s turn s') (hsound : s.Sound ps) (hp : ps[i]? = some p)
    (hge : s.admitted ≤ i) (hlt : i < turn.early) (line : List Nat) :
    Shared ps s line i p (.ofProcess p) (List.replicate ps.length 0) := by
  have hahead := UInt64.le_iff_toNat_le.1 (hsound.ahead i p hp hge)
  have harrived := h.early.arrived i p hp hge hlt
  have hzero : ∀ (j : Nat) share, (List.replicate ps.length 0)[j]? = some share → share = 0 :=
    fun j share hshare => List.eq_of_mem_replicate (List.mem_of_getElem? hshare)
  exact {
    length := List.length_replicate
    own := by
      rw [List.getElem?_replicate, if_pos (List.getElem?_eq_some_iff.1 hp).1]
    total := by
      rw [List.sum_replicate_nat, Nat.mul_zero]
      change s.now.toNat = p.arrival.toNat + 0 + 0
      omega
    work := fun j share _ hshare _ => hzero j share hshare ▸ Nat.zero_le _
    stint := fun j share hshare => hzero j share hshare ▸ Nat.zero_le _
    past := fun j share hshare _ => hzero j share hshare ▸ Nat.zero_le _ }

/-- The job that had the turn has spent it on the processor. -/
theorem served (h : Shared ps s line turn.position p turn.job shares) (hm : Serves ps s turn s')
    (hk : Contract.Kept ps) (hsound : s.Sound ps) (hready : s.Eligible p turn.job)
    (hnow : s'.now.toNat = s.now.toNat + (turn.run s.quantum).toNat) :
    Shared ps s' s'.queue turn.position p ((turn.job.served s.now s.quantum).leave s'.now)
      shares := by
  have hquantum : s'.quantum = s.quantum := hm.frame.quantum
  have hcount : (turn.job.served s.now s.quantum).dispatches.toNat =
      turn.job.dispatches.toNat + 1 := Job.toNat_dispatches_served s.now hm.dispatches_lt
  have hcpu := Job.toNat_cpuTime_served hready.accounts s.now s.quantum
  have htotal := h.total
  rw [hready.completion, Option.getD_none] at htotal
  exact {
    length := h.length
    own := h.own
    total := by
      rw [Job.getD_completion_leave hready.completion, Job.cpuTime_leave, hcpu, hnow, htotal]
      exact Nat.add_assoc _ _ _
    work := by
      intro j share other hshare hother
      obtain ⟨old, hold, hcpu'⟩ := hm.cpuTime_eq hk hsound hother
      have := h.work j share old hshare hold
      omega
    stint := by
      intro j share hshare
      rw [Job.dispatches_leave, hcount, hquantum]
      exact Nat.le_trans (h.stint j share hshare) (Nat.mul_le_mul_right _ (Nat.le_succ _))
    past := by
      intro j share hshare _
      rw [Job.dispatches_leave, hcount, hquantum]
      exact h.stint j share hshare }

/-- A job that does not have the turn spends `d` ticks of it on the job that has it. That one goes
behind, and the others keep their shares. -/
theorem charge (hm : Serves ps s turn s') (hk : Contract.Kept ps) (hsound : s.Sound ps) {d : Nat}
    (hne : turn.position ≠ i) (hd : d ≤ (turn.run s.quantum).toNat)
    (hahead : ¬ [turn.position, i].Sublist s'.queue) (hcompletion : job.completion = none)
    (hlength : shares.length = ps.length) (hown : shares[i]? = some 0)
    (htotal : s'.now.toNat =
      p.arrival.toNat + (shares.sum + d) + job.cpuTime.toNat)
    (hwork : ∀ (j : Nat) share other, shares[j]? = some share → s.job? j = some other →
      share ≤ other.cpuTime.toNat)
    (hstint : ∀ (j : Nat) share, shares[j]? = some share →
      share ≤ (job.dispatches.toNat + 1) * s.quantum.toNat)
    (hpast : ∀ (j : Nat) share, shares[j]? = some share →
      j = turn.position ∨ [j, i].Sublist s'.queue →
      share ≤ job.dispatches.toNat * s.quantum.toNat) :
    ∃ shares', Shared ps s' s'.queue i p job shares' := by
  have hquantum : s'.quantum = s.quantum := hm.frame.quantum
  have hlt : turn.position < shares.length := by
    rw [hlength]
    exact (List.getElem?_eq_some_iff.1 hm.process).1
  have hold : shares[turn.position]? = some shares[turn.position] := List.getElem?_eq_getElem hlt
  have hset := sum_set_add (shares[turn.position] + d) hold
  have hcases : ∀ (j : Nat) share,
      (shares.set turn.position (shares[turn.position] + d))[j]? = some share →
        (j = turn.position ∧ share = shares[turn.position] + d) ∨
          (j ≠ turn.position ∧ shares[j]? = some share) := by
    intro j share hshare
    by_cases hj : turn.position = j
    · subst hj
      rw [List.getElem?_set_self hlt, Option.some.injEq] at hshare
      exact .inl ⟨rfl, hshare.symm⟩
    · rw [List.getElem?_set_ne hj] at hshare
      exact .inr ⟨Ne.symm hj, hshare⟩
  refine ⟨shares.set turn.position (shares[turn.position] + d), ?_⟩
  exact {
    length := by rw [List.length_set, hlength]
    own := by rw [List.getElem?_set_ne hne, hown]
    total := by
      rw [hcompletion, Option.getD_none]
      omega
    work := by
      intro j share other hshare hother
      obtain ⟨old, hjob, hcpu⟩ := hm.cpuTime_eq hk hsound hother
      rcases hcases j share hshare with ⟨rfl, rfl⟩ | ⟨_, hshare'⟩
      · have := hwork _ _ old hold hjob
        rw [if_pos rfl] at hcpu
        omega
      · have := hwork j share old hshare' hjob
        omega
    stint := by
      intro j share hshare
      rw [hquantum]
      rcases hcases j share hshare with ⟨_, rfl⟩ | ⟨_, hshare'⟩
      · have hbefore := hpast _ _ hold (.inl rfl)
        have hrun := turn.toNat_run s.quantum
        rw [Nat.succ_mul]
        omega
      · exact hstint j share hshare'
    past := by
      rintro j share hshare (hdone | hsub)
      · rw [hcompletion] at hdone
        cases hdone
      rw [hquantum]
      rcases hcases j share hshare with ⟨rfl, _⟩ | ⟨_, hshare'⟩
      · exact absurd hsub hahead
      · exact hpast j share hshare' (.inr hsub) }

/-- A job behind the turn has spent it on the job that had it, which was ahead. -/
theorem waited (h : Shared ps s (turn.position :: turn.rest) i p job shares)
    (hm : Serves ps s turn s') (hk : Contract.Kept ps) (hsound : s.Sound ps)
    (hrest : i ∈ turn.rest) (hcompletion : job.completion = none)
    (hnow : s'.now.toNat = s.now.toNat + (turn.run s.quantum).toNat) :
    ∃ shares', Shared ps s' s'.queue i p (job.enter.wait (turn.run s.quantum)) shares' := by
  have hfresh := (List.nodup_cons.1 (hsound.nodup_line hm)).1
  have hne : turn.position ≠ i := fun heq => hfresh (heq ▸ hrest)
  have htotal := h.total
  rw [hcompletion, Option.getD_none] at htotal
  -- what is ahead of the job in the queue was ahead of it in the line, behind the turn
  have hahead : ∀ j, [j, i].Sublist s'.queue → [j, i].Sublist turn.rest := by
    intro j hsub
    rw [hm.queue, List.append_assoc] at hsub
    apply sublist_of_append hsub
    rw [List.mem_append, List.mem_range'_1]
    have hearly := hsound.lt_early hm (.inr hrest)
    rintro (hrange | hback)
    · omega
    · split at hback
      · cases hback
      · exact hne (List.mem_singleton.1 hback).symm
  have hopen : (job.enter.wait (turn.run s.quantum)).completion = none := hcompletion
  apply charge hm hk hsound hne (Nat.le_refl _) ?_ hopen h.length h.own ?_ h.work h.stint ?_
  · intro hsub
    exact hfresh ((hahead _ hsub).subset List.mem_cons_self)
  · change s'.now.toNat = p.arrival.toNat + _ + job.cpuTime.toNat
    omega
  · rintro j share hshare (rfl | hsub)
    · exact h.past _ share hshare
        (.inr (List.Sublist.cons_cons _ (List.singleton_sublist.2 hrest)))
    · exact h.past j share hshare
        (.inr ((hahead j hsub).trans (List.sublist_cons_self _ _)))

/-- A job that arrives within a turn has spent the rest of it on the job that had it. -/
theorem late (hm : Serves ps s turn s') (hk : Contract.Kept ps) (hsound : s.Sound ps)
    (hp : ps[i]? = some p) (hge : turn.early ≤ i) (hlt : i < turn.late)
    (hnow : s'.now.toNat = s.now.toNat + (turn.run s.quantum).toNat) :
    ∃ shares, Shared ps s' s'.queue i p (Job.ofProcess p).enter shares := by
  have harrival := hm.early.ahead i p hp hge
  have harrived := hm.late.arrived i p hp hge hlt
  have hearly := hsound.lt_early hm (.inl rfl)
  have hfresh := (List.nodup_cons.1 (hsound.nodup_line hm)).1
  have hne : turn.position ≠ i := by omega
  have hzero := fun (j : Nat) share (hshare : (List.replicate ps.length 0)[j]? = some share) =>
    List.eq_of_mem_replicate (List.mem_of_getElem? hshare)
  apply charge (d := s'.now.toNat - p.arrival.toNat) hm hk hsound hne (by omega) ?_ rfl
    List.length_replicate ?_ ?_ (fun j share _ hshare _ => hzero j share hshare ▸ Nat.zero_le _)
    (fun j share hshare => hzero j share hshare ▸ Nat.zero_le _)
    (fun j share hshare _ => hzero j share hshare ▸ Nat.zero_le _)
  · -- the job that had the turn is at the back of the queue, if it is queued at all
    intro hsub
    rw [hm.queue] at hsub
    have hfront := sublist_of_append hsub (by
      split
      · exact List.not_mem_nil
      · rw [List.mem_singleton]
        exact Ne.symm hne)
    have hmem := hfront.subset List.mem_cons_self
    rw [List.mem_append, List.mem_range'_1] at hmem
    rcases hmem with hrest | hrange
    · exact hfresh hrest
    · omega
  · rw [List.getElem?_replicate, if_pos (List.getElem?_eq_some_iff.1 hp).1]
  · rw [List.sum_replicate_nat, Nat.mul_zero]
    change s'.now.toNat = p.arrival.toNat + _ + 0
    omega

/-- The time of a job that has completed does not change any more. -/
theorem completed (h : Shared ps s line i p job shares) (hdone : job.completion.isSome)
    (hquantum : s'.quantum = s.quantum)
    (hcpu : ∀ j other, s'.job? j = some other →
      ∃ old, s.job? j = some old ∧ old.cpuTime.toNat ≤ other.cpuTime.toNat) (line' : List Nat) :
    Shared ps s' line' i p job shares := by
  obtain ⟨completion, hcompletion⟩ := Option.isSome_iff_exists.1 hdone
  have htotal := h.total
  rw [hcompletion, Option.getD_some] at htotal
  exact {
    length := h.length
    own := h.own
    total := by
      rw [hcompletion, Option.getD_some]
      exact htotal
    work := by
      intro j share other hshare hother
      obtain ⟨old, hold, hle⟩ := hcpu j other hother
      exact Nat.le_trans (h.work j share old hshare hold) hle
    stint := by
      rw [hquantum]
      exact h.stint
    past := by
      intro j share hshare _
      rw [hquantum]
      exact h.past j share hshare (.inl hdone) }

end Shared

/-- The shares of every job that was let in, and the bound on its response. -/
structure Delays (ps : ProcessList) (s : Simulation) : Prop where
  shared : ∀ i p job, ps[i]? = some p → s.job? i = some job → i < s.admitted →
    ∃ shares, Shared ps s s.queue i p job shares
  response_le : ∀ i p job response, ps[i]? = some p → s.job? i = some job →
    job.response = some response → response.toNat ≤ ps.othersWithin i s.quantum.toNat

namespace Delays

/-- The shares of a job in line for a turn. -/
theorem line (hd : Delays ps s) (hm : Serves ps s turn s') (hsound : s.Sound ps) {i : Nat}
    {job : Job} (hline : i = turn.position ∨ i ∈ turn.rest) (hp : ps[i]? = some p)
    (hjob : s.job? i = some job) :
    ∃ shares, Shared ps s (turn.position :: turn.rest) i p job shares := by
  rcases (hm.mem_line_iff i).1 hline with hqueue | ⟨hge, hlt⟩
  · have hadmitted := hsound.queue_lt i hqueue
    obtain ⟨shares, hshared⟩ := hd.shared i p job hp hjob hadmitted
    refine ⟨shares, { hshared with past := ?_ }⟩
    intro j share hshare hpast
    apply hshared.past j share hshare
    apply hpast.imp_right
    intro hsub
    rw [← hm.line] at hsub
    apply sublist_of_append hsub
    rw [List.mem_range'_1]
    omega
  · obtain rfl := hsound.eq_of_ahead hp hge hjob
    exact ⟨_, Shared.early hm hsound hp hge hlt _⟩

/-- A turn keeps the shares of every job. -/
theorem shared_serves (hd : Delays ps s) (hm : Serves ps s turn s') (hk : Contract.Kept ps)
    (hsound : s.Sound ps) (hnow : s'.now.toNat = s.now.toNat + (turn.run s.quantum).toNat)
    (i : Nat) (p : Process) (job : Job) (hp : ps[i]? = some p) (hjob : s'.job? i = some job)
    (hlt : i < s'.admitted) : ∃ shares, Shared ps s' s'.queue i p job shares := by
  cases hsound.fate hk hm hp hjob with
  | served hposition hready =>
    subst hposition
    obtain ⟨shares, hshared⟩ := hd.line hm hsound (.inl rfl) hp hm.job
    exact ⟨shares, hshared.served hm hk hsound hready hnow⟩
  | waited hrest hold hready =>
    obtain ⟨shares, hshared⟩ := hd.line hm hsound (.inr hrest) hp hold
    exact hshared.waited hm hk hsound hrest hready.completion hnow
  | entered _ hge hbefore _ => exact Shared.late hm hk hsound hp hge hbefore hnow
  | completed _ hadmitted hold hcompletion =>
    obtain ⟨shares, hshared⟩ := hd.shared i p job hp hold hadmitted
    refine ⟨shares, hshared.completed (by rw [hcompletion]; rfl) hm.frame.quantum ?_ _⟩
    intro j other hother
    obtain ⟨old, hold, hcpu⟩ := hm.cpuTime_eq hk hsound hother
    exact ⟨old, hold, by omega⟩
  | ahead _ hge _ =>
    rw [hm.admitted] at hlt
    omega

/-- The first turn of a job comes when each job ahead of it has had one slice at most. -/
theorem response_serves (hd : Delays ps s) (hm : Serves ps s turn s') (hk : Contract.Kept ps)
    (hsound : s.Sound ps) (hrounds : s.InRounds ps) (hp : ps[turn.position]? = some p)
    (hnone : turn.job.response = none) :
    (s.now - turn.job.arrival).toNat ≤ ps.othersWithin turn.position s.quantum.toNat := by
  have hready := hsound.eligible hk hm hp
  obtain ⟨hcount, hcpu⟩ := Job.unserved_of_response hready.accounts
    (hrounds _ p turn.job hp hm.job) hnone
  obtain ⟨shares, hshared⟩ := hd.line hm hsound (.inl rfl) hp hm.job
  have htotal := hshared.total
  rw [hready.completion, Option.getD_none] at htotal
  have hle := ProcessList.sum_le_othersWithin s.quantum.toNat hshared.length hp
    hshared.own (by
      intro j share q hshare hq
      have hburst := hshared.le_burst hsound hshare hq
      have hstint := hshared.stint j share hshare
      rw [hcount, Nat.zero_add, Nat.one_mul] at hstint
      exact Nat.le_min.2 ⟨hburst, hstint⟩)
  rw [hready.accounts.arrival, UInt64.toNat_sub_of_le _ _ hready.arrived]
  omega

theorem moves (hd : Delays ps s) (hk : Contract.Kept ps) (hfits : ps.FitsClock)
    (hsound : s.Sound ps) (hrounds : s.InRounds ps) (ht : s.InTime ps) {events : List Stamped}
    (hm : Moves ps s events s') : Delays ps s' := by
  have hquantum : s'.quantum = s.quantum := hm.frame.quantum
  constructor
  · cases hm with
    | serves turn h => exact hd.shared_serves h hk hsound (h.now_exact hfits ht)
    | skips next h =>
      intro i p job hp hjob hlt
      rw [h.job_eq] at hjob
      rw [h.admitted] at hlt
      -- nothing is queued when a gap is skipped, so the job has finished
      obtain ⟨completion, hcompletion⟩ :=
        hsound.completed_of_not_mem hp hlt (by rw [h.empty]; exact List.not_mem_nil) hjob
      obtain ⟨shares, hshared⟩ := hd.shared i p job hp hjob hlt
      refine ⟨shares, hshared.completed (by rw [hcompletion]; rfl) hquantum ?_ _⟩
      intro j other hother
      rw [h.job_eq] at hother
      exact ⟨other, hother, Nat.le_refl _⟩
  · intro i p job response hp hjob hresponse
    rw [hquantum]
    rcases hm.response_cases hjob hresponse with
      ⟨old, hold, hold_response⟩ | ⟨turn, hserves, rfl, hnone, rfl, _⟩
    · exact hd.response_le i p old response hp hold hold_response
    · exact hd.response_serves hserves hk hsound hrounds hp hnone

theorem reaches {config : Config} (hstart : start ps config = .ok s) (hfits : ps.FitsClock)
    {events : List Stamped} (hr : Reaches ps s events s') : Delays ps s' := by
  have hk := kept_of_start hstart
  have hsound := sound_start hstart
  induction hr with
  | refl =>
    have hzero := admitted_of_start hstart
    constructor
    · intro i _ _ _ _ hlt
      omega
    · intro i p job response hp hjob hresponse
      obtain rfl := hsound.eq_of_ahead hp (by omega) hjob
      cases hresponse
  | snoc hr hm ih =>
    exact ih.moves hk hfits (hr.sound hstart) (hr.inRounds hstart) (hr.inTime hstart hfits) hm

end Delays

/-- No process waits for longer, or is left without a response for longer, than the others have
work. -/
theorem Reaches.timing_le_others {config : Config} (hstart : start ps config = .ok s)
    (hfits : ps.FitsClock) {events : List Stamped} (hr : Reaches ps s events s')
    (hdone : s'.allCompleted = true) {timings : List Timing}
    (htimings : s'.machine.jobs.toList.mapM Job.timing = .ok timings) {i : Nat}
    (hp : ps[i]? = some p) :
    ∃ timing, timings[i]? = some timing ∧ timing.pid = p.pid ∧
      timing.waiting.toNat ≤ ProcessList.totalBurst (ps.eraseIdx i) ∧
      timing.response.toNat ≤ ProcessList.totalBurst (ps.eraseIdx i) := by
  have hsound := hr.sound hstart
  have hcharges := hr.charges hstart hfits
  have hlt := hsound.lt_admitted_of_completed hdone hp
  obtain ⟨job, timing, hjob, hentry, _, _, hresponse, hcompletion, hpid, hwaiting, _⟩ :=
    hsound.timing_of_completed hdone htimings hp
  obtain ⟨shares, hshared⟩ := (Delays.reaches hstart hfits hr).shared i p job hp hjob hlt
  have hcharged := hcharges.charged i p job hp hjob hlt
  have htotal := hshared.total
  have hspent := hcharged.spent
  have hresponse_le := hcharged.response_le timing.response hresponse
  rw [hcompletion, Option.getD_some] at htotal hspent
  -- the time of the others is the offset and the waiting
  have hshares := ProcessList.sum_le_othersWithin UInt64.size hshared.length hp hshared.own
    (fun j share q hshare hq =>
      Nat.le_min.2 ⟨hshared.le_burst hsound hshare hq,
        Nat.le_trans (hshared.le_burst hsound hshare hq) (Nat.le_of_lt q.burst.toNat_lt_size)⟩)
  have hothers := ps.othersWithin_le i UInt64.size
  refine ⟨timing, hentry, hpid, ?_, ?_⟩
  · rw [hwaiting]
    omega
  · omega

/-- The timing of a process that was not held up by the others for longer than round robin allows:
before its first slice each of them has had one slice at most, and up to its completion as many
slices as the process itself has had. -/
structure Prompt (ps : ProcessList) (quantum : Ticks) (i : Nat) (p : Process) (timing : Timing) :
    Prop where
  pid : timing.pid = p.pid
  response_le : timing.response.toNat ≤ ps.othersWithin i quantum.toNat
  arrival_le : p.arrival ≤ timing.completion
  turnaround_le : timing.completion.toNat - p.arrival.toNat ≤
    p.burst.toNat + ps.othersWithin i (p.rounds quantum * quantum.toNat)
  alone : ps.length = 1 → timing.waiting = 0 ∧ timing.response = 0

theorem othersWithin_of_alone (halone : ps.length = 1) {i limit : Nat} (hp : ps[i]? = some p) :
    ps.othersWithin i limit = 0 := by
  have hlt := (List.getElem?_eq_some_iff.1 hp).1
  obtain ⟨q, rfl⟩ := List.length_eq_one_iff.1 halone
  obtain rfl : i = 0 := by omega
  rfl

/-- If the clock fits, a run ends and no process is held up for longer than round robin allows. -/
theorem delay_le {config : Config} (hstart : start ps config = .ok s) (hfits : ps.FitsClock) :
    ∃ n events fin timings, s.steps n = .ok (events, fin) ∧ fin.allCompleted = true ∧
      s.complete = .ok fin ∧ fin.machine.jobs.toList.mapM Job.timing = .ok timings ∧
      (∀ report, s.run = .ok report → report.timings = timings) ∧
      ∀ i p, ps[i]? = some p → ∃ timing, timings[i]? = some timing ∧
        Prompt ps config.quantum i p timing := by
  obtain ⟨n, events, fin, timings, hrun, hdone, hcomplete, hreaches, htimings, hreport⟩ :=
    exists_timings hstart hfits
  refine ⟨n, events, fin, timings, hrun, hdone, hcomplete, htimings, hreport, ?_⟩
  intro i p hp
  have hk := kept_of_start hstart
  have hsound := (sound_start hstart).reaches hk hreaches
  have hdelays := Delays.reaches hstart hfits hreaches
  have hcharges := Charges.reaches hk hfits (sound_start hstart) (inTime_start hstart)
    (admitted_of_start hstart) hreaches
  have hquantum : fin.quantum = config.quantum := hreaches.quantum_eq hstart
  have hlt : i < fin.admitted := by
    rw [(hsound.allCompleted_iff.1 hdone).1]
    exact (List.getElem?_eq_some_iff.1 hp).1
  obtain ⟨job, timing, hjob, hentry, haccounts, hremaining, hresponse, hcompletion, hpid, hwaiting,
    _⟩ := hsound.timing_of_completed hdone htimings hp
  obtain ⟨shares, hshared⟩ := hdelays.shared i p job hp hjob hlt
  have hburst := haccounts.spent
  rw [hremaining, UInt64.toNat_zero, Nat.add_zero] at hburst
  have htotal := hshared.total
  have hspent := (hcharges.charged i p job hp hjob hlt).spent
  rw [hcompletion, Option.getD_some] at htotal hspent
  have hcount := hreaches.dispatches_eq hstart hp hjob hremaining
  have hshares := ProcessList.sum_le_othersWithin
    (p.rounds config.quantum * config.quantum.toNat) hshared.length hp hshared.own (by
      intro j share q hshare hq
      have hle := hshared.past j share hshare (.inl (by rw [hcompletion]; rfl))
      rw [hcount, hquantum] at hle
      exact Nat.le_min.2 ⟨hshared.le_burst hsound hshare hq, hle⟩)
  have hresponse_le := hdelays.response_le i p job timing.response hp hjob hresponse
  rw [hquantum] at hresponse_le
  refine ⟨timing, hentry, ?_⟩
  exact {
    pid := hpid
    response_le := hresponse_le
    arrival_le := by
      rw [UInt64.le_iff_toNat_le]
      omega
    turnaround_le := by omega
    alone := by
      intro halone
      rw [othersWithin_of_alone halone hp] at hshares hresponse_le
      rw [hwaiting, ← UInt64.toNat_inj, ← UInt64.toNat_inj, UInt64.toNat_zero]
      omega }

theorem delay_le_arrivalsAtSlices :
    ∃ s report, start arrivalsAtSlices { quantum := 2, checks := true } = .ok s ∧
      s.run = .ok report ∧ arrivalsAtSlices.FitsClock ∧
      ∃ n events fin timings, s.steps n = .ok (events, fin) ∧ fin.allCompleted = true ∧
        s.complete = .ok fin ∧ fin.machine.jobs.toList.mapM Job.timing = .ok timings ∧
        (∀ report, s.run = .ok report → report.timings = timings) ∧
        ∀ i p, arrivalsAtSlices[i]? = some p → ∃ timing, timings[i]? = some timing ∧
          Prompt arrivalsAtSlices 2 i p timing := by
  obtain ⟨s, report, hstart, hreport⟩ := exists_report_arrivalsAtSlices
  have hfits : arrivalsAtSlices.FitsClock := by decide
  exact ⟨s, report, hstart, hreport, hfits, delay_le hstart hfits⟩

end Simulation

end RoundRobin
