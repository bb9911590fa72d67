import RoundRobin.Proofs.Statistics
import RoundRobin.Proofs.Turnover

/-!
# Gaps separate runs

If the first process of a second list arrives when a first list is done, or later, then the run of
both lists is the run of the first one followed by that of the second one (`runs_separate`). From
the instant at which the second list starts, the run of both goes through the states of a run of the
second list alone, behind the jobs of the first one, which are done (`Behind`).
-/

namespace RoundRobin

namespace Report.TotalsFit

variable {timings timings' : List Timing}

theorem left (h : TotalsFit (timings ++ timings')) : TotalsFit timings := by
  obtain ⟨hwaiting, hresponse, hdispatches⟩ := h
  rw [List.map_append, List.sum_append_nat] at hwaiting hresponse hdispatches
  exact ⟨by omega, by omega, by omega⟩

theorem right (h : TotalsFit (timings ++ timings')) : TotalsFit timings' := by
  obtain ⟨hwaiting, hresponse, hdispatches⟩ := h
  rw [List.map_append, List.sum_append_nat] at hwaiting hresponse hdispatches
  exact ⟨by omega, by omega, by omega⟩

end Report.TotalsFit

namespace Simulation

variable {ps us : ProcessList} {a a' b b' s : Simulation}

/-- A turn that is had behind some more jobs. -/
def Turn.behind (turn : Turn) (d : Nat) : Turn :=
  { turn with
    position := d + turn.position
    rest := turn.rest.map (d + ·)
    early := d + turn.early
    late := d + turn.late }

/-- A state stands as another one does, behind the jobs of a list of processes that have arrived. -/
structure Behind (ps : ProcessList) (a b : Simulation) : Prop where
  past : ∀ p ∈ ps, p.arrival.toNat < a.now.toNat
  now : b.now = a.now
  quantum : b.quantum = a.quantum
  admitted : a.admitted = ps.length + b.admitted
  queue : a.queue = b.queue.map (ps.length + ·)
  jobs : ∀ i, a.job? (ps.length + i) = b.job? i

namespace Behind

theorem getElem?_eq (ps us : ProcessList) (i : Nat) : (ps ++ us)[ps.length + i]? = us[i]? := by
  rw [List.getElem?_append_right (Nat.le_add_right _ _), Nat.add_sub_cancel_left]

/-- If none of the processes behind has been let in, their jobs are as declared. -/
theorem job?_of_ahead (hsound : a.Sound (ps ++ us)) (hsound' : b.Sound us)
    (hadmitted : a.admitted = ps.length) (hadmitted' : b.admitted = 0) (i : Nat) :
    a.job? (ps.length + i) = b.job? i := by
  cases hp : us[i]? with
  | some p =>
    have hp' : (ps ++ us)[ps.length + i]? = some p := (getElem?_eq ps us i).trans hp
    rw [(hsound.job_of_ahead hp' (by omega)).1, (hsound'.job_of_ahead hp (by omega)).1]
  | none =>
    have hle := List.getElem?_eq_none_iff.1 hp
    have hsize := hsound.size
    have hsize' := hsound'.size
    rw [List.length_append] at hsize
    have hout : a.machine.jobs.size ≤ ps.length + i := by omega
    have hout' : b.machine.jobs.size ≤ i := by omega
    change a.machine.jobs[ps.length + i]? = b.machine.jobs[i]?
    rw [Array.getElem?_eq_none_iff.2 hout, Array.getElem?_eq_none_iff.2 hout']

/-- As many have arrived. -/
theorem arrivedBefore_eq (h : Behind ps a b) {t : Nat} (ht : a.now.toNat ≤ t) (us : ProcessList) :
    arrivedBefore (ps ++ us) t = ps.length + arrivedBefore us t := by
  apply arrivedBefore_append_left
  intro p hp
  exact Nat.lt_of_lt_of_le (h.past p hp) ht

/-- The same jobs are in line. -/
theorem line_eq (h : Behind ps a b) (us : ProcessList) :
    a.line (ps ++ us) = (b.line us).map (ps.length + ·) := by
  rw [line, line, h.now, h.queue, h.admitted, h.arrivedBefore_eq (Nat.le_succ _),
    Nat.add_sub_add_left, List.map_append, List.map_add_range']

/-- The same job has the turn. -/
theorem turn_eq {ta tb : Turn} (h : Behind ps a b) (hk : Contract.Kept (ps ++ us))
    (hk' : Contract.Kept us) (hsound : a.Sound (ps ++ us)) (hsound' : b.Sound us)
    (hfits : (ps ++ us).FitsClock) (hfits' : us.FitsClock) (hma : Serves (ps ++ us) a ta a')
    (hmb : Serves us b tb b') : ta = tb.behind ps.length := by
  have hline := h.line_eq us
  rw [hma.line_eq_cons hk hsound, hmb.line_eq_cons hk' hsound', List.map_cons,
    List.cons.injEq] at hline
  obtain ⟨hposition, hrest⟩ := hline
  have hprocess := hma.process
  rw [hposition, getElem?_eq, hmb.process, Option.some.injEq] at hprocess
  have hjob := hma.job
  rw [hposition, h.jobs, hmb.job, Option.some.injEq] at hjob
  have hearly := hma.early_eq hk hsound
  rw [h.arrivedBefore_eq (Nat.le_succ _), ← h.now, ← hmb.early_eq hk' hsound'] at hearly
  have hnow : b'.now = a'.now := by
    rw [hma.now, hmb.now, h.now, h.quantum, Turn.run, Turn.run, hjob]
  have hlate : ta.late = ps.length + tb.late := by
    rw [← hma.admitted, ← hmb.admitted, (hsound.serves hk hma).admitted_eq hk hfits,
      (hsound'.serves hk' hmb).admitted_eq hk' hfits', h.arrivedBefore_eq hma.now_le, hnow]
  cases ta
  simp only at hposition hrest hprocess hjob hearly hlate
  simp only [Turn.behind, hposition, hrest, ← hprocess, ← hjob, hearly, hlate]

/-- The same turn leads to states that stand alike. -/
theorem serves {tb : Turn} (h : Behind ps a b)
    (hma : Serves (ps ++ us) a (tb.behind ps.length) a') (hmb : Serves us b tb b') :
    Behind ps a' b' := by
  have hrun : (tb.behind ps.length).run a.quantum = tb.run b.quantum := by
    rw [h.quantum]
    rfl
  have hends : (tb.behind ps.length).Ends a.quantum ↔ tb.Ends b.quantum := by
    rw [h.quantum]
    rfl
  have hnow : b'.now = a'.now := by rw [hma.now, hmb.now, h.now, hrun]
  have hmem : ∀ i, ps.length + i ∈ (tb.behind ps.length).rest ↔ i ∈ tb.rest := by
    intro i
    simp [Turn.behind]
  refine ⟨fun p hp => Nat.lt_of_lt_of_le (h.past p hp) hma.now_le, hnow, ?_, ?_, ?_, fun i => ?_⟩
  · rw [hma.frame.quantum, hmb.frame.quantum, h.quantum]
  · rw [hma.admitted, hmb.admitted]
    rfl
  · have hback : (if (tb.behind ps.length).Ends a.quantum then []
        else [(tb.behind ps.length).position]) =
        (if tb.Ends b.quantum then [] else [tb.position]).map (ps.length + ·) := by
      by_cases hends' : tb.Ends b.quantum
      · rw [if_pos hends', if_pos (hends.2 hends'), List.map_nil]
      · rw [if_neg hends', if_neg (mt hends.1 hends')]
        rfl
    rw [hma.queue, hmb.queue, hback, List.map_append, List.map_append, List.map_add_range']
    simp only [Turn.behind, Nat.add_sub_add_left]
  · by_cases hposition : i = tb.position
    · rw [hposition, hmb.served, hnow, h.now, h.quantum]
      exact hma.served
    by_cases hrest : i ∈ tb.rest
    · rw [hma.waited _ ((hmem i).2 hrest), hmb.waited i hrest, h.jobs i, hrun]
    by_cases hentered : tb.early ≤ i ∧ i < tb.late
    · rw [hma.entered _ (Nat.add_le_add_left hentered.1 _) (Nat.add_lt_add_left hentered.2 _),
        hmb.entered i hentered.1 hentered.2, h.jobs i]
    · have hout : i < tb.early ∨ tb.late ≤ i := by omega
      have hout' : ps.length + i < ps.length + tb.early ∨ ps.length + tb.late ≤ ps.length + i := by
        omega
      rw [hma.untouched _ (fun heq => hposition (Nat.add_left_cancel heq)) (mt (hmem i).1 hrest)
        hout', hmb.untouched i hposition hrest hout, h.jobs i]

/-- The same gap leads to states that stand alike. -/
theorem skips {p : Process} (h : Behind ps a b) (hma : Skips (ps ++ us) a p a')
    (hmb : Skips us b p b') : Behind ps a' b' where
  past q hq := by
    have hnow : a'.now = p.arrival := congrArg (·.now) hma.machine
    have hlater := UInt64.lt_iff_toNat_lt.1 hma.later
    have := h.past q hq
    rw [hnow]
    omega
  now := (congrArg (·.now) hmb.machine).trans (congrArg (·.now) hma.machine).symm
  quantum := by rw [hma.frame.quantum, hmb.frame.quantum, h.quantum]
  admitted := by rw [hma.admitted, hmb.admitted, h.admitted]
  queue := by
    have hqueue : a'.queue = a.queue := congrArg (·.ready.slots) hma.machine
    have hqueue' : b'.queue = b.queue := congrArg (·.ready.slots) hmb.machine
    rw [hqueue, hqueue', h.queue]
  jobs i := by rw [hma.job_eq, hmb.job_eq, h.jobs i]

/-- In states that stand alike, the same process is the next one. -/
theorem next_iff (h : Behind ps a b) {p : Process} :
    (ps ++ us)[a.admitted]? = some p ↔ us[b.admitted]? = some p := by
  rw [h.admitted, getElem?_eq]

section Runs

variable (hk : Contract.Kept (ps ++ us)) (hk' : Contract.Kept us) (hfits : (ps ++ us).FitsClock)
  (hfits' : us.FitsClock)

include hk hk' hfits hfits'

/-- Steps from states that stand alike lead to states that stand alike. -/
theorem step {new new' : Array Stamped} (h : Behind ps a b) (horderly : a.Orderly (ps ++ us))
    (horderly' : b.Orderly us) (hstep : a.step = .ok (new, a'))
    (hstep' : b.step = .ok (new', b')) : Behind ps a' b' := by
  have hline : a.line (ps ++ us) = [] ↔ b.line us = [] := by rw [h.line_eq us, List.map_eq_nil_iff]
  have hadmitted : a.admitted = (ps ++ us).length ↔ b.admitted = us.length := by
    rw [h.admitted, List.length_append, Nat.add_left_cancel_iff]
  rcases horderly.steps_alike horderly' hk hk' hstep hstep' hline hadmitted with
    ⟨rfl, rfl⟩ | ⟨p, q, hma, hmb⟩ | ⟨ta, tb, hma, hmb⟩
  · exact h
  · have hnext := h.next_iff.1 hma.next
    rw [hmb.next, Option.some.injEq] at hnext
    subst hnext
    exact h.skips hma hmb
  · obtain rfl := h.turn_eq hk hk' horderly.sound horderly'.sound hfits hfits' hma hmb
    exact h.serves hma hmb

/-- Runs from states that stand alike lead to states that stand alike. -/
theorem steps {n : Nat} {events events' : Array Stamped} (h : Behind ps a b)
    (horderly : a.Orderly (ps ++ us)) (horderly' : b.Orderly us)
    (hrun : a.steps n = .ok (events, a')) (hrun' : b.steps n = .ok (events', b')) :
    Behind ps a' b' := by
  induction n generalizing events events' a' b' with
  | zero =>
    cases hrun
    cases hrun'
    exact h
  | succ n ih =>
    obtain ⟨before, u, new, hbefore, hstep, rfl⟩ := steps_succ_eq_ok_iff.1 hrun
    obtain ⟨before', u', new', hbefore', hstep', rfl⟩ := steps_succ_eq_ok_iff.1 hrun'
    have hu := (horderly.run hk hbefore).2.1
    have hu' := (horderly'.run hk' hbefore').2.1
    exact (ih hbefore hbefore').step hk hk' hfits hfits' hu hu' hstep hstep'

end Runs

end Behind

section Separate

variable {first : Process} {rest : ProcessList} {config : Config} {s₁ s₂ fin fin₁ fin₂ : Simulation}
  {events events₁ events₂ : Array Stamped}

/-- The runs of both lists and of the second list alone stand alike when the second list starts. -/
theorem exists_behind (hstart : start (ps ++ first :: rest) config = .ok s)
    (hstart₂ : start (first :: rest) config = .ok s₂) (hfits : (ps ++ first :: rest).FitsClock)
    (hfinish : ps.finish ≤ first.arrival.toNat) :
    ∃ n events u n₂ events₂ u₂, s.steps n = .ok (events, u) ∧ s₂.steps n₂ = .ok (events₂, u₂) ∧
      Behind ps u u₂ := by
  have hk := kept_of_start hstart
  have hk₂ := kept_of_start hstart₂
  obtain ⟨n, events, u, hrun, hnow, hadmitted, hempty⟩ := exists_turnover hstart hfits hfinish
  have hstart₂' : start ([] ++ first :: rest) config = .ok s₂ := hstart₂
  obtain ⟨n₂, events₂, u₂, hrun₂, hnow₂, hadmitted₂, hempty₂⟩ :=
    exists_turnover hstart₂' hfits.right (Nat.zero_le _)
  obtain ⟨hreaches, horderly, _⟩ := (orderly_start hstart).run hk hrun
  obtain ⟨hreaches₂, horderly₂, _⟩ := (orderly_start hstart₂).run hk₂ hrun₂
  have hsound := horderly.sound
  have hsound₂ := horderly₂.sound
  refine ⟨n, events, u, n₂, events₂, u₂, hrun, hrun₂, ?_⟩
  exact {
    past := by
      rw [hnow]
      exact ProcessList.arrival_lt_of_finish hk hfinish
    now := hnow₂.trans hnow.symm
    quantum := (hreaches₂.quantum_eq hstart₂).trans (hreaches.quantum_eq hstart).symm
    admitted := by
      rw [hadmitted, hadmitted₂]
      rfl
    queue := by rw [hempty, hempty₂, List.map_nil]
    jobs := Behind.job?_of_ahead hsound hsound₂ hadmitted hadmitted₂ }

section Ends

variable {timings timings₁ timings₂ : List Timing}
  (hstart : start (ps ++ first :: rest) config = .ok s)
  (hstart₁ : start ps config = .ok s₁) (hstart₂ : start (first :: rest) config = .ok s₂)
  (hfits : (ps ++ first :: rest).FitsClock) (hfinish : ps.finish ≤ first.arrival.toNat)
  (hends : s.Concludes events fin timings) (hends₁ : s₁.Concludes events₁ fin₁ timings₁)
  (hends₂ : s₂.Concludes events₂ fin₂ timings₂)

include hstart hstart₁ hfits hfinish hends hends₁ in
/-- The jobs of the first list end as they do alone, since all of them complete before the second
list starts. -/
theorem job?_first {i : Nat} (hi : i < ps.length) : fin.job? i = fin₁.job? i := by
  have hsound := (hends₁.orderly hstart₁).2.sound
  obtain ⟨hall, hempty⟩ := hsound.allCompleted_iff.1 hends₁.completed
  obtain ⟨job, completion, hjob, _, _, _, _, hcompletion, hle⟩ :=
    hsound.finished_of_not_mem (List.getElem?_eq_getElem hi) (by omega)
      (by rw [hempty]; exact List.not_mem_nil)
  have hnow := (hends₁.finish hstart₁ hfits.left).1
  have hearly : completion.toNat ≤ first.arrival.toNat := by
    have := UInt64.le_iff_toNat_le.1 hle
    omega
  have hlate := ((kept_of_start hstart).right (List.cons_ne_nil first rest)).first_arrival_le
  have hstart₁' : start (ps ++ []) config = .ok s₁ := by rwa [List.append_nil]
  have hfits' : (ps ++ []).FitsClock := by
    rw [List.append_nil]
    exact hfits.left
  obtain ⟨n, hrun⟩ := hends.steps
  obtain ⟨n₁, hrun₁⟩ := hends₁.steps
  obtain ⟨k, hlong, hlong₁⟩ :=
    exists_steps_of_completed hrun hends.completed hrun₁ hends₁.completed
  obtain ⟨_, hclose, _⟩ := (agree_start rfl hstart hstart₁').close.steps
    (course_start hlate hstart hfits) (course_start (List.forall_mem_nil _) hstart₁' hfits') hlong
    hlong₁
  rw [hjob, hclose.matches_left i _ job completion (List.getElem?_eq_getElem hi) hjob hcompletion
    hearly]

include hstart hstart₂ hfits hfinish hends hends₂ in
/-- The jobs of the second list end as they do alone. -/
theorem job?_second (i : Nat) : fin.job? (ps.length + i) = fin₂.job? i := by
  have hk := kept_of_start hstart
  have hk₂ := kept_of_start hstart₂
  obtain ⟨m, before, u, m₂, before₂, u₂, hbefore, hbefore₂, hbehind⟩ :=
    exists_behind hstart hstart₂ hfits hfinish
  have horderly := ((orderly_start hstart).run hk hbefore).2.1
  have horderly₂ := ((orderly_start hstart₂).run hk₂ hbefore₂).2.1
  obtain ⟨n, hrun⟩ := hends.steps
  obtain ⟨n₂, hrun₂⟩ := hends₂.steps
  obtain ⟨_, hafter⟩ := exists_steps_to_end hbefore hrun hends.completed
  obtain ⟨_, hafter₂⟩ := exists_steps_to_end hbefore₂ hrun₂ hends₂.completed
  obtain ⟨k, hlong, hlong₂⟩ :=
    exists_steps_of_completed hafter hends.completed hafter₂ hends₂.completed
  exact (hbehind.steps hk hk₂ hfits hfits.right horderly horderly₂ hlong hlong₂).jobs i

include hstart hstart₁ hstart₂ hfits hfinish hends hends₁ hends₂ in
/-- The timings of all processes are those of both lists. -/
theorem timings_eq_append : timings = timings₁ ++ timings₂ := by
  have hlen : fin₁.machine.jobs.toList.length = ps.length := (hends₁.orderly hstart₁).2.sound.size
  have hjobs : fin.machine.jobs.toList =
      fin₁.machine.jobs.toList ++ fin₂.machine.jobs.toList := by
    apply List.ext_getElem?
    intro i
    by_cases hi : i < ps.length
    · rw [List.getElem?_append_left (by omega), Array.getElem?_toList, Array.getElem?_toList]
      exact job?_first hstart hstart₁ hfits hfinish hends hends₁ hi
    · obtain ⟨j, rfl⟩ := Nat.exists_eq_add_of_le (Nat.le_of_not_lt hi)
      rw [List.getElem?_append_right (by omega), hlen, Nat.add_sub_cancel_left,
        Array.getElem?_toList, Array.getElem?_toList]
      exact job?_second hstart hstart₂ hfits hfinish hends hends₂ j
  have htimed := hends.timed
  rw [hjobs, List.mapM_append, hends₁.timed, Fault.ok_bind, hends₂.timed, Fault.ok_bind] at htimed
  exact (Except.ok.inj htimed).symm

include hstart hstart₁ hstart₂ hends hends₁ hends₂ in
/-- There are as many preemptions in all as in the runs of both lists. -/
theorem preemptions_eq_add : fin.scheduler.preemptions.toNat =
    fin₁.scheduler.preemptions.toNat + fin₂.scheduler.preemptions.toNat := by
  have hall := (hends.orderly hstart).1.preemptions_add_length hstart hends.completed
  have hleft := (hends₁.orderly hstart₁).1.preemptions_add_length hstart₁ hends₁.completed
  have hright := (hends₂.orderly hstart₂).1.preemptions_add_length hstart₂ hends₂.completed
  rw [ProcessList.totalRounds_append, List.length_append] at hall
  omega

end Ends

/-- A report of all processes is made of the reports of both lists. -/
theorem Concludes.exists_reports {timings₁ timings₂ : List Timing}
    (hends : s.Concludes events fin (timings₁ ++ timings₂))
    (hends₁ : s₁.Concludes events₁ fin₁ timings₁) (hends₂ : s₂.Concludes events₂ fin₂ timings₂)
    (hpreemptions : fin.scheduler.preemptions.toNat =
      fin₁.scheduler.preemptions.toNat + fin₂.scheduler.preemptions.toNat)
    {report : Report} (hreport : s.run = .ok report) :
    ∃ report₁ report₂, s₁.run = .ok report₁ ∧ s₂.run = .ok report₂ ∧
      report.timings = report₁.timings ++ report₂.timings ∧
      report.preemptions.toNat = report₁.preemptions.toNat + report₂.preemptions.toNat := by
  rw [hends.run_eq] at hreport
  rw [hends₁.run_eq, hends₂.run_eq]
  have htotals := (Report.exists_ofTimings_iff _ _).1 ⟨report, hreport⟩
  obtain ⟨report₁, hreport₁⟩ :=
    (Report.exists_ofTimings_iff timings₁ fin₁.scheduler.preemptions).2 htotals.left
  obtain ⟨report₂, hreport₂⟩ :=
    (Report.exists_ofTimings_iff timings₂ fin₂.scheduler.preemptions).2 htotals.right
  have htold := Report.totals_of_ofTimings hreport
  have htold₁ := Report.totals_of_ofTimings hreport₁
  have htold₂ := Report.totals_of_ofTimings hreport₂
  refine ⟨report₁, report₂, hreport₁, hreport₂, ?_, ?_⟩
  · rw [htold.timings_eq, htold₁.timings_eq, htold₂.timings_eq]
  · rw [htold.preemptions_eq, htold₁.preemptions_eq, htold₂.preemptions_eq, hpreemptions]

/-- If the first process of the second list arrives when the first list is done, or later, then the
results of the run of both lists are those of the run of the first list followed by those of the
run of the second list, and the preemptions add up. -/
theorem runs_separate (hne : ps ≠ []) (hstart : start (ps ++ first :: rest) config = .ok s)
    (hfits : (ps ++ first :: rest).FitsClock) :
    ∃ s₁ events₁ fin₁ timings₁, start ps config = .ok s₁ ∧ s₁.Concludes events₁ fin₁ timings₁ ∧
      (∀ report₁, s₁.run = .ok report₁ → report₁.makespan = Report.lastCompletion timings₁) ∧
      (Report.lastCompletion timings₁ ≤ first.arrival →
        ∃ s₂ events₂ fin₂ timings₂ events fin, start (first :: rest) config = .ok s₂ ∧
          s₂.Concludes events₂ fin₂ timings₂ ∧
          s.Concludes events fin (timings₁ ++ timings₂) ∧
          fin.scheduler.preemptions.toNat =
            fin₁.scheduler.preemptions.toNat + fin₂.scheduler.preemptions.toNat ∧
          ∀ report, s.run = .ok report → ∃ report₁ report₂, s₁.run = .ok report₁ ∧
            s₂.run = .ok report₂ ∧ report.timings = report₁.timings ++ report₂.timings ∧
            report.preemptions.toNat =
              report₁.preemptions.toNat + report₂.preemptions.toNat) := by
  obtain ⟨hquantum, hk, _⟩ := start_eq_ok_iff.1 hstart
  have hstart₁ : start ps config = .ok _ := start_eq_ok_iff.2 ⟨hquantum, hk.left hne, rfl⟩
  have hstart₂ : start (first :: rest) config = .ok _ :=
    start_eq_ok_iff.2 ⟨hquantum, hk.right (List.cons_ne_nil first rest), rfl⟩
  obtain ⟨events, fin, timings, hends⟩ := exists_concludes hstart hfits
  obtain ⟨events₁, fin₁, timings₁, hends₁⟩ := exists_concludes hstart₁ hfits.left
  obtain ⟨events₂, fin₂, timings₂, hends₂⟩ := exists_concludes hstart₂ hfits.right
  refine ⟨_, events₁, fin₁, timings₁, hstart₁, hends₁, fun _ hreport => hends₁.makespan_eq hreport,
    fun hgap => ?_⟩
  have hfinish : ps.finish ≤ first.arrival.toNat := by
    rw [← hends₁.lastCompletion_eq hstart₁ hfits.left]
    exact UInt64.le_iff_toNat_le.1 hgap
  obtain rfl := timings_eq_append hstart hstart₁ hstart₂ hfits hfinish hends hends₁ hends₂
  have hpreemptions := preemptions_eq_add hstart hstart₁ hstart₂ hends hends₁ hends₂
  exact ⟨_, events₂, fin₂, timings₂, events, fin, hstart₂, hends₂, hends, hpreemptions,
    fun _ hreport => hends.exists_reports hends₁ hends₂ hpreemptions hreport⟩

/-- With a quantum of `2`, the first of these processes arrives at the end of the last slice of the
first three processes of `arrivalsAtSlices`, and the second one within its own first slice. -/
def nextShift : ProcessList :=
  [{ pid := ⟨4⟩, arrival := 9, burst := 3 }, { pid := ⟨5⟩, arrival := 10, burst := 3 }]

theorem runs_separate_nextShift :
    ∃ s report,
      start (arrivalsAtSlices.take 3 ++ nextShift) { quantum := 2, checks := true } = .ok s ∧
      s.run = .ok report ∧ arrivalsAtSlices.take 3 ≠ [] ∧
      ProcessList.FitsClock (arrivalsAtSlices.take 3 ++ nextShift) ∧
      ∃ s₁ events₁ fin₁ timings₁,
        start (arrivalsAtSlices.take 3) { quantum := 2, checks := true } = .ok s₁ ∧
        s₁.Concludes events₁ fin₁ timings₁ ∧ Report.lastCompletion timings₁ = 9 ∧
        ∃ s₂ events₂ fin₂ timings₂ events fin,
          start nextShift { quantum := 2, checks := true } = .ok s₂ ∧
          s₂.Concludes events₂ fin₂ timings₂ ∧
          s.Concludes events fin (timings₁ ++ timings₂) ∧
          fin.scheduler.preemptions.toNat =
            fin₁.scheduler.preemptions.toNat + fin₂.scheduler.preemptions.toNat ∧
          ∃ report₁ report₂, s₁.run = .ok report₁ ∧ s₂.run = .ok report₂ ∧
            report.timings = report₁.timings ++ report₂.timings ∧
            report.preemptions.toNat =
              report₁.preemptions.toNat + report₂.preemptions.toNat := by
  have hne : arrivalsAtSlices.take 3 ≠ [] := by decide
  obtain ⟨s, report, hstart, hreport⟩ : ∃ s report,
      start (arrivalsAtSlices.take 3 ++ nextShift) { quantum := 2, checks := true } = .ok s ∧
        s.run = .ok report := ⟨_, _, rfl, rfl⟩
  have hfits : ProcessList.FitsClock (arrivalsAtSlices.take 3 ++ nextShift) := by decide
  obtain ⟨s₁, events₁, fin₁, timings₁, hstart₁, hends₁, hmakespan, hnext⟩ :=
    runs_separate hne hstart hfits
  obtain ⟨alone, report₁, hstart', hreport₁, hnine⟩ : ∃ alone report₁,
      start (arrivalsAtSlices.take 3) { quantum := 2, checks := true } = .ok alone ∧
        alone.run = .ok report₁ ∧ report₁.makespan = 9 := ⟨_, _, rfl, rfl, rfl⟩
  obtain rfl := Except.ok.inj (hstart'.symm.trans hstart₁)
  have hlast : Report.lastCompletion timings₁ = 9 := (hmakespan report₁ hreport₁).symm.trans hnine
  have hgap : Report.lastCompletion timings₁ ≤ 9 := by
    rw [hlast]
    exact UInt64.le_refl 9
  obtain ⟨s₂, events₂, fin₂, timings₂, events, fin, hstart₂, hends₂, hends, hpreemptions,
    hreports⟩ := hnext hgap
  exact ⟨s, report, hstart, hreport, hne, hfits, alone, events₁, fin₁, timings₁, hstart₁, hends₁,
    hlast, s₂, events₂, fin₂, timings₂, events, fin, hstart₂, hends₂, hends, hpreemptions,
    hreports report hreport⟩

end Separate

end Simulation

end RoundRobin
