import RoundRobin.Pipeline
import RoundRobin.Proofs.Delay
import RoundRobin.Proofs.ProcessList
import RoundRobin.Proofs.Quantum

/-!
# From text to report

What has been read from data keeps a part of the contract already, so that only the order of the
arrivals and the identifiers are left to be refused (`prepare_refusals`). The times that data can
declare are 32-bit words, and with no more than `65536` processes neither the clock nor a total
comes to an end: then the whole way from text to report never halts (`run_of_few`).
-/

namespace RoundRobin

namespace ProcessList

variable {ps : ProcessList}

/-- Of a list that has been read, the contract asks that its arrivals never decrease and that no
identifier comes twice. -/
theorem Declared.kept_iff (h : ps.Declared) :
    Contract.Kept ps ↔ ps.Pairwise (fun p later => p.arrival ≤ later.arrival) ∧
      ps.Pairwise (fun p later => p.pid ≠ later.pid) :=
  ⟨fun hk => ⟨hk.sorted, hk.distinct⟩, fun ⟨hsorted, hdistinct⟩ =>
    ⟨h.ne_nil, hsorted, fun p hp => (h.process p hp).burst_pos, hdistinct⟩⟩

/-- Nothing else can be wrong with it. -/
theorem Declared.check_cases (h : ps.Declared) {violation : Violation}
    (hcheck : Contract.check ps = some violation) :
    (∃ index pid arrival previous, violation = .unsortedArrivals index pid arrival previous) ∨
      ∃ pid, violation = .duplicatePid pid := by
  rw [Contract.check, if_neg (by rw [List.isEmpty_iff]; exact h.ne_nil)] at hcheck
  exact Contract.firstViolation_cases (fun p hp => (h.process p hp).burst_pos) hcheck

/-- With bursts that are 32-bit words, the work is no more than so many of them. -/
theorem totalBurst_le (h : ∀ p ∈ ps, p.burst.toNat < UInt32.size) :
    ps.totalBurst ≤ ps.length * (UInt32.size - 1) := by
  have hle : ∀ a ∈ ps.map (·.burst.toNat), a ≤ UInt32.size - 1 := by
    intro a ha
    obtain ⟨p, hp, rfl⟩ := List.mem_map.1 ha
    exact Nat.le_sub_one_of_lt (h p hp)
  have hsum := List.sum_le_card_nsmul _ _ hle
  rwa [List.length_map] at hsum

/-- A process gets no more slices than it needs ticks. -/
theorem totalRounds_le {quantum : Ticks} (hquantum : 0 < quantum.toNat) (ps : ProcessList) :
    ps.totalRounds quantum ≤ ps.totalBurst :=
  List.sum_le_sum fun p _ =>
    (quantaFor_le_iff hquantum).2 (Nat.le_mul_of_pos_right p.burst.toNat hquantum)

/-- The most work that `65536` processes can declare. -/
def mostWork : Nat :=
  65536 * (UInt32.size - 1)

variable (h : ps.Declared) (hcount : ps.length ≤ 65536)

include h hcount

/-- Some of so few processes have no more work. -/
theorem Declared.totalBurst_le {qs : ProcessList} (hqs : qs.Sublist ps) :
    qs.totalBurst ≤ mostWork := by
  have hwork := qs.totalBurst_le fun q hq => (h.process q (hqs.subset hq)).burst_lt
  have hlen := Nat.le_trans hqs.length_le hcount
  exact Nat.le_trans hwork (Nat.mul_le_mul_right _ hlen)

/-- The clock can show when so few processes are done. -/
theorem Declared.fitsClock : ps.FitsClock := by
  have hwork := h.totalBurst_le hcount (List.Sublist.refl ps)
  have hlast : ps.lastArrival ≤ UInt32.size - 1 :=
    lastArrival_le fun p hp => Nat.le_sub_one_of_lt (h.process p hp).arrival_lt
  exact Nat.lt_of_le_of_lt (Nat.add_le_add hlast hwork) (by decide)

end ProcessList

/-- What so few processes record adds up to a word, if it is no more than their work. -/
theorem sum_lt_size {timings : List Timing} (hcount : timings.length ≤ 65536)
    {f : Timing → Nat} (hf : ∀ timing ∈ timings, f timing ≤ ProcessList.mostWork) :
    (timings.map f).sum < UInt64.size := by
  have hle := List.sum_le_card_nsmul _ _ (List.forall_mem_map.2 hf)
  rw [List.length_map] at hle
  exact Nat.lt_of_le_of_lt (Nat.le_trans hle (Nat.mul_le_mul_right _ hcount)) (by decide)

/-- A report on a list in which no process was held up for longer than the others have work, and the
totals are those of all processes. -/
structure Report.WithinWork (report : Report) (ps : ProcessList) : Prop where
  length : report.timings.length = ps.length
  timing : ∀ i p, ps[i]? = some p → ∃ timing, report.timings[i]? = some timing ∧
    timing.pid = p.pid ∧ timing.waiting.toNat ≤ ProcessList.totalBurst (ps.eraseIdx i) ∧
    timing.response.toNat ≤ ProcessList.totalBurst (ps.eraseIdx i)
  waiting : report.totalWaiting.toNat = (report.timings.map (·.waiting.toNat)).sum
  response : report.totalResponse.toNat = (report.timings.map (·.response.toNat)).sum

namespace Simulation

variable {ps : ProcessList} {s : Simulation} {config : Config}

/-- The totals of so few processes are words. -/
theorem Reaches.totalsFit_of_declared (hstart : start ps config = .ok s) (hdeclared : ps.Declared)
    (hcount : ps.length ≤ 65536) {events : List Stamped} {fin : Simulation}
    (hr : Reaches ps s events fin) (hdone : fin.allCompleted = true) {timings : List Timing}
    (htimings : fin.machine.jobs.toList.mapM Job.timing = .ok timings) :
    Report.TotalsFit timings := by
  have hfits := hdeclared.fitsClock hcount
  have hlen := length_of_mapM (hr.sound hstart) htimings
  have hentry : ∀ timing ∈ timings, timing.waiting.toNat ≤ ProcessList.mostWork ∧
      timing.response.toNat ≤ ProcessList.mostWork := by
    intro timing hmem
    obtain ⟨i, hi⟩ := List.getElem?_of_mem hmem
    have hlt : i < ps.length := hlen ▸ (List.getElem?_eq_some_iff.1 hi).1
    obtain ⟨_, hsame, _, hwaiting, hresponse⟩ :=
      hr.timing_le_others hstart hfits hdone htimings (List.getElem?_eq_getElem hlt)
    rw [hi, Option.some.injEq] at hsame
    subst hsame
    have hothers := hdeclared.totalBurst_le hcount (List.eraseIdx_sublist ps i)
    exact ⟨Nat.le_trans hwaiting hothers, Nat.le_trans hresponse hothers⟩
  have hdispatches : (timings.map (·.dispatches.toNat)).sum < UInt64.size := by
    have hrounds := ProcessList.totalRounds_le (quantum_pos_of_start hstart) ps
    rw [hr.map_dispatches hstart hdone htimings]
    unfold ProcessList.FitsClock at hfits
    unfold ProcessList.totalRounds at hrounds
    omega
  exact ⟨sum_lt_size (hlen ▸ hcount) fun timing hmem => (hentry timing hmem).1,
    sum_lt_size (hlen ▸ hcount) fun timing hmem => (hentry timing hmem).2, hdispatches⟩

/-- The run of so few processes ends with a report. -/
theorem exists_report_of_declared (hstart : start ps config = .ok s) (hdeclared : ps.Declared)
    (hcount : ps.length ≤ 65536) : ∃ report, s.run = .ok report ∧ report.WithinWork ps := by
  have hfits := hdeclared.fitsClock hcount
  obtain ⟨n, events, fin, timings, _, hdone, hcomplete, hreaches, htimings, _⟩ :=
    exists_timings hstart hfits
  obtain ⟨report, hreport⟩ :=
    (Report.exists_ofTimings_iff timings fin.scheduler.preemptions).2
      (hreaches.totalsFit_of_declared hstart hdeclared hcount hdone htimings)
  have htotals := Report.totals_of_ofTimings hreport
  refine ⟨report, (run_eq_ofTimings hcomplete htimings).trans hreport, ?_⟩
  constructor
  · rw [htotals.timings_eq]
    exact length_of_mapM (hreaches.sound hstart) htimings
  · rw [htotals.timings_eq]
    intro i p hp
    exact hreaches.timing_le_others hstart hfits hdone htimings hp
  · rw [htotals.timings_eq, htotals.waiting]
  · rw [htotals.timings_eq, htotals.response]

end Simulation

namespace Pipeline

variable {data : List UInt8} {quantum : String} {ps : ProcessList} {v : Nat}

theorem prepare_of_not_denotes (hdata : ProcessList.parse data = .ok ps)
    (hquantum : ¬ ∃ v, Quantum.Denotes quantum v) :
    prepare (ProcessList.parse data) quantum = .error (.input (.invalidQuantum quantum)) := by
  rw [hdata, prepare, Quantum.parse_eq_error hquantum]
  rfl

theorem prepare_of_denotes (hdata : ProcessList.parse data = .ok ps)
    (hquantum : Quantum.Denotes quantum v) :
    prepare (ProcessList.parse data) quantum =
      (Simulation.start ps { quantum := .ofNat v, checks := true }).mapError .contract := by
  have hvalue : (UInt64.ofNat v).toNat = v := UInt64.toNat_ofNat_of_lt' hquantum.lt_size
  have hparse : Quantum.parse quantum = .ok (.ofNat v) := by
    rw [Quantum.parse_eq_ok_iff, hvalue]
    exact hquantum
  have hconfig : Config.ofQuantum (.ofNat v) = .ok { quantum := .ofNat v, checks := true } := by
    apply if_neg
    rw [← UInt64.toNat_inj, hvalue]
    exact Nat.ne_of_gt hquantum.pos
  rw [hdata, prepare, hparse]
  change ((Config.ofQuantum (.ofNat v)).mapError Failure.contract >>= fun config =>
    (Simulation.start ps config).mapError .contract) = _
  rw [hconfig]
  rfl

/-- What becomes of data and the text of a quantum. -/
inductive Prepares (data : List UInt8) (quantum : String) : Except Failure Simulation → Prop where
  | unread {e : InputError} : ProcessList.parse data = .error e → e.OfData →
      Prepares data quantum (.error (.input e))
  | noQuantum {ps : ProcessList} : ProcessList.parse data = .ok ps →
      ¬ (∃ v, Quantum.Denotes quantum v) →
      Prepares data quantum (.error (.input (.invalidQuantum quantum)))
  | broken {ps : ProcessList} {v : Nat} {violation : Violation} : ProcessList.parse data = .ok ps →
      Quantum.Denotes quantum v → ¬ Contract.Kept ps → Contract.check ps = some violation →
      Prepares data quantum (.error (.contract violation))
  | started {ps : ProcessList} {v : Nat} {s : Simulation} : ProcessList.parse data = .ok ps →
      Quantum.Denotes quantum v → Contract.Kept ps →
      Simulation.start ps { quantum := .ofNat v, checks := true } = .ok s →
      Prepares data quantum (.ok s)

theorem prepares (data : List UInt8) (quantum : String) :
    Prepares data quantum (prepare (ProcessList.parse data) quantum) := by
  cases hdata : ProcessList.parse data with
  | error e => exact .unread hdata (ProcessList.ofData_of_parse hdata)
  | ok ps =>
    rw [← hdata]
    by_cases hquantum : ∃ v, Quantum.Denotes quantum v
    · obtain ⟨v, hv⟩ := hquantum
      have hpos : 0 < UInt64.ofNat v := by
        rw [UInt64.lt_iff_toNat_lt, UInt64.toNat_ofNat_of_lt' hv.lt_size]
        exact hv.pos
      rw [prepare_of_denotes hdata hv]
      cases hstart : Simulation.start ps { quantum := .ofNat v, checks := true } with
      | ok s => exact .started hdata hv (Simulation.kept_of_start hstart) hstart
      | error violation =>
        have hcheck := (Simulation.start_eq_error_iff hpos).1 hstart
        refine .broken hdata hv ?_ hcheck
        rw [← Contract.check_eq_none_iff, hcheck]
        exact Option.some_ne_none violation
    · rw [prepare_of_not_denotes hdata hquantum]
      exact .noQuantum hdata hquantum

namespace Prepares

variable {outcome : Except Failure Simulation}

/-- The data are to blame exactly if they are not a process list. -/
theorem data_iff (h : Prepares data quantum outcome) :
    (∃ e, ProcessList.parse data = .error e ∧ outcome = .error (.input e)) ↔
      ¬ ∃ ps, ProcessList.parse data = .ok ps := by
  cases h with
  | unread hdata _ => simp [hdata]
  | noQuantum hdata _ => simp [hdata]
  | broken hdata _ _ _ => simp [hdata]
  | started hdata _ _ _ => simp [hdata]

/-- Next, the quantum is to blame exactly if its text denotes no positive word. -/
theorem quantum_iff (h : Prepares data quantum outcome) :
    outcome = .error (.input (.invalidQuantum quantum)) ↔
      (∃ ps, ProcessList.parse data = .ok ps) ∧ ¬ ∃ v, Quantum.Denotes quantum v := by
  cases h with
  | @unread e hdata hkind =>
    have hother : e ≠ .invalidQuantum quantum := by
      rintro rfl
      exact hkind
    simp [hdata, hother]
  | @noQuantum ps hdata hquantum => exact iff_of_true rfl ⟨⟨ps, hdata⟩, hquantum⟩
  | @broken _ v _ _ hquantum _ _ => exact iff_of_false (by simp) fun h => h.2 ⟨v, hquantum⟩
  | @started _ v _ _ hquantum _ _ => exact iff_of_false (by simp) fun h => h.2 ⟨v, hquantum⟩

/-- Next, the contract is broken exactly if arrivals decrease or an identifier comes twice. -/
theorem contract_iff (h : Prepares data quantum outcome) :
    (∃ violation, outcome = .error (.contract violation)) ↔
      ∃ ps v, ProcessList.parse data = .ok ps ∧ Quantum.Denotes quantum v ∧
        (¬ ps.Pairwise (fun p later => p.arrival ≤ later.arrival) ∨
          ¬ ps.Pairwise (fun p later => p.pid ≠ later.pid)) := by
  cases h with
  | unread hdata _ => simp [hdata]
  | noQuantum _ hquantum =>
    apply iff_of_false
    · rintro ⟨violation, hviolation⟩
      cases hviolation
    · rintro ⟨_, v, _, hv, _⟩
      exact hquantum ⟨v, hv⟩
  | @broken ps v violation hdata hquantum hnot _ =>
    rw [(ProcessList.declared_of_parse hdata).kept_iff, Classical.not_and_iff_not_or_not] at hnot
    exact iff_of_true ⟨violation, rfl⟩ ⟨ps, v, hdata, hquantum, hnot⟩
  | started hdata _ hk _ =>
    apply iff_of_false
    · rintro ⟨violation, hviolation⟩
      cases hviolation
    · rintro ⟨qs, _, hqs, _, hnot⟩
      rw [hdata, Except.ok.injEq] at hqs
      subst hqs
      exact Classical.not_and_iff_not_or_not.2 hnot ⟨hk.sorted, hk.distinct⟩

/-- An error is one that data can have, or that of the quantum, or one of two violations. -/
theorem error_cases {failure : Failure} (h : Prepares data quantum (.error failure)) :
    (∃ e, ProcessList.parse data = .error e ∧ e.OfData ∧ failure = .input e) ∨
      failure = .input (.invalidQuantum quantum) ∨
      (∃ index pid arrival previous,
        failure = .contract (.unsortedArrivals index pid arrival previous)) ∨
      ∃ pid, failure = .contract (.duplicatePid pid) := by
  cases h with
  | @unread e hdata hkind => exact .inl ⟨e, hdata, hkind, rfl⟩
  | noQuantum _ _ => exact .inr (.inl rfl)
  | broken hdata _ _ hcheck =>
    rcases (ProcessList.declared_of_parse hdata).check_cases hcheck with
      ⟨index, pid, arrival, previous, rfl⟩ | ⟨pid, rfl⟩
    · exact .inr (.inr (.inl ⟨index, pid, arrival, previous, rfl⟩))
    · exact .inr (.inr (.inr ⟨pid, rfl⟩))

end Prepares

/-- When the way from data and the text of a quantum to a simulation fails, and with what. -/
structure Refusals (data : List UInt8) (quantum : String) (outcome : Except Failure Simulation) :
    Prop where
  data_iff : (∃ e, ProcessList.parse data = .error e ∧ outcome = .error (.input e)) ↔
    ¬ ∃ ps, ProcessList.parse data = .ok ps
  quantum_iff : outcome = .error (.input (.invalidQuantum quantum)) ↔
    (∃ ps, ProcessList.parse data = .ok ps) ∧ ¬ ∃ v, Quantum.Denotes quantum v
  contract_iff : (∃ violation, outcome = .error (.contract violation)) ↔
    ∃ ps v, ProcessList.parse data = .ok ps ∧ Quantum.Denotes quantum v ∧
      (¬ ps.Pairwise (fun p later => p.arrival ≤ later.arrival) ∨
        ¬ ps.Pairwise (fun p later => p.pid ≠ later.pid))
  cases : ∀ failure, outcome = .error failure →
    (∃ e, ProcessList.parse data = .error e ∧ e.OfData ∧ failure = .input e) ∨
      failure = .input (.invalidQuantum quantum) ∨
      (∃ index pid arrival previous,
        failure = .contract (.unsortedArrivals index pid arrival previous)) ∨
      ∃ pid, failure = .contract (.duplicatePid pid)

/-- The way from data and the text of a quantum to a simulation fails on the data exactly if they
are not a process list, next on the quantum exactly if its text is not a positive decimal below
`2 ^ 64`, and next on the contract exactly if arrivals decrease or an identifier comes twice. No
other violation of the contract gets that far. -/
theorem prepare_refusals (data : List UInt8) (quantum : String) :
    Refusals data quantum (prepare (ProcessList.parse data) quantum) := by
  have hprepares := prepares data quantum
  refine ⟨hprepares.data_iff, hprepares.quantum_iff, hprepares.contract_iff, ?_⟩
  intro failure hfailure
  rw [hfailure] at hprepares
  exact hprepares.error_cases

/-- The way from data and the text of a quantum to a report never halts if the data declare no more
than `65536` processes: something is wrong with the input, or there is a report. There is a report
exactly if the data are a process list that keeps the contract and the text denotes a quantum. -/
theorem run_of_few (data : List UInt8) (quantum : String)
    (hcount : ∀ ps, ProcessList.parse data = .ok ps → ps.length ≤ 65536) :
    ((∃ e, run data quantum = .error (.input e)) ∨
      (∃ violation, run data quantum = .error (.contract violation)) ∨
      ∃ ps report, ProcessList.parse data = .ok ps ∧ run data quantum = .ok report ∧
        report.WithinWork ps) ∧
    ((∃ report, run data quantum = .ok report) ↔
      ∃ ps v, ProcessList.parse data = .ok ps ∧ Quantum.Denotes quantum v ∧ Contract.Kept ps) := by
  have hprepares := prepares data quantum
  unfold run
  generalize prepare (ProcessList.parse data) quantum = outcome at hprepares ⊢
  cases hprepares with
  | @unread e hdata _ =>
    exact ⟨.inl ⟨e, rfl⟩, iff_of_false nofun fun ⟨_, _, hok, _⟩ => nomatch hdata.symm.trans hok⟩
  | @noQuantum _ _ hquantum =>
    exact ⟨.inl ⟨_, rfl⟩, iff_of_false nofun fun ⟨_, v, _, hv, _⟩ => hquantum ⟨v, hv⟩⟩
  | @broken ps _ violation hdata _ hbroken _ =>
    refine ⟨.inr (.inl ⟨violation, rfl⟩), iff_of_false nofun ?_⟩
    rintro ⟨qs, _, hqs, _, hkept⟩
    rw [hdata, Except.ok.injEq] at hqs
    exact hbroken (hqs ▸ hkept)
  | @started ps v s hdata hquantum hkept hstart =>
    obtain ⟨report, hreport, hwithin⟩ := Simulation.exists_report_of_declared hstart
      (ProcessList.declared_of_parse hdata) (hcount ps hdata)
    have hrun : s.run.mapError Failure.halted = .ok report := by
      rw [hreport]
      rfl
    exact ⟨.inr (.inr ⟨ps, report, hdata, hrun, hwithin⟩),
      iff_of_true ⟨report, hrun⟩ ⟨ps, v, hdata, hquantum, hkept⟩⟩

/-- The bytes of the line `2 1 0 3 2 1 2`: two processes, with pids `1` and `2`. -/
def twoDeclared : List UInt8 :=
  [0x32, 0x20, 0x31, 0x20, 0x30, 0x20, 0x33, 0x20, 0x32, 0x20, 0x31, 0x20, 0x32]

theorem run_of_few_twoDeclared :
    (∀ ps, ProcessList.parse twoDeclared = .ok ps → ps.length ≤ 65536) ∧
      ∃ ps report, ProcessList.parse twoDeclared = .ok ps ∧ run twoDeclared "2" = .ok report ∧
        report.WithinWork ps := by
  have hparse : ProcessList.parse twoDeclared =
      .ok [{ pid := ⟨1⟩, arrival := 0, burst := 3 }, { pid := ⟨2⟩, arrival := 1, burst := 2 }] := by
    rfl
  have hcount : ∀ ps, ProcessList.parse twoDeclared = .ok ps → ps.length ≤ 65536 := by
    intro ps hps
    rw [hparse, Except.ok.injEq] at hps
    rw [← hps]
    decide
  have hquantum : Quantum.Denotes "2" 2 :=
    ⟨by simp [Quantum.IsNumeral], by decide, by decide, by decide⟩
  obtain ⟨houtcome, hreports⟩ := run_of_few twoDeclared "2" hcount
  obtain ⟨report, hreport⟩ := hreports.2
    ⟨_, 2, hparse, hquantum, by decide, by decide, by decide, by decide⟩
  refine ⟨hcount, ?_⟩
  rcases houtcome with ⟨e, he⟩ | ⟨violation, hviolation⟩ | hreported
  · rw [hreport] at he
    cases he
  · rw [hreport] at hviolation
    cases hviolation
  · exact hreported

end Pipeline

end RoundRobin
