import RoundRobin.CommandLine
import RoundRobin.Proofs.Pipeline
import RoundRobin.Proofs.Turnaround

/-!
# The command line and its log

The log level decides which statistics are worked out after the summary has been printed, and the
average turnaround among them is a fold over differences that could be missing. They are not: in a
report no process completes before it arrives (`arrival_le_of_complete`), so every turnaround is a
word. Every level then comes to the same exit code and output (`level_irrelevant`).
-/

namespace RoundRobin

/-- An error that is put among the failures stays an error. -/
theorem Failure.mapError_eq_ok_iff {ε α : Type} {x : Except ε α} {f : ε → Failure} {a : α} :
    x.mapError f = .ok a ↔ x = .ok a := by
  cases x <;> simp [Except.mapError]

theorem Failure.mapError_bind_eq_ok_iff {ε α β : Type} {x : Except ε α} {f : ε → Failure}
    {g : α → Except Failure β} {b : β} :
    (x.mapError f >>= g) = .ok b ↔ ∃ a, x = .ok a ∧ g a = .ok b := by
  cases x <;> simp [Except.mapError, bind, Except.bind]

/-- If every process has a turnaround, they have an average. -/
theorem Report.exists_averageTurnaround {report : Report}
    (h : ∀ timing ∈ report.timings, ∃ turnaround, timing.turnaround = .ok turnaround) :
    ∃ mean, report.averageTurnaround = .ok mean := by
  obtain ⟨turnarounds, hturnarounds, _⟩ := Fault.mapM_of report.timings h
  rw [averageTurnaround, hturnarounds, Fault.ok_bind]
  split
  · exact ⟨_, rfl⟩
  · exact ⟨_, rfl⟩

theorem Timing.exists_turnaround {timing : Timing} (h : timing.arrival ≤ timing.completion) :
    ∃ turnaround, timing.turnaround = .ok turnaround := by
  have hle := UInt64.le_iff_toNat_le.1 h
  have hdifference := UInt64.toNat_sub_of_le _ _ h
  exact ⟨timing.completion - timing.arrival, Word.subChecked_eq_ok_iff.2 (by omega)⟩

namespace Simulation

variable {ps : ProcessList} {s done : Simulation} {report : Report}

/-- No process of a report completed before it arrived. -/
theorem Elapsed.arrival_le_of_complete (he : Elapsed ps s) (h : s.Orderly ps)
    (hk : Contract.Kept ps) (hcomplete : s.complete = .ok done)
    (hreport : done.report = .ok report) :
    ∀ timing ∈ report.timings, timing.arrival ≤ timing.completion := by
  obtain ⟨_, _, timings, _, hreaches, hsound, htimings, htotals⟩ :=
    h.exists_timings_of_report hk hcomplete hreport
  rw [htotals.timings_eq]
  exact (he.reaches_of h.sound hk hreaches).arrival_le_completion hsound
    (allCompleted_of_complete hcomplete) htimings

end Simulation

/-- What stands in a transcript besides the lines of the error output. -/
def Transcript.result (t : Transcript) : UInt8 × String :=
  (t.exitCode, t.output)

namespace CommandLine

variable {ps : ProcessList} {s : Simulation} {config : Config}

/-- What a simulation comes to, whatever is logged on the way. -/
def resultOf (s : Simulation) : UInt8 × String :=
  match s.traced.run with
  | .error _ => (101, "")
  | .ok report => (0, summary report)

/-- The statistics behind the summary do not halt the command if the turnarounds exist. -/
theorem result_conclude {report : Report}
    (h : ∀ timing ∈ report.timings, timing.arrival ≤ timing.completion) (setting : LogLevel)
    (errorLines : List String) :
    (conclude setting errorLines report).result = (0, summary report) := by
  obtain ⟨mean, hmean⟩ :=
    report.exists_averageTurnaround fun timing hmem => Timing.exists_turnaround (h timing hmem)
  unfold conclude
  split
  · rw [hmean]
    rfl
  · rfl

/-- A simulation that was started comes to the same result at every level. -/
theorem result_execute (hstart : Simulation.start ps config = .ok s) (setting : LogLevel) :
    (execute setting s).result = resultOf s := by
  have hinitial : Simulation.Elapsed ps s := .start hstart
  have helapsed : Simulation.Elapsed ps s.traced := hinitial
  have horderly : s.traced.Orderly ps := (Simulation.orderly_start hstart).tracedIf true
  unfold execute resultOf Simulation.run
  cases hcomplete : s.traced.complete with
  | error fault => rfl
  | ok done =>
    simp only [Fault.ok_bind]
    cases hreport : done.report with
    | error fault => rfl
    | ok report =>
      exact result_conclude (helapsed.arrival_le_of_complete horderly
        (Simulation.kept_of_start hstart) hcomplete hreport) setting _

/-- What is prepared from a list and a quantum is the start of a simulation. -/
theorem exists_start_of_prepare {processes : Except InputError ProcessList} {quantum : String}
    (h : Pipeline.prepare processes quantum = .ok s) :
    ∃ ps config, Simulation.start ps config = .ok s := by
  simp only [Pipeline.prepare, Failure.mapError_bind_eq_ok_iff, Failure.mapError_eq_ok_iff] at h
  obtain ⟨ps, _, _, _, config, _, hstart⟩ := h
  exact ⟨ps, config, hstart⟩

/-- The result of the command is the same at any two levels. -/
theorem result_run (read : String → Except ReadFailure (List UInt8)) (args : List String)
    (setting setting' : LogLevel) :
    (run read setting args).result = (run read setting' args).result := by
  unfold run
  split
  · split
    · rfl
    · next hprepare =>
      obtain ⟨ps, config, hstart⟩ := exists_start_of_prepare hprepare
      rw [result_execute hstart, result_execute hstart]
  · rfl

/-- For any files, any arguments and any two settings of the log level, the command has the same
exit code and the same output. In any report the completion of a process is no earlier than its
arrival, so that the turnarounds and their average, which only some levels ask for, exist. -/
theorem level_irrelevant (read : String → Except ReadFailure (List UInt8)) (args : List String)
    (setting setting' : Option String) :
    (run read (.ofSetting setting) args).exitCode = (run read (.ofSetting setting') args).exitCode ∧
    (run read (.ofSetting setting) args).output = (run read (.ofSetting setting') args).output ∧
    ∀ ps config s report, Simulation.start ps config = .ok s → s.run = .ok report →
      (∀ timing ∈ report.timings, timing.arrival ≤ timing.completion ∧
        ∃ turnaround, timing.turnaround = .ok turnaround) ∧
      ∃ mean, report.averageTurnaround = .ok mean := by
  obtain ⟨hexit, houtput⟩ :=
    Prod.mk.inj (result_run read args (.ofSetting setting) (.ofSetting setting'))
  refine ⟨hexit, houtput, fun ps config s report hstart hreport => ?_⟩
  rw [Simulation.run, Fault.bind_eq_ok_iff] at hreport
  obtain ⟨done, hcomplete, hreport⟩ := hreport
  have hle := (Simulation.Elapsed.start hstart).arrival_le_of_complete
    (Simulation.orderly_start hstart) (Simulation.kept_of_start hstart) hcomplete hreport
  have hturnaround := fun timing hmem => Timing.exists_turnaround (hle timing hmem)
  exact ⟨fun timing hmem => ⟨hle timing hmem, hturnaround timing hmem⟩,
    report.exists_averageTurnaround hturnaround⟩

/-- Files that all declare the same two processes. -/
def readTwoDeclared (_path : String) : Except ReadFailure (List UInt8) :=
  .ok Pipeline.twoDeclared

theorem level_irrelevant_twoDeclared :
    (run readTwoDeclared (.ofSetting none) ["list", "2"]).exitCode =
      (run readTwoDeclared (.ofSetting (some "trace")) ["list", "2"]).exitCode ∧
    (run readTwoDeclared (.ofSetting none) ["list", "2"]).output =
      (run readTwoDeclared (.ofSetting (some "trace")) ["list", "2"]).output ∧
    ∃ s report, Simulation.start Simulation.lastArrivals { quantum := 4, checks := true } = .ok s ∧
      s.run = .ok report ∧
      (∀ timing ∈ report.timings, timing.arrival ≤ timing.completion ∧
        ∃ turnaround, timing.turnaround = .ok turnaround) ∧
      ∃ mean, report.averageTurnaround = .ok mean := by
  obtain ⟨s, report, hstart, hreport⟩ : ∃ s report,
      Simulation.start Simulation.lastArrivals { quantum := 4, checks := true } = .ok s ∧
        s.run = .ok report := ⟨_, _, rfl, rfl⟩
  obtain ⟨hexit, houtput, hreports⟩ :=
    level_irrelevant readTwoDeclared ["list", "2"] none (some "trace")
  exact ⟨hexit, houtput, s, report, hstart, hreport, hreports _ _ s report hstart hreport⟩

end CommandLine

end RoundRobin
