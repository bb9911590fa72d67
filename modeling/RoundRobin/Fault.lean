import RoundRobin.Process

/-!
# Faults

An operation that is called where it makes no sense stops with a fault. A fault names its cause;
`Fault.message` is the only place that words it. The lemmas on `require` and on sequencing turn a
successful computation into the conditions that it checked.
-/

namespace RoundRobin

/-- Why an operation stopped. -/
inductive Fault where
  /-- A job is named by a position that the machine does not have. -/
  | indexOutOfRange (length index : Nat)
  | addOverflow
  | subOverflow
  /-- A job that stands in the ready queue was pushed again. -/
  | alreadyQueued (job : Nat)
  /-- A job left the slots of the ready queue without being a member. -/
  | membershipLost (job : Nat)
  | admittedTwice (job : Nat) (found : Phase)
  | processorBusy
  | nothingToRequeue
  | requeuedWithoutWork (job : Nat)
  | nothingToRetire
  | retiredWithWork (job : Nat) (remaining : Ticks)
  | zeroQuantum
  | neverDispatched
  | idleWhileReady
  | idleBackwards
  | currentNotRunning (job : Nat) (found : Phase)
  | currentQueued (job : Nat)
  | duplicateEntries (slots members : Nat)
  | queuedNotReady (job : Nat) (found : Phase)
  | queuedWithoutWork (job : Nat)
  | queuedBeforeArrival (job : Nat)
  | burstLost (job : Nat) (accounted burst : Ticks)
  | timingMissing (job : Nat)
  | responseMissing
  | completionMissing
  deriving DecidableEq, Inhabited

namespace Fault

/-- The wording of a failed comparison: the two sides stand on lines of their own. -/
def mismatch (what left right : String) : String :=
  "assertion `left == right` failed: " ++ what ++ "\n  left: " ++ left ++ "\n right: " ++ right

/-- The text of a fault. -/
def message : Fault → String
  | indexOutOfRange length index =>
    "index out of bounds: the len is " ++ Nat.repr length ++ " but the index is " ++ Nat.repr index
  | addOverflow => "attempt to add with overflow"
  | subOverflow => "attempt to subtract with overflow"
  | alreadyQueued job => "Process " ++ Nat.repr job ++ " already present in the ready queue"
  | membershipLost job => "Process " ++ Nat.repr job ++ " missing queue membership"
  | admittedTwice job found =>
    mismatch ("Process " ++ Nat.repr job ++ " admitted twice") found.text Phase.unarrived.text
  | processorBusy => "CPU already running a process"
  | nothingToRequeue => "No running process to requeue"
  | requeuedWithoutWork job => "Requeued process " ++ Nat.repr job ++ " has no work left"
  | nothingToRetire => "No running process to retire"
  | retiredWithWork job remaining =>
    mismatch ("Retiring process " ++ Nat.repr job ++ " with work left")
      (Nat.repr remaining.toNat) "0"
  | zeroQuantum => "Quantum must be positive"
  | neverDispatched => "Retiring process was never dispatched"
  | idleWhileReady => "Idling with a non-empty queue"
  | idleBackwards => "Idle skip must move time forward"
  | currentNotRunning job found =>
    mismatch ("current process " ++ Nat.repr job ++ " must be Running")
      found.text Phase.running.text
  | currentQueued job =>
    "Running process " ++ Nat.repr job ++ " must not appear in the ready queue"
  | duplicateEntries slots members =>
    mismatch "Ready queue holds duplicate entries" (Nat.repr slots) (Nat.repr members)
  | queuedNotReady job found =>
    mismatch ("Queued process " ++ Nat.repr job ++ " must be Ready, found " ++ found.text)
      found.text Phase.ready.text
  | queuedWithoutWork job => "Queued process " ++ Nat.repr job ++ " has no remaining work"
  | queuedBeforeArrival job => "Queued process " ++ Nat.repr job ++ " has not arrived yet"
  | burstLost job accounted burst =>
    mismatch ("Process " ++ Nat.repr job ++ " lost track of its burst")
      (Nat.repr accounted.toNat) (Nat.repr burst.toNat)
  | timingMissing job => "Finished process " ++ Nat.repr job ++ " missing timing stats"
  | responseMissing => "Finished process must have a response time"
  | completionMissing => "Finished process must have a completion time"

/-- Goes on if the condition holds, and stops with the fault otherwise. -/
def require (condition : Prop) [Decidable condition] (fault : Fault) : Except Fault Unit :=
  if condition then .ok () else .error fault

/-- A sequence succeeds exactly if both of its parts do. -/
theorem bind_eq_ok_iff {α β : Type} {x : Except Fault α} {f : α → Except Fault β} {b : β} :
    (x >>= f) = .ok b ↔ ∃ a, x = .ok a ∧ f a = .ok b := by
  cases x <;> simp [bind, Except.bind]

theorem pure_eq_ok_iff {α : Type} {a b : α} : (pure a : Except Fault α) = .ok b ↔ a = b := by
  simp [pure, Except.pure]

theorem require_eq_ok_iff {condition : Prop} [Decidable condition] {fault : Fault} {u : Unit} :
    require condition fault = .ok u ↔ condition := by
  unfold require
  split <;> simp_all

end Fault

namespace Word

/-- The exact sum of two words; a sum that is not a word is a fault. -/
def addChecked (a b : Word) : Except Fault Word :=
  match a.add? b with
  | some c => .ok c
  | none => .error .addOverflow

/-- The exact difference of two words; a difference that is not a word is a fault. -/
def subChecked (a b : Word) : Except Fault Word :=
  match a.sub? b with
  | some c => .ok c
  | none => .error .subOverflow

/-- The exact sum of many words, added up from the left. -/
def sumChecked (words : List Word) : Except Fault Word :=
  words.foldlM addChecked 0

theorem addChecked_eq_ok_iff {a b c : Word} :
    a.addChecked b = .ok c ↔ c.toNat = a.toNat + b.toNat := by
  rw [← add?_eq_some_iff]
  unfold addChecked
  split <;> simp_all

theorem subChecked_eq_ok_iff {a b c : Word} :
    a.subChecked b = .ok c ↔ c.toNat + b.toNat = a.toNat := by
  rw [← sub?_eq_some_iff]
  unfold subChecked
  split <;> simp_all

end Word

end RoundRobin
