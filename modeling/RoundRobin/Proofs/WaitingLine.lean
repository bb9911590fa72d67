import RoundRobin.WaitingLine
import RoundRobin.Proofs.Machine

/-!
# The ready queue as a waiting line

The queue keeps its slots and its set of members apart, and yet it answers every call as a line of
jobs does, from which it differs in nothing that a call can find out (`Represents.apply`,
`Represents.replay`). What went into a line has come out or stands in it, in the order in which it
went in (`WaitingLine.history`). Main statement: `refines_waitingLine`.
-/

namespace RoundRobin

namespace WaitingLine

open ReadyQueue (Call Answer replay pushes popped)

variable {line line' last : WaitingLine} {call : Call} {calls : List Call} {answer : Answer}
  {answers : List Answer}

/-- Nothing but to push a job that stands in the line is refused. -/
theorem apply_eq_error_iff {fault : Fault} : line.apply call = .error fault ↔
    ∃ job ∈ line.jobs, call = .push job ∧ fault = .alreadyQueued job := by
  cases call with
  | push job =>
    rw [apply]
    split
    · next hjob =>
      rw [Except.error.injEq]
      constructor
      · rintro rfl
        exact ⟨job, hjob, rfl, rfl⟩
      · rintro ⟨_, _, hcall, rfl⟩
        cases hcall
        rfl
    · next hjob =>
      constructor
      · intro h
        cases h
      · rintro ⟨_, hmem, hcall, _⟩
        cases hcall
        exact absurd hmem hjob
  | _ => simp [apply]

/-- A job goes in at the end and comes out at the front. -/
theorem history_step (h : line.apply call = .ok (answer, line')) :
    line.jobs ++ pushes [call] = popped [answer] ++ line'.jobs := by
  cases call with
  | push job =>
    rw [apply] at h
    split at h
    · cases h
    · cases h
      rfl
  | pop =>
    cases h
    rw [jobs_leave]
    cases line.jobs with
    | nil => rfl
    | cons job rest => exact List.append_nil (job :: rest)
  | _ =>
    -- the other calls only look at the line
    cases h
    exact List.append_nil _

/-- What stood in the line or went in has come out or stands in it, in the same order. -/
theorem history (h : replay apply line calls = .ok (answers, last)) :
    line.jobs ++ pushes calls = popped answers ++ last.jobs := by
  induction calls generalizing line answers with
  | nil =>
    cases h
    exact List.append_nil _
  | cons call calls ih =>
    obtain ⟨answer, line', rest, hcall, hrest, rfl⟩ := ReadyQueue.exists_of_replay_cons h
    calc line.jobs ++ pushes (call :: calls)
      _ = line.jobs ++ pushes [call] ++ pushes calls := by
        rw [ReadyQueue.pushes_cons call calls, List.append_assoc]
      _ = popped [answer] ++ (line'.jobs ++ pushes calls) := by
        rw [history_step hcall, List.append_assoc]
      _ = popped (answer :: rest) ++ last.jobs := by
        rw [ih hrest, ReadyQueue.popped_cons answer rest, List.append_assoc]

end WaitingLine

namespace ReadyQueue

variable {q : ReadyQueue} {line : WaitingLine} {calls : List Call} {answers : List Answer}

/-- The queue holds the jobs of the line, in the order of the line. -/
structure Represents (q : ReadyQueue) (line : WaitingLine) : Prop where
  consistent : q.Consistent
  toList : q.toList = line.jobs

/-- What a queue ends in and what a line ends in: the same fault, or the same answer, and then the
queue that is left holds the line that is left. -/
inductive Matches {ε α : Type} :
    Except ε (α × ReadyQueue) → Except ε (α × WaitingLine) → Prop where
  | fault (e : ε) : Matches (.error e) (.error e)
  | answer (a : α) {q : ReadyQueue} {line : WaitingLine} (h : q.Represents line) :
      Matches (.ok (a, q)) (.ok (a, line))

theorem Matches.eq_error_iff {ε α : Type} {x : Except ε (α × ReadyQueue)}
    {y : Except ε (α × WaitingLine)} (h : Matches x y) {e : ε} : x = .error e ↔ y = .error e := by
  cases h with
  | fault e' => rw [Except.error.injEq, Except.error.injEq]
  | answer a h => simp

theorem Matches.exists_line {ε α : Type} {a : α} {y : Except ε (α × WaitingLine)}
    (h : Matches (.ok (a, q)) y) : ∃ line, y = .ok (a, line) ∧ q.Represents line := by
  cases h with
  | answer _ h => exact ⟨_, rfl, h⟩

theorem represents_empty : Represents {} {} where
  consistent := consistent_empty
  toList := rfl

/-- The queue answers a call as the line does. -/
theorem Represents.apply (h : q.Represents line) (call : Call) :
    Matches (q.apply call) (line.apply call) := by
  have hslots : q.slots = line.jobs := h.toList
  cases call with
  | push job =>
    by_cases hjob : job ∈ line.jobs
    · have hpush := h.consistent.push_of_mem (hslots ▸ hjob)
      rw [ReadyQueue.apply, hpush, WaitingLine.apply, dif_pos hjob]
      exact .fault _
    · obtain ⟨q', hpush, hslots', hq'⟩ := push_ok h.consistent (hslots ▸ hjob)
      rw [ReadyQueue.apply, hpush, WaitingLine.apply, dif_neg hjob]
      refine .answer _ ⟨hq', hslots'.trans ?_⟩
      rw [WaitingLine.jobs_enter, hslots]
  | pop =>
    cases hjobs : line.jobs with
    | nil =>
      rw [ReadyQueue.apply, pop_nil (hslots.trans hjobs), WaitingLine.apply, hjobs]
      refine .answer _ ⟨h.consistent, hslots.trans ?_⟩
      rw [WaitingLine.jobs_leave, hjobs, List.tail_nil]
    | cons job rest =>
      obtain ⟨q', hpop, hslots', hq'⟩ := pop_cons h.consistent (hslots.trans hjobs)
      rw [ReadyQueue.apply, hpop, WaitingLine.apply, hjobs]
      refine .answer _ ⟨hq', hslots'.trans ?_⟩
      rw [WaitingLine.jobs_leave, hjobs, List.tail_cons]
  | contains job =>
    rw [ReadyQueue.apply, h.consistent.contains_eq, hslots]
    exact .answer _ h
  | size =>
    rw [ReadyQueue.apply, size, hslots]
    exact .answer _ h
  | isEmpty =>
    rw [ReadyQueue.apply, isEmpty, hslots]
    exact .answer _ h
  | toList =>
    rw [ReadyQueue.apply, h.toList]
    exact .answer _ h

/-- The queue answers calls as the line does, up to the first fault. -/
theorem Represents.replay (h : q.Represents line) (calls : List Call) :
    Matches (replay ReadyQueue.apply q calls) (replay WaitingLine.apply line calls) := by
  induction calls generalizing q line with
  | nil => exact .answer [] h
  | cons call calls ih =>
    have hstep := h.apply call
    -- one call on both sides, and then the rest from two states that belong together again
    rw [ReadyQueue.replay, ReadyQueue.replay]
    generalize q.apply call = x at hstep ⊢
    generalize line.apply call = y at hstep ⊢
    cases hstep with
    | fault fault => exact .fault ([], fault)
    | @answer answer q' line' h' =>
      have hrest := ih h'
      dsimp only
      generalize ReadyQueue.replay ReadyQueue.apply q' calls = x at hrest ⊢
      generalize ReadyQueue.replay WaitingLine.apply line' calls = y at hrest ⊢
      cases hrest with
      | fault e => exact .fault (answer :: e.1, e.2)
      | answer answers hlast => exact .answer (answer :: answers) hlast

/-- What a queue is after calls that went through with these answers. -/
structure Tracks (q : ReadyQueue) (calls : List Call) (answers : List Answer) : Prop where
  /-- No job is queued twice, and the members are exactly the queued jobs. -/
  consistent : q.Consistent
  size_members : q.members.size = q.size
  /-- What went in has come out or is still queued, in the order in which it went in. -/
  history : pushes calls = popped answers ++ q.toList
  contains_iff : ∀ job, q.contains job = true ↔ job ∈ q.toList
  /-- To pop never faults, and takes out the oldest job if there is one. -/
  pop_eq : (q.toList = [] ∧ q.pop = .ok none) ∨
    ∃ job q', q.toList = job :: q'.toList ∧ q.pop = .ok (some (job, q'))
  /-- The only call that faults is to push a queued job. -/
  fault_iff : ∀ call fault, q.apply call = .error fault ↔
    ∃ job ∈ q.toList, call = .push job ∧ fault = .alreadyQueued job
  /-- A job is accepted whenever it has come out as often as it went in. -/
  push_iff : ∀ job, (∃ q', q.push job = .ok q') ↔
    (popped answers).count job = (pushes calls).count job

theorem Represents.tracks (h : q.Represents line)
    (hhistory : pushes calls = popped answers ++ line.jobs) : q.Tracks calls answers where
  consistent := h.consistent
  size_members := h.consistent.size_members
  history := by rw [hhistory, h.toList]
  contains_iff job := by
    rw [h.consistent.contains_eq, decide_eq_true_iff]
    rfl
  pop_eq := pop_eq h.consistent
  fault_iff call fault := by
    rw [(h.apply call).eq_error_iff, WaitingLine.apply_eq_error_iff, h.toList]
  push_iff job := by
    rw [push_eq_ok_iff h.consistent, hhistory, List.count_append, h.toList, ← List.count_eq_zero]
    omega

/-- The queue is a waiting line: it answers any calls as the line does, up to the first fault. After
calls that went through it holds what went in and has not come out. -/
theorem refines_waitingLine (calls : List Call) :
    Matches (replay apply {} calls) (replay WaitingLine.apply {} calls) ∧
      ∀ answers q, replay apply {} calls = .ok (answers, q) → q.Tracks calls answers := by
  have hmatches := represents_empty.replay calls
  refine ⟨hmatches, ?_⟩
  intro answers q hq
  rw [hq] at hmatches
  obtain ⟨line, hline, hrepresents⟩ := hmatches.exists_line
  exact hrepresents.tracks (WaitingLine.history hline)

/-- Calls that push a job a second time, once it has come out. -/
def comingBack : List Call :=
  [.push 2, .push 0, .pop, .contains 2, .push 2, .toList, .pop, .size]

theorem refines_waitingLine_comingBack :
    ∃ q, replay apply {} comingBack =
        .ok ([.pushed, .pushed, .popped (some 2), .contains false, .pushed, .toList [0, 2],
          .popped (some 0), .size 1], q) ∧
      q.Tracks comingBack [.pushed, .pushed, .popped (some 2), .contains false, .pushed,
        .toList [0, 2], .popped (some 0), .size 1] :=
  ⟨_, rfl, (refines_waitingLine comingBack).2 _ _ rfl⟩

example : replay apply {} (comingBack ++ [.push 2, .pop]) =
    .error ([.pushed, .pushed, .popped (some 2), .contains false, .pushed, .toList [0, 2],
      .popped (some 0), .size 1], .alreadyQueued 2) := rfl

end ReadyQueue

end RoundRobin
