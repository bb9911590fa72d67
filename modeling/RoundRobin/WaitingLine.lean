import RoundRobin.ReadyQueue

/-!
# Waiting lines

What the ready queue is for its users: a line of jobs in the order in which they came, with no job
in it twice. A line keeps no second record of who is in it, so there is nothing that could come
apart. The calls are the same on both sides, and so are the answers; `replay` makes calls one after
the other up to the first fault.
-/

namespace RoundRobin

namespace ReadyQueue

/-- A call of an operation of the queue. -/
inductive Call where
  | push (job : Nat)
  | pop
  | contains (job : Nat)
  | size
  | isEmpty
  | toList
  deriving DecidableEq, Inhabited

/-- What a call answers. -/
inductive Answer where
  | pushed
  | popped (front : Option Nat)
  | contains (found : Bool)
  | size (jobs : Nat)
  | isEmpty (empty : Bool)
  | toList (jobs : List Nat)
  deriving DecidableEq, Inhabited

/-- What the queue answers to a call, and the queue after it. -/
def apply (q : ReadyQueue) : Call → Except Fault (Answer × ReadyQueue)
  | .push job => do
    let q ← q.push job
    return (.pushed, q)
  | .pop => do
    match ← q.pop with
    | none => return (.popped none, q)
    | some (job, q) => return (.popped (some job), q)
  | .contains job => .ok (.contains (q.contains job), q)
  | .size => .ok (.size q.size, q)
  | .isEmpty => .ok (.isEmpty q.isEmpty, q)
  | .toList => .ok (.toList q.toList, q)

/-- Calls one after the other: the answers, and what is left in the end. A fault ends them, and the
answers are those from before it. -/
def replay {σ : Type} (apply : σ → Call → Except Fault (Answer × σ)) (s : σ) :
    List Call → Except (List Answer × Fault) (List Answer × σ)
  | [] => .ok ([], s)
  | call :: calls =>
    match apply s call with
    | .error fault => .error ([], fault)
    | .ok (answer, s) =>
      match replay apply s calls with
      | .error (answers, fault) => .error (answer :: answers, fault)
      | .ok (answers, last) => .ok (answer :: answers, last)

/-- Calls that go through: the first one answers, and the others go through after it. -/
theorem exists_of_replay_cons {σ : Type} {apply : σ → Call → Except Fault (Answer × σ)}
    {s last : σ} {call : Call} {calls : List Call} {answers : List Answer}
    (h : replay apply s (call :: calls) = .ok (answers, last)) :
    ∃ answer s' rest, apply s call = .ok (answer, s') ∧
      replay apply s' calls = .ok (rest, last) ∧ answers = answer :: rest := by
  rw [replay] at h
  split at h
  · cases h
  · next answer s' hcall =>
    split at h
    · cases h
    · next rest _ hrest =>
      cases h
      exact ⟨answer, s', rest, hcall, hrest, rfl⟩

/-- The jobs that are pushed, in the order of the calls. -/
def pushes (calls : List Call) : List Nat :=
  calls.filterMap fun
    | .push job => some job
    | _ => none

/-- The jobs that came out, in the order of the answers. -/
def popped (answers : List Answer) : List Nat :=
  answers.filterMap fun
    | .popped front => front
    | _ => none

theorem pushes_cons (call : Call) (calls : List Call) :
    pushes (call :: calls) = pushes [call] ++ pushes calls :=
  List.filterMap_append (l := [call])

theorem popped_cons (answer : Answer) (answers : List Answer) :
    popped (answer :: answers) = popped [answer] ++ popped answers :=
  List.filterMap_append (l := [answer])

end ReadyQueue

/-- Jobs in the order in which they came. -/
structure WaitingLine where
  jobs : List Nat := []
  nodup : jobs.Nodup := by decide

namespace WaitingLine

instance : Inhabited WaitingLine := ⟨{}⟩

/-- The line with one more job at its end. -/
def enter (line : WaitingLine) (job : Nat) (hnew : job ∉ line.jobs) : WaitingLine where
  jobs := line.jobs ++ [job]
  nodup := by
    rw [List.nodup_append]
    refine ⟨line.nodup, by simp, ?_⟩
    rintro a ha b hb rfl
    exact hnew (List.mem_singleton.1 hb ▸ ha)

/-- The line without its first job. -/
def leave (line : WaitingLine) : WaitingLine where
  jobs := line.jobs.tail
  nodup := line.nodup.sublist (List.tail_sublist line.jobs)

theorem jobs_enter (line : WaitingLine) (job : Nat) (hnew : job ∉ line.jobs) :
    (line.enter job hnew).jobs = line.jobs ++ [job] := rfl

theorem jobs_leave (line : WaitingLine) : line.leave.jobs = line.jobs.tail := rfl

/-- What the line answers to a call, and the line after it. -/
def apply (line : WaitingLine) :
    ReadyQueue.Call → Except Fault (ReadyQueue.Answer × WaitingLine)
  | .push job =>
    if h : job ∈ line.jobs then .error (.alreadyQueued job) else .ok (.pushed, line.enter job h)
  | .pop => .ok (.popped line.jobs.head?, line.leave)
  | .contains job => .ok (.contains (job ∈ line.jobs), line)
  | .size => .ok (.size line.jobs.length, line)
  | .isEmpty => .ok (.isEmpty line.jobs.isEmpty, line)
  | .toList => .ok (.toList line.jobs, line)

end WaitingLine

end RoundRobin
