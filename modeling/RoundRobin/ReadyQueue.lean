import RoundRobin.Fault
import Std.Data.TreeSet

/-!
# The ready queue

The ready queue holds the jobs that wait for the processor, oldest first. Beside the slots it keeps
the set of its members, so that a second entry of one job is caught without a search. The two are
updated apart; `Consistent` says that they agree, and every operation keeps it.
-/

namespace RoundRobin

/-- A first-in first-out queue of jobs, with the set of the jobs in it. -/
structure ReadyQueue where
  slots : List Nat := []
  members : Std.TreeSet Nat := ∅

namespace ReadyQueue

instance : Inhabited ReadyQueue := ⟨{}⟩

/-- Puts a job at the back; a member may not enter a second time. -/
def push (q : ReadyQueue) (job : Nat) : Except Fault ReadyQueue :=
  if q.members.contains job then
    .error (.alreadyQueued job)
  else
    .ok { slots := q.slots ++ [job], members := q.members.insert job }

/-- Takes the job at the front, if there is one, and gives the queue without it. -/
def pop (q : ReadyQueue) : Except Fault (Option (Nat × ReadyQueue)) :=
  match q.slots with
  | [] => .ok none
  | job :: rest =>
    if q.members.contains job then
      .ok (some (job, { slots := rest, members := q.members.erase job }))
    else
      .error (.membershipLost job)

/-- Whether a job is a member. -/
def contains (q : ReadyQueue) (job : Nat) : Bool :=
  q.members.contains job

/-- The queued jobs, oldest first. -/
def toList (q : ReadyQueue) : List Nat :=
  q.slots

/-- The number of queued jobs. -/
def size (q : ReadyQueue) : Nat :=
  q.slots.length

/-- No job is queued. -/
def isEmpty (q : ReadyQueue) : Bool :=
  q.slots.isEmpty

/-- No job is queued twice, and the members are exactly the queued jobs. -/
structure Consistent (q : ReadyQueue) : Prop where
  nodup : q.slots.Nodup
  mem_iff : ∀ job, job ∈ q.members ↔ job ∈ q.slots

theorem consistent_empty : Consistent {} where
  nodup := List.nodup_nil
  mem_iff job := by simp

theorem toList_of_push {q q' : ReadyQueue} {job : Nat} (h : q.push job = .ok q') :
    q'.toList = q.toList ++ [job] := by
  unfold push at h
  split at h
  · simp at h
  · cases h
    rfl

theorem push_eq_ok_iff {q : ReadyQueue} {job : Nat} (hq : q.Consistent) :
    (∃ q', q.push job = .ok q') ↔ job ∉ q.toList := by
  unfold push toList
  rw [← hq.mem_iff, ← Std.TreeSet.contains_iff_mem]
  split <;> simp_all

theorem Consistent.push {q q' : ReadyQueue} {job : Nat} (hq : q.Consistent)
    (h : q.push job = .ok q') : q'.Consistent := by
  have hnew := (push_eq_ok_iff hq).1 ⟨q', h⟩
  have hslots := toList_of_push h
  unfold ReadyQueue.push at h
  split at h
  · simp at h
  · cases h
    refine ⟨?_, fun i => ?_⟩
    · rw [List.nodup_append]
      refine ⟨hq.nodup, by simp, ?_⟩
      intro a ha b hb
      rw [List.mem_singleton] at hb
      subst hb
      intro hab
      subst hab
      exact hnew ha
    · simp only [Std.TreeSet.mem_insert, Nat.compare_eq_eq, List.mem_append, List.mem_singleton]
      rw [hq.mem_iff]
      constructor
      · rintro (rfl | hi)
        · exact .inr rfl
        · exact .inl hi
      · rintro (hi | rfl)
        · exact .inr hi
        · exact .inl rfl

/-- Removing the front of a consistent queue always succeeds, and gives the oldest job. -/
theorem pop_eq {q : ReadyQueue} (hq : q.Consistent) :
    (q.toList = [] ∧ q.pop = .ok none) ∨
      ∃ job q', q.toList = job :: q'.toList ∧ q.pop = .ok (some (job, q')) := by
  unfold pop toList
  split
  · next h => exact .inl ⟨h, rfl⟩
  · next job rest h =>
    have hmem : q.members.contains job = true := by
      rw [Std.TreeSet.contains_iff_mem, hq.mem_iff, h]
      exact List.mem_cons_self
    exact .inr ⟨job, { slots := rest, members := q.members.erase job }, h, by simp [hmem]⟩

theorem Consistent.pop {q q' : ReadyQueue} {job : Nat} (hq : q.Consistent)
    (h : q.pop = .ok (some (job, q'))) : q'.Consistent := by
  unfold ReadyQueue.pop at h
  split at h
  · simp at h
  · next front rest hslots =>
    have hnodup := hq.nodup
    rw [hslots, List.nodup_cons] at hnodup
    split at h
    · simp only [Except.ok.injEq, Option.some.injEq, Prod.mk.injEq] at h
      obtain ⟨rfl, rfl⟩ := h
      refine ⟨hnodup.2, fun i => ?_⟩
      simp only [Std.TreeSet.mem_erase, ne_eq, Nat.compare_eq_eq, hq.mem_iff, hslots,
        List.mem_cons]
      constructor
      · rintro ⟨hne, rfl | hi⟩
        · exact absurd rfl hne
        · exact hi
      · intro hi
        refine ⟨?_, .inr hi⟩
        rintro rfl
        exact hnodup.1 hi
    · simp at h

end ReadyQueue

end RoundRobin
