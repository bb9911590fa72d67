import RoundRobin.Proofs.Invariant

/-!
# Audits of a sound simulation

The audit after a step checks a part of what holds between steps, so a sound state passes it
whichever job is named as the one that ran (`Sound.audit`).
-/

namespace RoundRobin

/-- A loop over a list goes through if it goes through at every entry. -/
theorem Fault.forM_of {α : Type} {f : α → Except Fault Unit} (l : List α)
    (h : ∀ a ∈ l, f a = .ok ()) : l.forM f = .ok () := by
  induction l with
  | nil => rfl
  | cons a rest ih =>
    change (f a >>= fun _ => rest.forM f) = _
    rw [h a List.mem_cons_self, Fault.ok_bind]
    apply ih
    intro b hb
    exact h b (List.mem_cons_of_mem a hb)

namespace Simulation

namespace Sound

variable {ps : ProcessList} {s : Simulation}

theorem auditQueue (h : s.Sound ps) : s.machine.auditQueue = .ok () := by
  rw [Machine.auditQueue, Fault.require_of h.consistent.size_members.symm, Fault.ok_bind]
  apply Fault.forM_of
  intro i hi
  obtain ⟨p, job, hp, hjob, hphase, haccounts, hwork, _⟩ := h.ready_of_mem hi
  have hpos : 0 < job.remaining := UInt64.lt_iff_toNat_lt.2 hwork
  have harrival : job.arrival ≤ s.now := by
    rw [haccounts.arrival]
    exact h.arrived i p hp (h.queue_lt i hi)
  simp only [Machine.auditQueued, Machine.job_eq_ok_iff.2 hjob, Fault.ok_bind,
    Fault.require_of hphase, Fault.require_of hpos, Fault.require_of harrival]

theorem auditAccount (h : s.Sound ps) {i : Nat} (hi : i < ps.length) :
    s.machine.auditAccount i = .ok () := by
  obtain ⟨job, hjob, haccounts, hstanding⟩ := h.standing i _ (List.getElem?_eq_getElem hi)
  have hsum : job.cpuTime.addChecked job.remaining = .ok job.burst := by
    rw [Word.addChecked_eq_ok_iff, haccounts.burst]
    exact haccounts.spent.symm
  have htimes : job.phase = .finished → job.completion.isSome ∧ job.response.isSome := by
    intro hphase
    simp only [Standing, hphase] at hstanding
    obtain ⟨_, _, _, hresponse, completion, hcompletion, _⟩ := hstanding
    exact ⟨by rw [hcompletion]; rfl, hresponse⟩
  simp only [Machine.auditAccount, Machine.job_eq_ok_iff.2 hjob, Fault.ok_bind, hsum,
    Fault.require_of htimes]
  rfl

/-- A sound state passes the audit, whichever job is named as the one that ran. -/
theorem audit (h : s.Sound ps) {touched : Option Nat}
    (htouched : ∀ i, touched = some i → i < ps.length) : s.machine.audit touched = .ok () := by
  have hcurrent : s.machine.auditCurrent = .ok () := by
    rw [Machine.auditCurrent, h.free]
  simp only [Machine.audit, hcurrent, h.auditQueue, Fault.ok_bind]
  cases touched with
  | none => rfl
  | some i => exact h.auditAccount (htouched i rfl)

end Sound

end Simulation

end RoundRobin
