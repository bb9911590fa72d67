import RoundRobin.ProcessList

/-!
# What can be read as a process list

Whatever the data, a process list that is read from them is not empty, all its processes have work
to do, and its arrivals and bursts are 32-bit words (`declared_of_parse`). What can be wrong with
data is never a matter of a file or of a quantum (`ofData_of_parse`).
-/

namespace RoundRobin

namespace InputError

/-- An error that data can have, once a file has been read and whatever the quantum. -/
def OfData : InputError → Prop
  | unreadable _ _ | invalidQuantum _ => False
  | unexpectedEnd _ | overflow _ | noProcesses | zeroBurst _ => True

variable {α β : Type} {x : Except InputError α} {f : α → Except InputError β}

theorem bind_eq_ok_iff {b : β} : (x >>= f) = .ok b ↔ ∃ a, x = .ok a ∧ f a = .ok b := by
  cases x <;> simp [bind, Except.bind]

theorem bind_eq_error_iff {e : InputError} :
    (x >>= f) = .error e ↔ x = .error e ∨ ∃ a, x = .ok a ∧ f a = .error e := by
  cases x <;> simp [bind, Except.bind]

end InputError

/-- A process as data can declare it. -/
structure Process.Declared (p : Process) : Prop where
  burst_pos : 0 < p.burst
  arrival_lt : p.arrival.toNat < UInt32.size
  burst_lt : p.burst.toNat < UInt32.size

/-- A process list as data can declare it. -/
structure ProcessList.Declared (ps : ProcessList) : Prop where
  ne_nil : ps ≠ []
  process : ∀ p ∈ ps, p.Declared

namespace Reader

variable {r r' : Reader} {p : Process} {e : InputError}

theorem ofData_of_number {expected : Field} (h : r.number expected = .error e) : e.OfData := by
  unfold number at h
  dsimp only at h
  split at h
  · cases h
    trivial
  · split at h
    · cases h
      trivial
    · cases h

theorem declared_of_process (h : r.process = .ok (p, r')) : p.Declared := by
  simp only [process, InputError.bind_eq_ok_iff] at h
  obtain ⟨⟨pid, _⟩, _, ⟨arrival, _⟩, _, ⟨burst, _⟩, _, h⟩ := h
  split at h
  · cases h
  · next hburst =>
    cases h
    refine ⟨?_, arrival.toNat_lt_size, burst.toNat_lt_size⟩
    rw [UInt64.lt_iff_toNat_lt, UInt64.toNat_zero, UInt32.toNat_toUInt64]
    exact Nat.pos_of_ne_zero fun hzero => hburst (UInt32.toNat_inj.1 hzero)

theorem ofData_of_process (h : r.process = .error e) : e.OfData := by
  simp only [process, InputError.bind_eq_error_iff] at h
  rcases h with hpid | ⟨_, _, harrival | ⟨_, _, hburst | ⟨_, _, h⟩⟩⟩
  · exact ofData_of_number hpid
  · exact ofData_of_number harrival
  · exact ofData_of_number hburst
  · split at h
    · cases h
      trivial
    · cases h

/-- The processes that are read go behind those that were read before. -/
theorem declared_of_processes {before after : Array Process} {count : Nat}
    (h : r.processes before count = .ok after) :
    ∃ ps : ProcessList, after.toList = before.toList ++ ps ∧ ps.length = count ∧
      ∀ p ∈ ps, p.Declared := by
  induction count generalizing r before with
  | zero =>
    cases h
    exact ⟨[], (List.append_nil _).symm, rfl, List.forall_mem_nil _⟩
  | succ count ih =>
    rw [processes, InputError.bind_eq_ok_iff] at h
    obtain ⟨⟨p, next⟩, hp, hrest⟩ := h
    obtain ⟨ps, hafter, hlen, hall⟩ := ih hrest
    refine ⟨p :: ps, ?_, by rw [List.length_cons, hlen],
      List.forall_mem_cons.2 ⟨declared_of_process hp, hall⟩⟩
    rw [hafter, Array.toList_push, List.append_assoc, List.singleton_append]

theorem ofData_of_processes {before : Array Process} {count : Nat}
    (h : r.processes before count = .error e) : e.OfData := by
  induction count generalizing r before with
  | zero => cases h
  | succ count ih =>
    rw [processes, InputError.bind_eq_error_iff] at h
    rcases h with hp | ⟨_, _, hrest⟩
    · exact ofData_of_process hp
    · exact ih hrest

end Reader

namespace ProcessList

variable {data : List UInt8} {ps : ProcessList} {e : InputError}

/-- A list that is read from data is one that data can declare. -/
theorem declared_of_parse (h : parse data = .ok ps) : ps.Declared := by
  rw [parse, InputError.bind_eq_ok_iff] at h
  obtain ⟨⟨count, r⟩, _, h⟩ := h
  dsimp only at h
  split at h
  · cases h
  · next hcount =>
    rw [InputError.bind_eq_ok_iff] at h
    obtain ⟨after, hprocesses, h⟩ := h
    cases h
    obtain ⟨ps, hafter, hlen, hall⟩ := Reader.declared_of_processes hprocesses
    rw [hafter]
    refine ⟨?_, hall⟩
    rintro rfl
    exact hcount (UInt32.toNat_inj.1 hlen.symm)

/-- What is wrong with data is an error that data can have. -/
theorem ofData_of_parse (h : parse data = .error e) : e.OfData := by
  rw [parse, InputError.bind_eq_error_iff] at h
  rcases h with hcount | ⟨⟨count, r⟩, _, h⟩
  · exact Reader.ofData_of_number hcount
  · dsimp only at h
    split at h
    · cases h
      trivial
    · rw [InputError.bind_eq_error_iff] at h
      rcases h with hprocesses | ⟨_, _, h⟩
      · exact Reader.ofData_of_processes hprocesses
      · cases h

end ProcessList

end RoundRobin
