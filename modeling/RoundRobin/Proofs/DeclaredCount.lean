import RoundRobin.Proofs.Appending

/-!
# The declared count and the size of the data

Two numbers have at least one byte between them, so data hold at most one number for every two
bytes (`two_mul_length_tokens_le`). A list of `n` processes is `3 * n + 1` numbers, and so takes at
least `6 * n + 1` bytes: the room that is made for it from the beginning is never too small. Data
that are too short for their count are read to their end, unless a number there cannot be read.
Main statement: `countBounded`.
-/

namespace RoundRobin

namespace ProcessList

variable {data : List UInt8} {ts rest : List Token} {pid arrival burst : Token}

/-- Behind a gap, every run of digits has a byte in front of it that is no digit. -/
theorem two_mul_length_digitRuns_le_of_startsApart (offset : Nat) (hdata : StartsApart data) :
    2 * (digitRuns offset data).length ≤ data.length := by
  induction segmented data generalizing offset with
  | gap hgap =>
    rw [digitRuns_gap offset hgap]
    exact Nat.zero_le _
  | @run gap digits rest hgap hdigits hrest _ ih =>
    -- the gap pays for one byte and the run for the other
    have hne : gap ≠ [] := by
      rintro rfl
      exact hdigits.not_startsApart rest hdata
    have hgapLength := List.length_pos_iff.2 hne
    have hdigitsLength := List.length_pos_iff.2 hdigits.ne_nil
    have hlater := ih (offset + gap.length + digits.length) hrest
    rw [digitRuns_gap_append offset hgap, digitRuns_digits_append _ hdigits hrest,
      List.length_cons, List.length_append, List.length_append]
    omega

/-- Data hold at most one number for every two bytes, and one more where they start with a digit. -/
theorem two_mul_length_tokens_le (data : List UInt8) :
    2 * (tokens data).length ≤ data.length + 1 := by
  rw [tokens, List.length_map]
  cases segmented data with
  | gap hgap =>
    rw [digitRuns_gap 0 hgap]
    exact Nat.zero_le _
  | @run gap digits rest hgap hdigits hrest _ =>
    -- only the first run can stand without a gap in front of it
    have hdigitsLength := List.length_pos_iff.2 hdigits.ne_nil
    have hlater :=
      two_mul_length_digitRuns_le_of_startsApart (0 + gap.length + digits.length) hrest
    rw [digitRuns_gap_append 0 hgap, digitRuns_digits_append _ hdigits hrest,
      List.length_cons, List.length_append, List.length_append]
    omega

/-- A process takes three numbers. -/
theorem length_of_processOf {p : Process} (h : processOf ts = .ok (p, rest)) :
    ts.length = rest.length + 3 := by
  have hlength := congrArg List.length (processOf_eq_ok h).2
  rw [List.length_append, List.length_map, List.length_map] at hlength
  rw [hlength, Nat.add_comm]
  rfl

/-- Processes take three numbers each. -/
theorem length_of_processesOf {count : Nat} {ps : ProcessList}
    (h : processesOf count ts = .ok ps) : ps.length = count ∧ 3 * count ≤ ts.length := by
  induction count generalizing ts ps with
  | zero =>
    cases h
    exact ⟨rfl, Nat.zero_le _⟩
  | succ count ih =>
    rw [processesOf_succ, InputError.bind_eq_ok_iff] at h
    obtain ⟨⟨p, rest⟩, hp, h⟩ := h
    rw [InputError.bind_eq_ok_iff] at h
    obtain ⟨later, hlater, h⟩ := h
    cases h
    obtain ⟨hlength, hle⟩ := ih hlater
    rw [length_of_processOf hp, List.length_cons]
    omega

/-- A list that is read from tokens has as many processes as the first of them says, and the others
are enough for them. -/
theorem length_of_ofTokens {ps : ProcessList} (h : ofTokens ts = .ok ps) :
    ∃ first rest, ts = first :: rest ∧ first.value = ps.length ∧ 3 * ps.length ≤ rest.length := by
  rw [ofTokens, InputError.bind_eq_ok_iff] at h
  obtain ⟨⟨count, rest⟩, hcount, h⟩ := h
  obtain ⟨first, rfl, rfl, _⟩ := wordOf_eq_ok hcount
  dsimp only at h
  split at h
  · cases h
  · obtain ⟨hlength, hle⟩ := length_of_processesOf h
    exact ⟨first, rest, rfl, hlength.symm, hlength ▸ hle⟩

/-- Every number is a 32-bit word, and every process that stands complete has work to do. The
numbers come in threes, and the burst is the last of them. -/
structure Legible (ts : List Token) : Prop where
  word : ∀ token ∈ ts, token.value < UInt32.size
  burst_ne_zero : ∀ k token, ts[3 * k + 2]? = some token → token.value ≠ 0

/-- Three numbers are legible if they are words and the last one is not zero. -/
structure LegibleProcess (pid arrival burst : Token) : Prop where
  pid_lt : pid.value < UInt32.size
  arrival_lt : arrival.value < UInt32.size
  burst_lt : burst.value < UInt32.size
  burst_ne_zero : burst.value ≠ 0

theorem legible_cons_iff :
    Legible (pid :: arrival :: burst :: rest) ↔
      LegibleProcess pid arrival burst ∧ Legible rest := by
  constructor
  · rintro ⟨hword, hburst⟩
    simp only [List.forall_mem_cons] at hword
    obtain ⟨hpid, harrival, hburstWord, hrest⟩ := hword
    refine ⟨⟨hpid, harrival, hburstWord, hburst 0 burst rfl⟩, hrest, fun k token htoken => ?_⟩
    exact hburst (k + 1) token htoken
  · rintro ⟨⟨hpid, harrival, hburstWord, hburst⟩, hword, hrest⟩
    constructor
    · simp only [List.forall_mem_cons]
      exact ⟨hpid, harrival, hburstWord, hword⟩
    · intro k token htoken
      cases k with
      | zero =>
        cases htoken
        exact hburst
      | succ k => exact hrest k token htoken

/-- Fewer than three numbers hold no complete process. -/
theorem legible_iff_of_short (hshort : ts.length < 3) :
    Legible ts ↔ ∀ token ∈ ts, token.value < UInt32.size := by
  refine ⟨Legible.word, fun hword => ⟨hword, fun k token htoken => ?_⟩⟩
  have hlt := (List.getElem?_eq_some_iff.1 htoken).1
  omega

/-- Reading goes on behind a number that is a word, and ends there otherwise, though not early. -/
theorem endsEarly_wordOf_cons_bind_iff {α : Type} {expected : Field} {token : Token}
    {next : Nat × List Token → Except InputError α} :
    EndsEarly (wordOf expected (token :: rest) >>= next) ↔
      token.value < UInt32.size ∧ EndsEarly (next (token.value, rest)) := by
  rw [wordOf]
  by_cases hword : token.value < UInt32.size
  · rw [if_pos hword]
    exact (and_iff_right hword).symm
  · rw [if_neg hword]
    refine iff_of_false ?_ fun h => hword h.1
    rintro ⟨_, h⟩
    cases h

theorem endsEarly_processesOf_iff_of_short {count : Nat} (hshort : ts.length < 3) :
    EndsEarly (processesOf (count + 1) ts) ↔ Legible ts := by
  have hnil {α : Type} {expected : Field} {next : Nat × List Token → Except InputError α} :
      EndsEarly (wordOf expected [] >>= next) := ⟨expected, rfl⟩
  rw [legible_iff_of_short hshort]
  match ts, hshort with
  | [], _ => exact iff_of_true hnil (List.forall_mem_nil _)
  | [pid], _ => simp [processesOf, endsEarly_wordOf_cons_bind_iff, hnil]
  | [pid, arrival], _ => simp [processesOf, endsEarly_wordOf_cons_bind_iff, hnil]

/-- Three numbers in front are read as a process, and the data end early behind it. -/
theorem endsEarly_processesOf_cons_iff {count : Nat} :
    EndsEarly (processesOf (count + 1) (pid :: arrival :: burst :: rest)) ↔
      LegibleProcess pid arrival burst ∧ EndsEarly (processesOf count rest) := by
  simp only [processesOf, endsEarly_wordOf_cons_bind_iff]
  by_cases hzero : burst.value = 0
  · rw [if_pos hzero]
    refine iff_of_false ?_ fun h => h.1.burst_ne_zero hzero
    rintro ⟨_, _, _, _, h⟩
    cases h
  · have hlater : EndsEarly (processesOf count rest >>= fun later =>
        .ok (.ofNumbers pid.value arrival.value burst.value :: later)) ↔
        EndsEarly (processesOf count rest) := by
      rw [endsEarly_bind_iff, or_iff_left]
      rintro ⟨_, _, h⟩
      exact not_endsEarly_ok _ h
    rw [if_neg hzero]
    constructor
    · rintro ⟨hpid, harrival, hburst, h⟩
      exact ⟨⟨hpid, harrival, hburst, hzero⟩, hlater.1 h⟩
    · rintro ⟨⟨hpid, harrival, hburst, _⟩, h⟩
      exact ⟨hpid, harrival, hburst, hlater.2 h⟩

/-- Too few numbers for a count are read to their end exactly if all of them are legible. -/
theorem endsEarly_processesOf_iff {count : Nat} (hfew : ts.length < 3 * count) :
    EndsEarly (processesOf count ts) ↔ Legible ts := by
  induction count generalizing ts with
  | zero => omega
  | succ count ih =>
    match ts, hfew with
    | [], _ | [_], _ | [_, _], _ => exact endsEarly_processesOf_iff_of_short (by simp)
    | pid :: arrival :: burst :: rest, hfew =>
      simp only [List.length_cons] at hfew
      rw [endsEarly_processesOf_cons_iff, legible_cons_iff, ih (by omega)]

/-- How the declared count of data and their size go together. -/
structure CountBounded (data : List UInt8) : Prop where
  of_ok : ∀ ps, parse data = .ok ps →
    6 * ps.length + 1 ≤ data.length ∧ ∃ first rest, tokens data = first :: rest ∧
      first.value = ps.length ∧ room first.value data.length = ps.length
  of_short : ∀ first rest, tokens data = first :: rest → 1 ≤ first.value →
    first.value < UInt32.size → data.length < 6 * first.value + 1 →
      (∃ e, parse data = .error e) ∧ (EndsEarly (parse data) ↔ Legible rest)

/-- Data take at least six bytes for each process and one for the count, or they are no process
list. So the room that a list gets from the beginning is exactly what it needs. Data with a count
that they are too short for are an error: they end early exactly if no later number is too large for
a 32-bit word and no process that stands complete is without work. -/
theorem countBounded (data : List UInt8) : CountBounded data where
  of_ok ps h := by
    have hbound := two_mul_length_tokens_le data
    rw [parse_eq] at h
    obtain ⟨first, rest, htokens, hfirst, hle⟩ := length_of_ofTokens h
    rw [htokens, List.length_cons] at hbound
    refine ⟨by omega, first, rest, htokens, hfirst, ?_⟩
    rw [room, hfirst, Nat.min_eq_left]
    omega
  of_short first rest htokens hpos hword hshort := by
    have hbound := two_mul_length_tokens_le data
    rw [htokens, List.length_cons] at hbound
    have hfew : rest.length < 3 * first.value := by omega
    have hread : parse data = processesOf first.value rest := by
      rw [parse_eq, htokens, ofTokens, wordOf, if_pos hword]
      exact if_neg (Nat.ne_of_gt hpos)
    rw [hread]
    refine ⟨?_, endsEarly_processesOf_iff hfew⟩
    cases hresult : processesOf first.value rest with
    | error e => exact ⟨e, rfl⟩
    | ok ps => exact absurd (length_of_processesOf hresult).2 (Nat.not_le_of_lt hfew)

/-- The line `1 1 0 1` has the seven bytes that one process needs. The line `2 1 0 0 3` is too short
for its count, and what it has is one process without work and the start of another. -/
example :
    parse [0x31, 0x20, 0x31, 0x20, 0x30, 0x20, 0x31] =
        .ok [{ pid := ⟨1⟩, arrival := 0, burst := 1 }] ∧
      parse [0x32, 0x20, 0x31, 0x20, 0x30, 0x20, 0x30, 0x20, 0x33] = .error (.zeroBurst ⟨1⟩) :=
  ⟨rfl, rfl⟩

end ProcessList

end RoundRobin
