import RoundRobin.Proofs.Grammar
import RoundRobin.Proofs.Pipeline

/-!
# Rendered process lists

A process list is rendered as decimal numerals, with any number of zeros in front of them and any
other bytes between them (`Renders`). The tokens of a rendering are these numbers and whatever
follows them (`Renders.exists_values`), and a list that data can declare is what the grammar makes
of its own numbers (`ofTokens_of_numbers`). Main statement: `parse_rendering`.
-/

namespace RoundRobin

namespace Numeral

/-- The decimal digits of a number, with extra zeros in front. -/
def digitsOf (zeros n : Nat) : List Char :=
  List.replicate zeros '0' ++ Nat.toDigits 10 n

/-- The numeral of a number as a text. -/
def padded (zeros n : Nat) : String :=
  String.ofList (digitsOf zeros n)

/-- The numeral of a number as bytes. -/
def written (zeros n : Nat) : List UInt8 :=
  (digitsOf zeros n).map fun c => UInt8.ofNat c.toNat

theorem isDigit_of_mem_digitsOf {zeros n : Nat} {c : Char} (h : c ∈ digitsOf zeros n) :
    c.isDigit = true := by
  rcases List.mem_append.1 h with hzero | hdigit
  · rw [List.eq_of_mem_replicate hzero]
    rfl
  · exact Nat.isDigit_of_mem_toDigits (by decide) (by decide) hdigit

theorem isNumeral_padded (zeros n : Nat) : Quantum.IsNumeral (padded zeros n) := by
  constructor
  · rw [padded, Ne, ← String.toList_eq_nil_iff, String.toList_ofList]
    exact List.append_ne_nil_of_right_ne_nil _ Nat.toDigits_ne_nil
  · intro c hc
    rw [padded, String.toList_ofList] at hc
    exact isDigit_of_mem_digitsOf hc

/-- Zeros in front of a numeral do not matter. -/
theorem valueOf_padded (zeros n : Nat) : Quantum.valueOf (padded zeros n) = n := by
  rw [Quantum.valueOf, padded, String.toList_ofList, digitsOf, Nat.ofDigitChars_append,
    Nat.ofDigitChars_replicate_zero, Nat.mul_zero,
    Nat.ofDigitChars_toDigits (by decide) (by decide)]

theorem denotes_padded (zeros : Nat) {n : Nat} (hpos : 0 < n) (hlt : n < UInt64.size) :
    Quantum.Denotes (padded zeros n) n :=
  ⟨isNumeral_padded zeros n, valueOf_padded zeros n, hpos, hlt⟩

/-- The bytes of a text are its digits, if it has no other characters. -/
theorem flatMap_utf8EncodeChar {cs : List Char} (h : ∀ c ∈ cs, c.isDigit = true) :
    cs.flatMap String.utf8EncodeChar = cs.map fun c => UInt8.ofNat c.toNat := by
  induction cs with
  | nil => rfl
  | cons c cs ih =>
    rw [List.forall_mem_cons] at h
    have hascii := (isDigit_iff.1 h.1).2
    rw [List.flatMap_cons, utf8EncodeChar_of_le (by omega), ih h.2]
    rfl

theorem toUTF8_padded (zeros n : Nat) : (padded zeros n).toUTF8.toList = written zeros n := by
  rw [toList_toUTF8, padded, String.toList_ofList]
  exact flatMap_utf8EncodeChar fun c => isDigit_of_mem_digitsOf

theorem isDigits_written (zeros n : Nat) : ProcessList.IsDigits (written zeros n) := by
  obtain ⟨hne, hall⟩ :=
    Bool.or_eq_false_iff.1 (Quantum.isNumeral_iff.1 (isNumeral_padded zeros n))
  rw [toUTF8_padded] at hne hall
  rw [Bool.not_eq_false'] at hall
  exact ⟨List.isEmpty_eq_false_iff.1 hne, List.all_eq_true.1 hall⟩

theorem value_written (zeros n : Nat) : value (written zeros n) = n := by
  rw [← toUTF8_padded, Quantum.value_toUTF8 (isNumeral_padded zeros n), valueOf_padded]

end Numeral

/-- The numbers that stand for a process. -/
def Process.numbers (p : Process) : List Nat :=
  [p.pid.val.toNat, p.arrival.toNat, p.burst.toNat]

/-- The process that three numbers stand for. -/
def Process.ofNumbers (pid arrival burst : Nat) : Process where
  pid := ⟨UInt32.ofNat pid⟩
  arrival := UInt64.ofNat arrival
  burst := UInt64.ofNat burst

theorem Process.ofNumbers_numbers (p : Process) :
    ofNumbers p.pid.val.toNat p.arrival.toNat p.burst.toNat = p := by
  rw [ofNumbers, UInt32.ofNat_toNat, UInt64.ofNat_toNat, UInt64.ofNat_toNat]

namespace ProcessList

/-- The numbers that stand for a process list: how many processes there are, and then those of each
process. -/
def numbers (ps : ProcessList) : List Nat :=
  ps.length :: ps.flatMap Process.numbers

/-- The data start with a rendering of the numbers, of which there is at least one: their numerals,
with any zeros in front of them and gaps between them. What follows the last one does not start with
a digit. -/
inductive Renders : List Nat → List UInt8 → Prop where
  | last (zeros n : Nat) {after : List UInt8} : StartsApart after →
      Renders [n] (Numeral.written zeros n ++ after)
  | cons (zeros n : Nat) {gap : List UInt8} {ns : List Nat} {data : List UInt8} : IsGap gap →
      gap ≠ [] → Renders ns data → Renders (n :: ns) (Numeral.written zeros n ++ (gap ++ data))

variable {ps : ProcessList} {ts : List Token} {ns more : List Nat} {data before gap : List UInt8}

instance (gap : List UInt8) : Decidable (IsGap gap) :=
  List.decidableBAll (Numeral.isDigit · = false) gap

theorem startsApart_nil : StartsApart [] :=
  fun _ hbyte => nomatch hbyte

theorem IsGap.startsApart (h : IsGap gap) (hne : gap ≠ []) (data : List UInt8) :
    StartsApart (gap ++ data) := by
  rw [startsApart_append_iff hne]
  exact fun byte hbyte => h byte (List.mem_of_head? hbyte)

/-- The runs of digits of data that start with a rendering have these numbers as their values. -/
theorem Renders.exists_values (h : Renders ns data) (offset : Nat) :
    ∃ more, (digitRuns offset data).map (Numeral.value ·.2) = ns ++ more := by
  induction h generalizing offset with
  | last zeros n hafter =>
    rw [digitRuns_digits_append _ (Numeral.isDigits_written zeros n) hafter, List.map_cons,
      Numeral.value_written]
    exact ⟨_, rfl⟩
  | @cons zeros n gap ns data hgap hne _ ih =>
    rw [digitRuns_digits_append _ (Numeral.isDigits_written zeros n) (hgap.startsApart hne data),
      digitRuns_gap_append _ hgap, List.map_cons, Numeral.value_written]
    obtain ⟨more, hmore⟩ := ih (offset + (Numeral.written zeros n).length + gap.length)
    exact ⟨more, congrArg (n :: ·) hmore⟩

theorem map_value_tokens (data : List UInt8) :
    (tokens data).map (·.value) = (digitRuns 0 data).map (Numeral.value ·.2) := by
  rw [tokens, List.map_map]
  rfl

theorem wordOf_of_lt {expected : Field} {token : Token} {rest : List Token}
    (h : token.value < UInt32.size) :
    wordOf expected (token :: rest) = .ok (token.value, rest) := by
  rw [wordOf, if_pos h]

/-- A process that data can declare is what its own numbers stand for. -/
theorem processOf_of_numbers {p : Process} (hp : p.Declared) {pid arrival burst : Token}
    (hpid : pid.value = p.pid.val.toNat) (harrival : arrival.value = p.arrival.toNat)
    (hburst : burst.value = p.burst.toNat) (rest : List Token) :
    processOf (pid :: arrival :: burst :: rest) = .ok (p, rest) := by
  have hword : p.pid.val.toNat < UInt32.size := p.pid.val.toNat_lt_size
  have hwork : p.burst.toNat ≠ 0 := Nat.ne_of_gt (UInt64.lt_iff_toNat_lt.1 hp.burst_pos)
  rw [processOf, wordOf_of_lt (by rw [hpid]; exact hword)]
  change (wordOf .arrivalTime (arrival :: burst :: rest) >>= _) = _
  rw [wordOf_of_lt (by rw [harrival]; exact hp.arrival_lt)]
  change (wordOf .burstTime (burst :: rest) >>= _) = _
  rw [wordOf_of_lt (by rw [hburst]; exact hp.burst_lt)]
  change (if burst.value = 0 then _ else Except.ok (Process.ofNumbers _ _ _, rest)) = _
  rw [hburst, if_neg hwork, hpid, harrival, Process.ofNumbers_numbers]

theorem processesOf_of_numbers (hps : ∀ p ∈ ps, p.Declared)
    (hts : ts.map (·.value) = ps.flatMap Process.numbers ++ more) :
    processesOf ps.length ts = .ok ps := by
  induction ps generalizing ts with
  | nil => rfl
  | cons p ps ih =>
    rw [List.forall_mem_cons] at hps
    obtain ⟨pid, ts, rfl, hpid, hts⟩ := List.map_eq_cons_iff.1 hts
    obtain ⟨arrival, ts, rfl, harrival, hts⟩ := List.map_eq_cons_iff.1 hts
    obtain ⟨burst, ts, rfl, hburst, hts⟩ := List.map_eq_cons_iff.1 hts
    rw [List.length_cons, processesOf_succ,
      processOf_of_numbers hps.1 hpid harrival hburst ts]
    change (processesOf ps.length ts >>= _) = _
    rw [ih hps.2 hts]
    rfl

/-- A list that data can declare is what its own numbers stand for, whatever follows them. -/
theorem ofTokens_of_numbers (hps : ps.Declared) (hlength : ps.length < UInt32.size)
    (hts : ts.map (·.value) = ps.numbers ++ more) : ofTokens ts = .ok ps := by
  obtain ⟨count, ts, rfl, hcount, hts⟩ := List.map_eq_cons_iff.1 hts
  have hpos : ps.length ≠ 0 := mt List.length_eq_zero_iff.1 hps.ne_nil
  rw [ofTokens, wordOf_of_lt (by rw [hcount]; exact hlength)]
  change (if count.value = 0 then _ else processesOf count.value ts) = _
  rw [hcount, if_neg hpos]
  exact processesOf_of_numbers hps.process hts

/-- Data with a rendering behind a gap are read as the list that is rendered. -/
theorem parse_of_renders (hps : ps.Declared) (hlength : ps.length < UInt32.size)
    (hbefore : IsGap before) (hdata : Renders ps.numbers data) :
    parse (before ++ data) = .ok ps := by
  obtain ⟨more, hvalues⟩ := hdata.exists_values (0 + before.length)
  have hnumbers : (tokens (before ++ data)).map (·.value) = ps.numbers ++ more := by
    rw [map_value_tokens, digitRuns_gap_append _ hbefore, hvalues]
  rw [parse_eq]
  exact ofTokens_of_numbers hps hlength hnumbers

/-- A list that data can declare is read back from all its renderings, and then the way from data
and a decimal rendering of a quantum to a report is a simulation of the list with that quantum. -/
theorem parse_rendering (hps : ps.Declared) (hlength : ps.length < UInt32.size)
    (hbefore : IsGap before) (hdata : Renders ps.numbers data) :
    parse (before ++ data) = .ok ps ∧ ∀ (quantum : Ticks) (zeros : Nat), 0 < quantum →
      Pipeline.run (before ++ data) (Numeral.padded zeros quantum.toNat) =
        simulateWith ps { quantum, checks := true } := by
  have hparse := parse_of_renders hps hlength hbefore hdata
  refine ⟨hparse, ?_⟩
  intro quantum zeros hpos
  have hquantum : Quantum.Denotes (Numeral.padded zeros quantum.toNat) quantum.toNat :=
    Numeral.denotes_padded zeros (UInt64.lt_iff_toNat_lt.1 hpos) quantum.toNat_lt_size
  rw [Pipeline.run, Pipeline.prepare_of_denotes hparse hquantum, UInt64.ofNat_toNat, simulateWith]
  cases Simulation.start ps { quantum, checks := true } with
  | error violation => rfl
  | ok s =>
    change s.run.mapError Failure.halted = _
    dsimp only
    cases s.run <;> rfl

/-- Two processes as data can declare them. -/
def twoProcesses : ProcessList :=
  [{ pid := ⟨1⟩, arrival := 0, burst := 3 }, { pid := ⟨2⟩, arrival := 1, burst := 2 }]

/-- A rendering of them with zeros in front of two numerals, with bytes between them that are no
text, and with another numeral behind it. -/
def mixedBytes : List UInt8 :=
  [0x30, 0x30, 0x32, 0xfe, 0x31, 0x2c, 0x30, 0x20, 0x33, 0x0a, 0x80, 0x30, 0x32, 0x20, 0x31, 0x2d,
    0x32, 0xc3, 0x37, 0x37]

theorem parse_rendering_mixedBytes :
    twoProcesses.Declared ∧ twoProcesses.length < UInt32.size ∧ IsGap [0xff, 0x20] ∧
      Renders twoProcesses.numbers mixedBytes ∧
      parse ([0xff, 0x20] ++ mixedBytes) = .ok twoProcesses ∧
      ∀ (quantum : Ticks) (zeros : Nat), 0 < quantum →
        Pipeline.run ([0xff, 0x20] ++ mixedBytes) (Numeral.padded zeros quantum.toNat) =
          simulateWith twoProcesses { quantum, checks := true } := by
  have hps : twoProcesses.Declared := by
    refine ⟨List.cons_ne_nil _ _, List.forall_mem_cons.2 ⟨?_, List.forall_mem_singleton.2 ?_⟩⟩
    · exact ⟨by decide, by decide, by decide⟩
    · exact ⟨by decide, by decide, by decide⟩
  have hlast : Renders [2] (Numeral.written 0 2 ++ ([0xc3] ++ [0x37, 0x37])) :=
    .last 0 2 (IsGap.startsApart (by decide) (by decide) _)
  have hsecond : Renders [2, 1, 2] (Numeral.written 1 2 ++ ([0x20] ++ (Numeral.written 0 1 ++
      ([0x2d] ++ _)))) :=
    .cons 1 2 (by decide) (by decide) (.cons 0 1 (by decide) (by decide) hlast)
  have hfirst : Renders [1, 0, 3, 2, 1, 2] (Numeral.written 0 1 ++ ([0x2c] ++
      (Numeral.written 0 0 ++ ([0x20] ++ (Numeral.written 0 3 ++ ([0x0a, 0x80] ++ _)))))) :=
    .cons 0 1 (by decide) (by decide) (.cons 0 0 (by decide) (by decide)
      (.cons 0 3 (by decide) (by decide) hsecond))
  have hdata : Renders twoProcesses.numbers mixedBytes :=
    Renders.cons 2 2 (show IsGap [0xfe] by decide) (by decide) hfirst
  have hgap : IsGap [0xff, 0x20] := by decide
  exact ⟨hps, by decide, hgap, hdata, parse_rendering hps (by decide) hgap hdata⟩

end ProcessList

end RoundRobin
