import RoundRobin.ProcessList.Grammar
import RoundRobin.Proofs.ProcessList

/-!
# Process lists and their grammar

Data fall into gaps without digits and longest runs of digits (`segmented`), and `tokens` are these
runs, from left to right (`tokenizes`). A reader that skips a gap and then takes a run has one token
less ahead of it (`Reader.map_number`), so what it reads from a position is what the grammar makes
of the tokens there. Main statement: `parse_eq_ofTokens`.
-/

namespace RoundRobin

namespace ProcessList

/-- No digit stands at the start of the data. -/
def StartsApart (data : List UInt8) : Prop :=
  ∀ byte ∈ data.head?, Numeral.isDigit byte = false

/-- No digit stands at the end of the data. -/
def EndsApart (data : List UInt8) : Prop :=
  ∀ byte ∈ data.getLast?, Numeral.isDigit byte = false

/-- No digit stands anywhere in the data. -/
def IsGap (data : List UInt8) : Prop :=
  ∀ byte ∈ data, Numeral.isDigit byte = false

/-- The data are one or more digits. -/
structure IsDigits (data : List UInt8) : Prop where
  ne_nil : data ≠ []
  digit : ∀ byte ∈ data, Numeral.isDigit byte = true

/-- A longest run of digits in the data, with what stands before it and after it. -/
structure LongestRun (data before digits after : List UInt8) : Prop where
  split : data = before ++ (digits ++ after)
  digits : IsDigits digits
  before : EndsApart before
  after : StartsApart after

/-- The tokens are the longest runs of digits, from left to right, each with the number of bytes
before it and with its value. -/
structure Tokenizes (data : List UInt8) (ts : List Token) : Prop where
  sorted : ts.Pairwise (fun token later => token.offset < later.offset)
  mem_iff : ∀ token, token ∈ ts ↔ ∃ before digits after, LongestRun data before digits after ∧
    token = { offset := before.length, value := Numeral.value digits }

variable {offset : Nat} {byte : UInt8} {data digits gap after : List UInt8}

theorem digitRuns_cons_of_not_digit (h : Numeral.isDigit byte = false) :
    digitRuns offset (byte :: data) = digitRuns (offset + 1) data := by
  rw [digitRuns, h]
  rfl

/-- A digit joins a run that starts right behind it. -/
theorem digitRuns_cons_join {later : List (Nat × List UInt8)} (h : Numeral.isDigit byte = true)
    (hruns : digitRuns (offset + 1) data = (offset + 1, digits) :: later) :
    digitRuns offset (byte :: data) = (offset, byte :: digits) :: later := by
  rw [digitRuns, h, hruns]
  simp only [if_true]

/-- A digit with no run right behind it is a run of its own. -/
theorem digitRuns_cons_alone (h : Numeral.isDigit byte = true)
    (halone : ∀ run ∈ digitRuns (offset + 1) data, offset + 1 < run.1) :
    digitRuns offset (byte :: data) = (offset, [byte]) :: digitRuns (offset + 1) data := by
  rw [digitRuns, h]
  cases hruns : digitRuns (offset + 1) data with
  | nil => rfl
  | cons run later =>
    have hlt := halone run (by rw [hruns]; exact List.mem_cons_self)
    simp only [if_true]
    rw [if_neg (Nat.ne_of_gt hlt)]

/-- A digit starts a run, and the other runs are among those behind it. -/
theorem digitRuns_cons_of_digit (h : Numeral.isDigit byte = true) :
    ∃ digits later, digitRuns offset (byte :: data) = (offset, byte :: digits) :: later ∧
      ∀ run ∈ later, run ∈ digitRuns (offset + 1) data := by
  rw [digitRuns, h]
  cases hruns : digitRuns (offset + 1) data with
  | nil => exact ⟨[], [], rfl, List.forall_mem_nil _⟩
  | cons run later =>
    obtain ⟨start, digits⟩ := run
    simp only [if_true]
    split
    · exact ⟨digits, later, rfl, fun run hmem => List.mem_cons_of_mem _ hmem⟩
    · exact ⟨[], _, rfl, fun run hmem => hmem⟩

theorem le_of_mem_digitRuns {run : Nat × List UInt8} (h : run ∈ digitRuns offset data) :
    offset ≤ run.1 := by
  induction data generalizing offset with
  | nil => cases h
  | cons byte rest ih =>
    cases hbyte : Numeral.isDigit byte with
    | false =>
      rw [digitRuns_cons_of_not_digit hbyte] at h
      exact Nat.le_of_succ_le (ih h)
    | true =>
      obtain ⟨digits, later, hruns, hlater⟩ := digitRuns_cons_of_digit hbyte
      rw [hruns, List.mem_cons] at h
      rcases h with rfl | hmem
      · exact Nat.le_refl _
      · exact Nat.le_of_succ_le (ih (hlater run hmem))

/-- Data that do not start with a digit have their first run further on. -/
theorem lt_of_mem_digitRuns (hdata : StartsApart data) {run : Nat × List UInt8}
    (h : run ∈ digitRuns offset data) : offset < run.1 := by
  cases data with
  | nil => cases h
  | cons byte rest =>
    rw [digitRuns_cons_of_not_digit (hdata byte rfl)] at h
    exact le_of_mem_digitRuns h

theorem digitRuns_gap_append (offset : Nat) (hgap : IsGap gap) (data : List UInt8) :
    digitRuns offset (gap ++ data) = digitRuns (offset + gap.length) data := by
  induction gap generalizing offset with
  | nil => rfl
  | cons byte gap ih =>
    have hbytes := List.forall_mem_cons.1 hgap
    rw [List.cons_append, digitRuns_cons_of_not_digit hbytes.1, ih _ hbytes.2,
      List.length_cons, Nat.add_assoc, Nat.add_comm 1]

theorem digitRuns_digits_append (offset : Nat) (hdigits : IsDigits digits)
    (hafter : StartsApart after) :
    digitRuns offset (digits ++ after) =
      (offset, digits) :: digitRuns (offset + digits.length) after := by
  obtain ⟨hne, hall⟩ := hdigits
  induction digits generalizing offset with
  | nil => exact absurd rfl hne
  | cons byte digits ih =>
    rw [List.forall_mem_cons] at hall
    cases digits with
    | nil => exact digitRuns_cons_alone hall.1 fun run => lt_of_mem_digitRuns hafter
    | cons next digits =>
      have hjoin := digitRuns_cons_join hall.1 (ih (offset + 1) (List.cons_ne_nil _ _) hall.2)
      rw [List.cons_append, hjoin, List.length_cons (a := byte), Nat.add_assoc, Nat.add_comm 1]

/-- Data are a gap, or a gap and a run of digits ahead of data that do not start with a digit. -/
inductive Segmented : List UInt8 → Prop where
  | gap {gap : List UInt8} : IsGap gap → Segmented gap
  | run {gap digits rest : List UInt8} : IsGap gap → IsDigits digits → StartsApart rest →
      Segmented rest → Segmented (gap ++ (digits ++ rest))

theorem isGap_takeWhile (data : List UInt8) :
    IsGap (data.takeWhile (!Numeral.isDigit ·)) := by
  intro byte hbyte
  have hall := List.all_takeWhile (p := (!Numeral.isDigit ·)) (l := data)
  exact Bool.not_eq_true' _ ▸ List.all_eq_true.1 hall byte hbyte

theorem startsApart_dropWhile (data : List UInt8) :
    StartsApart (data.dropWhile Numeral.isDigit) := by
  intro byte hbyte
  have hhead := List.head?_dropWhile_not Numeral.isDigit data
  rw [Option.mem_def.1 hbyte] at hhead
  exact hhead

/-- What is left behind a gap starts with a run of digits, unless it is nothing. -/
theorem isDigits_takeWhile (hdata : data.dropWhile (!Numeral.isDigit ·) ≠ []) :
    IsDigits ((data.dropWhile (!Numeral.isDigit ·)).takeWhile Numeral.isDigit) := by
  have hhead := List.head_dropWhile_not (!Numeral.isDigit ·) hdata
  refine ⟨?_, fun byte hbyte => List.all_eq_true.1 List.all_takeWhile byte hbyte⟩
  generalize data.dropWhile (!Numeral.isDigit ·) = rest at hdata hhead
  cases rest with
  | nil => exact absurd rfl hdata
  | cons byte rest =>
    rw [List.head_cons, Bool.not_eq_false'] at hhead
    rw [List.takeWhile_cons_of_pos hhead]
    exact List.cons_ne_nil _ _

/-- Any data are a gap and runs of digits with gaps between them. -/
theorem segmented (data : List UInt8) : Segmented data := by
  by_cases hrest : data.dropWhile (!Numeral.isDigit ·) = []
  · have hsplit := List.takeWhile_append_dropWhile (p := (!Numeral.isDigit ·)) (l := data)
    rw [hrest, List.append_nil] at hsplit
    exact hsplit ▸ .gap (isGap_takeWhile data)
  · have hdigits := isDigits_takeWhile hrest
    have hsplit : data = data.takeWhile (!Numeral.isDigit ·) ++
        ((data.dropWhile (!Numeral.isDigit ·)).takeWhile Numeral.isDigit ++
          (data.dropWhile (!Numeral.isDigit ·)).dropWhile Numeral.isDigit) := by
      rw [List.takeWhile_append_dropWhile, List.takeWhile_append_dropWhile]
    have hshorter : ((data.dropWhile (!Numeral.isDigit ·)).dropWhile Numeral.isDigit).length <
        data.length := by
      have hpos := List.length_pos_iff.2 hdigits.ne_nil
      have hlen := congrArg List.length hsplit
      rw [List.length_append, List.length_append] at hlen
      omega
    rw [hsplit]
    exact .run (isGap_takeWhile data) hdigits (startsApart_dropWhile _) (segmented _)
termination_by data.length

theorem startsApart_append_iff (hgap : gap ≠ []) :
    StartsApart (gap ++ after) ↔ StartsApart gap := by
  rw [StartsApart, StartsApart, List.head?_append, List.head?_eq_some_head hgap, Option.some_or]

theorem endsApart_append_iff {before : List UInt8} (hbefore : before ≠ []) :
    EndsApart (gap ++ before) ↔ EndsApart before := by
  rw [EndsApart, EndsApart, List.getLast?_append, List.getLast?_eq_some_getLast hbefore,
    Option.some_or]

theorem IsGap.endsApart (h : IsGap gap) : EndsApart gap :=
  fun byte hbyte => h byte (List.mem_of_getLast? hbyte)

theorem IsDigits.not_startsApart (h : IsDigits digits) (after : List UInt8) :
    ¬ StartsApart (digits ++ after) := by
  rw [startsApart_append_iff h.ne_nil]
  intro hapart
  have hfirst := hapart _ (List.head?_eq_some_head h.ne_nil)
  rw [h.digit _ (List.head_mem h.ne_nil)] at hfirst
  cases hfirst

theorem IsDigits.not_endsApart (h : IsDigits digits) (before : List UInt8) :
    ¬ EndsApart (before ++ digits) := by
  rw [endsApart_append_iff h.ne_nil]
  intro hapart
  have hlast := hapart _ (List.getLast?_eq_some_getLast h.ne_nil)
  rw [h.digit _ (List.getLast_mem h.ne_nil)] at hlast
  cases hlast

/-- A gap has no runs. -/
theorem digitRuns_gap (offset : Nat) (hgap : IsGap gap) : digitRuns offset gap = [] := by
  have hruns := digitRuns_gap_append offset hgap []
  rwa [List.append_nil] at hruns

/-- The runs of data that start at an offset are longest runs. -/
theorem exists_longestRun_of_mem {run : Nat × List UInt8} (h : run ∈ digitRuns offset data) :
    ∃ before digits after, LongestRun data before digits after ∧
      run = (offset + before.length, digits) := by
  induction segmented data generalizing offset with
  | gap hgap =>
    rw [digitRuns_gap _ hgap] at h
    cases h
  | @run gap digits rest hgap hdigits hrest _ ih =>
    rw [digitRuns_gap_append _ hgap, digitRuns_digits_append _ hdigits hrest, List.mem_cons] at h
    rcases h with rfl | hmem
    · exact ⟨gap, digits, rest, ⟨rfl, hdigits, hgap.endsApart, hrest⟩, rfl⟩
    · obtain ⟨before, found, after, ⟨rfl, hfound, hbefore, hafter⟩, rfl⟩ := ih hmem
      -- the run lies further on, since what follows the first one does not start with a digit
      have hne : before ≠ [] := by
        rintro rfl
        exact hfound.not_startsApart after hrest
      refine ⟨gap ++ (digits ++ before), found, after, ⟨?_, hfound, ?_, hafter⟩, ?_⟩
      · simp only [List.append_assoc]
      · rwa [endsApart_append_iff (List.append_ne_nil_of_right_ne_nil _ hne),
          endsApart_append_iff hne]
      · simp only [List.length_append, Nat.add_assoc]

/-- Every longest run of data that start at an offset is one of their runs. -/
theorem LongestRun.mem_digitRuns (offset : Nat) {before : List UInt8}
    (h : LongestRun data before digits after) :
    (offset + before.length, digits) ∈ digitRuns offset data := by
  obtain ⟨rfl, hdigits, hbefore, hafter⟩ := h
  induction segmented before generalizing offset with
  | gap hgap =>
    rw [digitRuns_gap_append _ hgap, digitRuns_digits_append _ hdigits hafter]
    exact List.mem_cons_self
  | @run gap earlier rest hgap hearlier hrest _ ih =>
    have hne : rest ≠ [] := by
      rintro rfl
      rw [List.append_nil] at hbefore
      exact hearlier.not_endsApart gap hbefore
    rw [endsApart_append_iff (List.append_ne_nil_of_right_ne_nil _ hne),
      endsApart_append_iff hne] at hbefore
    rw [List.append_assoc, List.append_assoc, digitRuns_gap_append _ hgap,
      digitRuns_digits_append _ hearlier ((startsApart_append_iff hne).2 hrest)]
    apply List.mem_cons_of_mem
    have hmem := ih (offset + gap.length + earlier.length) hbefore
    rwa [List.length_append, List.length_append, ← Nat.add_assoc, ← Nat.add_assoc]

theorem pairwise_digitRuns (offset : Nat) (data : List UInt8) :
    (digitRuns offset data).Pairwise (fun run later => run.1 < later.1) := by
  induction segmented data generalizing offset with
  | gap hgap =>
    rw [digitRuns_gap _ hgap]
    exact List.Pairwise.nil
  | run hgap hdigits hrest _ ih =>
    rw [digitRuns_gap_append _ hgap, digitRuns_digits_append _ hdigits hrest, List.pairwise_cons]
    refine ⟨fun later hmem => ?_, ih _⟩
    exact Nat.lt_of_le_of_lt (Nat.le_add_right _ _) (lt_of_mem_digitRuns hrest hmem)

/-- The tokens are the longest runs of digits. -/
theorem tokenizes (data : List UInt8) : Tokenizes data (tokens data) where
  sorted := List.pairwise_map.2 (pairwise_digitRuns 0 data)
  mem_iff token := by
    rw [tokens, List.mem_map]
    constructor
    · rintro ⟨run, hmem, rfl⟩
      obtain ⟨before, digits, after, hlongest, rfl⟩ := exists_longestRun_of_mem hmem
      exact ⟨before, digits, after, hlongest, by rw [Nat.zero_add]⟩
    · rintro ⟨before, digits, after, hlongest, rfl⟩
      have hmem := hlongest.mem_digitRuns 0
      rw [Nat.zero_add] at hmem
      exact ⟨_, hmem, rfl⟩

/-- The next process, which has to have work to do. -/
def processOf (ts : List Token) : Except InputError (Process × List Token) := do
  let (pid, ts) ← wordOf .processId ts
  let (arrival, ts) ← wordOf .arrivalTime ts
  let (burst, ts) ← wordOf .burstTime ts
  if burst = 0 then
    .error (.zeroBurst ⟨UInt32.ofNat pid⟩)
  else
    .ok ({ pid := ⟨UInt32.ofNat pid⟩, arrival := .ofNat arrival, burst := .ofNat burst }, ts)

theorem processesOf_succ (count : Nat) (ts : List Token) :
    processesOf (count + 1) ts = processOf ts >>= fun (p, ts) => do
      let later ← processesOf count ts
      return p :: later := by
  simp only [processesOf, processOf, bind_assoc]
  refine congrArg _ (funext fun pid => congrArg _ (funext fun arrival =>
    congrArg _ (funext fun burst => ?_)))
  split <;> rfl

end ProcessList

namespace Reader

/-- The tokens ahead of a position. -/
def tokens (r : Reader) : List ProcessList.Token :=
  (ProcessList.digitRuns r.offset r.rest).map fun (offset, digits) =>
    { offset, value := Numeral.value digits }

/-- A gap holds no tokens. -/
theorem tokens_toDigit (r : Reader) : r.toDigit.tokens = r.tokens := by
  have hruns := ProcessList.digitRuns_gap_append r.offset (ProcessList.isGap_takeWhile r.rest)
    (r.rest.dropWhile (!Numeral.isDigit ·))
  rw [List.takeWhile_append_dropWhile] at hruns
  rw [tokens, tokens, hruns]
  rfl

/-- Behind a gap, the next token is the run of digits there, unless the data have ended. -/
theorem tokens_of_toDigit_ne_nil {r : Reader} (h : r.toDigit.rest ≠ []) :
    r.tokens = { offset := r.toDigit.offset, value := Numeral.value r.toDigit.digits } ::
      r.toDigit.pastDigits.tokens := by
  have hruns := ProcessList.digitRuns_digits_append r.toDigit.offset
    (ProcessList.isDigits_takeWhile h) (ProcessList.startsApart_dropWhile r.toDigit.rest)
  change ProcessList.digitRuns r.toDigit.offset
    (r.toDigit.rest.takeWhile Numeral.isDigit ++ r.toDigit.rest.dropWhile Numeral.isDigit) = _
    at hruns
  rw [List.takeWhile_append_dropWhile] at hruns
  rw [← tokens_toDigit, tokens, hruns]
  rfl

/-- A reader reads the next token, and has the others ahead of it then. -/
theorem map_number (r : Reader) (expected : Field) :
    (r.number expected).map (fun (v, next) => (v.toNat, next.tokens)) =
      ProcessList.wordOf expected r.tokens := by
  unfold number
  by_cases hend : r.toDigit.rest = []
  · have hnone : r.tokens = [] := by
      rw [← tokens_toDigit, tokens, hend]
      rfl
    rw [hnone]
    simp only [hend, List.isEmpty_nil, if_true]
    rfl
  · rw [tokens_of_toDigit_ne_nil hend, ProcessList.wordOf]
    simp only [List.isEmpty_iff, hend, if_false]
    rw [Numeral.below_eq (by decide)]
    by_cases hword : Numeral.value r.toDigit.digits < UInt32.size
    · simp only [if_pos hword]
      change Except.ok (_, _) = _
      rw [UInt32.toNat_ofNat_of_lt' hword]
    · simp only [if_neg hword]
      rfl

/-- A reader reads the process that the next tokens stand for. -/
theorem map_process (r : Reader) :
    r.process.map (fun (p, next) => (p, next.tokens)) = ProcessList.processOf r.tokens := by
  rw [process, ProcessList.processOf, ← map_number]
  cases r.number .processId with
  | error e => rfl
  | ok result =>
    obtain ⟨pid, r⟩ := result
    change (r.number .arrivalTime >>= _).map _ = (ProcessList.wordOf .arrivalTime r.tokens >>= _)
    rw [← map_number]
    cases r.number .arrivalTime with
    | error e => rfl
    | ok result =>
      obtain ⟨arrival, r⟩ := result
      change (r.number .burstTime >>= _).map _ = (ProcessList.wordOf .burstTime r.tokens >>= _)
      rw [← map_number]
      cases r.number .burstTime with
      | error e => rfl
      | ok result =>
        obtain ⟨burst, r⟩ := result
        change (if burst = 0 then _ else _ : Except _ _).map _ = if burst.toNat = 0 then _ else _
        by_cases hzero : burst = 0
        · have hnone : burst.toNat = 0 := congrArg UInt32.toNat hzero
          rw [if_pos hzero, if_pos hnone, UInt32.ofNat_toNat]
          rfl
        · have hpos : burst.toNat ≠ 0 := fun h => hzero (UInt32.toNat_inj.1 h)
          rw [if_neg hzero, if_neg hpos, UInt32.ofNat_toNat, UInt64.ofNat_uInt32ToNat,
            UInt64.ofNat_uInt32ToNat]
          rfl

/-- A reader reads the processes that the next tokens stand for, behind those it read before. -/
theorem map_processes (r : Reader) (before : Array Process) (count : Nat) :
    (r.processes before count).map Array.toList =
      (ProcessList.processesOf count r.tokens).map (before.toList ++ ·) := by
  induction count generalizing r before with
  | zero =>
    change Except.ok before.toList = Except.ok (before.toList ++ [])
    rw [List.append_nil]
  | succ count ih =>
    rw [processes, ProcessList.processesOf_succ, ← map_process]
    cases r.process with
    | error e => rfl
    | ok result =>
      obtain ⟨p, next⟩ := result
      change (next.processes (before.push p) count).map Array.toList =
        (ProcessList.processesOf count next.tokens >>= fun later => .ok (p :: later)).map _
      rw [ih, Array.toList_push]
      cases ProcessList.processesOf count next.tokens with
      | error e => rfl
      | ok later =>
        change Except.ok (before.toList ++ [p] ++ later) = Except.ok (before.toList ++ p :: later)
        rw [List.append_assoc, List.singleton_append]

end Reader

namespace ProcessList

/-- Data are read as what the grammar makes of their tokens. -/
theorem parse_eq (data : List UInt8) : parse data = ofTokens (tokens data) := by
  have htokens : tokens data = Reader.tokens { rest := data } := rfl
  rw [htokens, parse, ofTokens, ← Reader.map_number]
  cases Reader.number { rest := data } .processCount with
  | error e => rfl
  | ok result =>
    obtain ⟨count, r⟩ := result
    change (if count = 0 then _ else r.processes #[] count.toNat >>= fun ps => .ok ps.toList) =
      if count.toNat = 0 then _ else processesOf count.toNat r.tokens
    by_cases hzero : count = 0
    · have hnone : count.toNat = 0 := congrArg UInt32.toNat hzero
      rw [if_pos hzero, if_pos hnone]
    · have hsome : count.toNat ≠ 0 := fun h => hzero (UInt32.toNat_inj.1 h)
      have hread := r.map_processes #[] count.toNat
      rw [if_neg hzero, if_neg hsome]
      calc r.processes #[] count.toNat >>= (fun ps => .ok ps.toList)
          = (r.processes #[] count.toNat).map Array.toList := by
            cases r.processes #[] count.toNat <;> rfl
        _ = (processesOf count.toNat r.tokens).map (#[].toList ++ ·) := hread
        _ = processesOf count.toNat r.tokens := by
            cases processesOf count.toNat r.tokens <;> rfl

/-- Whatever the data, they are read as what the grammar makes of their tokens, and their tokens are
the longest runs of digits: the same processes, or the same error with the same place or
identifier. -/
theorem parse_eq_ofTokens (data : List UInt8) :
    parse data = ofTokens (tokens data) ∧ Tokenizes data (tokens data) :=
  ⟨parse_eq data, tokenizes data⟩

end ProcessList

end RoundRobin
