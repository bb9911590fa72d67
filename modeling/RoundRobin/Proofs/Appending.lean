import RoundRobin.Proofs.Rendering

/-!
# Data that go on

Data are read from left to right, so what has been read without coming to their end stays as it is
when more data follow that do not lengthen the last numeral (`Steady`). Data that end too early are
the beginning of a process list: the numbers that are missing can be supplied
(`exists_list_of_endsEarly`). Main statement: `parse_append`.
-/

namespace RoundRobin

/-- The data ended before the number that comes next. -/
def EndsEarly {α : Type} (result : Except InputError α) : Prop :=
  ∃ expected, result = .error (.unexpectedEnd expected)

theorem not_endsEarly_ok {α : Type} (a : α) : ¬ EndsEarly (.ok a) := by
  rintro ⟨_, h⟩
  cases h

/-- Reading in two steps ends early if the first step does, or if the second one does. -/
theorem endsEarly_bind_iff {α β : Type} {result : Except InputError α}
    {next : α → Except InputError β} :
    EndsEarly (result >>= next) ↔ EndsEarly result ∨ ∃ a, result = .ok a ∧ EndsEarly (next a) := by
  simp only [EndsEarly, InputError.bind_eq_error_iff]
  constructor
  · rintro ⟨expected, herror | ⟨a, ha, hnext⟩⟩
    · exact .inl ⟨expected, herror⟩
    · exact .inr ⟨a, ha, expected, hnext⟩
  · rintro (⟨expected, herror⟩ | ⟨a, ha, expected, hnext⟩)
    · exact ⟨expected, .inl herror⟩
    · exact ⟨expected, .inr ⟨a, ha, hnext⟩⟩

namespace ProcessList

variable {α β : Type} {ts more : List Token} {data after : List UInt8} {offset : Nat}

/-- What is read from tokens does not change when more tokens follow, unless it ended early; `put`
says what becomes of those. -/
def Steady (put : α → List Token → α) (read : List Token → Except InputError α) : Prop :=
  ∀ ts more, EndsEarly (read ts) ∨ read (ts ++ more) = (read ts).map (put · more)

/-- A reader hands on the tokens that it has not read. -/
def handOn (result : α × List Token) (more : List Token) : α × List Token :=
  (result.1, result.2 ++ more)

namespace Steady

variable {put : β → List Token → β}

theorem pure_ok {f : List Token → β} (h : ∀ ts more, f (ts ++ more) = put (f ts) more) :
    Steady put fun ts => .ok (f ts) :=
  fun ts more => .inr (congrArg Except.ok (h ts more))

theorem error (e : InputError) : Steady put fun _ => .error e :=
  fun _ _ => .inr rfl

theorem ite {c : Prop} [Decidable c] {read read' : List Token → Except InputError β}
    (h : Steady put read) (h' : Steady put read') :
    Steady put fun ts => if c then read ts else read' ts := by
  intro ts more
  dsimp only
  split
  · exact h ts more
  · exact h' ts more

/-- Reading in two steps is steady if both steps are. -/
theorem bind {read : List Token → Except InputError (α × List Token)}
    {next : α × List Token → Except InputError β} (hread : Steady handOn read)
    (hnext : ∀ a, Steady put fun rest => next (a, rest)) :
    Steady put fun ts => read ts >>= next := by
  intro ts more
  rcases hread ts more with hearly | hsame
  · exact .inl (endsEarly_bind_iff.2 (.inl hearly))
  · dsimp only
    rw [hsame]
    cases hresult : read ts with
    | error e => exact .inr rfl
    | ok result =>
      obtain ⟨a, rest⟩ := result
      exact hnext a rest more

theorem map {γ : Type} {put' : γ → List Token → γ} {read : List Token → Except InputError β}
    {f : β → γ} (hread : Steady put read) (h : ∀ b more, f (put b more) = put' (f b) more) :
    Steady put' fun ts => read ts >>= fun b => .ok (f b) := by
  intro ts more
  rcases hread ts more with hearly | hsame
  · exact .inl (endsEarly_bind_iff.2 (.inl hearly))
  · dsimp only
    rw [hsame]
    cases read ts with
    | error e => exact .inr rfl
    | ok b => exact .inr (congrArg Except.ok (h b more))

end Steady

theorem steady_wordOf (expected : Field) : Steady handOn (wordOf expected) := by
  intro ts more
  cases ts with
  | nil => exact .inl ⟨expected, rfl⟩
  | cons token rest =>
    right
    rw [List.cons_append, wordOf, wordOf]
    split <;> rfl

theorem steady_processOf : Steady handOn processOf := by
  apply Steady.bind (steady_wordOf .processId)
  intro pid
  apply Steady.bind (steady_wordOf .arrivalTime)
  intro arrival
  apply Steady.bind (steady_wordOf .burstTime)
  intro burst
  exact Steady.ite (Steady.error _) (Steady.pure_ok fun _ _ => rfl)

theorem steady_processesOf (count : Nat) : Steady (fun ps _ => ps) (processesOf count) := by
  induction count with
  | zero => exact fun _ _ => .inr rfl
  | succ count ih =>
    rw [show processesOf (count + 1) = _ from funext (processesOf_succ count)]
    apply Steady.bind steady_processOf
    intro p
    exact ih.map fun _ _ => rfl

theorem steady_ofTokens : Steady (fun ps _ => ps) ofTokens := by
  apply Steady.bind (steady_wordOf .processCount)
  intro count
  exact Steady.ite (Steady.error _) (steady_processesOf count)

/-- The runs of digits of data that go on without lengthening the last one. -/
theorem digitRuns_append (offset : Nat) (data : List UInt8) (hafter : StartsApart after) :
    digitRuns offset (data ++ after) =
      digitRuns offset data ++ digitRuns (offset + data.length) after := by
  induction segmented data generalizing offset with
  | gap hgap => rw [digitRuns_gap_append _ hgap, digitRuns_gap _ hgap, List.nil_append]
  | @run gap digits rest hgap hdigits hrest _ ih =>
    have hapart : StartsApart (rest ++ after) := by
      cases rest with
      | nil => exact hafter
      | cons byte rest => exact (startsApart_append_iff (List.cons_ne_nil byte rest)).2 hrest
    rw [List.append_assoc, List.append_assoc, digitRuns_gap_append _ hgap,
      digitRuns_digits_append _ hdigits hapart, ih, digitRuns_gap_append _ hgap,
      digitRuns_digits_append _ hdigits hrest, List.cons_append, List.length_append,
      List.length_append, ← Nat.add_assoc, ← Nat.add_assoc]

theorem tokens_append (data : List UInt8) (hafter : StartsApart after) :
    tokens (data ++ after) =
      tokens data ++ Reader.tokens { offset := data.length, rest := after } := by
  rw [tokens, digitRuns_append 0 data hafter, List.map_append, Nat.zero_add]
  rfl

/-- Data that have been read without coming to their end are read the same when they go on. -/
theorem parse_append_of_not_endsEarly (hdata : ¬ EndsEarly (parse data))
    (hafter : StartsApart after) : parse (data ++ after) = parse data := by
  rw [parse_eq] at hdata
  rw [parse_eq, parse_eq, tokens_append data hafter, (steady_ofTokens _ _).resolve_left hdata]
  cases ofTokens (tokens data) <;> rfl

/-- The processes that stand complete in numbers, three for each. -/
def records : List Nat → ProcessList
  | pid :: arrival :: burst :: rest => .ofNumbers pid arrival burst :: records rest
  | _ => []

/-- The processes that stand complete in data behind their count. -/
def completeRecords (data : List UInt8) : ProcessList :=
  records ((tokens data).map (·.value)).tail

theorem records_numbers_append (p : Process) (ns : List Nat) :
    records (p.numbers ++ ns) = p :: records ns := by
  change Process.ofNumbers _ _ _ :: records ns = p :: records ns
  rw [Process.ofNumbers_numbers]

theorem records_of_short {ns : List Nat} (h : ns.length < 3) : records ns = [] := by
  match ns, h with
  | [], _ | [_], _ | [_, _], _ => rfl

theorem numbers_ofNumbers {pid arrival burst : Nat} (hpid : pid < UInt32.size)
    (harrival : arrival < UInt32.size) (hburst : burst < UInt32.size) :
    (Process.ofNumbers pid arrival burst).numbers = [pid, arrival, burst] := by
  have hsize : UInt32.size < UInt64.size := by decide
  rw [Process.numbers, Process.ofNumbers, UInt32.toNat_ofNat_of_lt' hpid,
    UInt64.toNat_ofNat_of_lt' (by omega), UInt64.toNat_ofNat_of_lt' (by omega)]

theorem declared_ofNumbers {pid arrival burst : Nat} (harrival : arrival < UInt32.size)
    (hburst : burst < UInt32.size) (hpos : 0 < burst) :
    (Process.ofNumbers pid arrival burst).Declared := by
  have hsize : UInt32.size < UInt64.size := by decide
  refine ⟨?_, ?_, ?_⟩
  · rw [UInt64.lt_iff_toNat_lt, Process.ofNumbers, UInt64.toNat_ofNat_of_lt' (by omega)]
    exact hpos
  · rwa [Process.ofNumbers, UInt64.toNat_ofNat_of_lt' (by omega)]
  · rwa [Process.ofNumbers, UInt64.toNat_ofNat_of_lt' (by omega)]

theorem endsEarly_wordOf_iff {expected : Field} : EndsEarly (wordOf expected ts) ↔ ts = [] := by
  cases ts with
  | nil => exact iff_of_true ⟨expected, rfl⟩ rfl
  | cons token rest =>
    refine iff_of_false ?_ (List.cons_ne_nil _ _)
    rintro ⟨_, h⟩
    rw [wordOf] at h
    split at h <;> cases h

theorem wordOf_eq_ok {expected : Field} {v : Nat} {rest : List Token}
    (h : wordOf expected ts = .ok (v, rest)) :
    ∃ token, ts = token :: rest ∧ token.value = v ∧ v < UInt32.size := by
  cases ts with
  | nil => cases h
  | cons token ts =>
    rw [wordOf] at h
    split at h
    · next hlt =>
      cases h
      exact ⟨token, rfl, rfl, hlt⟩
    · cases h

/-- The process that was read is what the numbers in front of the rest stand for. -/
theorem processOf_eq_ok {p : Process} {rest : List Token} (h : processOf ts = .ok (p, rest)) :
    p.Declared ∧ ts.map (·.value) = p.numbers ++ rest.map (·.value) := by
  simp only [processOf, InputError.bind_eq_ok_iff] at h
  obtain ⟨⟨pid, _⟩, hread, ⟨arrival, _⟩, hread', ⟨burst, _⟩, hread'', h⟩ := h
  obtain ⟨_, rfl, rfl, hpid⟩ := wordOf_eq_ok hread
  obtain ⟨_, rfl, rfl, harrival⟩ := wordOf_eq_ok hread'
  obtain ⟨_, rfl, rfl, hburst⟩ := wordOf_eq_ok hread''
  dsimp only at h
  split at h
  · cases h
  · next hzero =>
    cases h
    refine ⟨declared_ofNumbers harrival hburst (Nat.pos_of_ne_zero hzero), ?_⟩
    change _ = (Process.ofNumbers _ _ _).numbers ++ _
    rw [numbers_ofNumbers hpid harrival hburst]
    rfl

/-- The numbers in front of an early end are the first ones of some process. -/
theorem exists_process_of_endsEarly (h : EndsEarly (processOf ts)) :
    ∃ p : Process, p.Declared ∧ ts.length < 3 ∧
      ∃ missing, missing ≠ [] ∧ p.numbers = ts.map (·.value) ++ missing := by
  have hzero : 0 < UInt32.size := by decide
  have hone : 1 < UInt32.size := by decide
  simp only [processOf, endsEarly_bind_iff, endsEarly_wordOf_iff] at h
  rcases h with rfl | ⟨⟨pid, _⟩, hread, rfl | ⟨⟨arrival, _⟩, hread', rfl | ⟨_, _, hburst⟩⟩⟩
  · exact ⟨.ofNumbers 0 0 1, declared_ofNumbers hzero hone Nat.one_pos, by decide, [0, 0, 1],
      List.cons_ne_nil _ _, numbers_ofNumbers hzero hzero hone⟩
  · obtain ⟨token, rfl, rfl, hpid⟩ := wordOf_eq_ok hread
    exact ⟨.ofNumbers token.value 0 1, declared_ofNumbers hzero hone Nat.one_pos,
      by simp, [0, 1], List.cons_ne_nil _ _, numbers_ofNumbers hpid hzero hone⟩
  · obtain ⟨token, rfl, rfl, hpid⟩ := wordOf_eq_ok hread
    obtain ⟨next, rfl, rfl, harrival⟩ := wordOf_eq_ok hread'
    exact ⟨.ofNumbers token.value next.value 1, declared_ofNumbers harrival hone Nat.one_pos,
      by simp, [1], List.cons_ne_nil _ _, numbers_ofNumbers hpid harrival hone⟩
  · obtain ⟨expected, hburst⟩ := hburst
    split at hburst <;> cases hburst

/-- The numbers in front of an early end are the first ones of some processes, among them those that
stand complete. -/
theorem exists_processes_of_endsEarly {count : Nat} (h : EndsEarly (processesOf count ts)) :
    ∃ ps : ProcessList, ps.length = count ∧ (∀ p ∈ ps, p.Declared) ∧
      records (ts.map (·.value)) <+: ps ∧
      ∃ missing, missing ≠ [] ∧ ps.flatMap Process.numbers = ts.map (·.value) ++ missing := by
  induction count generalizing ts with
  | zero => exact absurd h (not_endsEarly_ok [])
  | succ count ih =>
    rw [processesOf_succ, endsEarly_bind_iff] at h
    rcases h with hearly | ⟨⟨p, rest⟩, hok, hlater⟩
    · -- the process that is not complete fills the place of those that are missing altogether
      obtain ⟨p, hp, hshort, missing, hne, hnumbers⟩ := exists_process_of_endsEarly hearly
      refine ⟨p :: List.replicate count p, ?_, ?_, ?_, ?_⟩
      · rw [List.length_cons, List.length_replicate]
      · intro q hq
        rw [← List.replicate_succ] at hq
        exact List.eq_of_mem_replicate hq ▸ hp
      · rw [records_of_short (by rwa [List.length_map])]
        exact List.nil_prefix
      · exact ⟨missing ++ _, List.append_ne_nil_of_left_ne_nil hne _, by
          rw [List.flatMap_cons, hnumbers, List.append_assoc]⟩
    · obtain ⟨hp, hnumbers⟩ := processOf_eq_ok hok
      rw [endsEarly_bind_iff] at hlater
      have hrest := hlater.resolve_right fun ⟨later, _, h⟩ => not_endsEarly_ok _ h
      obtain ⟨ps, hlength, hps, hrecords, missing, hne, hmissing⟩ := ih hrest
      refine ⟨p :: ps, by rw [List.length_cons, hlength], List.forall_mem_cons.2 ⟨hp, hps⟩, ?_,
        missing, hne, ?_⟩
      · rw [hnumbers, records_numbers_append, List.cons_prefix_cons]
        exact ⟨rfl, hrecords⟩
      · rw [List.flatMap_cons, hmissing, hnumbers, List.append_assoc]

/-- The numbers in front of an early end are the first ones of some list that data can declare. -/
theorem exists_list_of_endsEarly (h : EndsEarly (ofTokens ts)) :
    ∃ ps : ProcessList, ps.Declared ∧ ps.length < UInt32.size ∧
      records (ts.map (·.value)).tail <+: ps ∧
      ∃ missing, missing ≠ [] ∧ ps.numbers = ts.map (·.value) ++ missing := by
  rw [ofTokens, endsEarly_bind_iff, endsEarly_wordOf_iff] at h
  rcases h with rfl | ⟨⟨count, rest⟩, hcount, h⟩
  · have hp : (Process.ofNumbers 0 0 1).Declared :=
      declared_ofNumbers (by decide) (by decide) Nat.one_pos
    exact ⟨[.ofNumbers 0 0 1], ⟨List.cons_ne_nil _ _, List.forall_mem_singleton.2 hp⟩, by decide,
      List.nil_prefix, _, List.cons_ne_nil _ _, rfl⟩
  · obtain ⟨token, rfl, rfl, hlt⟩ := wordOf_eq_ok hcount
    dsimp only at h
    split at h
    · obtain ⟨expected, h⟩ := h
      cases h
    · next hzero =>
      obtain ⟨ps, hlength, hps, hrecords, missing, hne, hmissing⟩ :=
        exists_processes_of_endsEarly h
      refine ⟨ps, ⟨?_, hps⟩, hlength ▸ hlt, hrecords, missing, hne, ?_⟩
      · rintro rfl
        exact hzero hlength.symm
      · rw [numbers, hmissing, hlength]
        rfl

/-- All numbers have a rendering. -/
theorem exists_renders {ns : List Nat} (h : ns ≠ []) : ∃ data, Renders ns data := by
  induction ns with
  | nil => exact absurd rfl h
  | cons n ns ih =>
    cases ns with
    | nil => exact ⟨_, .last 0 n startsApart_nil⟩
    | cons m ns =>
      obtain ⟨data, hdata⟩ := ih (List.cons_ne_nil m ns)
      exact ⟨_, .cons 0 n (show IsGap [0x20] by decide) (List.cons_ne_nil _ _) hdata⟩

/-- The data go on, without lengthening their last numeral, as a process list. -/
structure Completes (data after : List UInt8) (ps : ProcessList) : Prop where
  ne_nil : after ≠ []
  apart : StartsApart after
  parse_eq : parse (data ++ after) = .ok ps

/-- Data that end too early can be completed, and keep the processes that stand complete in them. -/
theorem exists_completes (h : EndsEarly (parse data)) :
    ∃ after ps, Completes data after ps ∧ completeRecords data <+: ps := by
  rw [parse_eq] at h
  obtain ⟨ps, hps, hlength, hrecords, missing, hne, hmissing⟩ := exists_list_of_endsEarly h
  obtain ⟨rendered, hrendered⟩ := exists_renders hne
  have hgap : IsGap [0x20] := by decide
  have hapart : StartsApart ([0x20] ++ rendered) :=
    hgap.startsApart (List.cons_ne_nil _ _) rendered
  obtain ⟨more, hvalues⟩ := hrendered.exists_values (data.length + [(0x20 : UInt8)].length)
  refine ⟨[0x20] ++ rendered, ps, ⟨List.cons_ne_nil _ _, hapart, ?_⟩, hrecords⟩
  rw [parse_eq]
  have hnumbers : (tokens (data ++ ([0x20] ++ rendered))).map (·.value) = ps.numbers ++ more := by
    rw [map_value_tokens, digitRuns_append 0 data hapart, List.map_append, ← map_value_tokens,
      Nat.zero_add, digitRuns_gap_append _ hgap, hvalues, hmissing, List.append_assoc]
  exact ofTokens_of_numbers hps hlength hnumbers

/-- What becomes of data when they go on without lengthening their last numeral. -/
structure Continues (data : List UInt8) : Prop where
  settled : ¬ EndsEarly (parse data) → ∀ after, StartsApart after →
    parse (data ++ after) = parse data
  completes : EndsEarly (parse data) →
    ∃ after ps, Completes data after ps ∧ completeRecords data <+: ps
  endsEarly_iff : EndsEarly (parse data) ↔
    (∀ ps, parse data ≠ .ok ps) ∧ ∃ after ps, Completes data after ps

/-- Data that do not end early are read the same however they go on, as long as that does not
lengthen their last numeral. Data that end early are exactly those that are no process list but can
go on as one, and then with the processes that stand complete in them in front. -/
theorem parse_append (data : List UInt8) : Continues data where
  settled hdata _ hafter := parse_append_of_not_endsEarly hdata hafter
  completes := exists_completes
  endsEarly_iff := by
    constructor
    · intro h
      obtain ⟨after, ps, hcompletes, _⟩ := exists_completes h
      obtain ⟨expected, hearly⟩ := h
      refine ⟨fun qs hqs => ?_, after, ps, hcompletes⟩
      rw [hearly] at hqs
      cases hqs
    · rintro ⟨hnone, after, ps, hcompletes⟩
      apply Classical.byContradiction
      intro hdata
      have hsame := parse_append_of_not_endsEarly hdata hcompletes.apart
      exact hnone ps (hsame.symm.trans hcompletes.parse_eq)

/-- The line `2 1 0 3 2 1` ends early, behind one complete process. -/
example :
    let data : List UInt8 := [0x32, 0x20, 0x31, 0x20, 0x30, 0x20, 0x33, 0x20, 0x32, 0x20, 0x31]
    parse data = .error (.unexpectedEnd .burstTime) ∧
      completeRecords data = [{ pid := ⟨1⟩, arrival := 0, burst := 3 }] :=
  ⟨rfl, rfl⟩

end ProcessList

end RoundRobin
