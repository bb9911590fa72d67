import RoundRobin.Proofs.EventStream
import RoundRobin.Proofs.ServiceOrder
import RoundRobin.Proofs.Totals

/-!
# Causality

What a run does before an instant `T` does not depend on processes that arrive at `T` or later. Two
runs with the same processes before `T` go through states that agree (`Agree`), up to a slice that
ends behind `T` or a gap that leads there. From then on no event happens before `T` any more, and no
job completes by `T` (`Parted`). Main statement: `causality`.
-/

namespace RoundRobin

/-- The event is a gap. -/
def Event.isIdle : Event → Bool
  | .idle _ => true
  | _ => false

/-- The event happens before instant `T`, and is not a gap. -/
def Stamped.precedes (T : Nat) (e : Stamped) : Bool :=
  e.time.toNat < T && !e.event.isIdle

theorem Stamped.precedes_iff {T : Nat} {e : Stamped} :
    e.precedes T = true ↔ e.time.toNat < T ∧ e.event.isIdle = false := by
  rw [precedes, Bool.and_eq_true, decide_eq_true_iff, Bool.not_eq_true']

theorem filter_precedes_idle (T : Nat) (time target : Ticks) :
    ([{ time, event := .idle target }] : List Stamped).filter (·.precedes T) = [] := by
  rw [List.filter_eq_nil_iff]
  intro e he hpre
  rw [List.mem_singleton.1 he] at hpre
  exact Bool.noConfusion (Stamped.precedes_iff.1 hpre).2

theorem filter_precedes_singleton {e : Stamped} (hevent : e.event.isIdle = false) (T : Nat) :
    [e].filter (·.precedes T) = if e.time.toNat < T then [e] else [] := by
  have hprecedes : e.precedes T = true ↔ e.time.toNat < T := by
    rw [Stamped.precedes_iff, and_iff_left hevent]
  split
  · next hlt => rw [List.filter_cons_of_pos (hprecedes.2 hlt), List.filter_nil]
  · next hlt => rw [List.filter_cons_of_neg (mt hprecedes.1 hlt), List.filter_nil]

section Lists

variable {ps us : ProcessList} {T t a b : Nat}

theorem arrivedBefore_of_late (hlate : ∀ p ∈ us, T ≤ p.arrival.toNat) (ht : t ≤ T) :
    arrivedBefore us t = 0 := by
  cases us with
  | nil => rfl
  | cons p rest =>
    have hfirst : t ≤ p.arrival.toNat := Nat.le_trans ht (hlate p List.mem_cons_self)
    rw [arrivedBefore, List.findIdx_cons, decide_eq_true hfirst]
    rfl

/-- Processes that arrive later do not count. -/
theorem arrivedBefore_append (hlate : ∀ p ∈ us, T ≤ p.arrival.toNat) (ht : t ≤ T) :
    arrivedBefore (ps ++ us) t = arrivedBefore ps t := by
  have hnone := arrivedBefore_of_late hlate ht
  have hle := arrivedBefore_le_length ps t
  unfold arrivedBefore at hnone hle ⊢
  rw [List.findIdx_append, hnone]
  split
  · rfl
  · omega

theorem admissions_append_right (hb : b ≤ ps.length) :
    admissions (ps ++ us) a b = admissions ps a b := by
  rw [admissions, List.take_append_of_le_length hb, admissions]

/-- The admissions before an instant are those of the processes that arrive before it. -/
theorem filter_precedes_admissions (hk : Contract.Kept ps)
    (ha : a ≤ arrivedBefore ps (min t T)) :
    (admissions ps a (arrivedBefore ps t)).filter (·.precedes T) =
      admissions ps a (arrivedBefore ps (min t T)) := by
  have hmid : arrivedBefore ps (min t T) ≤ arrivedBefore ps t :=
    arrivedBefore_mono hk (Nat.min_le_left _ _)
  have hbefore : (admissions ps a (arrivedBefore ps (min t T))).filter (·.precedes T) =
      admissions ps a (arrivedBefore ps (min t T)) := by
    rw [List.filter_eq_self]
    intro e he
    obtain ⟨i, p, hp, _, hlt, rfl⟩ := mem_admissions_iff.1 he
    have harrival := (lt_arrivedBefore_iff hk hp _).1 hlt
    exact Stamped.precedes_iff.2 ⟨Nat.lt_of_lt_of_le harrival (Nat.min_le_right _ _), rfl⟩
  have hafter : (admissions ps (arrivedBefore ps (min t T)) (arrivedBefore ps t)).filter
      (·.precedes T) = [] := by
    rw [List.filter_eq_nil_iff]
    intro e he hpre
    obtain ⟨i, p, hp, hge, hlt, rfl⟩ := mem_admissions_iff.1 he
    have harrival := (lt_arrivedBefore_iff hk hp _).1 hlt
    have hearly : p.arrival.toNat < T := (Stamped.precedes_iff.1 hpre).1
    have := (lt_arrivedBefore_iff hk hp (min t T)).2 (by omega)
    omega
  rw [← admissions_append ha hmid (arrivedBefore_le_length _ _), List.filter_append, hbefore,
    hafter, List.append_nil]

end Lists

namespace Simulation

variable {ps us vs : ProcessList} {T : Nat} {s s' a a' b b' : Simulation} {turn : Turn}
  {new : Array Stamped}

/-- A state on the way of a run of `ps` and of processes that arrive at `T` or later. -/
structure Course (ps us : ProcessList) (T : Nat) (s : Simulation) : Prop where
  kept : Contract.Kept (ps ++ us)
  fits : (ps ++ us).FitsClock
  late : ∀ p ∈ us, T ≤ p.arrival.toNat
  orderly : s.Orderly (ps ++ us)
  inTime : s.InTime (ps ++ us)

theorem course_start {config : Config} (hlate : ∀ p ∈ us, T ≤ p.arrival.toNat)
    (hstart : start (ps ++ us) config = .ok s) (hfits : (ps ++ us).FitsClock) :
    Course ps us T s where
  kept := kept_of_start hstart
  fits := hfits
  late := hlate
  orderly := orderly_start hstart
  inTime := inTime_start hstart

namespace Course

theorem step (h : Course ps us T s) (hstep : s.step = .ok (new, s')) : Course ps us T s' := by
  rcases h.orderly.of_step h.kept hstep with ⟨_, _, rfl⟩ | ⟨_, hmoves, horderly, _⟩
  · exact h
  · exact { h with orderly := horderly, inTime := h.inTime.moves h.fits hmoves }

/-- Before `T`, only processes of `ps` are in line. -/
theorem line_eq (h : Course ps us T s) (hbefore : s.now.toNat < T) :
    s.line (ps ++ us) = s.line ps := by
  have hfirst : s.now.toNat + 1 ≤ T := hbefore
  rw [line, line, arrivedBefore_append h.late hfirst]

/-- Up to `T`, only processes of `ps` have been let in. -/
theorem admitted_eq (h : Course ps us T s) (hbefore : s.now.toNat ≤ T) :
    s.admitted = arrivedBefore ps s.now.toNat := by
  rw [h.orderly.sound.admitted_eq h.kept h.fits, arrivedBefore_append h.late hbefore]

/-- The events of a turn before `T` are a matter of the turn and of `ps`. -/
theorem filter_events (h : Course ps us T s) (hm : Serves (ps ++ us) s turn s')
    (hbefore : s.now.toNat < T) :
    (turn.events (ps ++ us) s s').filter (·.precedes T) =
      admissions ps s.admitted (arrivedBefore ps (s.now.toNat + 1)) ++ ([turn.opening s] ++
        (admissions ps (arrivedBefore ps (s.now.toNat + 1))
          (arrivedBefore ps (min s'.now.toNat T)) ++
            if s'.now.toNat < T then [turn.ending s s'] else [])) := by
  have hsound := h.orderly.sound
  have hnow := hm.now_exact h.fits h.inTime
  have hrun := turn.run_pos s (hsound.eligible h.kept hm hm.process).work
  have hearly := hm.early_eq h.kept hsound
  have hlate : turn.late = arrivedBefore (ps ++ us) s'.now.toNat := by
    rw [← hm.admitted, (hsound.serves h.kept hm).admitted_eq h.kept h.fits]
  have hfirst : s.now.toNat + 1 ≤ T := hbefore
  have hle := hm.early.le
  have hopening : [turn.opening s].filter (·.precedes T) = [turn.opening s] :=
    (filter_precedes_singleton rfl T).trans (if_pos hbefore)
  have hending : [turn.ending s s'].filter (·.precedes T) =
      if s'.now.toNat < T then [turn.ending s s'] else [] :=
    filter_precedes_singleton (Turn.ending_of (P := fun e => e.event.isIdle = false)
      (fun _ _ _ => rfl) (fun _ _ _ _ => rfl)) T
  have hmin : min (s.now.toNat + 1) T = s.now.toNat + 1 := Nat.min_eq_left hfirst
  have hwithin : arrivedBefore (ps ++ us) (s.now.toNat + 1) ≤
      arrivedBefore (ps ++ us) (min s'.now.toNat T) := arrivedBefore_mono h.kept (by omega)
  rw [Turn.events_eq, hlate]
  rw [hearly] at hle ⊢
  simp only [List.filter_append, hopening, hending]
  rw [filter_precedes_admissions h.kept (by rw [hmin]; exact hle),
    filter_precedes_admissions h.kept hwithin, hmin, arrivedBefore_append h.late hfirst,
    arrivedBefore_append h.late (Nat.min_le_right _ _),
    admissions_append_right (arrivedBefore_le_length _ _),
    admissions_append_right (arrivedBefore_le_length _ _)]

/-- A process of `ps` is at its position in the whole list. -/
theorem process (_h : Course ps us T s) {i : Nat} {p : Process} (hp : ps[i]? = some p) :
    (ps ++ us)[i]? = some p :=
  (List.getElem?_append_left (List.getElem?_eq_some_iff.1 hp).1).trans hp

/-- A completed job stays as it is. -/
theorem job_of_completed (h : Course ps us T s) (hstep : s.step = .ok (new, s')) {i : Nat}
    {p : Process} {job : Job} {completion : Ticks} (hp : ps[i]? = some p)
    (hjob : s.job? i = some job) (hcompletion : job.completion = some completion) :
    s'.job? i = some job := by
  rcases h.orderly.of_step h.kept hstep with ⟨_, _, rfl⟩ | ⟨_, hmoves, _, _⟩
  · exact hjob
  · exact hmoves.job_of_completed h.kept h.orderly.sound (h.process hp) hjob hcompletion

/-- If no slice ends by `T`, a job that has completed by `T` had done so before. -/
theorem job_of_completed_after (h : Course ps us T s) (hstep : s.step = .ok (new, s'))
    (hturn : ∀ turn, Serves (ps ++ us) s turn s' → T < s'.now.toNat) {i : Nat} {p : Process}
    {job : Job} {completion : Ticks} (hp : ps[i]? = some p) (hjob : s'.job? i = some job)
    (hcompletion : job.completion = some completion) (hle : completion.toNat ≤ T) :
    s.job? i = some job := by
  rcases h.orderly.of_step h.kept hstep with ⟨_, _, rfl⟩ | ⟨_, hmoves, _, _⟩
  · exact hjob
  rcases hmoves.completion_cases h.kept h.orderly.sound (h.process hp) hjob hcompletion with
    hold | hnow
  · exact hold
  generalize new.toList = events at hmoves
  cases hmoves with
  | serves turn hm =>
    have hlater := hturn turn hm
    rw [← hnow] at hlater
    omega
  | skips next hm => rwa [hm.job_eq i] at hjob

/-- A state from which no slice starts before `T`. -/
theorem step_of_past (h : Course ps us T s) (hpast : s.allCompleted = true ∨ T ≤ s.now.toNat)
    (hstep : s.step = .ok (new, s')) :
    (s'.allCompleted = true ∨ T ≤ s'.now.toNat) ∧ new.toList.filter (·.precedes T) = [] ∧
      ∀ turn, Serves (ps ++ us) s turn s' → T < s'.now.toNat := by
  have hsound := h.orderly.sound
  rcases h.orderly.of_step h.kept hstep with ⟨hdone, rfl, rfl⟩ | ⟨hopen, hmoves, _, _⟩
  · refine ⟨.inl hdone, rfl, fun turn hm => ?_⟩
    have hline := hm.line_eq_cons h.kept hsound
    rw [hsound.line_eq_nil_of_completed hdone] at hline
    cases hline
  have hreached : T ≤ s.now.toNat := hpast.resolve_left (by rw [hopen]; exact Bool.false_ne_true)
  have hlater := hmoves.now_lt h.kept hsound h.fits h.inTime
  refine ⟨.inr (by omega), ?_, fun _ _ => by omega⟩
  generalize new.toList = events at hmoves
  cases hmoves with
  | serves turn hm =>
    rw [List.filter_eq_nil_iff]
    intro e he hpre
    have hearly := (Stamped.precedes_iff.1 hpre).1
    have := UInt64.le_iff_toNat_le.1 (hm.time_of_mem hsound he).1
    omega
  | skips next hm => exact filter_precedes_idle T _ _

/-- With a job in line before `T`, a step serves it. -/
theorem turn_of_line (h : Course ps us T s) (hbefore : s.now.toNat < T)
    (hstep : s.step = .ok (new, s')) (hline : s.line ps ≠ []) :
    ∃ turn, Serves (ps ++ us) s turn s' ∧ new.toList = turn.events (ps ++ us) s s' := by
  rw [← h.line_eq hbefore] at hline
  exact h.orderly.turn_of_line h.kept hstep hline

/-- With no job in line before `T`, a step skips the gap to the next process of `ps`. If there is
none, no slice starts before `T` any more. -/
theorem gap_of_line (h : Course ps us T s) (hbefore : s.now.toNat < T)
    (hstep : s.step = .ok (new, s')) (hline : s.line ps = []) :
    new.toList.filter (·.precedes T) = [] ∧ (∀ turn, ¬ Serves (ps ++ us) s turn s') ∧
      ((∃ p, ps[s.admitted]? = some p ∧ Skips (ps ++ us) s p s') ∨
        (ps[s.admitted]? = none ∧ (s'.allCompleted = true ∨ T ≤ s'.now.toNat))) := by
  have hsound := h.orderly.sound
  rw [← h.line_eq hbefore] at hline
  have hnone : ∀ turn, ¬ Serves (ps ++ us) s turn s' := by
    intro turn hm
    rw [hm.line_eq_cons h.kept hsound] at hline
    cases hline
  rcases h.orderly.gap_of_line h.kept hstep hline with ⟨hdone, rfl, rfl⟩ | ⟨p, hm, hnew⟩
  · refine ⟨rfl, hnone, .inr ⟨?_, .inl hdone⟩⟩
    have hall := (hsound.allCompleted_iff.1 hdone).1
    rw [List.length_append] at hall
    exact List.getElem?_eq_none_iff.2 (by omega)
  · refine ⟨by rw [hnew]; exact filter_precedes_idle T _ _, hnone, ?_⟩
    have hnext := hm.next
    cases hp : ps[s.admitted]? with
    | some q =>
      rw [h.process hp, Option.some.injEq] at hnext
      exact .inl ⟨q, rfl, hnext ▸ hm⟩
    | none =>
      -- the next process is one of those that arrive later
      rw [List.getElem?_append_right (List.getElem?_eq_none_iff.1 hp)] at hnext
      have hnow : s'.now = p.arrival := congrArg (·.now) hm.machine
      have harrival := h.late p (List.mem_of_getElem? hnext)
      exact .inr ⟨rfl, .inr (by rw [hnow]; exact harrival)⟩

end Course

/-- Two states agree on the clock, the admissions, the queue and the jobs of `ps`. -/
structure Agree (ps : ProcessList) (a b : Simulation) : Prop where
  now : b.now = a.now
  quantum : b.quantum = a.quantum
  admitted : b.admitted = a.admitted
  queue : b.queue = a.queue
  jobs : ∀ i < ps.length, b.job? i = a.job? i

/-- The jobs of `ps` that have completed by `T` in one state are the same in the other one. -/
def Matches (ps : ProcessList) (T : Nat) (a b : Simulation) : Prop :=
  ∀ i p job completion, ps[i]? = some p → a.job? i = some job →
    job.completion = some completion → completion.toNat ≤ T → b.job? i = some job

/-- Two states from which no slice starts before `T`, and that match in both directions. -/
structure Parted (ps : ProcessList) (T : Nat) (a b : Simulation) : Prop where
  past : a.allCompleted = true ∨ T ≤ a.now.toNat
  past' : b.allCompleted = true ∨ T ≤ b.now.toNat
  matches_right : Matches ps T a b
  matches_left : Matches ps T b a

/-- Two states that agree before `T`, or from which no slice starts before `T`. -/
def Close (ps : ProcessList) (T : Nat) (a b : Simulation) : Prop :=
  (Agree ps a b ∧ a.now.toNat < T) ∨ Parted ps T a b

section TwoRuns

variable {new' : Array Stamped} {ta tb : Turn}

/-- Steps in which no slice ends by `T` keep the match. -/
theorem Matches.step (h : Matches ps T a b) (ha : Course ps us T a) (hb : Course ps vs T b)
    (hstep : a.step = .ok (new, a')) (hstep' : b.step = .ok (new', b'))
    (hturn : ∀ turn, Serves (ps ++ us) a turn a' → T < a'.now.toNat) : Matches ps T a' b' := by
  intro i p job completion hp hjob hcompletion hle
  have hold := ha.job_of_completed_after hstep hturn hp hjob hcompletion hle
  exact hb.job_of_completed hstep' hp (h i p job completion hp hold hcompletion hle) hcompletion

theorem Parted.step (h : Parted ps T a b) (ha : Course ps us T a) (hb : Course ps vs T b)
    (hstep : a.step = .ok (new, a')) (hstep' : b.step = .ok (new', b')) :
    new.toList.filter (·.precedes T) = new'.toList.filter (·.precedes T) ∧
      Parted ps T a' b' := by
  obtain ⟨hpast, hnone, hturn⟩ := ha.step_of_past h.past hstep
  obtain ⟨hpast', hnone', hturn'⟩ := hb.step_of_past h.past' hstep'
  refine ⟨hnone.trans hnone'.symm, hpast, hpast', ?_, ?_⟩
  · exact h.matches_right.step ha hb hstep hstep' hturn
  · exact h.matches_left.step hb ha hstep' hstep hturn'

namespace Agree

theorem matches_right (h : Agree ps a b) : Matches ps T a b := by
  intro i p job completion hp hjob _ _
  rw [h.jobs i (List.getElem?_eq_some_iff.1 hp).1, hjob]

theorem matches_left (h : Agree ps a b) : Matches ps T b a := by
  intro i p job completion hp hjob _ _
  rw [← h.jobs i (List.getElem?_eq_some_iff.1 hp).1, hjob]

theorem close (h : Agree ps a b) : Close ps T a b := by
  by_cases hbefore : a.now.toNat < T
  · exact .inl ⟨h, hbefore⟩
  · have hpast := Nat.le_of_not_lt hbefore
    exact .inr ⟨.inr hpast, .inr (by rw [h.now]; exact hpast), h.matches_right, h.matches_left⟩

theorem line_eq (h : Agree ps a b) : b.line ps = a.line ps := by
  rw [line, line, h.now, h.admitted, h.queue]

/-- The same job has the turn in both runs. Only what arrives within the slice may differ. -/
theorem turn_eq (h : Agree ps a b) (ha : Course ps us T a) (hb : Course ps vs T b)
    (hbefore : a.now.toNat < T) (hma : Serves (ps ++ us) a ta a')
    (hmb : Serves (ps ++ vs) b tb b') : tb = { ta with late := tb.late } := by
  have hfirst : a.now.toNat + 1 ≤ T := hbefore
  have hearly := hma.early_eq ha.kept ha.orderly.sound
  have hearly' := hmb.early_eq hb.kept hb.orderly.sound
  have hline := hma.line_eq_cons ha.kept ha.orderly.sound
  have hline' := hmb.line_eq_cons hb.kept hb.orderly.sound
  rw [arrivedBefore_append ha.late hfirst] at hearly
  rw [h.now, arrivedBefore_append hb.late hfirst] at hearly'
  rw [ha.line_eq hbefore] at hline
  rw [hb.line_eq (by rw [h.now]; exact hbefore), h.line_eq, hline, List.cons.injEq] at hline'
  have hlt : ta.position < ps.length := by
    have hlt := ha.orderly.sound.lt_early hma (.inl rfl)
    have hle := arrivedBefore_le_length ps (a.now.toNat + 1)
    omega
  have hprocess := hma.process
  have hprocess' := hmb.process
  rw [List.getElem?_append_left hlt] at hprocess
  rw [← hline'.1, List.getElem?_append_left hlt, hprocess, Option.some.injEq] at hprocess'
  have hjob := hmb.job
  rw [← hline'.1, h.jobs _ hlt, hma.job, Option.some.injEq] at hjob
  cases tb
  simp only at hline' hprocess' hjob hearly'
  simp only [← hline'.1, ← hline'.2, ← hprocess', ← hjob, hearly', hearly]

/-- The slices that start at the same time end at the same time. -/
theorem now_serves (h : Agree ps a b) (hsame : tb = { ta with late := tb.late })
    (hma : Serves (ps ++ us) a ta a') (hmb : Serves (ps ++ vs) b tb b') : b'.now = a'.now := by
  rw [hma.now, hmb.now, h.now, h.quantum, hsame]
  rfl

/-- The events of both turns before `T` are the same. -/
theorem filter_events_eq (h : Agree ps a b) (ha : Course ps us T a) (hb : Course ps vs T b)
    (hbefore : a.now.toNat < T) (hma : Serves (ps ++ us) a ta a')
    (hmb : Serves (ps ++ vs) b tb b') :
    (ta.events (ps ++ us) a a').filter (·.precedes T) =
      (tb.events (ps ++ vs) b b').filter (·.precedes T) := by
  have hsame := h.turn_eq ha hb hbefore hma hmb
  have hnow := h.now_serves hsame hma hmb
  have hopening : tb.opening b = ta.opening a := by
    rw [hsame, Turn.opening, Turn.opening, h.now, h.quantum]
    rfl
  have hending : tb.ending b b' = ta.ending a a' := by
    rw [hsame, Turn.ending, Turn.ending, hnow, h.now, h.quantum]
  rw [ha.filter_events hma hbefore, hb.filter_events hmb (by rw [h.now]; exact hbefore), hopening,
    hending, hnow, h.now, h.admitted]

/-- Turns that end by `T` let in the same processes, and lead to states that agree. -/
theorem serves (h : Agree ps a b) (ha : Course ps us T a) (hb : Course ps vs T b)
    (hbefore : a.now.toNat < T) (hma : Serves (ps ++ us) a ta a')
    (hmb : Serves (ps ++ vs) b tb b') (ha' : Course ps us T a') (hb' : Course ps vs T b')
    (hwithin : a'.now.toNat ≤ T) : Agree ps a' b' := by
  have hsame := h.turn_eq ha hb hbefore hma hmb
  have hnow := h.now_serves hsame hma hmb
  have hadmitted : b'.admitted = a'.admitted := by
    rw [ha'.admitted_eq hwithin, hb'.admitted_eq (by rw [hnow]; exact hwithin), hnow]
  have hlate : tb.late = ta.late := by rw [← hma.admitted, ← hmb.admitted, hadmitted]
  obtain rfl : tb = ta := by rw [hsame, hlate]
  refine ⟨hnow, ?_, hadmitted, ?_, fun i hi => ?_⟩
  · rw [hma.frame.quantum, hmb.frame.quantum, h.quantum]
  · rw [hma.queue, hmb.queue, h.quantum]
  · by_cases hposition : i = tb.position
    · rw [hposition, hma.served, hmb.served, hnow, h.now, h.quantum]
    by_cases hrest : i ∈ tb.rest
    · rw [hma.waited i hrest, hmb.waited i hrest, h.jobs i hi, h.quantum]
    by_cases hentered : tb.early ≤ i ∧ i < tb.late
    · rw [hma.entered i hentered.1 hentered.2, hmb.entered i hentered.1 hentered.2, h.jobs i hi]
    · have hout : i < tb.early ∨ tb.late ≤ i := by omega
      rw [hma.untouched i hposition hrest hout, hmb.untouched i hposition hrest hout, h.jobs i hi]

/-- Gaps that lead to the same process lead to states that agree. -/
theorem skips (h : Agree ps a b) {p : Process} (hma : Skips (ps ++ us) a p a')
    (hmb : Skips (ps ++ vs) b p b') : Agree ps a' b' where
  now := (congrArg (·.now) hmb.machine).trans (congrArg (·.now) hma.machine).symm
  quantum := by rw [hma.frame.quantum, hmb.frame.quantum, h.quantum]
  admitted := by rw [hma.admitted, hmb.admitted, h.admitted]
  queue := (congrArg (·.ready.slots) hmb.machine).trans
    (h.queue.trans (congrArg (·.ready.slots) hma.machine).symm)
  jobs i hi := by rw [hma.job_eq i, hmb.job_eq i, h.jobs i hi]

/-- From states that agree before `T`, both runs serve the same job, or both have nothing to do. -/
theorem step (h : Agree ps a b) (ha : Course ps us T a) (hb : Course ps vs T b)
    (hbefore : a.now.toNat < T) (hstep : a.step = .ok (new, a'))
    (hstep' : b.step = .ok (new', b')) :
    new.toList.filter (·.precedes T) = new'.toList.filter (·.precedes T) ∧ Close ps T a' b' := by
  have hbefore' : b.now.toNat < T := by rw [h.now]; exact hbefore
  by_cases hline : a.line ps = []
  · obtain ⟨hnone, hturn, hnext⟩ := ha.gap_of_line hbefore hstep hline
    obtain ⟨hnone', hturn', hnext'⟩ := hb.gap_of_line hbefore' hstep' (h.line_eq.trans hline)
    refine ⟨hnone.trans hnone'.symm, ?_⟩
    rw [h.admitted] at hnext'
    -- the next process of `ps`, if there is one, is the same in both runs
    rcases hnext with ⟨p, hp, hma⟩ | ⟨hp, hpast⟩
    · rcases hnext' with ⟨p', hp', hmb⟩ | ⟨hp', _⟩
      · rw [hp, Option.some.injEq] at hp'
        subst hp'
        exact (h.skips hma hmb).close
      · rw [hp] at hp'
        cases hp'
    · rcases hnext' with ⟨p', hp', _⟩ | ⟨_, hpast'⟩
      · rw [hp] at hp'
        cases hp'
      refine .inr ⟨hpast, hpast', ?_, ?_⟩
      · exact h.matches_right.step ha hb hstep hstep' fun turn hm => absurd hm (hturn turn)
      · exact h.matches_left.step hb ha hstep' hstep fun turn hm => absurd hm (hturn' turn)
  · obtain ⟨ta, hma, hnew⟩ := ha.turn_of_line hbefore hstep hline
    obtain ⟨tb, hmb, hnew'⟩ := hb.turn_of_line hbefore' hstep' (by rwa [h.line_eq])
    rw [hnew, hnew']
    refine ⟨h.filter_events_eq ha hb hbefore hma hmb, ?_⟩
    by_cases hwithin : a'.now.toNat ≤ T
    · exact (h.serves ha hb hbefore hma hmb (ha.step hstep) (hb.step hstep') hwithin).close
    · have hnow := h.now_serves (h.turn_eq ha hb hbefore hma hmb) hma hmb
      have hbehind : T < a'.now.toNat := Nat.lt_of_not_le hwithin
      have hbehind' : T < b'.now.toNat := by rw [hnow]; exact hbehind
      refine .inr ⟨.inr (Nat.le_of_lt hbehind), .inr (Nat.le_of_lt hbehind'), ?_, ?_⟩
      · exact h.matches_right.step ha hb hstep hstep' fun _ _ => hbehind
      · exact h.matches_left.step hb ha hstep' hstep fun _ _ => hbehind'

end Agree

/-- At the start, no process has been let in. -/
theorem agree_start {config config' : Config} (hquantum : config'.quantum = config.quantum)
    (hstart : start (ps ++ us) config = .ok a)
    (hstart' : start (ps ++ vs) config' = .ok b) : Agree ps a b := by
  have hadmitted := admitted_of_start hstart
  have hadmitted' := admitted_of_start hstart'
  have hjobs : ∀ i < ps.length, b.job? i = a.job? i := by
    intro i hi
    have hp : (ps ++ us)[i]? = some ps[i] :=
      (List.getElem?_append_left hi).trans (List.getElem?_eq_getElem hi)
    have hp' : (ps ++ vs)[i]? = some ps[i] :=
      (List.getElem?_append_left hi).trans (List.getElem?_eq_getElem hi)
    rw [((sound_start hstart).job_of_ahead hp (by omega)).1,
      ((sound_start hstart').job_of_ahead hp' (by omega)).1]
  obtain ⟨_, _, rfl⟩ := start_eq_ok_iff.1 hstart
  obtain ⟨_, _, rfl⟩ := start_eq_ok_iff.1 hstart'
  exact ⟨rfl, hquantum, rfl, rfl, hjobs⟩

namespace Close

theorem matches_right (h : Close ps T a b) : Matches ps T a b := by
  rcases h with ⟨hagree, _⟩ | hparted
  · exact hagree.matches_right
  · exact hparted.matches_right

theorem matches_left (h : Close ps T a b) : Matches ps T b a := by
  rcases h with ⟨hagree, _⟩ | hparted
  · exact hagree.matches_left
  · exact hparted.matches_left

/-- Runs from states that are close stay close, step by step, and hand out the same events before
`T`. -/
theorem steps (h : Close ps T a b) (ha : Course ps us T a) (hb : Course ps vs T b) {n : Nat}
    {events events' : Array Stamped} (hrun : a.steps n = .ok (events, a'))
    (hrun' : b.steps n = .ok (events', b')) :
    events.toList.filter (·.precedes T) = events'.toList.filter (·.precedes T) ∧
      Close ps T a' b' ∧ Course ps us T a' ∧ Course ps vs T b' := by
  induction n generalizing events events' a' b' with
  | zero =>
    cases hrun
    cases hrun'
    exact ⟨rfl, h, ha, hb⟩
  | succ n ih =>
    obtain ⟨before, u, new, hbefore, hstep, rfl⟩ := steps_succ_eq_ok_iff.1 hrun
    obtain ⟨before', u', new', hbefore', hstep', rfl⟩ := steps_succ_eq_ok_iff.1 hrun'
    obtain ⟨hsame, hclose, hu, hu'⟩ := ih hbefore hbefore'
    have hnext : new.toList.filter (·.precedes T) = new'.toList.filter (·.precedes T) ∧
        Close ps T a' b' := by
      rcases hclose with ⟨hagree, hearly⟩ | hparted
      · exact hagree.step hu hu' hearly hstep hstep'
      · obtain ⟨hnew, hparted'⟩ := hparted.step hu hu' hstep hstep'
        exact ⟨hnew, .inr hparted'⟩
    refine ⟨?_, hnext.2, hu.step hstep, hu'.step hstep'⟩
    rw [Array.toList_append, Array.toList_append, List.filter_append, List.filter_append, hsame,
      hnext.1]

end Close

end TwoRuns

/-- A run that comes to its end: its events, the state that it ends in, and the timings of its
processes, which are those of its report, if there is one. -/
structure Concludes (s : Simulation) (events : Array Stamped) (fin : Simulation)
    (timings : List Timing) : Prop where
  steps : ∃ n, s.steps n = .ok (events, fin)
  completed : fin.allCompleted = true
  complete : s.complete = .ok fin
  timed : fin.machine.jobs.toList.mapM Job.timing = .ok timings
  report : ∀ report, s.run = .ok report → report.timings = timings

/-- What happens before an instant `T`, gaps apart, does not depend on the processes that arrive at
`T` or later. Neither do the times of a process that has completed by `T`. -/
theorem causality {config config' : Config} (hlate : ∀ p ∈ us, T ≤ p.arrival.toNat)
    (hlate' : ∀ p ∈ vs, T ≤ p.arrival.toNat) (hquantum : config'.quantum = config.quantum)
    (hstart : start (ps ++ us) config = .ok s) (hstart' : start (ps ++ vs) config' = .ok s')
    (hfits : (ps ++ us).FitsClock) (hfits' : (ps ++ vs).FitsClock) :
    ∃ events fin timings events' fin' timings', s.Concludes events fin timings ∧
      s'.Concludes events' fin' timings' ∧
      events.toList.filter (·.precedes T) = events'.toList.filter (·.precedes T) ∧
      ∀ (i : Nat) (p : Process), ps[i]? = some p → ∃ timing timing',
        timings[i]? = some timing ∧ timings'[i]? = some timing' ∧ timing.pid = p.pid ∧
        timing'.pid = p.pid ∧
        (timing.completion.toNat ≤ T ∨ timing'.completion.toNat ≤ T → timing = timing') := by
  obtain ⟨n, events, fin, timings, hrun, hdone, hcomplete, _, htimings, hreport⟩ :=
    exists_timings hstart hfits
  obtain ⟨n', events', fin', timings', hrun', hdone', hcomplete', _, htimings', hreport'⟩ :=
    exists_timings hstart' hfits'
  refine ⟨events, fin, timings, events', fin', timings',
    ⟨⟨n, hrun⟩, hdone, hcomplete, htimings, hreport⟩,
    ⟨⟨n', hrun'⟩, hdone', hcomplete', htimings', hreport'⟩, ?_⟩
  -- both runs stand still at their end, so they can be taken to be of the same length
  have hlong := steps_add_of_completed hrun hdone n'
  have hlong' := steps_add_of_completed hrun' hdone' n
  rw [Nat.add_comm] at hlong'
  obtain ⟨hsame, hclose, hfin, hfin'⟩ := (agree_start hquantum hstart hstart').close.steps
    (course_start hlate hstart hfits) (course_start hlate' hstart' hfits') hlong hlong'
  refine ⟨hsame, fun i p hp => ?_⟩
  obtain ⟨job, timing, hjob, hentry, htiming, haccounts⟩ :=
    hfin.orderly.sound.timing_of_mapM htimings (hfin.process hp)
  obtain ⟨job', timing', hjob', hentry', htiming', haccounts'⟩ :=
    hfin'.orderly.sound.timing_of_mapM htimings' (hfin'.process hp)
  have hfrom := Job.exists_of_timing htiming
  have hfrom' := Job.exists_of_timing htiming'
  obtain ⟨_, completion, _, hcompletion, hfields⟩ := hfrom
  obtain ⟨_, completion', _, hcompletion', hfields'⟩ := hfrom'
  refine ⟨timing, timing', hentry, hentry', by rw [hfields]; exact haccounts.pid,
    by rw [hfields']; exact haccounts'.pid, ?_⟩
  have hjobs : timing.completion.toNat ≤ T ∨ timing'.completion.toNat ≤ T → job = job' := by
    rintro (hle | hle)
    · rw [hfields] at hle
      have hmatch := hclose.matches_right i p job completion hp hjob hcompletion hle
      rwa [hjob', Option.some.injEq, eq_comm] at hmatch
    · rw [hfields'] at hle
      have hmatch := hclose.matches_left i p job' completion' hp hjob' hcompletion' hle
      rwa [hjob, Option.some.injEq] at hmatch
  intro hle
  rw [hjobs hle, htiming', Except.ok.injEq] at htiming
  exact htiming.symm

/-- Two processes that arrive within and at the end of the slice that the first process of
`arrivalsAtSlices` gets, with a quantum of `2`, from instant `5` on. -/
def lateRivals : ProcessList :=
  [{ pid := ⟨5⟩, arrival := 6, burst := 1 }, { pid := ⟨6⟩, arrival := 7, burst := 3 }]

theorem causality_lateRivals :
    ∃ s report s' report', start (arrivalsAtSlices.take 3 ++ arrivalsAtSlices.drop 3)
        { quantum := 2, checks := true } = .ok s ∧ s.run = .ok report ∧
      start (arrivalsAtSlices.take 3 ++ lateRivals) { quantum := 2, checks := false } = .ok s' ∧
      s'.run = .ok report' ∧
      (∀ p ∈ arrivalsAtSlices.drop 3, 6 ≤ p.arrival.toNat) ∧
      (∀ p ∈ lateRivals, 6 ≤ p.arrival.toNat) ∧
      ProcessList.FitsClock (arrivalsAtSlices.take 3 ++ arrivalsAtSlices.drop 3) ∧
      ProcessList.FitsClock (arrivalsAtSlices.take 3 ++ lateRivals) ∧
      ∃ events fin timings events' fin' timings', s.Concludes events fin timings ∧
        s'.Concludes events' fin' timings' ∧
        events.toList.filter (·.precedes 6) = events'.toList.filter (·.precedes 6) ∧
        ∀ (i : Nat) (p : Process), (arrivalsAtSlices.take 3)[i]? = some p → ∃ timing timing',
          timings[i]? = some timing ∧ timings'[i]? = some timing' ∧ timing.pid = p.pid ∧
          timing'.pid = p.pid ∧
          (timing.completion.toNat ≤ 6 ∨ timing'.completion.toNat ≤ 6 → timing = timing') := by
  obtain ⟨s, report, hstart, hreport⟩ : ∃ s report,
      start (arrivalsAtSlices.take 3 ++ arrivalsAtSlices.drop 3)
        { quantum := 2, checks := true } = .ok s ∧ s.run = .ok report := ⟨_, _, rfl, rfl⟩
  obtain ⟨s', report', hstart', hreport'⟩ : ∃ s' report',
      start (arrivalsAtSlices.take 3 ++ lateRivals)
        { quantum := 2, checks := false } = .ok s' ∧ s'.run = .ok report' := ⟨_, _, rfl, rfl⟩
  have hlate : ∀ p ∈ arrivalsAtSlices.drop 3, 6 ≤ p.arrival.toNat := by decide
  have hlate' : ∀ p ∈ lateRivals, 6 ≤ p.arrival.toNat := by decide
  have hfits : ProcessList.FitsClock (arrivalsAtSlices.take 3 ++ arrivalsAtSlices.drop 3) := by
    decide
  have hfits' : ProcessList.FitsClock (arrivalsAtSlices.take 3 ++ lateRivals) := by decide
  have hquantum : ({ quantum := 2, checks := false } : Config).quantum =
      ({ quantum := 2, checks := true } : Config).quantum := rfl
  exact ⟨s, report, s', report', hstart, hreport, hstart', hreport', hlate, hlate', hfits, hfits',
    causality hlate hlate' hquantum hstart hstart' hfits hfits'⟩

end Simulation

end RoundRobin
