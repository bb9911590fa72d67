import RoundRobin.Proofs.Arrivals

/-!
# Turns and gaps, tick by tick

What the tick machine does from an instant at which the processor is free: if a job is in line, it
runs for a whole turn while the arrivals queue up behind the line (`settle_of_line`,
`release_of_line`), and if none is, the machine idles up to the next arrival (`release_of_gap`).
-/

namespace RoundRobin

namespace TickMachine

variable {ps : ProcessList} {q t i j u work : Nat} {rest left : List Nat}

/-- The machine with a free processor. -/
def free (t : Nat) (ready left : List Nat) : TickMachine where
  clock := t
  ready
  left

/-- The machine when job `i`, which came to the processor at instant `t` with `work` left, has run
for `j` ticks. The line behind it is `rest`, and then the processes that arrived since, before
instant `u`. -/
def inTurn (ps : ProcessList) (t i : Nat) (rest left : List Nat) (work j u : Nat) :
    TickMachine where
  clock := t + j
  ready := rest ++ List.range' (arrivedBefore ps (t + 1))
    (arrivedBefore ps u - arrivedBefore ps (t + 1))
  turn := some { job := i, ran := j }
  left := left.set i (work - j)

theorem release_left (m : TickMachine) (q : Nat) : (m.release q).left = m.left := by
  unfold release
  split
  · rfl
  · split
    · rfl
    · split <;> rfl

/-- The job at the front takes a free processor. -/
theorem take_free (t : Nat) (left : List Nat) :
    (free t (i :: rest) left).take =
      { clock := t, ready := rest, turn := some { job := i, ran := 0 }, left } := rfl

/-- One more tick of a turn. -/
theorem run_inTurn (hwork : left[i]? = some work) :
    (inTurn ps t i rest left work j u).run = inTurn ps t i rest left work (j + 1) u := by
  have hleft : (left.set i (work - j)).modify i (· - 1) = left.set i (work - (j + 1)) := by
    apply List.ext_getElem?
    intro k
    have hlt := (List.getElem?_eq_some_iff.1 hwork).1
    rw [List.getElem?_modify, List.getElem?_set, List.getElem?_set]
    by_cases hk : i = k
    · subst hk
      simp [hlt, Nat.sub_sub]
    · simp [hk]
  simp only [run, inTurn, hleft, Nat.add_assoc]

theorem left_inTurn (ps : ProcessList) (t : Nat) (rest : List Nat) (j u : Nat)
    (hwork : left[i]? = some work) :
    (inTurn ps t i rest left work j u).left[i]? = some (work - j) := by
  have hlt := (List.getElem?_eq_some_iff.1 hwork).1
  change (left.set i (work - j))[i]? = _
  rw [List.getElem?_set, if_pos rfl, if_pos hlt]

/-- The processes that arrive from instant `t` on, before instant `u` and then at it. -/
theorem range'_append_arrivals (hk : Contract.Kept ps) (h : t ≤ u) :
    List.range' (arrivedBefore ps t) (arrivedBefore ps u - arrivedBefore ps t) ++ arrivals ps u =
      List.range' (arrivedBefore ps t) (arrivedBefore ps (u + 1) - arrivedBefore ps t) := by
  have hmono := arrivedBefore_mono hk h
  have hmono' := arrivedBefore_mono hk (Nat.le_add_right u 1)
  have hstart : arrivedBefore ps u =
      arrivedBefore ps t + (arrivedBefore ps u - arrivedBefore ps t) := by omega
  rw [arrivals_eq hk]
  conv =>
    lhs
    rhs
    rw [hstart]
  rw [List.range'_append_1]
  congr 1
  omega

/-- Within a turn, the processes that arrive at an instant join the queue, and the job goes on. -/
theorem settle_inTurn (hk : Contract.Kept ps) (hwork : left[i]? = some work) (hj : 0 < j)
    (hq : j < q) (hleft : j < work) :
    (inTurn ps t i rest left work j (t + j)).settle ps q =
      inTurn ps t i rest left work j (t + j + 1) := by
  have hrelease : (inTurn ps t i rest left work j (t + j)).release q =
      inTurn ps t i rest left work j (t + j) := by
    have hsome := left_inTurn ps t rest j (t + j) hwork
    unfold release
    change (if (inTurn ps t i rest left work j (t + j)).left[i]? = some 0 then _
      else if j = q then _ else _) = _
    rw [hsome, if_neg (by rw [Option.some.injEq]; omega), if_neg (by omega)]
  have hready := range'_append_arrivals hk (t := t + 1) (u := t + j) (by omega)
  rw [settle, hrelease]
  change TickMachine.mk (t + j) (rest ++ _ ++ arrivals ps (t + j)) _ _ = _
  rw [List.append_assoc, hready]
  rfl

/-- A turn ends once it has lasted for a quantum or no work is left. -/
theorem release_inTurn (hwork : left[i]? = some work) (hj : j = min q work) :
    (inTurn ps t i rest left work j u).release q =
      free (t + j) (rest ++ List.range' (arrivedBefore ps (t + 1))
        (arrivedBefore ps u - arrivedBefore ps (t + 1)) ++ if work ≤ q then [] else [i])
        (left.set i (work - j)) := by
  have hsome := left_inTurn ps t rest j u hwork
  unfold release
  change (if (inTurn ps t i rest left work j u).left[i]? = some 0 then _
    else if j = q then _ else _) = _
  by_cases hend : work ≤ q
  · rw [hsome, if_pos (by rw [Option.some.injEq]; omega), if_pos hend, List.append_nil]
    rfl
  · rw [hsome, if_neg (by rw [Option.some.injEq]; omega), if_pos (by omega), if_neg hend]
    rfl

variable {queue : List Nat}

/-- With a job in line, a turn starts, and it goes on until its quantum or the work is used up. -/
theorem settle_of_line (hk : Contract.Kept ps)
    (hfree : (atInstant ps q t).release q = free t queue left)
    (hline : queue ++ arrivals ps t = i :: rest) (hwork : left[i]? = some work)
    (hj : j < min q work) :
    (atInstant ps q (t + j)).settle ps q = inTurn ps t i rest left work j (t + j + 1) := by
  induction j with
  | zero =>
    have hleft : left.set i (work - 0) = left := by
      obtain ⟨hlt, rfl⟩ := List.getElem?_eq_some_iff.1 hwork
      exact List.set_getElem_self hlt
    rw [Nat.add_zero, settle, hfree]
    change (free t (queue ++ arrivals ps t) left).take = _
    rw [hline, take_free, inTurn, hleft, Nat.add_zero, Nat.sub_self, List.range'_zero,
      List.append_nil]
  | succ j ih =>
    change ((atInstant ps q (t + j)).settle ps q).run.settle ps q = _
    rw [ih (by omega), run_inTurn hwork]
    exact settle_inTurn hk hwork (Nat.succ_pos j) (by omega) (by omega)

theorem atInstant_of_line (hk : Contract.Kept ps)
    (hfree : (atInstant ps q t).release q = free t queue left)
    (hline : queue ++ arrivals ps t = i :: rest) (hwork : left[i]? = some work)
    (hj : j < min q work) :
    atInstant ps q (t + j + 1) = inTurn ps t i rest left work (j + 1) (t + j + 1) := by
  change ((atInstant ps q (t + j)).settle ps q).run = _
  rw [settle_of_line hk hfree hline hwork hj, run_inTurn hwork]

/-- The job at the front of the line runs in every tick of its turn. -/
theorem runner?_of_line (hk : Contract.Kept ps)
    (hfree : (atInstant ps q t).release q = free t queue left)
    (hline : queue ++ arrivals ps t = i :: rest) (hwork : left[i]? = some work)
    (hj : j < min q work) : runner? ps q (t + j) = some i := by
  rw [runner?, settle_of_line hk hfree hline hwork hj]
  rfl

/-- Up to the end of its turn, the work of the job goes down tick by tick, and that of the others
stays. -/
theorem left_of_line (hk : Contract.Kept ps)
    (hfree : (atInstant ps q t).release q = free t queue left)
    (hline : queue ++ arrivals ps t = i :: rest) (hwork : left[i]? = some work)
    (hj : j ≤ min q work) : (atInstant ps q (t + j)).left = left.set i (work - j) := by
  cases j with
  | zero =>
    obtain ⟨hlt, rfl⟩ := List.getElem?_eq_some_iff.1 hwork
    rw [Nat.sub_zero, List.set_getElem_self, Nat.add_zero, ← release_left _ q, hfree]
    rfl
  | succ j =>
    change (atInstant ps q (t + j + 1)).left = _
    rw [atInstant_of_line hk hfree hline hwork (by omega)]
    rfl

/-- When its turn is over, the job goes behind all that arrived before, if it has work left. -/
theorem release_of_line (hk : Contract.Kept ps)
    (hfree : (atInstant ps q t).release q = free t queue left)
    (hline : queue ++ arrivals ps t = i :: rest) (hwork : left[i]? = some work)
    (hpos : 0 < min q work) :
    (atInstant ps q (t + min q work)).release q =
      free (t + min q work) (rest ++ List.range' (arrivedBefore ps (t + 1))
        (arrivedBefore ps (t + min q work) - arrivedBefore ps (t + 1)) ++
          if work ≤ q then [] else [i]) (left.set i (work - min q work)) := by
  have hlast := atInstant_of_line hk hfree hline hwork (j := min q work - 1) (by omega)
  rw [show t + (min q work - 1) + 1 = t + min q work by omega,
    show min q work - 1 + 1 = min q work by omega] at hlast
  rw [hlast, release_inTurn hwork rfl]

/-- With nothing queued and no arrival, the processor stays free. -/
theorem release_of_gap (hfree : (atInstant ps q t).release q = free t [] left)
    (hnone : ∀ x, t ≤ x → x < u → arrivals ps x = []) (hj : t + j ≤ u) :
    (atInstant ps q (t + j)).release q = free (t + j) [] left := by
  induction j with
  | zero => exact hfree
  | succ j ih =>
    have hsettle : (atInstant ps q (t + j)).settle ps q = free (t + j) [] left := by
      rw [settle, ih (by omega)]
      change (free (t + j) (arrivals ps (t + j)) left).take = _
      rw [hnone (t + j) (by omega) (by omega)]
      rfl
    change ((atInstant ps q (t + j)).settle ps q).run.release q = _
    rw [hsettle]
    rfl

/-- In a gap, the machine idles. -/
theorem runner?_of_gap (hfree : (atInstant ps q t).release q = free t [] left)
    (hnone : ∀ x, t ≤ x → x < u → arrivals ps x = []) (hj : t + j < u) :
    runner? ps q (t + j) = none := by
  rw [runner?, settle, release_of_gap hfree hnone (by omega)]
  change (free (t + j) (arrivals ps (t + j)) left).take.turn.map _ = none
  rw [hnone (t + j) (by omega) hj]
  rfl

end TickMachine

end RoundRobin
