import RoundRobin.TickMachine
import RoundRobin.Proofs.Step

/-!
# Arrivals in a sorted list

In a list that keeps the contract, the processes that arrive before an instant are the first ones.
Main statement: `arrivals_eq`, the ones that arrive at an instant are a range of positions.
-/

namespace RoundRobin

/-- How many processes of a sorted list arrive before an instant. -/
def arrivedBefore (ps : ProcessList) (t : Nat) : Nat :=
  ps.findIdx fun p => decide (t ≤ p.arrival.toNat)

variable {ps : ProcessList}

theorem arrivedBefore_le_length (ps : ProcessList) (t : Nat) : arrivedBefore ps t ≤ ps.length :=
  List.findIdx_le_length

theorem lt_arrivedBefore_iff (hk : Contract.Kept ps) {i : Nat} {p : Process} (hp : ps[i]? = some p)
    (t : Nat) : i < arrivedBefore ps t ↔ p.arrival.toNat < t := by
  rcases List.getElem?_eq_some_iff.1 hp with ⟨hlt, hget⟩
  constructor
  · intro hi
    have hnot := List.not_of_lt_findIdx hi
    rw [hget] at hnot
    simpa using hnot
  · intro harrival
    apply Nat.lt_of_not_le
    intro hle
    -- the first one that does not arrive before `t` is at `i` or ahead of it
    have hbound : arrivedBefore ps t < ps.length := Nat.lt_of_le_of_lt hle hlt
    have hfirst : decide (t ≤ ps[arrivedBefore ps t].arrival.toNat) = true :=
      List.findIdx_getElem (w := hbound)
    have hsorted := hk.arrival_le (List.getElem?_eq_getElem hbound) hp hle
    rw [decide_eq_true_iff] at hfirst
    omega

/-- A position that divides the list by an instant is the number of arrivals before it. -/
theorem eq_arrivedBefore (hk : Contract.Kept ps) {b t : Nat} (hle : b ≤ ps.length)
    (h : ∀ i p, ps[i]? = some p → (i < b ↔ p.arrival.toNat < t)) : b = arrivedBefore ps t := by
  have hbound := arrivedBefore_le_length ps t
  have hnot : ∀ i, i < ps.length → (i < b ↔ i < arrivedBefore ps t) := by
    intro i hi
    have hp : ps[i]? = some ps[i] := List.getElem?_eq_getElem hi
    rw [h i _ hp, lt_arrivedBefore_iff hk hp]
  rcases Nat.lt_trichotomy b (arrivedBefore ps t) with hlt | heq | hgt
  · have := (hnot b (by omega)).2 hlt
    omega
  · exact heq
  · have := (hnot (arrivedBefore ps t) (by omega)).1 hgt
    omega

theorem Admits.eq_arrivedBefore (hk : Contract.Kept ps) {t a b : Nat} (h : Admits ps t a b)
    (hbefore : ∀ i p, ps[i]? = some p → i < a → p.arrival.toNat < t) : b = arrivedBefore ps t := by
  apply RoundRobin.eq_arrivedBefore hk h.le_length
  intro i p hp
  constructor
  · intro hlt
    by_cases ha : i < a
    · exact hbefore i p hp ha
    · exact h.arrived i p hp (by omega) hlt
  · intro hlt
    apply Nat.lt_of_not_le
    intro hle
    have := h.ahead i p hp hle
    omega

theorem arrivedBefore_mono (hk : Contract.Kept ps) {t u : Nat} (h : t ≤ u) :
    arrivedBefore ps t ≤ arrivedBefore ps u := by
  apply Nat.le_of_not_lt
  intro hlt
  have hbound := arrivedBefore_le_length ps t
  have hp : ps[arrivedBefore ps u]? = some _ := List.getElem?_eq_getElem (by omega)
  have hearlier := (lt_arrivedBefore_iff hk hp t).1 hlt
  have := (lt_arrivedBefore_iff hk hp u).2 (by omega)
  omega

theorem filter_zipIdx_of_none {α : Type} {f : α → Bool} {l : List α} (n : Nat)
    (h : ∀ (i : Nat) x, l[i]? = some x → ¬ f x = true) :
    (l.zipIdx n).filter (fun (x, _) => f x) = [] := by
  rw [List.filter_eq_nil_iff]
  rintro ⟨x, i⟩ hmem
  exact h _ x (List.mk_mem_zipIdx_iff_le_and_getElem?_sub.1 hmem).2

theorem filter_zipIdx_of_all {α : Type} {f : α → Bool} {l : List α} (n : Nat)
    (h : ∀ (i : Nat) x, l[i]? = some x → f x = true) :
    (l.zipIdx n).filter (fun (x, _) => f x) = l.zipIdx n := by
  rw [List.filter_eq_self]
  rintro ⟨x, i⟩ hmem
  exact h _ x (List.mk_mem_zipIdx_iff_le_and_getElem?_sub.1 hmem).2

/-- If the entries that pass a test are those from position `a` up to `b`, then these are the
positions that a filter finds. -/
theorem filter_zipIdx_eq_range' {α : Type} {f : α → Bool} {l : List α} {a b : Nat} (hab : a ≤ b)
    (hb : b ≤ l.length) (h : ∀ i x, l[i]? = some x → (f x = true ↔ a ≤ i ∧ i < b)) :
    (l.zipIdx.filter fun (x, _) => f x).map (·.2) = List.range' a (b - a) := by
  have hlen : (l.take a).length = a := by
    rw [List.length_take]
    omega
  have hlen' : ((l.take b).drop a).length = b - a := by
    rw [List.length_drop, List.length_take]
    omega
  have hsplit : l = l.take a ++ ((l.take b).drop a ++ l.drop b) := by
    have htake : l.take a = (l.take b).take a := by rw [List.take_take, Nat.min_eq_left hab]
    rw [htake, ← List.append_assoc, List.take_append_drop, List.take_append_drop]
  have hbefore : ((l.take a).zipIdx 0).filter (fun (x, _) => f x) = [] := by
    apply filter_zipIdx_of_none
    intro i x hx
    rw [List.getElem?_take] at hx
    split at hx
    · next hi =>
      rw [h i x hx]
      omega
    · cases hx
  have hbetween : (((l.take b).drop a).zipIdx a).filter (fun (x, _) => f x) =
      ((l.take b).drop a).zipIdx a := by
    apply filter_zipIdx_of_all
    intro i x hx
    rw [List.getElem?_drop, List.getElem?_take] at hx
    split at hx
    · next hi => exact (h _ x hx).2 ⟨Nat.le_add_right a i, hi⟩
    · cases hx
  have hafter : ((l.drop b).zipIdx b).filter (fun (x, _) => f x) = [] := by
    apply filter_zipIdx_of_none
    intro i x hx
    rw [List.getElem?_drop] at hx
    rw [h _ x hx]
    omega
  calc (l.zipIdx.filter fun (x, _) => f x).map (·.2)
      = (((l.take a).zipIdx 0 ++ (((l.take b).drop a).zipIdx a ++ (l.drop b).zipIdx b)).filter
          fun (x, _) => f x).map (·.2) := by
        congr 2
        conv => lhs; rw [hsplit]
        rw [List.zipIdx_append, List.zipIdx_append, hlen, hlen', Nat.zero_add,
          Nat.add_sub_cancel' hab]
    _ = (((l.take b).drop a).zipIdx a).map (·.2) := by
        rw [List.filter_append, List.filter_append, hbefore, hbetween, hafter, List.nil_append,
          List.append_nil]
    _ = List.range' a (b - a) := by
        rw [← hlen']
        exact List.zipIdx_map_snd a _

/-- The processes that arrive at an instant are next to each other. -/
theorem arrivals_eq (hk : Contract.Kept ps) (t : Nat) :
    TickMachine.arrivals ps t =
      List.range' (arrivedBefore ps t) (arrivedBefore ps (t + 1) - arrivedBefore ps t) := by
  apply filter_zipIdx_eq_range' (f := fun p : Process => p.arrival.toNat == t)
    (arrivedBefore_mono hk (Nat.le_add_right t 1)) (arrivedBefore_le_length ps (t + 1))
  intro i p hp
  have hbefore := lt_arrivedBefore_iff hk hp t
  have hafter := lt_arrivedBefore_iff hk hp (t + 1)
  rw [beq_iff_eq]
  omega

end RoundRobin
