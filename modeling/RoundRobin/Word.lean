/-!
# 64-bit words

Times and counters are 64-bit words. The clock and the waiting times saturate at the greatest word;
every other sum and difference is checked and has no value when the exact result is not a word. The
lemmas say what each operation does to the natural number that a word stands for.
-/

namespace RoundRobin

/-- A 64-bit word. -/
abbrev Word := UInt64

/-- An instant or a length of simulated time, in clock ticks. -/
abbrev Ticks := Word

/-- A number of occurrences. -/
abbrev Count := Word

namespace Word

/-- The greatest word, `2 ^ 64 - 1`. -/
def top : Word := 0xFFFFFFFFFFFFFFFF

/-- The exact sum, if it is a word. -/
def add? (a b : Word) : Option Word :=
  if b ≤ top - a then some (a + b) else none

/-- The exact difference, if it is a word. -/
def sub? (a b : Word) : Option Word :=
  if b ≤ a then some (a - b) else none

/-- The sum, or the greatest word if the exact sum is not a word. -/
def satAdd (a b : Word) : Word :=
  (add? a b).getD top

theorem toNat_top : top.toNat + 1 = UInt64.size := rfl

theorem le_top (a : Word) : a ≤ top := by
  have := a.toNat_lt_size
  have := toNat_top
  rw [UInt64.le_iff_toNat_le]
  omega

theorem le_top_sub_iff {a b : Word} : b ≤ top - a ↔ a.toNat + b.toNat < UInt64.size := by
  have := a.toNat_lt_size
  have := toNat_top
  rw [UInt64.le_iff_toNat_le, UInt64.toNat_sub_of_le _ _ (le_top a)]
  omega

theorem toNat_add_of_lt {a b : Word} (h : a.toNat + b.toNat < UInt64.size) :
    (a + b).toNat = a.toNat + b.toNat := by
  rw [UInt64.toNat_add]
  exact Nat.mod_eq_of_lt h

theorem add?_eq_some_iff {a b c : Word} : add? a b = some c ↔ c.toNat = a.toNat + b.toNat := by
  have hc := c.toNat_lt_size
  unfold add?
  split
  · next h =>
    have hab := toNat_add_of_lt (le_top_sub_iff.1 h)
    rw [Option.some.injEq, ← UInt64.toNat_inj, hab]
    exact eq_comm
  · next h =>
    have := mt le_top_sub_iff.2 h
    simp only [reduceCtorEq, false_iff]
    omega

theorem add?_eq_none_iff {a b : Word} : add? a b = none ↔ UInt64.size ≤ a.toNat + b.toNat := by
  unfold add?
  split
  · next h =>
    have := le_top_sub_iff.1 h
    simp only [reduceCtorEq, false_iff]
    omega
  · next h =>
    have := mt le_top_sub_iff.2 h
    simp only [true_iff]
    omega

theorem sub?_eq_some_iff {a b c : Word} : sub? a b = some c ↔ c.toNat + b.toNat = a.toNat := by
  unfold sub?
  split
  · next h =>
    have hab := UInt64.toNat_sub_of_le _ _ h
    have hle := UInt64.le_iff_toNat_le.1 h
    rw [Option.some.injEq, ← UInt64.toNat_inj, hab]
    omega
  · next h =>
    have := mt UInt64.le_iff_toNat_le.2 h
    simp only [reduceCtorEq, false_iff]
    omega

theorem sub?_eq_none_iff {a b : Word} : sub? a b = none ↔ a.toNat < b.toNat := by
  unfold sub?
  split
  · next h =>
    have := UInt64.le_iff_toNat_le.1 h
    simp only [reduceCtorEq, false_iff]
    omega
  · next h =>
    have := mt UInt64.le_iff_toNat_le.2 h
    simp only [true_iff]
    omega

theorem toNat_satAdd (a b : Word) :
    (satAdd a b).toNat = min (a.toNat + b.toNat) (UInt64.size - 1) := by
  have := toNat_top
  unfold satAdd
  cases h : add? a b with
  | none =>
    have := add?_eq_none_iff.1 h
    rw [Option.getD_none]
    omega
  | some c =>
    have := add?_eq_some_iff.1 h
    have := c.toNat_lt_size
    rw [Option.getD_some]
    omega

theorem le_satAdd (a b : Word) : a ≤ satAdd a b := by
  have := a.toNat_lt_size
  rw [UInt64.le_iff_toNat_le, toNat_satAdd]
  omega

end Word

end RoundRobin
