/-!
# Decimal numerals

A numeral is a run of ASCII digits. `Numeral.below` reads one that has to stay below a limit, and
gives up at the first digit that takes it to the limit; `below_eq` says that this depends on the
value of the whole numeral only.
-/

namespace RoundRobin.Numeral

/-- The ten ASCII digits, as bytes. -/
def isDigit (byte : UInt8) : Bool :=
  0x30 ≤ byte && byte ≤ 0x39

/-- The value of a digit. -/
def digitValue (byte : UInt8) : Nat :=
  byte.toNat - 0x30

/-- The value of a numeral, however long. -/
def value (digits : List UInt8) : Nat :=
  digits.foldl (fun v digit => 10 * v + digitValue digit) 0

/-- Appends one digit to a value, as long as the result is below the limit. -/
def extend (limit v : Nat) (digit : UInt8) : Option Nat :=
  let v := 10 * v + digitValue digit
  if v < limit then some v else none

/-- The value of a numeral, if it is below the limit. -/
def below (limit : Nat) (digits : List UInt8) : Option Nat :=
  digits.foldlM (extend limit) 0

theorem le_foldl_digits (digits : List UInt8) (v : Nat) :
    v ≤ digits.foldl (fun v digit => 10 * v + digitValue digit) v := by
  induction digits generalizing v with
  | nil => exact Nat.le_refl v
  | cons digit rest ih =>
    refine Nat.le_trans ?_ (ih (10 * v + digitValue digit))
    omega

theorem foldlM_extend_eq (limit : Nat) (digits : List UInt8) {v : Nat} (hv : v < limit) :
    digits.foldlM (extend limit) v =
      if digits.foldl (fun v digit => 10 * v + digitValue digit) v < limit then
        some (digits.foldl (fun v digit => 10 * v + digitValue digit) v)
      else
        none := by
  induction digits generalizing v with
  | nil => simp [hv]
  | cons digit rest ih =>
    rw [List.foldlM_cons, List.foldl_cons]
    by_cases h : 10 * v + digitValue digit < limit
    · simp only [extend, h, if_true, Option.bind_eq_bind, Option.bind_some]
      exact ih h
    · have hle := le_foldl_digits rest (10 * v + digitValue digit)
      rw [if_neg (by omega)]
      simp [extend, h]

/-- Whether a numeral stays below a limit is a matter of its value alone. -/
theorem below_eq {limit : Nat} (hlimit : 0 < limit) (digits : List UInt8) :
    below limit digits = if value digits < limit then some (value digits) else none :=
  foldlM_extend_eq limit digits hlimit

end RoundRobin.Numeral
