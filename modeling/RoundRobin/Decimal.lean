/-!
# Fixed-place decimals

A double is written with a fixed number of places after the point by rounding its exact value, a
half going to the even neighbour. The value is taken from the exact model of doubles, a mantissa
times a power of two, and all arithmetic on it is on natural numbers.
-/

namespace RoundRobin.Decimal

/-- The quotient of two natural numbers, rounded to the nearest one, a half to the even one. -/
def roundDiv (num den : Nat) : Nat :=
  let quotient := num / den
  let twice := 2 * (num % den)
  if twice < den ∨ (twice = den ∧ quotient % 2 = 0) then quotient else quotient + 1

/-- `n` units of the last of `places` decimal places. -/
def grid (places n : Nat) : String :=
  if places = 0 then
    Nat.repr n
  else
    let digits := (Nat.repr (n % Nat.pow 10 places)).toList
    Nat.repr (n / Nat.pow 10 places) ++ "." ++
      String.ofList (List.replicate (places - digits.length) '0' ++ digits)

/-- The number of units of the last place nearest to `mantissa * 2 ^ exponent`. -/
def units (places mantissa : Nat) (exponent : Int) : Nat :=
  if 0 ≤ exponent then
    mantissa * Nat.pow 10 places * Nat.pow 2 exponent.toNat
  else
    roundDiv (mantissa * Nat.pow 10 places) (Nat.pow 2 (-exponent).toNat)

/-- A sign is written if it is negative. -/
def signText : Float.Model.UnpackedFloat.Sign → String
  | .positive => ""
  | .negative => "-"

/-- The decimal of a double with a fixed number of places. -/
def fixed (places : Nat) (x : Float) : String :=
  match x.toModel.unpack with
  | .notANumber => "NaN"
  | .infinity sign => signText sign ++ "inf"
  | .zero sign => signText sign ++ grid places 0
  | .finite sign mantissa exponent _ =>
    signText sign ++ grid places (units places mantissa exponent)

end RoundRobin.Decimal
