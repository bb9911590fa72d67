import RoundRobin.Random.ChaCha

/-!
# Draws

A draw is one of the `2 ^ 53` numbers `k / 2 ^ 53` from `0` up to, not including, `1`, kept as the
numerator `k`. It is compared with a chance exactly: the chance is a double, taken at its exact
value, and a chance that is not a number is above no draw. Such comparisons are all that a source of
draws is for, so that a source may as well draw doubles.
-/

namespace RoundRobin.Random

/-- A number from `0` to below `1` in steps of `2 ^ -53`. -/
structure Draw where
  numerator : Nat
  numerator_lt : numerator < 0x20000000000000
  deriving DecidableEq

namespace Draw

instance : Inhabited Draw := ⟨⟨0, by decide⟩⟩

/-- The draw of a word: its highest 53 bits. -/
def ofWord (word : UInt64) : Draw where
  numerator := word.toNat / 0x800
  numerator_lt := by
    have := word.toNat_lt
    omega

/-- Whether the draw lies below `mantissa * 2 ^ exponent`. -/
def isBelowScaled (draw : Draw) (mantissa : Nat) (exponent : Int) : Bool :=
  if 0 ≤ exponent + 53 then
    draw.numerator < mantissa * Nat.pow 2 (exponent + 53).toNat
  else
    draw.numerator * Nat.pow 2 (-(exponent + 53)).toNat < mantissa

/-- Whether the draw lies below a chance. -/
def isBelow (draw : Draw) (chance : Float) : Bool :=
  match chance.toModel.unpack with
  | .notANumber => false
  | .infinity .positive => true
  | .infinity .negative => false
  | .zero _ => false
  | .finite .positive mantissa exponent _ => draw.isBelowScaled mantissa exponent
  | .finite .negative .. => false

end Draw

/-- A source of draws: whether the draw at a position lies below a chance. Nothing else is ever
asked of a draw. -/
abbrev Source := Nat → Float → Bool

/-- The draws of a seed. -/
def Source.ofSeed (seed : UInt64) : Source :=
  let key := Key.ofSeed seed
  fun position chance => (Draw.ofWord (key.word position)).isBelow chance

/-- Draws that are doubles. -/
def Source.ofDoubles (draw : Nat → Float) : Source :=
  fun position chance => draw position < chance

end RoundRobin.Random
