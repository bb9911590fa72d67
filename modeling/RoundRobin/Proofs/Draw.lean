import RoundRobin.Random.Draw
import Mathlib.Algebra.Group.Nat.Defs
import Mathlib.Logic.Basic

/-!
# Chances and draws

A chance of `1` or more lies above every draw, and one of `0` or less, or one that is not a number,
above none (`Source.Proper`). That is so for doubles from `0` to below `1`, and for the draws of a
seed. Two doubles compare by their signs, then their exponents, then their mantissas. A draw of a
seed is compared by value; that is no different, because a mantissa has its highest bit unless the
exponent is the least one (`Canonical`). A draw of a seed that lies below a chance therefore lies
below every greater one (`isBelow_mono`).
-/

namespace RoundRobin.Random

open Float.Model

namespace Chance

theorem le_iff {a b : Float} :
    a ≤ b ↔ ∃ order, a.toModel.unpack.compare b.toModel.unpack = some order ∧
      order.isLE = true := by
  change decide (Float.Model.le _ _ = true) = true ↔ _
  rw [decide_eq_true_iff, ← Option.any_eq_true]
  rfl

theorem lt_iff {a b : Float} :
    a < b ↔ a.toModel.unpack.compare b.toModel.unpack = some .lt := by
  change decide (Float.Model.lt _ _ = true) = true ↔ _
  rw [decide_eq_true_iff]
  exact beq_iff_eq

theorem unpack_one :
    (1 : Float).toModel.unpack = .finite .positive 0x10000000000000 (-52) (by decide) :=
  rfl

theorem unpack_zero : (0 : Float).toModel.unpack = .zero .positive :=
  rfl

/-- Positive doubles compare by their exponents, and by their mantissas if these are equal. -/
theorem compare_then_eq_lt {e e' : Int} {m m' : Nat} :
    (compare e e').then (compare m m') = .lt ↔ e < e' ∨ e = e' ∧ m < m' := by
  rw [Ordering.then_eq_lt, Int.compare_eq_lt, Int.compare_eq_eq, Nat.compare_eq_lt]

theorem isLE_compare_then {e e' : Int} {m m' : Nat} :
    ((compare e e').then (compare m m')).isLE = true ↔ e < e' ∨ e = e' ∧ m ≤ m' := by
  rw [Ordering.isLE_iff_ne_gt, Ordering.then_eq_gt, Int.compare_eq_gt, Int.compare_eq_eq,
    Nat.compare_eq_gt]
  omega

/-- Nothing but infinity is not below infinity. -/
theorem eq_infinity_of_le {c d : Float} (hc : c.toModel.unpack = .infinity .positive) (h : c ≤ d) :
    d.toModel.unpack = .infinity .positive := by
  obtain ⟨order, hcompare, hle⟩ := le_iff.1 h
  rw [hc] at hcompare
  generalize d.toModel.unpack = value at hcompare ⊢
  cases value with
  | notANumber => cases hcompare
  | infinity sign =>
    cases sign with
    | positive => rfl
    | negative =>
      cases hcompare
      cases hle
  | zero | finite =>
    cases hcompare
    cases hle

/-- What is not below a positive number is infinite or finite, and positive. -/
theorem le_cases {c d : Float} {m : Nat} {e : Int} {hm : 0 < m}
    (hc : c.toModel.unpack = .finite .positive m e hm) (h : c ≤ d) :
    d.toModel.unpack = .infinity .positive ∨
      ∃ m' e' hm', d.toModel.unpack = .finite .positive m' e' hm' ∧ (e < e' ∨ e = e' ∧ m ≤ m') := by
  obtain ⟨order, hcompare, hle⟩ := le_iff.1 h
  rw [hc] at hcompare
  generalize d.toModel.unpack = value at hcompare ⊢
  cases value with
  | notANumber => cases hcompare
  | infinity sign =>
    cases sign with
    | positive => exact .inl rfl
    | negative =>
      cases hcompare
      cases hle
  | zero sign =>
    cases hcompare
    cases hle
  | finite sign m' e' hm' =>
    cases sign with
    | positive =>
      rw [← Option.some.inj hcompare, isLE_compare_then] at hle
      exact .inr ⟨m', e', hm', rfl, hle⟩
    | negative =>
      cases hcompare
      cases hle

/-- What is not below `1` is infinite or finite, and not negative. -/
theorem one_le_cases {c : Float} (h : 1 ≤ c) :
    c.toModel.unpack = .infinity .positive ∨
      ∃ m e hm, c.toModel.unpack = .finite .positive m e hm ∧
        (-52 < e ∨ -52 = e ∧ 0x10000000000000 ≤ m) :=
  le_cases unpack_one h

/-- What is not above `0` is negative or zero. -/
theorem le_zero_cases {c : Float} (h : c ≤ 0) :
    c.toModel.unpack = .infinity .negative ∨ (∃ sign, c.toModel.unpack = .zero sign) ∨
      ∃ m e hm, c.toModel.unpack = .finite .negative m e hm := by
  obtain ⟨order, hcompare, hle⟩ := le_iff.1 h
  rw [unpack_zero] at hcompare
  generalize c.toModel.unpack = value at hcompare ⊢
  cases value with
  | notANumber => cases hcompare
  | infinity sign =>
    cases sign with
    | positive =>
      cases hcompare
      cases hle
    | negative => exact .inl rfl
  | zero sign => exact .inr (.inl ⟨sign, rfl⟩)
  | finite sign m e hm =>
    cases sign with
    | positive =>
      cases hcompare
      cases hle
    | negative => exact .inr (.inr ⟨m, e, hm, rfl⟩)

/-- What goes from `0` to below `1` is zero, or finite and positive with a smaller exponent or a
smaller mantissa than `1`. -/
theorem unit_cases {d : Float} (h : 0 ≤ d) (h' : d < 1) :
    (∃ sign, d.toModel.unpack = .zero sign) ∨
      ∃ m e hm, d.toModel.unpack = .finite .positive m e hm ∧
        (e < -52 ∨ e = -52 ∧ m < 0x10000000000000) := by
  obtain ⟨order, hcompare, hle⟩ := le_iff.1 h
  have hlt := lt_iff.1 h'
  rw [unpack_zero] at hcompare
  rw [unpack_one] at hlt
  generalize d.toModel.unpack = value at hcompare hlt ⊢
  cases value with
  | notANumber => cases hlt
  | infinity sign =>
    cases sign with
    | positive => cases hlt
    | negative =>
      cases hcompare
      cases hle
  | zero sign => exact .inl ⟨sign, rfl⟩
  | finite sign m e hm =>
    cases sign with
    | positive => exact .inr ⟨m, e, hm, rfl, compare_then_eq_lt.1 (Option.some.inj hlt)⟩
    | negative =>
      cases hcompare
      cases hle

/-- Not a number is not above anything. -/
theorem not_lt_of_isNaN {c : Float} (h : c.isNaN) (d : Float) : ¬ d < c := by
  rw [lt_iff]
  change c.toModel.unpack.isNaN = true at h
  generalize c.toModel.unpack = value at h ⊢
  cases value with
  | notANumber => cases d.toModel.unpack <;> nofun
  | infinity | zero | finite => cases h

/-- The mantissa and the exponent of a double. A mantissa has its highest bit, unless the exponent
is the least one. -/
structure Canonical (m : Nat) (e : Int) : Prop where
  least : -1074 ≤ e
  lt : m < 0x20000000000000
  highest : e = -1074 ∨ 0x10000000000000 ≤ m

theorem canonical_of_unpack {c : Float} {sign : UnpackedFloat.Sign} {m : Nat} {e : Int} {hm : 0 < m}
    (h : c.toModel.unpack = .finite sign m e hm) : Canonical m e := by
  unfold Float.Model.unpack UnpackedFloat.unpack at h
  rcases ite_eq_iff.1 h with ⟨_, h⟩ | ⟨_, h⟩
  · rcases ite_eq_iff.1 h with ⟨_, h⟩ | ⟨_, h⟩ <;> cases h
  · rcases ite_eq_iff.1 h with ⟨hleast, h⟩ | ⟨hexponent, h⟩
    · rcases dite_eq_iff.1 h with ⟨_, h⟩ | ⟨_, h⟩
      · cases h
      · cases h
        rw [hleast]
        exact ⟨by decide, Nat.lt_trans (BitVec.isLt _) (by decide), .inl rfl⟩
    · cases h
      refine ⟨?_, BitVec.isLt _, .inr ?_⟩
      · have hpos := Nat.pos_of_ne_zero fun hzero => hexponent (BitVec.eq_of_toNat_eq hzero)
        change -1074 ≤ ((_ : Nat) : Int) - (1023 + 52)
        omega
      · rw [BitVec.toNat_append, Nat.shiftLeft_eq]
        exact Nat.left_le_or

/-- On a common scale, the order of two positive doubles is that of their values. -/
theorem Canonical.mul_pow_le {m m' n n' : Nat} {e e' : Int} (h : Canonical m e)
    (h' : Canonical m' e') (hle : e < e' ∨ e = e' ∧ m ≤ m') (hn : (n' : Int) - n = e' - e) :
    m * 2 ^ n ≤ m' * 2 ^ n' := by
  rcases hle with hlt | ⟨rfl, hle⟩
  · have hbits : 0x10000000000000 ≤ m' := by
      have := h.least
      have := h'.highest
      omega
    calc m * 2 ^ n ≤ 0x20000000000000 * 2 ^ n := Nat.mul_le_mul_right _ (Nat.le_of_lt h.lt)
      _ = 0x10000000000000 * 2 ^ (n + 1) := by rw [Nat.pow_succ', ← Nat.mul_assoc]
      _ ≤ m' * 2 ^ n' :=
        Nat.mul_le_mul hbits (Nat.pow_le_pow_right (by decide) (by omega))
  · obtain rfl : n' = n := by omega
    exact Nat.mul_le_mul_right _ hle

/-- Any number from `0` to below `1` lies below any number from `1` on. -/
theorem lt_of_one_le {c d : Float} (hd : 0 ≤ d) (hlt : d < 1) (hc : 1 ≤ c) : d < c := by
  rw [lt_iff]
  rcases one_le_cases hc with hc | ⟨m, e, hm, hc, hge⟩
  · rcases unit_cases hd hlt with ⟨sign, hd⟩ | ⟨m, e, hm, hd, _⟩
    · rw [hc, hd]
      rfl
    · rw [hc, hd]
      rfl
  · rcases unit_cases hd hlt with ⟨sign, hd⟩ | ⟨m', e', hm', hd, hless⟩
    · rw [hc, hd]
      rfl
    · rw [hc, hd]
      exact congrArg some (compare_then_eq_lt.2 (by omega))

/-- No number from `0` to below `1` lies below a number up to `0`. -/
theorem not_lt_of_le_zero {c d : Float} (hd : 0 ≤ d) (hlt : d < 1) (hc : c ≤ 0) : ¬ d < c := by
  rw [lt_iff]
  rcases unit_cases hd hlt with ⟨sign, hd⟩ | ⟨m, e, hm, hd, _⟩
  · rcases le_zero_cases hc with hc | ⟨sign', hc⟩ | ⟨m, e, hm, hc⟩ <;> rw [hc, hd] <;> nofun
  · rcases le_zero_cases hc with hc | ⟨sign', hc⟩ | ⟨m, e, hm, hc⟩ <;> rw [hc, hd] <;> nofun

end Chance

namespace Draw

/-- A draw is compared with the value of a double, on any scale on which both are whole. -/
theorem isBelowScaled_iff (draw : Draw) {m s n : Nat} {e : Int} (hn : (n : Int) = e + 53 + s) :
    draw.isBelowScaled m e = true ↔ draw.numerator * 2 ^ s < m * 2 ^ n := by
  unfold isBelowScaled
  split
  · next hwhole =>
    have hsplit : n = (e + 53).toNat + s := by omega
    rw [decide_eq_true_iff, hsplit, Nat.pow_add, ← Nat.mul_assoc]
    exact (Nat.mul_lt_mul_right (Nat.two_pow_pos s)).symm
  · next hpart =>
    have hsplit : s = (-(e + 53)).toNat + n := by omega
    rw [decide_eq_true_iff, hsplit, Nat.pow_add, ← Nat.mul_assoc]
    exact (Nat.mul_lt_mul_right (Nat.two_pow_pos n)).symm

/-- A draw that lies below a chance lies below every greater one. -/
theorem isBelow_mono (draw : Draw) {chance chance' : Float} (hle : chance ≤ chance')
    (h : draw.isBelow chance = true) : draw.isBelow chance' = true := by
  unfold isBelow at h
  cases hc : chance.toModel.unpack with
  | notANumber =>
    rw [hc] at h
    cases h
  | zero sign =>
    rw [hc] at h
    cases h
  | infinity sign =>
    rw [hc] at h
    cases sign with
    | negative => cases h
    | positive => rw [isBelow, Chance.eq_infinity_of_le hc hle]
  | finite sign m e hm =>
    rw [hc] at h
    cases sign with
    | negative => cases h
    | positive =>
      change draw.isBelowScaled m e = true at h
      unfold isBelow
      rcases Chance.le_cases hc hle with hc' | ⟨m', e', hm', hc', hless⟩
      · rw [hc']
      · have hcanonical := Chance.canonical_of_unpack hc
        have hcanonical' := Chance.canonical_of_unpack hc'
        have hscale : ((e + 1074).toNat : Int) = e + 53 + (1021 : Nat) := by
          have := hcanonical.least
          omega
        have hscale' : ((e' + 1074).toNat : Int) = e' + 53 + (1021 : Nat) := by
          have := hcanonical'.least
          omega
        rw [hc']
        change draw.isBelowScaled m' e' = true
        rw [isBelowScaled_iff draw hscale] at h
        rw [isBelowScaled_iff draw hscale']
        exact Nat.lt_of_lt_of_le h (hcanonical.mul_pow_le hcanonical' hless (by omega))

/-- A draw lies below any chance from `1` on. -/
theorem isBelow_of_one_le (draw : Draw) {chance : Float} (h : 1 ≤ chance) :
    draw.isBelow chance = true := by
  apply draw.isBelow_mono h
  change draw.isBelowScaled 0x10000000000000 (-52) = true
  exact decide_eq_true draw.numerator_lt

/-- No draw lies below a chance up to `0`. -/
theorem isBelow_of_le_zero (draw : Draw) {chance : Float} (h : chance ≤ 0) :
    draw.isBelow chance = false := by
  unfold isBelow
  rcases Chance.le_zero_cases h with hc | ⟨sign, hc⟩ | ⟨m, e, hm, hc⟩ <;> rw [hc]

theorem isBelow_of_isNaN (draw : Draw) {chance : Float} (h : chance.isNaN) :
    draw.isBelow chance = false := by
  change chance.toModel.unpack.isNaN = true at h
  unfold isBelow
  generalize chance.toModel.unpack = value at h ⊢
  cases value with
  | notANumber => rfl
  | infinity | zero | finite => cases h

end Draw

namespace Source

/-- Every draw lies below a chance of `1` or more, and none below a chance of `0` or less or below
one that is not a number. -/
structure Proper (source : Source) : Prop where
  certain : ∀ position chance, 1 ≤ chance → source position chance = true
  impossible : ∀ position chance, chance ≤ 0 ∨ chance.isNaN → source position chance = false

/-- So it is with doubles from `0` to below `1`. -/
theorem proper_ofDoubles {draw : Nat → Float}
    (h : ∀ position, 0 ≤ draw position ∧ draw position < 1) : (ofDoubles draw).Proper where
  certain position chance hchance :=
    decide_eq_true (Chance.lt_of_one_le (h position).1 (h position).2 hchance)
  impossible position chance hchance := by
    apply decide_eq_false
    rcases hchance with hle | hnan
    · exact Chance.not_lt_of_le_zero (h position).1 (h position).2 hle
    · exact Chance.not_lt_of_isNaN hnan _

/-- So it is with any draws, and therefore with those of a seed. -/
theorem proper_ofDraws (draw : Nat → Draw) : Proper fun position => (draw position).isBelow where
  certain _ _ hchance := Draw.isBelow_of_one_le _ hchance
  impossible _ _ hchance := hchance.elim (Draw.isBelow_of_le_zero _) (Draw.isBelow_of_isNaN _)

theorem proper_ofSeed (seed : UInt64) : (ofSeed seed).Proper :=
  proper_ofDraws _

/-- A draw that lies below a chance lies below every greater one. -/
def Monotone (source : Source) : Prop :=
  ∀ position chance chance', chance ≤ chance' → source position chance = true →
    source position chance' = true

theorem monotone_ofDraws (draw : Nat → Draw) : Monotone fun position => (draw position).isBelow :=
  fun _ _ _ hle => Draw.isBelow_mono _ hle

theorem monotone_ofSeed (seed : UInt64) : (ofSeed seed).Monotone :=
  monotone_ofDraws _

end Source

end RoundRobin.Random
