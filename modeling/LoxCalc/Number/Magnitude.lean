/-!
# LoxCalc.Number.Magnitude

The binary64 magnitudes: zero, the subnormal and normal numbers, and infinity,
all without a sign.

A magnitude is kept as its `code`, the 63 low bits of its word. Codes are
consecutive and ordered like the numbers they stand for, so neighbours in code
are neighbours in value and rounding may carry from one power of two into the
next by plain addition. This module provides:

* `Magnitude.units`: the value, as a whole number of units of `2 ^ -1074`, the
  least positive magnitude; infinity counts as `2 ^ 1024`, the first value past
  the finite ones; and
* `Magnitude.ofUnits` and `Magnitude.ofRatio`: the magnitude nearest to a ratio of
  natural numbers, of units or of ones, where a ratio halfway between two
  neighbours goes to the one with the even code.
-/

namespace LoxCalc

/-- The quotient rounded to the nearest whole number, a half going to the even
neighbour. -/
def divHalfEven (num den : Nat) : Nat :=
  if 2 * (num % den) < den ∨ 2 * (num % den) = den ∧ (num / den) % 2 = 0 then
    num / den
  else
    num / den + 1

/-- A whole quotient needs no rounding. -/
theorem divHalfEven_mul_left {den : Nat} (hden : 0 < den) (n : Nat) :
    divHalfEven (den * n) den = n := by
  simp [divHalfEven, hden]

namespace Magnitude

/-- How many magnitudes share an exponent: two to the power of 52. -/
def binade : Nat := 4503599627370496

/-- The code of infinity, the last one: all eleven bits of the exponent are set. -/
def lastCode : Nat := 2047 * binade

end Magnitude

/-- A binary64 magnitude, by the 63 low bits of its word. -/
structure Magnitude where
  /-- The biased exponent, followed by 52 bits of fraction. -/
  code : Nat
  /-- Infinity has the last code. -/
  code_le : code ≤ Magnitude.lastCode
deriving DecidableEq

namespace Magnitude

@[ext] theorem ext {m n : Magnitude} (h : m.code = n.code) : m = n := by
  cases m
  cases n
  simp_all

/-- The magnitude with the given code; codes past infinity count as infinity. -/
def ofCode (code : Nat) : Magnitude := ⟨min code lastCode, Nat.min_le_right ..⟩

@[simp] theorem code_ofCode (code : Nat) : (ofCode code).code = min code lastCode := rfl

@[simp] theorem ofCode_code (m : Magnitude) : ofCode m.code = m :=
  Magnitude.ext (Nat.min_eq_left m.code_le)

/-- Zero. -/
def zero : Magnitude := ofCode 0

/-- Infinity. -/
def infinity : Magnitude := ofCode lastCode

/-- Is the magnitude infinite? -/
def isInfinite (m : Magnitude) : Bool := m == infinity

/-! ### Value -/

/-- The power of two that the significand is scaled by, counted from `2 ^ -1074`.
The subnormals and the first normal numbers share exponent 0. -/
def exponent (m : Magnitude) : Nat := m.code / binade - 1

/-- The significand: less than a binade for a subnormal magnitude, and from one up to
two of them for a normal one. -/
def significand (m : Magnitude) : Nat := m.code - m.exponent * binade

/-- The value in units of `2 ^ -1074`. -/
def units (m : Magnitude) : Nat := m.significand <<< m.exponent

/-- How many units the number 1 has. -/
def unitsInOne : Nat := 1 <<< 1074

/-- The code is the exponent field followed by the significand, whose leading bit
counts as one more in the field. -/
theorem code_eq (m : Magnitude) : m.code = m.exponent * binade + m.significand := by
  have := Nat.div_mul_le_self m.code binade
  unfold significand exponent
  unfold binade at *
  omega

theorem significand_lt (m : Magnitude) : m.significand < 2 * binade := by
  have := Nat.lt_div_mul_add (a := m.code) (b := binade) (by decide)
  unfold significand exponent
  unfold binade at *
  omega

/-- A magnitude above the first exponent is normal. -/
theorem le_significand {m : Magnitude} (h : 0 < m.exponent) : binade ≤ m.significand := by
  have := Nat.div_mul_le_self m.code binade
  unfold exponent at h
  unfold significand exponent
  unfold binade at *
  omega

/-- The exponent can be read off the value. -/
theorem log2_units (m : Magnitude) : m.units.log2 - 52 = m.exponent := by
  have hlt : m.significand < 2 ^ 53 := m.significand_lt
  rw [units, Nat.shiftLeft_eq]
  by_cases h : 0 < m.exponent
  · have hle : 2 ^ 52 ≤ m.significand := le_significand h
    have hpos : 0 < 2 ^ m.exponent := Nat.pow_pos (by decide)
    have hlog : (m.significand * 2 ^ m.exponent).log2 = m.exponent + 52 := by
      refine (Nat.log2_eq_iff ?_).mpr ⟨?_, ?_⟩
      · exact Nat.ne_of_gt (Nat.mul_pos (by omega) hpos)
      · rw [Nat.pow_add, Nat.mul_comm]
        exact Nat.mul_le_mul_right _ hle
      · rw [Nat.add_assoc, Nat.pow_add, Nat.mul_comm (2 ^ m.exponent)]
        exact Nat.mul_lt_mul_of_pos_right hlt hpos
    omega
  · have hzero : m.exponent = 0 := by omega
    rw [hzero, Nat.pow_zero, Nat.mul_one]
    by_cases hs : m.significand = 0
    · rw [hs, Nat.log2_zero]
    · have := (Nat.log2_lt hs).mpr hlt
      omega

/-! ### Rounding -/

/-- The magnitude nearest to `num / den` units, ties going to the even code.

The exponent is the least one at which the rounded significand has at most 53
bits. A significand that rounds up to two binades adds one to the exponent field,
which is the code of the same value. -/
def ofUnits (num den : Nat) : Magnitude :=
  let exponent := (num / den).log2 - 52
  ofCode (exponent * binade + divHalfEven num (den <<< exponent))

/-- A value that is a magnitude is its own nearest magnitude. -/
theorem ofUnits_units (m : Magnitude) {den : Nat} (hden : 0 < den) :
    ofUnits (den * m.units) den = m := by
  have hquot : den * m.units / den = m.units := Nat.mul_div_cancel_left _ hden
  have hscaled : 0 < den <<< m.exponent := by
    rw [Nat.shiftLeft_eq]
    exact Nat.mul_pos hden (Nat.pow_pos (by decide))
  have hsplit : den * m.units = den <<< m.exponent * m.significand := by
    rw [units, Nat.shiftLeft_eq, Nat.shiftLeft_eq, Nat.mul_assoc, Nat.mul_comm m.significand]
  rw [ofUnits, hquot, log2_units, hsplit, divHalfEven_mul_left hscaled, ← code_eq, ofCode_code]

/-- The magnitude nearest to the number `num / den`. -/
def ofRatio (num den : Nat) : Magnitude := ofUnits (num * unitsInOne) den

end Magnitude

end LoxCalc
