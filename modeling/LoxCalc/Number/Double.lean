import LoxCalc.Number.Magnitude

/-!
# LoxCalc.Number.Double

Binary64 numbers with a single NaN, and their arithmetic: every operation takes
the exact result and rounds it once, to nearest with ties to even.

Two equalities are kept apart. `=` tells the two zeros from each other and holds
between NaN and itself: it compares numbers bit for bit. `Double.equals` is the
comparison of the language: zeros are equal and NaN equals nothing.
-/

namespace LoxCalc

/-- A binary64 number. All NaNs count as one. -/
inductive Double where
  /-- Not a number. -/
  | nan
  /-- A magnitude with its sign; zero and infinity have both signs too. -/
  | signed (negative : Bool) (magnitude : Magnitude)
deriving DecidableEq

namespace Double

/-! ### Words -/

/-- The sign bit of a word: the one above the codes of magnitudes. -/
def signBit : Nat := 2048 * Magnitude.binade

/-- The number that a word stands for: the top bit is the sign, and a magnitude
code past infinity is a NaN. -/
def ofBits (word : UInt64) : Double :=
  let code := word.toNat % signBit
  if h : code ≤ Magnitude.lastCode then
    signed (signBit ≤ word.toNat) ⟨code, h⟩
  else
    nan

/-- The word of a number; NaN has the quiet NaN without payload. -/
def toBits : Double → UInt64
  | nan => 0x7ff8000000000000
  | signed negative m => .ofNat (if negative then signBit + m.code else m.code)

theorem ofBits_toBits (x : Double) : ofBits x.toBits = x := by
  cases x with
  | nan => decide
  | signed negative m =>
      have hm := m.code_le
      have hsmall : m.code < signBit := Nat.lt_of_le_of_lt hm (by decide)
      have hsign : signBit = 2 ^ 63 := by decide
      cases negative with
      | true =>
          have hword : (toBits (signed true m)).toNat = signBit + m.code := by
            simp only [toBits, UInt64.toNat_ofNat', if_true]
            omega
          have hcode : (signBit + m.code) % signBit = m.code := by
            rw [Nat.add_mod_left, Nat.mod_eq_of_lt hsmall]
          simp only [ofBits, hword, hcode]
          rw [dif_pos hm]
          congr
          exact decide_eq_true (Nat.le_add_right ..)
      | false =>
          have hword : (toBits (signed false m)).toNat = m.code := by
            simp only [toBits, UInt64.toNat_ofNat', Bool.false_eq_true, if_false]
            omega
          simp only [ofBits, hword, Nat.mod_eq_of_lt hsmall]
          rw [dif_pos hm]
          congr
          exact decide_eq_false (Nat.not_le.mpr hsmall)

/-! ### Reading decimals -/

/-- The number written as `whole.fraction` in decimal digits, rounded to nearest
with ties to even whatever the number of digits; past the finite numbers it is
infinity. -/
def ofDecimal (whole fraction : List Char) : Double :=
  signed false (.ofRatio (Nat.ofDigitChars 10 (whole ++ fraction) 0) (Nat.pow 10 fraction.length))

/-! ### Arithmetic -/

/-- The number with the opposite sign. -/
def neg : Double → Double
  | nan => nan
  | signed negative m => signed (!negative) m

instance : Neg Double := ⟨neg⟩

/-- A sign put on a whole number of units. -/
def signedUnits (negative : Bool) (m : Magnitude) : Int :=
  if negative then -m.units else m.units

/-- The rounded sum. Infinities of opposite signs have none, and an exact zero is
negative only when both operands are. -/
def add : Double → Double → Double
  | signed s m, signed t n =>
    if m.isInfinite then
      if n.isInfinite && s != t then nan else signed s m
    else if n.isInfinite then
      signed t n
    else
      let total := signedUnits s m + signedUnits t n
      if total = 0 then
        signed (s && t) .zero
      else
        signed (total < 0) (.ofUnits total.natAbs 1)
  | _, _ => nan

instance : Add Double := ⟨add⟩

/-- The rounded difference is the rounded sum with the opposite number. -/
def sub (x y : Double) : Double := x + -y

instance : Sub Double := ⟨sub⟩

/-- The rounded product. Zero times infinity has none. -/
def mul : Double → Double → Double
  | signed s m, signed t n =>
    if m.isInfinite || n.isInfinite then
      if m = .zero || n = .zero then nan else signed (s != t) .infinity
    else
      signed (s != t) (.ofUnits (m.units * n.units) Magnitude.unitsInOne)
  | _, _ => nan

instance : Mul Double := ⟨mul⟩

/-- The rounded quotient. Zero by zero and infinity by infinity have none; any
other division by zero is infinite. -/
def div : Double → Double → Double
  | signed s m, signed t n =>
    if m.isInfinite then
      if n.isInfinite then nan else signed (s != t) .infinity
    else if n.isInfinite then
      signed (s != t) .zero
    else if n = .zero then
      if m = .zero then nan else signed (s != t) .infinity
    else
      signed (s != t) (.ofRatio m.units n.units)
  | _, _ => nan

instance : Div Double := ⟨div⟩

/-! ### Comparison -/

/-- The place of a number other than NaN in the order of the numbers; both zeros
have place 0. -/
def rank (negative : Bool) (m : Magnitude) : Int :=
  if negative then -m.code else m.code

/-- Are two numbers equal? The zeros are, and NaN equals nothing. -/
def equals : Double → Double → Bool
  | signed s m, signed t n => rank s m == rank t n
  | _, _ => false

/-- Is the first number less than the second? Nothing is less or greater than
NaN. -/
def less : Double → Double → Bool
  | signed s m, signed t n => rank s m < rank t n
  | _, _ => false

/-- Is the first number less than the second or equal to it? -/
def lessOrEqual : Double → Double → Bool
  | signed s m, signed t n => rank s m ≤ rank t n
  | _, _ => false

/-- Is the number one of the two zeros? -/
def isZero : Double → Bool
  | nan => false
  | signed _ m => m == .zero

end Double

end LoxCalc
