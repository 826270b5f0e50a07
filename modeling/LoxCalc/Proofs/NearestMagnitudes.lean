import Mathlib.Data.Rat.Floor
import Mathlib.Tactic.FieldSimp
import Mathlib.Tactic.Linarith
import Mathlib.Tactic.NormNum
import Mathlib.Tactic.Positivity
import LoxCalc.Number.Double

/-!
# LoxCalc.Proofs.NearestMagnitudes

Rounding a ratio to the nearest magnitude.

The value of a magnitude is read off its bits (`Magnitude.value`), and `Magnitude.IsNearest` says
without any algorithm which magnitude a rational number rounds to. This determines the magnitude,
and nearest magnitudes are in the order of the numbers (`IsNearest.code_le`).

Codes are ordered like their values (`strictMono_valueOfCode`), so there is one boundary between a
code and the next one, halfway between their values. Rounding gets past a code just if the ratio is
past its boundary, or meets it and the code is odd (`crosses_ofRatio`). All that rounding does is
read off this: it takes the nearest magnitude (`isNearest_ofRatio`), and it ends zero and begins
infinity where it should.
-/

namespace LoxCalc

variable {m n : Magnitude} {q r : ℚ}

namespace Magnitude

/-! ### Values -/

/-- The number that the bits of a magnitude stand for. With an exponent field of zero it is the
fraction in units of `2 ^ -1074`; otherwise the fraction has a leading bit of its own, and each
step of the field doubles the unit. Infinity gets the first value past the finite ones. -/
def value (m : Magnitude) : ℚ :=
  let field := m.code / binade
  let fraction : ℚ := (m.code % binade : ℕ)
  if field = 0 then fraction * 2 ^ (-1074 : ℤ) else (binade + fraction) * 2 ^ (field - 1075 : ℤ)

/-- The units of `2 ^ -1074` that a code stands for. Codes past that of infinity go on in the
same way. -/
def unitsOfCode (code : ℕ) : ℕ := (code - (code / binade - 1) * binade) * 2 ^ (code / binade - 1)

/-- The value that a code stands for. -/
def valueOfCode (code : ℕ) : ℚ := unitsOfCode code / unitsInOne

theorem isInfinite_iff_code : m.isInfinite ↔ m.code = lastCode := by
  rw [isInfinite, beq_iff_eq, Magnitude.ext_iff]
  rfl

theorem code_lt_of_finite (h : ¬m.isInfinite) : m.code < lastCode :=
  Nat.lt_of_le_of_ne m.code_le fun heq => h (isInfinite_iff_code.mpr heq)

theorem not_isInfinite_of_code_lt (h : m.code < lastCode) : ¬m.isInfinite :=
  fun hinf => Nat.ne_of_lt h (isInfinite_iff_code.mp hinf)

/-- A binade is even, so the last bit of the significand is that of the code. -/
theorem significand_mod_two (m : Magnitude) : m.significand % 2 = m.code % 2 := by
  have hcode := m.code_eq
  unfold binade at hcode
  omega

theorem unitsInOne_eq : (unitsInOne : ℚ) = 2 ^ 1074 := by
  have hpower (n : ℕ) : ((1 <<< n : ℕ) : ℚ) = 2 ^ n := by
    rw [Nat.one_shiftLeft, Nat.cast_pow, Nat.cast_ofNat]
  exact hpower 1074

theorem unitsInOne_pos : (0 : ℚ) < unitsInOne := by
  rw [unitsInOne_eq]
  exact pow_pos two_pos 1074

/-- The value of an exponent with a significand, which may be the first one that is too great. -/
theorem unitsOfCode_eq {e s : ℕ} (hs : s ≤ 2 * binade) (h : e = 0 ∨ binade ≤ s) :
    unitsOfCode (e * binade + s) = s * 2 ^ e := by
  rcases Nat.lt_or_ge s (2 * binade) with hlt | hge
  · have hexponent : (e * binade + s) / binade - 1 = e := by
      unfold binade at *
      omega
    rw [unitsOfCode, hexponent, Nat.add_sub_cancel_left]
  · obtain rfl : s = 2 * binade := Nat.le_antisymm hs hge
    have hexponent : (e * binade + 2 * binade) / binade - 1 = e + 1 := by
      unfold binade
      omega
    have hsignificand : e * binade + 2 * binade - (e + 1) * binade = binade := by
      unfold binade
      omega
    rw [unitsOfCode, hexponent, hsignificand, Nat.pow_succ]
    ring

/-- Every code is an exponent with a significand that belongs to it. -/
theorem exists_exponent (code : ℕ) :
    ∃ e s, code = e * binade + s ∧ s < 2 * binade ∧ (e = 0 ∨ binade ≤ s) := by
  refine ⟨code / binade - 1, code - (code / binade - 1) * binade, ?_⟩
  unfold binade
  omega

theorem strictMono_unitsOfCode : StrictMono unitsOfCode := by
  refine strictMono_nat_of_lt_succ fun code => ?_
  obtain ⟨e, s, rfl, hs, hnormal⟩ := exists_exponent code
  rw [Nat.add_assoc, unitsOfCode_eq (Nat.le_of_lt hs) hnormal,
    unitsOfCode_eq hs (hnormal.imp_right Nat.le_succ_of_le)]
  exact Nat.mul_lt_mul_of_pos_right (Nat.lt_succ_self s) (Nat.two_pow_pos e)

theorem strictMono_valueOfCode : StrictMono valueOfCode := by
  intro c d h
  have hunits : (unitsOfCode c : ℚ) < unitsOfCode d := by
    exact_mod_cast strictMono_unitsOfCode h
  exact div_lt_div_of_pos_right hunits unitsInOne_pos

@[simp] theorem valueOfCode_zero : valueOfCode 0 = 0 := by
  simp [valueOfCode, unitsOfCode]

/-- The bits stand for the units that the arithmetic counts in. -/
theorem value_eq_units (m : Magnitude) : m.value = m.units / unitsInOne := by
  have hsplit := Nat.div_add_mod m.code binade
  rw [value, units, significand, exponent, Nat.shiftLeft_eq, unitsInOne_eq]
  cases hfield : m.code / binade with
  | zero =>
      rw [hfield, Nat.mul_zero, Nat.zero_add] at hsplit
      simp [hsplit, zpow_neg, div_eq_mul_inv]
  | succ e =>
      have hsignificand : m.code - e * binade = binade + m.code % binade := by
        rw [hfield] at hsplit
        unfold binade at *
        omega
      have hpower : (2 : ℚ) ^ (((e + 1 : ℕ) : ℤ) - 1075) = 2 ^ e / 2 ^ 1074 := by
        rw [← zpow_natCast, ← zpow_natCast, ← zpow_sub₀ two_ne_zero]
        congr 1
        push_cast
        ring
      simp only [Nat.add_sub_cancel, hsignificand, hpower]
      push_cast
      simp [mul_div_assoc]

theorem value_eq (m : Magnitude) : m.value = valueOfCode m.code := by
  rw [value_eq_units, units, Nat.shiftLeft_eq]
  rfl

@[simp] theorem value_zero : zero.value = 0 := by
  rw [value_eq]
  exact valueOfCode_zero

theorem value_nonneg (m : Magnitude) : 0 ≤ m.value := by
  rw [value_eq]
  exact div_nonneg (Nat.cast_nonneg _) unitsInOne_pos.le

theorem value_lt_value : m.value < n.value ↔ m.code < n.code := by
  rw [value_eq, value_eq, strictMono_valueOfCode.lt_iff_lt]

end Magnitude

/-- The exact value of a finite number. -/
def Double.value? : Double → Option ℚ
  | nan => none
  | signed negative m =>
    if m.isInfinite then none else some (if negative then -m.value else m.value)

namespace Magnitude

/-! ### The nearest magnitude -/

/-- Rounding a rational number that is not negative to nearest gives the magnitude. -/
structure IsNearest (m : Magnitude) (q : ℚ) : Prop where
  /-- The result is infinite from halfway between the greatest finite number and `2 ^ 1024` on. -/
  isInfinite_iff : m.isInfinite ↔ 2 ^ 1024 - 2 ^ 970 ≤ q
  /-- No finite number, of either sign, is nearer. -/
  abs_sub_le : ¬m.isInfinite → ∀ (x : Double) (v : ℚ), x.value? = some v →
    |m.value - q| ≤ |v - q|
  /-- If another one is just as near, the significand is even. -/
  even_of_tie : ¬m.isInfinite → ∀ (x : Double) (v : ℚ), x.value? = some v →
    |m.value - q| = |v - q| → v ≠ m.value → m.significand % 2 = 0

theorem value?_of_finite (h : ¬m.isInfinite) :
    (Double.signed false m).value? = some m.value := by
  simp [Double.value?, h]

/-- Of two numbers the lower one is as near as the upper one just up to the middle. -/
theorem lower_near_iff {a b : ℚ} (h : a < b) : |a - q| ≤ |b - q| ↔ 2 * q ≤ a + b := by
  have hdiff : (b - q) ^ 2 - (a - q) ^ 2 = (b - a) * (a + b - 2 * q) := by
    ring
  rw [← sq_le_sq, ← sub_nonneg, hdiff, mul_nonneg_iff_of_pos_left (sub_pos.mpr h), sub_nonneg]

/-- The upper one is as near as the lower one just from the middle on. -/
theorem upper_near_iff {a b : ℚ} (h : a < b) : |b - q| ≤ |a - q| ↔ a + b ≤ 2 * q := by
  have hdiff : (a - q) ^ 2 - (b - q) ^ 2 = (b - a) * (2 * q - (a + b)) := by
    ring
  rw [← sq_le_sq, ← sub_nonneg, hdiff, mul_nonneg_iff_of_pos_left (sub_pos.mpr h), sub_nonneg]

namespace IsNearest

/-- No finite magnitude is nearer. -/
theorem abs_sub_value_le (h : m.IsNearest q) (hm : ¬m.isInfinite) (hn : ¬n.isInfinite) :
    |m.value - q| ≤ |n.value - q| :=
  h.abs_sub_le hm _ _ (value?_of_finite hn)

/-- Of two finite magnitudes that are nearest to the same number, neither is the greater one. Both
would have an even code, and a code between them would be nearer. -/
theorem not_code_lt (hm : m.IsNearest q) (hn : n.IsNearest q) (hfinite : ¬m.isInfinite) :
    ¬n.code < m.code := by
  intro hlt
  have hnfinite : ¬n.isInfinite := not_isInfinite_of_code_lt (hlt.trans_le m.code_le)
  have hvalues : n.value < m.value := value_lt_value.mpr hlt
  have hmn := hm.abs_sub_value_le hfinite hnfinite
  have hnm := hn.abs_sub_value_le hnfinite hfinite
  have hmeven := hm.even_of_tie hfinite _ _ (value?_of_finite hnfinite) (hmn.antisymm hnm)
    hvalues.ne
  have hneven := hn.even_of_tie hnfinite _ _ (value?_of_finite hfinite) (hnm.antisymm hmn)
    hvalues.ne'
  rw [significand_mod_two] at hmeven hneven
  let k := ofCode (n.code + 1)
  have hk : k.code = n.code + 1 := Nat.min_eq_left (Nat.le_trans hlt m.code_le)
  have hnk : n.value < k.value := value_lt_value.mpr (by omega)
  have hkm : k.value < m.value := value_lt_value.mpr (by omega)
  have hkfinite : ¬k.isInfinite :=
    not_isInfinite_of_code_lt ((value_lt_value.mp hkm).trans_le m.code_le)
  have hmk := (upper_near_iff hkm).mp (hm.abs_sub_value_le hfinite hkfinite)
  have hmiddle := (lower_near_iff hvalues).mp hnm
  linarith

/-- Nearest magnitudes are in the order of the numbers that they are nearest to. -/
theorem code_le (hm : m.IsNearest q) (hn : n.IsNearest r) (h : q ≤ r) : m.code ≤ n.code := by
  by_contra hnot
  have hlt : n.code < m.code := Nat.lt_of_not_le hnot
  have hnfinite : ¬n.isInfinite := not_isInfinite_of_code_lt (hlt.trans_le m.code_le)
  have hfinite : ¬m.isInfinite := by
    rw [hm.isInfinite_iff]
    rw [hn.isInfinite_iff] at hnfinite
    exact fun hq => hnfinite (hq.trans h)
  -- `q` is not below the middle of the two values and `r` not above it, so both are the middle.
  have hvalues : n.value < m.value := value_lt_value.mpr hlt
  have hq := (upper_near_iff hvalues).mp (hm.abs_sub_value_le hfinite hnfinite)
  have hr := (lower_near_iff hvalues).mp (hn.abs_sub_value_le hnfinite hfinite)
  obtain rfl : q = r := by linarith
  exact hm.not_code_lt hn hfinite hlt

/-- There is at most one nearest magnitude. -/
theorem unique (hm : m.IsNearest q) (hn : n.IsNearest q) : m = n :=
  Magnitude.ext (Nat.le_antisymm (hm.code_le hn le_rfl) (hn.code_le hm le_rfl))

end IsNearest

/-! ### Boundaries between codes -/

/-- Half of the way from a code to the next one. -/
def boundary (code : ℕ) : ℚ := (valueOfCode code + valueOfCode (code + 1)) / 2

theorem boundary_eq {e s : ℕ} (hs : s < 2 * binade) (h : e = 0 ∨ binade ≤ s) :
    boundary (e * binade + s) = (2 * s + 1) * (2 ^ e / 2 ^ 1075) := by
  have hpower (n : ℕ) : (2 : ℚ) ^ (n + 1) = 2 ^ n * 2 := pow_succ 2 n
  rw [boundary, valueOfCode, valueOfCode, Nat.add_assoc, unitsOfCode_eq hs.le h,
    unitsOfCode_eq hs (h.imp_right Nat.le_succ_of_le), unitsInOne_eq, hpower 1074]
  generalize (2 : ℚ) ^ 1074 = one
  push_cast
  ring

/-- Zero ends halfway to the least positive magnitude. -/
theorem boundary_zero : boundary 0 = 1 / 2 ^ 1075 := by
  have hboundary : boundary 0 = _ := boundary_eq (e := 0) (s := 0) (by decide) (.inl rfl)
  simpa using hboundary

/-- The first value that rounds to infinity is a significand of 54 bits, all of them set. -/
theorem overflow_eq : (2 : ℚ) ^ 1024 - 2 ^ 970 = (2 ^ 54 - 1) * 2 ^ 970 := by
  rw [sub_one_mul, ← pow_add]

/-- Infinity begins halfway between the greatest finite magnitude and `2 ^ 1024`. -/
theorem boundary_last : boundary (lastCode - 1) = 2 ^ 1024 - 2 ^ 970 := by
  have hboundary : boundary (lastCode - 1) = _ :=
    boundary_eq (e := 2045) (s := 2 * binade - 1) (by decide) (.inr (by decide))
  have hunit : (2 : ℚ) ^ 2045 / 2 ^ 1075 = 2 ^ 970 := by
    rw [div_eq_iff (pow_ne_zero 1075 two_ne_zero), ← pow_add]
  have hsignificand : ((2 * binade - 1 : ℕ) : ℚ) = 2 ^ 53 - 1 := by
    norm_num [binade]
  rw [hboundary, hunit, overflow_eq, hsignificand]
  congr 1
  norm_num

/-! ### What rounding gets past -/

/-- The code that rounding gives, when there is no last one. -/
def roundedCode (num den : ℕ) : ℕ :=
  let exponent := (num / den).log2 - 52
  exponent * binade + divHalfEven num (den <<< exponent)

theorem code_ofUnits (num den : ℕ) : (ofUnits num den).code = min (roundedCode num den) lastCode :=
  rfl

/-- The significand that rounding begins with belongs to its exponent. -/
theorem quotient_bounds (num den : ℕ) :
    let exponent := (num / den).log2 - 52
    num / (den * 2 ^ exponent) < 2 * binade ∧
      (exponent = 0 ∨ binade ≤ num / (den * 2 ^ exponent)) := by
  intro exponent
  rw [← Nat.div_div_eq_div_mul]
  have hupper : num / den < 2 ^ ((num / den).log2 + 1) := Nat.lt_log2_self
  have hbinade : binade = 2 ^ 52 := by decide
  refine ⟨?_, ?_⟩
  · rw [Nat.div_lt_iff_lt_mul (Nat.two_pow_pos exponent), hbinade]
    refine hupper.trans_le ?_
    rw [show 2 * 2 ^ 52 = 2 ^ 53 by decide, ← Nat.pow_add]
    exact Nat.pow_le_pow_right (by decide) (by omega)
  · rcases Nat.eq_zero_or_pos exponent with hzero | hpos
    · exact .inl hzero
    · have hne : num / den ≠ 0 := by
        intro h
        simp [exponent, h] at hpos
      refine .inr ?_
      rw [Nat.le_div_iff_mul_le (Nat.two_pow_pos exponent), hbinade, ← Nat.pow_add]
      refine le_trans (Nat.pow_le_pow_right (by decide) ?_) (Nat.log2_self_le hne)
      omega

theorem lt_divHalfEven_iff (num den : ℕ) :
    num / den < divHalfEven num den ↔
      den < 2 * (num % den) ∨ den = 2 * (num % den) ∧ num / den % 2 = 1 := by
  unfold divHalfEven
  split <;> omega

theorem divHalfEven_bounds (num den : ℕ) :
    num / den ≤ divHalfEven num den ∧ divHalfEven num den ≤ num / den + 1 := by
  unfold divHalfEven
  split <;> omega

/-- A ratio of units lies between the values of some code and the next one. Rounding takes one of
the two: the next one in the second half, and in the middle if the first one is odd. -/
theorem exists_floorCode (num : ℕ) {den : ℕ} (hden : 0 < den) :
    ∃ floor rest step, den * unitsOfCode floor + rest = num ∧ rest < step ∧
      den * unitsOfCode (floor + 1) = den * unitsOfCode floor + step ∧
      floor ≤ roundedCode num den ∧ roundedCode num den ≤ floor + 1 ∧
      (floor < roundedCode num den ↔ step < 2 * rest ∨ step = 2 * rest ∧ floor % 2 = 1) := by
  obtain ⟨hupper, hnormal⟩ := quotient_bounds num den
  unfold roundedCode
  generalize (num / den).log2 - 52 = exponent at *
  dsimp only
  rw [Nat.shiftLeft_eq]
  have hmod := Nat.mod_lt num (Nat.mul_pos hden (Nat.two_pow_pos exponent))
  have hsplit := Nat.div_add_mod num (den * 2 ^ exponent)
  obtain ⟨hdown, hup⟩ := divHalfEven_bounds num (den * 2 ^ exponent)
  have hhalf := lt_divHalfEven_iff num (den * 2 ^ exponent)
  generalize num / (den * 2 ^ exponent) = significand at *
  -- The next code may belong to the next exponent; `unitsOfCode_eq` allows for that.
  have hlow : den * unitsOfCode (exponent * binade + significand) =
      den * 2 ^ exponent * significand := by
    rw [unitsOfCode_eq (Nat.le_of_lt hupper) hnormal, Nat.mul_comm significand, Nat.mul_assoc]
  have hhigh : den * unitsOfCode (exponent * binade + significand + 1) =
      den * 2 ^ exponent * (significand + 1) := by
    rw [Nat.add_assoc, unitsOfCode_eq hupper (hnormal.imp_right Nat.le_succ_of_le),
      Nat.mul_comm (significand + 1), Nat.mul_assoc]
  have hparity : (exponent * binade + significand) % 2 = significand % 2 := by
    unfold binade
    omega
  refine ⟨exponent * binade + significand, num % (den * 2 ^ exponent), den * 2 ^ exponent, ?_,
    hmod, ?_, Nat.add_le_add_left hdown _, ?_, ?_⟩
  · rw [hlow, hsplit]
  · rw [hlow, hhigh, Nat.mul_succ]
  · rw [Nat.add_assoc]
    exact Nat.add_le_add_left hup _
  · rw [Nat.add_lt_add_iff_left, hhalf, hparity]

/-- Codes below the one under the ratio are exceeded, codes above it are not, and for this one the
two neighbours decide. -/
theorem lt_roundedCode_iff (num : ℕ) {den : ℕ} (hden : 0 < den) (c : ℕ) :
    c < roundedCode num den ↔
      den * unitsOfCode c + den * unitsOfCode (c + 1) < 2 * num ∨
        den * unitsOfCode c + den * unitsOfCode (c + 1) = 2 * num ∧ c % 2 = 1 := by
  obtain ⟨floor, rest, step, hnum, hrest, hstep, hdown, hup, hlt⟩ := exists_floorCode num hden
  have hmono {a b : ℕ} (h : a ≤ b) : den * unitsOfCode a ≤ den * unitsOfCode b :=
    Nat.mul_le_mul_left den (strictMono_unitsOfCode.monotone h)
  have hnext : den * unitsOfCode c < den * unitsOfCode (c + 1) :=
    Nat.mul_lt_mul_of_pos_left (strictMono_unitsOfCode (Nat.lt_succ_self c)) hden
  rcases Nat.lt_trichotomy c floor with hbelow | rfl | habove
  · have hle : den * unitsOfCode (c + 1) ≤ den * unitsOfCode floor := hmono hbelow
    omega
  · omega
  · have hle : den * unitsOfCode (floor + 1) ≤ den * unitsOfCode c := hmono habove
    omega

/-- The code of the magnitude is past just those boundaries that the number is past, and past the
boundary that the number meets if that one is behind an odd code. -/
def Crosses (m : Magnitude) (q : ℚ) : Prop :=
  ∀ c < lastCode, c < m.code ↔ boundary c < q ∨ boundary c = q ∧ c % 2 = 1

/-- A boundary and a ratio are compared in units. -/
theorem boundary_compare (num : ℕ) {den : ℕ} (hden : 0 < den) (c : ℕ) :
    (boundary c < num / den ↔
        den * unitsOfCode c + den * unitsOfCode (c + 1) < 2 * (num * unitsInOne)) ∧
      (boundary c = num / den ↔
        den * unitsOfCode c + den * unitsOfCode (c + 1) = 2 * (num * unitsInOne)) := by
  have hpos : (0 : ℚ) < den := Nat.cast_pos.mpr hden
  have hscale : (0 : ℚ) < 2 * unitsInOne := mul_pos two_pos unitsInOne_pos
  have hboundary : boundary c =
      (unitsOfCode c + unitsOfCode (c + 1) : ℚ) / (2 * unitsInOne) := by
    rw [boundary, valueOfCode, valueOfCode, ← add_div, div_div, mul_comm (2 : ℚ)]
  rw [hboundary, div_lt_div_iff₀ hscale hpos, div_eq_div_iff hscale.ne' hpos.ne']
  constructor
  · rw [← Nat.cast_lt (α := ℚ)]
    push_cast
    ring_nf
  · rw [← Nat.cast_inj (R := ℚ)]
    push_cast
    ring_nf

theorem crosses_ofRatio (num : ℕ) {den : ℕ} (hden : 0 < den) :
    (ofRatio num den).Crosses (num / den) := by
  intro c hc
  obtain ⟨hless, hequal⟩ := boundary_compare num hden c
  rw [hless, hequal, ofRatio, code_ofUnits, Nat.lt_min, lt_roundedCode_iff _ hden]
  exact and_iff_left hc

/-! ### The nearest magnitude of a ratio -/

namespace Crosses

/-- The number is not past the boundary behind the magnitude. -/
theorem le_boundary (h : m.Crosses q) (hfinite : ¬m.isInfinite) :
    q ≤ boundary m.code ∧ (boundary m.code = q → m.code % 2 = 0) := by
  have hbehind := (h m.code (code_lt_of_finite hfinite)).not.mp (Nat.lt_irrefl _)
  push Not at hbehind
  refine ⟨hbehind.1, fun hmeets => ?_⟩
  have := hbehind.2 hmeets
  omega

/-- The number is not in front of the boundary before the magnitude. -/
theorem boundary_le (h : m.Crosses q) {c : ℕ} (hc : m.code = c + 1) :
    boundary c ≤ q ∧ (boundary c = q → m.code % 2 = 0) := by
  have hle := m.code_le
  rcases (h c (by omega)).mp (by omega) with hless | ⟨hequal, hodd⟩
  · exact ⟨hless.le, fun hmeets => absurd hmeets hless.ne⟩
  · exact ⟨hequal.le, fun _ => by omega⟩

/-- No magnitude is nearer, and if another one is as near the code is even. -/
theorem abs_sub_le (h : m.Crosses q) (hfinite : ¬m.isInfinite) (n : Magnitude) :
    |m.value - q| ≤ |n.value - q| ∧
      (|m.value - q| = |n.value - q| → n.value ≠ m.value → m.code % 2 = 0) := by
  -- Another value lies past the neighbour on its side, and the boundary is halfway to that one.
  rcases Nat.lt_trichotomy m.code n.code with hlt | heq | hgt
  · have hvalues : m.value < n.value := value_lt_value.mpr hlt
    have hnext : valueOfCode (m.code + 1) ≤ n.value := by
      rw [value_eq]
      exact strictMono_valueOfCode.monotone hlt
    obtain ⟨hbehind, heven⟩ := h.le_boundary hfinite
    rw [boundary, ← value_eq] at hbehind heven
    refine ⟨(lower_near_iff hvalues).mpr (by linarith), fun htie _ => ?_⟩
    have hmiddle := (upper_near_iff hvalues).mp htie.ge
    exact heven (by linarith)
  · rw [Magnitude.ext heq]
    exact ⟨le_rfl, fun _ hne => absurd rfl hne⟩
  · obtain ⟨c, hc⟩ := Nat.exists_eq_add_one_of_ne_zero (Nat.ne_of_gt (Nat.zero_lt_of_lt hgt))
    have hvalues : n.value < m.value := value_lt_value.mpr hgt
    have hprevious : n.value ≤ valueOfCode c := by
      rw [value_eq]
      exact strictMono_valueOfCode.monotone (by omega)
    obtain ⟨hbefore, heven⟩ := h.boundary_le hc
    rw [boundary, ← hc, ← value_eq] at hbefore heven
    refine ⟨(upper_near_iff hvalues).mpr (by linarith), fun htie _ => ?_⟩
    have hmiddle := (lower_near_iff hvalues).mp htie.ge
    exact heven (by linarith)

theorem isInfinite_iff (h : m.Crosses q) : m.isInfinite ↔ 2 ^ 1024 - 2 ^ 970 ≤ q := by
  have hodd : (lastCode - 1) % 2 = 1 := by decide
  have hpos : 0 < lastCode := by decide
  have hle := m.code_le
  have hcode : m.code = lastCode ↔ lastCode - 1 < m.code := by omega
  rw [isInfinite_iff_code, ← boundary_last, hcode, h _ (by omega), and_iff_left hodd,
    le_iff_lt_or_eq]

theorem eq_zero_iff (h : m.Crosses q) : m = zero ↔ q ≤ 1 / 2 ^ 1075 := by
  have hcode : m = zero ↔ ¬0 < m.code := by
    rw [Magnitude.ext_iff, Nat.not_lt, Nat.le_zero]
    rfl
  rw [hcode, h 0 (by decide), boundary_zero]
  simp

end Crosses

end Magnitude

/-- A finite number has the value of a magnitude, or is not positive. -/
theorem Double.nonpos_or_exists_value {x : Double} {v : ℚ} (h : x.value? = some v) :
    v ≤ 0 ∨ ∃ m : Magnitude, v = m.value := by
  cases x with
  | nan => cases h
  | signed negative m =>
      simp only [value?] at h
      split at h
      · cases h
      · obtain rfl := Option.some.inj h
        cases negative with
        | false => exact .inr ⟨m, rfl⟩
        | true => exact .inl (neg_nonpos.mpr m.value_nonneg)

namespace Magnitude

/-- No finite number is nearer, and if another one is as near the code is even. -/
theorem Crosses.abs_sub_le_of_value? (h : m.Crosses q) (hfinite : ¬m.isInfinite) (hq : 0 ≤ q)
    {x : Double} {v : ℚ} (hv : x.value? = some v) :
    |m.value - q| ≤ |v - q| ∧ (|m.value - q| = |v - q| → v ≠ m.value → m.code % 2 = 0) := by
  rcases Double.nonpos_or_exists_value hv with hnonpos | ⟨n, rfl⟩
  · -- Zero is at least as near as a number that is not positive.
    obtain ⟨hzero, heven⟩ := h.abs_sub_le hfinite zero
    have hleast : |zero.value - q| = q := by
      rw [value_zero, zero_sub, abs_neg, abs_of_nonneg hq]
    have hother : |v - q| = q - v := by
      rw [abs_sub_comm, abs_of_nonneg (by linarith)]
    rw [hleast] at hzero heven
    rw [hother]
    refine ⟨by linarith, fun htie hne => heven (by linarith) ?_⟩
    rw [value_zero]
    obtain rfl : v = 0 := by linarith
    exact hne
  · exact h.abs_sub_le hfinite n

theorem Crosses.isNearest (h : m.Crosses q) (hq : 0 ≤ q) : m.IsNearest q := by
  refine ⟨h.isInfinite_iff, fun hfinite x v hv => ?_, fun hfinite x v hv htie hne => ?_⟩
  · exact (h.abs_sub_le_of_value? hfinite hq hv).1
  · rw [significand_mod_two]
    exact (h.abs_sub_le_of_value? hfinite hq hv).2 htie hne

/-- A ratio is rounded to the nearest magnitude. -/
theorem isNearest_ofRatio (num : ℕ) {den : ℕ} (hden : 0 < den) :
    (ofRatio num den).IsNearest (num / den) :=
  (crosses_ofRatio num hden).isNearest (by positivity)

/-! ### Gradual underflow -/

/-- The subnormal magnitudes and the first normal ones are all multiples of the least one. -/
theorem valueOfCode_of_le {k : ℕ} (h : k ≤ 2 * binade) : valueOfCode k = k / 2 ^ 1074 := by
  have hunits := unitsOfCode_eq (e := 0) h (.inl rfl)
  rw [Nat.zero_mul, Nat.zero_add, Nat.pow_zero, Nat.mul_one] at hunits
  rw [valueOfCode, hunits, unitsInOne_eq]

namespace IsNearest

theorem finite_of_le_one (h : m.IsNearest q) (hq : q ≤ 1) : ¬m.isInfinite := by
  have hunit : (1 : ℚ) ≤ 2 ^ 970 := one_le_pow₀ one_le_two
  rw [h.isInfinite_iff, overflow_eq, not_le]
  generalize (2 : ℚ) ^ 970 = unit at *
  linarith

theorem abs_sub_le_of_code (h : m.IsNearest q) (hfinite : ¬m.isInfinite) {c : ℕ}
    (hc : c < lastCode) : |m.value - q| ≤ |valueOfCode c - q| := by
  have hcode : (ofCode c).code = c := Nat.min_eq_left hc.le
  have hnear := h.abs_sub_value_le hfinite (not_isInfinite_of_code_lt (hcode.trans_lt hc))
  rwa [value_eq (ofCode c), hcode] at hnear

/-- A nearest magnitude is at most half as far away as the two around the number are from each
other. -/
theorem abs_sub_le_half (h : m.IsNearest q) (hfinite : ¬m.isInfinite) {c : ℕ}
    (hc : c + 1 < lastCode) (hlow : valueOfCode c ≤ q) (hhigh : q ≤ valueOfCode (c + 1)) :
    |m.value - q| ≤ (valueOfCode (c + 1) - valueOfCode c) / 2 := by
  have hbelow := h.abs_sub_le_of_code hfinite (Nat.lt_of_succ_lt hc)
  have habove := h.abs_sub_le_of_code hfinite hc
  rw [abs_of_nonpos (sub_nonpos.mpr hlow)] at hbelow
  rw [abs_of_nonneg (sub_nonneg.mpr hhigh)] at habove
  linarith

/-- Below the normal magnitudes a nearest one is at most half of the least positive one away, down
to zero. -/
theorem abs_sub_le_of_small (h : m.IsNearest q) (hq : 0 ≤ q) (hsmall : q ≤ 1 / 2 ^ 1022) :
    |m.value - q| ≤ 1 / 2 ^ 1075 := by
  have hone : (0 : ℚ) < 2 ^ 1074 := pow_pos two_pos 1074
  have hleast : (1 : ℚ) / 2 ^ 1022 ≤ 1 :=
    div_le_one_of_le₀ (one_le_pow₀ one_le_two) (pow_pos two_pos 1022).le
  obtain ⟨k, hbelow, habove⟩ : ∃ k : ℕ, k ≤ q * 2 ^ 1074 ∧ q * 2 ^ 1074 < k + 1 :=
    ⟨_, Nat.floor_le (mul_nonneg hq hone.le), Nat.lt_floor_add_one _⟩
  have hk : k ≤ binade := by
    have hbinade : (1 : ℚ) / 2 ^ 1022 * 2 ^ 1074 = binade := by
      have hsplit : (2 : ℚ) ^ 1074 = 2 ^ 1022 * 2 ^ 52 := by
        rw [← pow_add]
      rw [hsplit, ← mul_assoc, one_div_mul_cancel (pow_ne_zero 1022 two_ne_zero)]
      norm_num [binade]
    have hmul := mul_le_mul_of_nonneg_right hsmall hone.le
    rw [hbinade] at hmul
    exact_mod_cast hbelow.trans hmul
  have hlast : 2 * binade < lastCode := by decide
  have hpos : 0 < binade := by decide
  have hhalf := h.abs_sub_le_half (h.finite_of_le_one (hsmall.trans hleast)) (c := k) (by omega)
  rw [valueOfCode_of_le (by omega), valueOfCode_of_le (by omega), div_le_iff₀ hone,
    le_div_iff₀ hone] at hhalf
  refine (hhalf hbelow (by exact_mod_cast habove.le)).trans_eq ?_
  rw [pow_succ (2 : ℚ) 1074]
  generalize (2 : ℚ) ^ 1074 = one at *
  push_cast
  field_simp
  ring

end IsNearest

end Magnitude

end LoxCalc
