import LoxCalc.Expr.Printer
import LoxCalc.Proofs.LongestMatch

/-!
# LoxCalc.Proofs.NumberTexts

Reading back the text of a number. Rounding depends on a ratio only
(`Magnitude.ofUnits_congr`), every decimal that is chosen for a magnitude rounds to it
(`Decimal.ofRatio_ofMagnitude`), and the positional text of a decimal is a number
segment with the value of the decimal (`Decimal.exists_positional`).

So the source text of a number without sign is one number segment that reads back as
that very number (`Expr.exists_number_text`), infinity included.
-/

namespace LoxCalc

/-! ### Rounding a ratio -/

theorem divHalfEven_mul_right {k : Nat} (hk : 0 < k) (num den : Nat) :
    divHalfEven (num * k) (den * k) = divHalfEven num den := by
  have hless : 2 * (num % den * k) < den * k ↔ 2 * (num % den) < den := by
    rw [← Nat.mul_assoc, Nat.mul_lt_mul_right hk]
  have hequal : 2 * (num % den * k) = den * k ↔ 2 * (num % den) = den := by
    rw [← Nat.mul_assoc, Nat.mul_left_inj (Nat.ne_of_gt hk)]
  simp only [divHalfEven, Nat.mul_div_mul_right _ _ hk, Nat.mul_mod_mul_right, hless, hequal]

namespace Magnitude

theorem ofUnits_mul_right {k : Nat} (hk : 0 < k) (num den : Nat) :
    ofUnits (num * k) (den * k) = ofUnits num den := by
  have hshift (e : Nat) : (den * k) <<< e = den <<< e * k := by
    rw [Nat.shiftLeft_eq, Nat.shiftLeft_eq, Nat.mul_right_comm]
  simp only [ofUnits, Nat.mul_div_mul_right _ _ hk, hshift, divHalfEven_mul_right hk]

/-- Equal ratios round to the same magnitude. -/
theorem ofUnits_congr {a b c d : Nat} (hb : 0 < b) (hd : 0 < d) (h : a * d = c * b) :
    ofUnits a b = ofUnits c d :=
  calc ofUnits a b = ofUnits (a * d) (b * d) := (ofUnits_mul_right hd a b).symm
    _ = ofUnits (c * b) (d * b) := by rw [h, Nat.mul_comm b d]
    _ = ofUnits c d := ofUnits_mul_right hb c d

end Magnitude

namespace Decimal

/-! ### The chosen decimal -/

theorem scale_pos : 0 < scale := by
  decide +kernel

/-- One is `10 ^ 1074` units of decimals. -/
theorem unitsInOne_mul_scale : Magnitude.unitsInOne * scale = Nat.pow 10 1074 := by
  decide +kernel

theorem readsBack_of_onGrid? {m : Magnitude} {scaled n d : Nat}
    (h : onGrid? m scaled n = some d) : readsBack m n d = true := by
  simp only [onGrid?] at h
  split at h
  · rename_i hlow
    obtain rfl := Option.some.inj h
    exact (Bool.and_eq_true_iff.mp hlow).1
  · split at h
    · rename_i hhigh
      obtain rfl := Option.some.inj h
      exact hhigh
    · cases h

/-- The search ends with a hit, or else with the value itself. -/
theorem descend_spec (hit? : Nat → Option Nat) (value n : Nat) :
    descend hit? value n = (value, 0) ∨
      hit? (descend hit? value n).2 = some (descend hit? value n).1 := by
  induction n with
  | zero => exact .inl rfl
  | succ n ih =>
      rw [descend]
      split
      · rename_i d hhit
        exact .inr hhit
      · exact ih

theorem ofUnits_descend {m : Magnitude} {value : Nat} (hvalue : Magnitude.ofUnits value scale = m)
    (n : Nat) :
    Magnitude.ofUnits ((descend (onGrid? m value) value n).1 *
      Nat.pow 10 (descend (onGrid? m value) value n).2) scale = m := by
  rcases descend_spec (onGrid? m value) value n with hlast | hhit
  · rw [hlast, Nat.pow_eq, Nat.pow_zero, Nat.mul_one]
    exact hvalue
  · exact beq_iff_eq.mp (readsBack_of_onGrid? hhit)

theorem ofUnits_shortest (m : Magnitude) :
    Magnitude.ofUnits ((shortest m).1 * Nat.pow 10 (shortest m).2) scale = m :=
  ofUnits_descend (Magnitude.ofUnits_units m scale_pos) _

/-- A decimal is the same ratio in ones and in units of `10 ^ -k`. -/
theorem mul_units {units scale d n k : Nat} {e : Int} (hunits : units * scale = Nat.pow 10 k)
    (he : e = n - k) :
    d * Nat.pow 10 e.toNat * units * scale = d * Nat.pow 10 n * Nat.pow 10 (-e).toNat := by
  have hsum : e.toNat + k = n + (-e).toNat := by
    omega
  have htens : Nat.pow 10 e.toNat * Nat.pow 10 k = Nat.pow 10 n * Nat.pow 10 (-e).toNat := by
    simp only [Nat.pow_eq, ← Nat.pow_add, hsum]
  rw [Nat.mul_assoc, Nat.mul_assoc, hunits, htens, Nat.mul_assoc]

theorem ofRatio_ofGrid (d n : Nat) :
    Magnitude.ofRatio ((ofGrid d n).digits * Nat.pow 10 (ofGrid d n).exponent.toNat)
      (Nat.pow 10 (-(ofGrid d n).exponent).toNat) =
        Magnitude.ofUnits (d * Nat.pow 10 n) scale := by
  have hpow : 0 < Nat.pow 10 (-(ofGrid d n).exponent).toNat := Nat.pow_pos (by decide)
  exact Magnitude.ofUnits_congr hpow scale_pos (mul_units unitsInOne_mul_scale rfl)

/-- The decimal chosen for a magnitude rounds to it. -/
theorem ofRatio_ofMagnitude (m : Magnitude) :
    Magnitude.ofRatio ((ofMagnitude m).digits * Nat.pow 10 (ofMagnitude m).exponent.toNat)
      (Nat.pow 10 (-(ofMagnitude m).exponent).toNat) = m := by
  by_cases hzero : m.code = 0
  · have hread : (Magnitude.ofRatio 0 1).code = 0 := by
      decide +kernel
    rw [ofMagnitude, if_pos hzero]
    exact Magnitude.ext (hread.trans hzero.symm)
  · rw [ofMagnitude, if_neg hzero, ofRatio_ofGrid, ofUnits_shortest]

/-! ### Positional text -/

theorem ofDigitChars_zeros (n : Nat) (l : List Char) :
    Nat.ofDigitChars 10 (List.replicate n '0' ++ l) 0 = Nat.ofDigitChars 10 l 0 := by
  rw [Nat.ofDigitChars_append, Nat.ofDigitChars_replicate_zero, Nat.mul_zero]

theorem isDigit_replicate {n : Nat} : ∀ c ∈ List.replicate n '0', c.isDigit := by
  intro c hc
  rw [List.eq_of_mem_replicate hc]
  decide

/-- The positional text of a decimal is a number segment with its value. -/
theorem exists_positional (d : Decimal) :
    ∃ whole fraction, d.positional 0 = (Segment.number whole fraction).text ∧ whole ≠ [] ∧
      (∀ c ∈ whole ++ fraction, c.isDigit) ∧
      Nat.ofDigitChars 10 (whole ++ fraction) 0 = d.digits * Nat.pow 10 d.exponent.toNat ∧
      fraction.length = (-d.exponent).toNat := by
  let written := Nat.toDigits 10 d.digits ++ List.replicate d.exponent.toNat '0'
  let places := (-d.exponent).toNat
  let padded := List.replicate (places + 1 - written.length) '0' ++ written
  have hlength : places + 1 ≤ padded.length := by
    simp only [padded, List.length_append, List.length_replicate]
    omega
  refine ⟨padded.take (padded.length - places), padded.drop (padded.length - places), ?_, ?_, ?_,
    ?_, ?_⟩
  · simp only [positional, Segment.text, Nat.zero_sub, List.replicate_zero, List.append_nil]
    rfl
  · intro hnil
    have hwhole := congrArg List.length hnil
    rw [List.length_take, List.length_nil] at hwhole
    omega
  · rw [List.take_append_drop]
    intro c hc
    rcases List.mem_append.mp hc with hc | hc
    · exact isDigit_replicate c hc
    rcases List.mem_append.mp hc with hc | hc
    · exact Nat.isDigit_of_mem_toDigits (by decide) (by decide) hc
    · exact isDigit_replicate c hc
  · rw [List.take_append_drop, ofDigitChars_zeros, Nat.ofDigitChars_append,
      Nat.ofDigitChars_ten_toDigits, Nat.ofDigitChars_replicate_zero, Nat.mul_comm, Nat.pow_eq]
  · rw [List.length_drop]
    omega

end Decimal

/-! ### Numbers as source text -/

theorem Segment.fits_number {whole fraction : List Char} (hne : whole ≠ [])
    (hdigits : ∀ c ∈ whole ++ fraction, c.isDigit) (rest : List Char) :
    (number whole fraction).Fits rest :=
  .number hne (fun c hc => hdigits c (List.mem_append_left _ hc))
    (fun c hc => hdigits c (List.mem_append_right _ hc))

theorem Expr.toList_infinityDigits : infinityDigits.toList = '1' :: List.replicate 309 '0' :=
  String.toList_ofList

/-- The digits that stand for infinity are too many for a finite number. -/
theorem Double.ofDecimal_infinityDigits :
    ofDecimal Expr.infinityDigits.toList [] = signed false .infinity := by
  rw [Expr.toList_infinityDigits]
  decide +kernel

/-- The source text of a number without sign is one number segment that reads back as
that number. -/
theorem Expr.exists_number_text (m : Magnitude) :
    ∃ whole fraction,
      (literalText (.number (.signed false m))).toList = (Segment.number whole fraction).text ∧
      (∀ rest, (Segment.number whole fraction).Fits rest) ∧
      Double.ofDecimal whole fraction = .signed false m := by
  by_cases hinf : m.isInfinite
  · refine ⟨infinityDigits.toList, [], ?_, ?_, ?_⟩
    · rw [literalText, if_pos hinf]
      simp [Segment.text]
    · rw [toList_infinityDigits]
      refine Segment.fits_number (List.cons_ne_nil _ _) ?_
      intro c hc
      rw [List.append_nil] at hc
      rcases List.mem_cons.mp hc with rfl | hc
      · decide
      · exact Decimal.isDigit_replicate c hc
    · rw [Double.ofDecimal_infinityDigits, beq_iff_eq.mp hinf]
  · obtain ⟨whole, fraction, htext, hne, hdigits, hvalue, hplaces⟩ :=
      (Decimal.ofMagnitude m).exists_positional
    refine ⟨whole, fraction, ?_, Segment.fits_number hne hdigits, ?_⟩
    · rw [literalText, if_neg hinf]
      simp [Double.text, Double.render, hinf, htext]
    · rw [Double.ofDecimal, hvalue, hplaces]
      exact congrArg _ (Decimal.ofRatio_ofMagnitude m)

end LoxCalc
