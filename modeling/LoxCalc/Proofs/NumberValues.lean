import LoxCalc.Proofs.NearestMagnitudes
import LoxCalc.Proofs.NumberTexts
import LoxCalc.Proofs.StageContracts

/-!
# LoxCalc.Proofs.NumberValues

What the literals of scanned numbers are worth.

A number lexeme has an exact value, a rational number (`decimalValue`). Scanning makes a ratio of
whole numbers out of its digits and rounds it once, so the literal is the magnitude nearest to the
exact value, however many digits there are (`Token.Rounded`). Everything else follows from the
exact value alone: zeros that do not change it do not change the literal, and literals are in the
order of the exact values (`scan_number_nearest`).
-/

namespace LoxCalc

/-! ### Exact values -/

/-- The text of a number with the given digits. There is a point only before a fraction. -/
def numberText (whole fraction : List Char) : String :=
  .ofList (Segment.number whole fraction).text

/-- The exact value of a number lexeme: its digits up to the point are those of a whole number,
and behind the point there are tenths, hundredths and so on. -/
def decimalValue (lexeme : String) : ℚ :=
  let whole := lexeme.toList.takeWhile Char.isDigit
  let fraction := (lexeme.toList.dropWhile Char.isDigit).tail
  Nat.ofDigitChars 10 whole 0 + Nat.ofDigitChars 10 fraction 0 / 10 ^ fraction.length

/-- The lexemes are two texts of numbers that differ in nothing but the zeros in front of all
digits and behind those of the fraction. -/
def SameButForZeros (a b : String) : Prop :=
  ∃ whole fraction : List Char, (∀ c ∈ whole ++ fraction, c.isDigit) ∧
    ∃ i j k l : ℕ,
      a = numberText (.replicate i '0' ++ whole) (fraction ++ .replicate j '0') ∧
      b = numberText (.replicate k '0' ++ whole) (fraction ++ .replicate l '0')

variable {whole fraction : List Char}

theorem decimalValue_nonneg (lexeme : String) : 0 ≤ decimalValue lexeme := by
  unfold decimalValue
  positivity

theorem decimalValue_numberText (h : ∀ c ∈ whole ++ fraction, c.isDigit) :
    decimalValue (numberText whole fraction) =
      Nat.ofDigitChars 10 whole 0 + Nat.ofDigitChars 10 fraction 0 / 10 ^ fraction.length := by
  let point : List Char := if fraction.isEmpty then [] else '.' :: fraction
  have htext : (numberText whole fraction).toList = whole ++ point := String.toList_ofList
  have hpoint : (∀ c ∈ point.head?, c.isDigit = false) ∧ point.tail = fraction := by
    cases fraction with
    | nil => exact ⟨nofun, rfl⟩
    | cons => exact ⟨by simp [point], rfl⟩
  have hrun := Segment.takeWhile_append_of_head point
    (fun c hc => h c (List.mem_append_left _ hc)) hpoint.1
  simp only [decimalValue, htext, hrun, hpoint.2]

/-- The value is the ratio that is rounded. -/
theorem decimalValue_eq_ratio (h : ∀ c ∈ whole ++ fraction, c.isDigit) :
    decimalValue (numberText whole fraction) =
      (Nat.ofDigitChars 10 (whole ++ fraction) 0 : ℕ) / (Nat.pow 10 fraction.length : ℕ) := by
  have hsplit : Nat.ofDigitChars 10 (whole ++ fraction) 0 =
      10 ^ fraction.length * Nat.ofDigitChars 10 whole 0 + Nat.ofDigitChars 10 fraction 0 := by
    rw [Nat.ofDigitChars_append]
    exact Nat.ofDigitChars_eq_ofDigitChars_zero
  rw [decimalValue_numberText h, hsplit, Nat.pow_eq]
  push_cast
  field_simp

/-- Zeros around the digits do not change the value. -/
theorem decimalValue_zeros (h : ∀ c ∈ whole ++ fraction, c.isDigit) (i j : ℕ) :
    decimalValue (numberText (.replicate i '0' ++ whole) (fraction ++ .replicate j '0')) =
      decimalValue (numberText whole fraction) := by
  have hzeros : ∀ c ∈ List.replicate i '0' ++ whole ++ (fraction ++ List.replicate j '0'),
      c.isDigit := by
    intro c hc
    simp only [List.mem_append] at h hc
    rcases hc with (hc | hc) | (hc | hc)
    · exact Decimal.isDigit_replicate c hc
    · exact h c (.inl hc)
    · exact h c (.inr hc)
    · exact Decimal.isDigit_replicate c hc
  rw [decimalValue_numberText h, decimalValue_numberText hzeros, Decimal.ofDigitChars_zeros,
    Nat.ofDigitChars_append, Nat.ofDigitChars_replicate_zero, List.length_append,
    List.length_replicate, pow_add]
  push_cast
  field_simp

theorem SameButForZeros.decimalValue_eq {a b : String} (h : SameButForZeros a b) :
    decimalValue a = decimalValue b := by
  obtain ⟨whole, fraction, hdigits, i, j, k, l, rfl, rfl⟩ := h
  rw [decimalValue_zeros hdigits, decimalValue_zeros hdigits]

/-! ### Number tokens -/

/-- The token is a number, spelled with digits and possibly a point and more digits, and its
literal is the magnitude, which is nearest to the value of the lexeme. -/
structure Token.Rounded (t : Token) (m : Magnitude) : Prop where
  lexeme : ∃ whole fraction : List Char, whole ≠ [] ∧ (∀ c ∈ whole ++ fraction, c.isDigit) ∧
    t.lexeme = numberText whole fraction
  /-- A literal with a clear sign bit, and not NaN. -/
  literal : t.literal = some (.number (.signed false m))
  nearest : m.IsNearest (decimalValue t.lexeme)
  /-- Up to half of the least positive magnitude the literal is zero. -/
  eq_zero_iff : m = .zero ↔ decimalValue t.lexeme ≤ 1 / 2 ^ 1075
  /-- Below the normal magnitudes precision is lost step by step. -/
  underflow : decimalValue t.lexeme ≤ 1 / 2 ^ 1022 →
    |m.value - decimalValue t.lexeme| ≤ 1 / 2 ^ 1075

theorem Segment.Fits.exists_number {s : Segment} {rest : List Char} {line : Nat} {t : Token}
    (h : s.Fits rest) (ht : t ∈ s.token? line) (hkind : t.kind = .number) :
    ∃ whole fraction, whole ≠ [] ∧ (∀ c ∈ whole ++ fraction, c.isDigit) ∧
      t.lexeme = numberText whole fraction ∧
      t.literal = some (.number (.ofDecimal whole fraction)) := by
  cases h with
  | blank | comment | unclosed | stray => cases ht
  | symbol hmem =>
      obtain rfl := Option.some.inj ht
      cases hkind
      exact absurd hmem (by decide)
  | word =>
      obtain rfl := Option.some.inj ht
      exact absurd hkind (isKindOf_ofWord _).ne_operand.1
  | quoted =>
      obtain rfl := Option.some.inj ht
      cases hkind
  | number hne hwhole hfraction =>
      obtain rfl := Option.some.inj ht
      refine ⟨_, _, hne, fun c hc => ?_, rfl, rfl⟩
      rcases List.mem_append.mp hc with hc | hc
      · exact hwhole c hc
      · exact hfraction c hc

/-- Every scanned number is rounded once, from its exact value. -/
theorem exists_rounded {source : String} {t : Token} (ht : t ∈ (scan source).tokens)
    (hkind : t.kind = .number) : ∃ m, t.Rounded m := by
  rw [Segment.tokens_scan, List.mem_append] at ht
  rcases ht with ht | ht
  · obtain ⟨s, rest, line, hfits, ht⟩ := Segment.fits_of_mem_lexemes_cut ht
    obtain ⟨whole, fraction, hne, hdigits, hlexeme, hliteral⟩ := hfits.exists_number ht hkind
    let num := Nat.ofDigitChars 10 (whole ++ fraction) 0
    have hden : 0 < Nat.pow 10 fraction.length := Nat.pow_pos (by decide)
    have hvalue : decimalValue t.lexeme = num / (Nat.pow 10 fraction.length : ℕ) := by
      rw [hlexeme, decimalValue_eq_ratio hdigits]
    have hnearest := Magnitude.isNearest_ofRatio num hden
    have hcrosses := Magnitude.crosses_ofRatio num hden
    rw [← hvalue] at hnearest hcrosses
    exact ⟨_, ⟨whole, fraction, hne, hdigits, hlexeme⟩, hliteral, hnearest, hcrosses.eq_zero_iff,
      hnearest.abs_sub_le_of_small (decimalValue_nonneg _)⟩
  · obtain rfl := List.mem_singleton.mp ht
    cases hkind

namespace Token.Rounded

variable {t u : Token} {m n : Magnitude}

/-- Lexemes of the same value have the same literal. -/
theorem literal_eq (ht : t.Rounded m) (hu : u.Rounded n)
    (h : decimalValue t.lexeme = decimalValue u.lexeme) : t.literal = u.literal := by
  have hnearest := ht.nearest
  rw [h] at hnearest
  rw [ht.literal, hu.literal, hnearest.unique hu.nearest]

/-- Literals are in the order of the values of their lexemes. -/
theorem lessOrEqual (ht : t.Rounded m) (hu : u.Rounded n)
    (h : decimalValue t.lexeme ≤ decimalValue u.lexeme) :
    (Double.signed false m).lessOrEqual (.signed false n) := by
  have hcode : m.code ≤ n.code := ht.nearest.code_le hu.nearest h
  simpa [Double.lessOrEqual, Double.rank] using hcode

end Token.Rounded

/-- The literal of a scanned number is the exact value of its lexeme rounded to nearest, with ties
to the even significand, gradual underflow, and infinity from `2 ^ 1024 - 2 ^ 970` on; it is never
NaN and its sign bit is clear. Between scanned numbers of any sources, zeros in front of all digits
and behind those of the fraction make no difference, and the literals are in the order of the exact
values. -/
theorem scan_number_nearest {source : String} {t : Token} (ht : t ∈ (scan source).tokens)
    (hkind : t.kind = .number) :
    ∃ m, t.Rounded m ∧ ∀ (other : String) (u : Token), u ∈ (scan other).tokens →
      u.kind = .number → ∃ n, u.Rounded n ∧
        (SameButForZeros t.lexeme u.lexeme → t.literal = u.literal) ∧
        (decimalValue t.lexeme ≤ decimalValue u.lexeme →
          (Double.signed false m).lessOrEqual (.signed false n)) := by
  obtain ⟨m, hm⟩ := exists_rounded ht hkind
  refine ⟨m, hm, fun other u hu hukind => ?_⟩
  obtain ⟨n, hn⟩ := exists_rounded hu hukind
  exact ⟨n, hn, fun hzeros => hm.literal_eq hn hzeros.decimalValue_eq, hm.lessOrEqual hn⟩

/-- Halfway between two neighbours the even one is taken, and the digit that decides otherwise may
be any number of places away. -/
theorem scan_number_nearest_halfway :
    let halfway : Token :=
      ⟨.number, "9007199254740993", some (.number (.ofDecimal "9007199254740992".toList [])), 1⟩
    let above : Token :=
      ⟨.number, "9007199254740993.000000000000000000000000000001",
        some (.number (.ofDecimal "9007199254740994".toList [])), 1⟩
    (halfway ∈ (scan "9007199254740993").tokens ∧ halfway.kind = .number) ∧
      (above ∈ (scan "9007199254740993.000000000000000000000000000001").tokens ∧
        above.kind = .number) ∧
      decimalValue halfway.lexeme ≤ decimalValue above.lexeme ∧
      ∃ m n, halfway.Rounded m ∧ above.Rounded n ∧
        (Double.signed false m).lessOrEqual (.signed false n) := by
  intro halfway above
  have hhalfway : halfway ∈ (scan "9007199254740993").tokens := by
    decide +kernel
  have habove : above ∈ (scan "9007199254740993.000000000000000000000000000001").tokens := by
    decide +kernel
  have hle : decimalValue halfway.lexeme ≤ decimalValue above.lexeme := by
    decide +kernel
  obtain ⟨m, hm, hothers⟩ := scan_number_nearest hhalfway rfl
  obtain ⟨n, hn, -, horder⟩ := hothers _ above habove rfl
  exact ⟨⟨hhalfway, rfl⟩, ⟨habove, rfl⟩, hle, m, n, hm, hn, horder hle⟩

end LoxCalc
