import LoxCalc.Proofs.SignedLiterals

/-!
# LoxCalc.Proofs.NumberLexemes

Numbers as sources of their own.

A number segment that is all there is gives one number token (`Segment.Fits.scan_number`), and a
minus is a token of its own whatever follows it (`scan_minus`). The text of a number is such a
segment, behind a minus if the sign bit is set, and its digits are enough to tell the number
from all others: scanning it gives the number back bit for bit (`scan_number_text`).
-/

namespace LoxCalc

/-- A number with nothing around it is one token. -/
theorem Segment.Fits.scan_number {whole fraction : List Char}
    (h : (Segment.number whole fraction).Fits []) :
    scan (.ofList (Segment.number whole fraction).text) =
      ⟨[⟨.number, .ofList (Segment.number whole fraction).text,
          some (.number (.ofDecimal whole fraction)), 1⟩, .endOfInput 1], []⟩ := by
  have hcut := cut_append (h.stands_of_endsTree rfl endsTree_nil)
  have hlines : (Segment.number whole fraction).newlines = 0 := h.newlines_eq_zero rfl nofun
  rw [List.append_nil, cut_nil] at hcut
  rw [scan, String.toList_ofList, hcut, tokens, errors, hlines]
  rfl

/-- No lexeme but the minus itself begins with one. -/
theorem scan_minus (source : String) :
    scan ("-" ++ source) = ⟨Expr.sign :: (scan source).tokens, (scan source).errors⟩ := by
  have hstands : (Segment.symbol .minus).Stands source.toList :=
    ⟨.symbol (by decide), nofun, nofun⟩
  have hcut : Segment.cut ("-" ++ source).toList =
      .symbol .minus :: Segment.cut source.toList := by
    rw [String.toList_append]
    exact Segment.cut_append hstands
  rw [scan, hcut]
  rfl

/-- The text of a number that is not NaN is scanned without an error, and the number comes back
bit for bit. With a clear sign bit it is the only token of its text, and its lexeme is all of
the text. With a set sign bit it comes back as the opposite number, behind a minus. Zero, the
subnormal numbers and infinity are no exceptions. -/
theorem scan_number_text (m : Magnitude) :
    let positive := Double.signed false m
    let negative := Double.signed true m
    let digits := (Expr.literal (.number positive)).sourceText
    scan digits = ⟨[⟨.number, digits, some (.number positive), 1⟩, .endOfInput 1], []⟩ ∧
      scan (Expr.literal (.number negative)).sourceText =
        ⟨[⟨.minus, "-", none, 1⟩, ⟨.number, digits, some (.number (-negative)), 1⟩,
          .endOfInput 1], []⟩ := by
  intro positive negative digits
  obtain ⟨whole, fraction, htext, hfits, hvalue⟩ := Expr.exists_number_text m
  have hdigits : digits = .ofList (Segment.number whole fraction).text := by
    rw [← htext, String.ofList_toList]
    rfl
  have hscan :
      scan digits = ⟨[⟨.number, digits, some (.number positive), 1⟩, .endOfInput 1], []⟩ := by
    rw [hdigits, (hfits []).scan_number, hvalue]
  have hsign : (Expr.literal (.number negative)).sourceText = "-" ++ digits :=
    Expr.literalText_signed m
  refine ⟨hscan, ?_⟩
  rw [hsign, scan_minus, hscan]
  rfl

/-- The zero with the sign bit set is two tokens. -/
example :
    let tokens := (scan (Expr.literal (.number (.signed true .zero))).sourceText).tokens
    tokens.map Token.lexeme = ["-", "0", ""] ∧
      tokens.map Token.literal = [none, some (.number (.signed false .zero)), none] := by
  decide +kernel

end LoxCalc
