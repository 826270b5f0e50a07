import LoxCalc.Proofs.Reparsing

/-!
# LoxCalc.Proofs.RescannedLexemes

The lexemes of a source, written one after another.

A segment that gives a token stands before a space as well, whatever it stands before in its
source (`Segment.Fits.carries`). So the lexemes of scanned tokens with single spaces between
them (`spaced`) are cut into the segments of these very tokens and the spaces
(`Segment.Carries.cut_spaced`). What separated the tokens in their source is gone, comments and
mistakes too. The only newlines left are those inside of strings, so a token is now on the line
that the strings up to it end on (`onStringLines`).
-/

namespace LoxCalc

/-! ### Tokens one after another -/

/-- How many newlines the lexeme brings along, if the token is a string. -/
def Token.newlines (t : Token) : Nat :=
  if t.kind = .string then t.lexeme.toList.count '\n' else 0

/-- How many newlines are in the lexemes of the strings among some tokens. -/
def stringNewlines : List Token → Nat
  | [] => 0
  | t :: tokens => t.newlines + stringNewlines tokens

/-- The lexemes of some tokens, with single spaces between them. -/
def spaced (tokens : List Token) : String := " ".intercalate (tokens.map Token.lexeme)

/-- The tokens on the lines that the strings up to each of them, itself included, end on. The
first line is given. -/
def onStringLines (line : Nat) (tokens : List Token) : List Token :=
  tokens.mapIdx fun k t => { t with line := line + stringNewlines (tokens.take (k + 1)) }

/-- What stands between a token and the others behind it: a space, if there are any. -/
def separator (others : List Token) : List Char := if others.isEmpty then [] else [' ']

@[simp] theorem stringNewlines_nil : stringNewlines [] = 0 := rfl

@[simp] theorem stringNewlines_cons (t : Token) (tokens : List Token) :
    stringNewlines (t :: tokens) = t.newlines + stringNewlines tokens :=
  rfl

theorem onStringLines_cons (line : Nat) (t : Token) (tokens : List Token) :
    onStringLines line (t :: tokens) =
      { t with line := line + t.newlines } :: onStringLines (line + t.newlines) tokens := by
  simp [onStringLines, List.mapIdx_cons, Nat.add_assoc]

theorem toList_spaced_cons (t : Token) (tokens : List Token) :
    (spaced (t :: tokens)).toList =
      t.lexeme.toList ++ (separator tokens ++ (spaced tokens).toList) := by
  cases tokens with
  | nil => simp [spaced, separator]
  | cons u tokens => simp [spaced, separator]

theorem endsTree_separator (tokens : List Token) :
    EndsTree (separator tokens ++ (spaced tokens).toList) := by
  cases tokens with
  | nil => exact endsTree_nil
  | cons t tokens => exact endsTree_cons (.inl rfl) _

/-! ### One token -/

/-- The token is one that scanning gives for some segment. -/
def Token.Scannable (t : Token) : Prop :=
  ∃ (s : Segment) (rest : List Char) (line : Nat), s.Fits rest ∧ t ∈ s.token? line

namespace Segment

/-- The segment has the lexeme of the token for its text, and wherever it stands it gives this
token, but for the line. -/
structure Carries (s : Segment) (t : Token) : Prop where
  text_eq : s.text = t.lexeme.toList
  stands : ∀ rest, EndsTree rest → s.Stands rest
  token?_eq : ∀ line, s.token? line = some { t with line := line }
  error?_eq : ∀ line, s.error? line = none
  newlines_eq : s.newlines = t.newlines

theorem lexeme_of_mem_token? {s : Segment} {line : Nat} {t : Token} (h : t ∈ s.token? line) :
    t.lexeme = .ofList s.text := by
  cases s <;> cases h <;> rfl

theorem Fits.carries {s : Segment} {rest : List Char} {line : Nat} {t : Token} (h : s.Fits rest)
    (ht : t ∈ s.token? line) : s.Carries t := by
  have hlexeme : s.isLexeme := by
    cases s <;> first | rfl | cases ht
  have htext : s.text = t.lexeme.toList := by
    rw [lexeme_of_mem_token? ht, String.toList_ofList]
  refine ⟨htext, fun rest => h.stands_of_endsTree hlexeme, ?_, ?_, ?_⟩
  · intro line'
    cases s <;> cases ht <;> rfl
  · intro line'
    cases s <;> first | rfl | cases hlexeme
  · unfold Token.newlines
    split
    · rw [newlines, htext]
    · rename_i hkind
      refine h.newlines_eq_zero hlexeme ?_
      rintro body rfl
      cases ht
      exact hkind rfl

theorem cut_separator (others : List Token) (rest : List Char) :
    cut (separator others ++ rest) = (separator others).map blank ++ cut rest := by
  unfold separator
  split
  · rfl
  · exact cut_space rest

theorem tokens_separator (line : Nat) (others : List Token) (rest : List Segment) :
    tokens line ((separator others).map blank ++ rest) = tokens line rest := by
  unfold separator
  split <;> rfl

theorem errors_separator (line : Nat) (others : List Token) (rest : List Segment) :
    errors line ((separator others).map blank ++ rest) = errors line rest := by
  unfold separator
  split <;> rfl

/-! ### All tokens -/

/-- Each token is cut off what is written, with the space behind it. -/
theorem Carries.cut_spaced {s : Segment} {t : Token} (h : s.Carries t) (others : List Token) :
    cut (spaced (t :: others)).toList =
      s :: ((separator others).map blank ++ cut (spaced others).toList) := by
  rw [toList_spaced_cons, ← h.text_eq, cut_append (h.stands _ (endsTree_separator others)),
    cut_separator]

/-- Scanned tokens are scanned again from their lexemes. -/
theorem scan_spaced {found : List Token} (h : ∀ t ∈ found, t.Scannable) (line : Nat) :
    tokens line (cut (spaced found).toList) =
        onStringLines line found ++ [.endOfInput (line + stringNewlines found)] ∧
      errors line (cut (spaced found).toList) = [] := by
  induction found generalizing line with
  | nil =>
      have hcut : cut (spaced []).toList = [] := cut_nil
      rw [hcut]
      exact ⟨rfl, rfl⟩
  | cons t found ih =>
      obtain ⟨s, rest, line', hfits, ht⟩ := h t List.mem_cons_self
      have hcarries := hfits.carries ht
      obtain ⟨htokens, herrors⟩ :=
        ih (fun u hu => h u (List.mem_cons_of_mem t hu)) (line + t.newlines)
      rw [hcarries.cut_spaced, tokens, errors, hcarries.token?_eq, hcarries.error?_eq,
        hcarries.newlines_eq, tokens_separator, errors_separator, htokens, herrors,
        onStringLines_cons, stringNewlines_cons, Nat.add_assoc]
      exact ⟨rfl, rfl⟩

end Segment

open Segment

/-- The lexemes of the tokens of a source, with single spaces between them, are scanned without
an error, as tokens of the same kinds, lexemes and literals, and the end of the input. A token
is on the line that the strings up to it end on. -/
theorem scan_spaced_lexemes (source : String) :
    ∃ found, (scan source).tokens = found ++ [.endOfInput (lineAfter source.toList)] ∧
      (∀ t ∈ found, t.kind ≠ .eof) ∧
      scan (spaced found) =
        ⟨onStringLines 1 found ++ [.endOfInput (1 + stringNewlines found)], []⟩ := by
  refine ⟨lexemes 1 (cut source.toList), tokens_scan source,
    fun t => kind_ne_eof_of_mem_lexemes_cut, ?_⟩
  obtain ⟨htokens, herrors⟩ := scan_spaced (fun t => fits_of_mem_lexemes_cut) 1
  rw [scan, htokens, herrors]

/-- A comment and a mistake are gone, and so is the newline behind the comment. -/
example :
    let found := (scan "a//b\n= =\"x\n// y\"1.5.@nil").tokens.dropLast
    spaced found = "a = = \"x\n// y\" 1.5 . nil" ∧ found.map Token.line = [1, 2, 2, 3, 3, 3, 3] ∧
      (scan (spaced found)).tokens.map Token.line = [1, 1, 1, 2, 2, 2, 2, 2] := by
  decide +kernel

end LoxCalc
