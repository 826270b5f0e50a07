import Mathlib.Data.List.Forall2
import LoxCalc.Proofs.LongestMatch
import LoxCalc.Source.Scan

/-!
# LoxCalc.Proofs.ScannedTokens

What a scan says about the segments of a source. Every operator, number, word and
string gives one token (`Represents`), every other mistake one error (`Faults`), both
in source order, and a line is one more than the newlines before it (`scan_exact`).

`Segment.lexemes` are the tokens of some segments without the end of the input, so
that they can be put together (`lexemes_append`).
-/

namespace LoxCalc

/-- The line that a text ends on, when it begins on line 1. -/
def lineAfter (before : List Char) : Nat := 1 + before.count '\n'

theorem lineAfter_append (a b : List Char) : lineAfter (a ++ b) = lineAfter a + b.count '\n' := by
  rw [lineAfter, lineAfter, List.count_append, Nat.add_assoc]

namespace Segment

/-! ### Tokens and errors of consecutive segments -/

/-- How many lines consecutive segments end. -/
def newlinesIn (segments : List Segment) : Nat := (segments.flatMap text).count '\n'

@[simp] theorem newlinesIn_nil : newlinesIn [] = 0 := rfl

@[simp] theorem newlinesIn_cons (s : Segment) (segments : List Segment) :
    newlinesIn (s :: segments) = s.newlines + newlinesIn segments := by
  rw [newlinesIn, List.flatMap_cons, List.count_append]
  rfl

@[simp] theorem newlinesIn_append (a b : List Segment) :
    newlinesIn (a ++ b) = newlinesIn a + newlinesIn b := by
  rw [newlinesIn, List.flatMap_append, List.count_append]
  rfl

/-- The tokens of consecutive segments, without the end of the input. -/
def lexemes (line : Nat) : List Segment → List Token
  | [] => []
  | s :: rest => (s.token? (line + s.newlines)).toList ++ lexemes (line + s.newlines) rest

theorem tokens_eq_lexemes (line : Nat) (segments : List Segment) :
    tokens line segments =
      lexemes line segments ++ [.endOfInput (line + newlinesIn segments)] := by
  induction segments generalizing line with
  | nil => rfl
  | cons s rest ih =>
      rw [tokens, lexemes, ih, newlinesIn_cons, List.append_assoc, Nat.add_assoc]

theorem lexemes_append (line : Nat) (a b : List Segment) :
    lexemes line (a ++ b) = lexemes line a ++ lexemes (line + newlinesIn a) b := by
  induction a generalizing line with
  | nil => rfl
  | cons s rest ih =>
      rw [List.cons_append, lexemes, lexemes, ih, newlinesIn_cons, List.append_assoc,
        Nat.add_assoc]

theorem tokens_append (line : Nat) (a b : List Segment) :
    tokens line (a ++ b) = lexemes line a ++ tokens (line + newlinesIn a) b := by
  rw [tokens_eq_lexemes, tokens_eq_lexemes, lexemes_append, newlinesIn_append,
    List.append_assoc, Nat.add_assoc]

theorem errors_append (line : Nat) (a b : List Segment) :
    errors line (a ++ b) = errors line a ++ errors (line + newlinesIn a) b := by
  induction a generalizing line with
  | nil => rfl
  | cons s rest ih =>
      rw [List.cons_append, errors, errors, ih, newlinesIn_cons, List.append_assoc,
        Nat.add_assoc]

theorem newlines_mark : ∀ k ∈ Kind.marks, (symbol k).newlines = 0 := by
  decide

/-! ### What one segment says -/

/-- Each segment with the text before it. -/
def located (before : List Char) : List Segment → List (List Char × Segment)
  | [] => []
  | s :: rest => (before, s) :: located (before ++ s.text) rest

/-- Is the segment one that gives a token? -/
def isLexeme : Segment → Bool
  | symbol _ | number _ _ | word _ | quoted _ => true
  | blank _ | comment _ | unclosed _ | stray _ => false

/-- Is the segment a mistake? -/
def isFault : Segment → Bool
  | unclosed _ | stray _ => true
  | blank _ | comment _ | symbol _ | number _ _ | word _ | quoted _ => false

/-- The kind of a word: a keyword spelled just like it, or else an identifier. -/
def IsKindOf (kind : Kind) (word : String) : Prop :=
  (kind ∈ Kind.keywords ∧ kind.spelling = word) ∨
    (kind = .identifier ∧ ∀ k ∈ Kind.keywords, k.spelling ≠ word)

/-- The token stands for the segment after some text. -/
structure Represents (before : List Char) (s : Segment) (t : Token) : Prop where
  lexeme : t.lexeme = .ofList s.text
  line : t.line = lineAfter (before ++ s.text)
  content :
    match s with
    | symbol k => t.kind = k ∧ t.literal = none
    | number whole fraction =>
      t.kind = .number ∧ t.literal = some (.number (.ofDecimal whole fraction))
    | word _ => IsKindOf t.kind t.lexeme ∧ t.literal = none
    | quoted body => t.kind = .string ∧ t.literal = some (.string (.ofList body))
    | blank _ | comment _ | unclosed _ | stray _ => False

/-- The error is about the segment after some text. -/
def Faults (before : List Char) (s : Segment) (e : ScanError) : Prop :=
  match s with
  | stray c =>
    e = .stray (lineAfter before) c ∧
      e.message = "Unexpected character '" ++ c.toString ++ "'."
  | unclosed _ => e = .unclosed (lineAfter before) ∧ e.message = "Unterminated string."
  | blank _ | comment _ | symbol _ | number _ _ | word _ | quoted _ => False

theorem isKindOf_ofWord (word : String) : IsKindOf (.ofWord word) word := by
  unfold Kind.ofWord
  cases h : Kind.keywords.find? fun k => k.spelling == word with
  | none =>
      refine .inr ⟨rfl, ?_⟩
      intro k hk heq
      exact List.find?_eq_none.mp h k hk (by simpa using heq)
  | some k =>
      exact .inl ⟨List.mem_of_find?_eq_some h, by simpa using List.find?_some h⟩

theorem represents_token? {s : Segment} (h : s.isLexeme) (before : List Char) :
    ∃ t, s.token? (lineAfter before + s.newlines) = some t ∧ Represents before s t := by
  have hline := (lineAfter_append before s.text).symm
  cases s with
  | symbol | number | quoted => exact ⟨_, rfl, rfl, hline, rfl, rfl⟩
  | word => exact ⟨_, rfl, rfl, hline, isKindOf_ofWord _, rfl⟩
  | blank | comment | unclosed | stray => cases h

theorem token?_eq_none {s : Segment} (h : ¬s.isLexeme) (line : Nat) : s.token? line = none := by
  cases s with
  | symbol | number | word | quoted => exact absurd rfl h
  | blank | comment | unclosed | stray => rfl

theorem faults_error? {s : Segment} (h : s.isFault) (before : List Char) :
    ∃ e, s.error? (lineAfter before) = some e ∧ Faults before s e := by
  cases s with
  | unclosed | stray => exact ⟨_, rfl, rfl, rfl⟩
  | blank | comment | symbol | number | word | quoted => cases h

theorem error?_eq_none {s : Segment} (h : ¬s.isFault) (line : Nat) : s.error? line = none := by
  cases s with
  | unclosed | stray => exact absurd rfl h
  | blank | comment | symbol | number | word | quoted => rfl

/-! ### What a whole scan says -/

theorem kind_ne_eof_of_isKindOf {kind : Kind} {word : String} (h : IsKindOf kind word) :
    kind ≠ .eof := by
  rintro rfl
  rcases h with ⟨hmem, -⟩ | ⟨heq, -⟩
  · exact absurd hmem (by decide)
  · cases heq

/-- No segment of a source stands for the end of the input. -/
theorem Fits.kind_ne_eof {s : Segment} {rest : List Char} {line : Nat} {t : Token}
    (h : s.Fits rest) (ht : t ∈ s.token? line) : t.kind ≠ .eof := by
  cases h with
  | blank | comment | unclosed | stray => cases ht
  | symbol hmem =>
      obtain rfl := Option.some.inj ht
      rintro rfl
      exact absurd hmem (by decide)
  | word =>
      obtain rfl := Option.some.inj ht
      exact kind_ne_eof_of_isKindOf (isKindOf_ofWord _)
  | number | quoted =>
      obtain rfl := Option.some.inj ht
      exact nofun

theorem isDigit_of_mem_number {whole fraction rest : List Char}
    (h : (number whole fraction).Fits rest) :
    ∀ c ∈ (number whole fraction).text, c.isDigit ∨ c = '.' := by
  cases h with
  | number _ hwhole hfraction =>
      intro c hc
      rcases List.mem_append.mp hc with hc | hc
      · exact .inl (hwhole c hc)
      · split at hc
        · cases hc
        · rcases List.mem_cons.mp hc with rfl | hc
          · exact .inr rfl
          · exact .inl (hfraction c hc)

theorem isWordPart_of_mem_word {c : Char} {letters : List Char} (hfirst : isLetter c)
    (hparts : ∀ d ∈ letters, isWordPart d) : ∀ d ∈ c :: letters, isWordPart d := by
  intro d hd
  rcases List.mem_cons.mp hd with rfl | hd
  · simp [isWordPart, hfirst]
  · exact hparts d hd

/-- Of the segments that give a token, only strings can end lines. -/
theorem Fits.newlines_eq_zero {s : Segment} {rest : List Char} (h : s.Fits rest)
    (hs : s.isLexeme) (hquoted : ∀ body, s ≠ .quoted body) : s.newlines = 0 := by
  cases h with
  | blank | comment | unclosed | stray => cases hs
  | symbol mem => exact newlines_mark _ mem
  | number some whole_digits fraction_digits =>
      have hfits : (Segment.number _ _).Fits [] := .number some whole_digits fraction_digits
      have hdigits := isDigit_of_mem_number hfits
      exact List.count_eq_zero.mpr fun hmem => absurd (hdigits '\n' hmem) (by decide)
  | word first parts =>
      have hparts := isWordPart_of_mem_word first parts
      exact List.count_eq_zero.mpr fun hmem => absurd (hparts '\n' hmem) (by decide)
  | quoted => exact absurd rfl (hquoted _)

theorem IsCut.fits {source : List Char} {segments : List Segment} (h : IsCut source segments) :
    ∀ s ∈ segments, ∃ rest, s.Fits rest := by
  induction h with
  | nil => exact fun _ hs => absurd hs List.not_mem_nil
  | cons hfront _ ih =>
      intro s hs
      rcases List.mem_cons.mp hs with rfl | hs
      · exact ⟨_, hfront.fits⟩
      · exact ih s hs

theorem exists_of_mem_lexemes {segments : List Segment} {line : Nat} {t : Token}
    (ht : t ∈ lexemes line segments) : ∃ s ∈ segments, ∃ line', t ∈ s.token? line' := by
  induction segments generalizing line with
  | nil => exact absurd ht List.not_mem_nil
  | cons s segments ih =>
      rw [lexemes, List.mem_append, Option.mem_toList] at ht
      rcases ht with ht | ht
      · exact ⟨s, List.mem_cons_self, _, ht⟩
      · obtain ⟨s', hs', hline⟩ := ih ht
        exact ⟨s', List.mem_cons_of_mem s hs', hline⟩

/-- A token of a source is that of a segment which stands in the source. -/
theorem fits_of_mem_lexemes_cut {source : List Char} {line : Nat} {t : Token}
    (ht : t ∈ lexemes line (cut source)) :
    ∃ (s : Segment) (rest : List Char) (line' : Nat), s.Fits rest ∧ t ∈ s.token? line' := by
  obtain ⟨s, hs, line', ht⟩ := exists_of_mem_lexemes ht
  obtain ⟨rest, hfits⟩ := (isCut_cut source).fits s hs
  exact ⟨s, rest, line', hfits, ht⟩

theorem kind_ne_eof_of_mem_lexemes_cut {source : List Char} {line : Nat} {t : Token}
    (ht : t ∈ lexemes line (cut source)) : t.kind ≠ .eof := by
  obtain ⟨s, rest, line', hfits, ht⟩ := fits_of_mem_lexemes_cut ht
  exact hfits.kind_ne_eof ht

theorem lineAfter_add (before : List Char) (s : Segment) :
    lineAfter before + s.newlines = lineAfter (before ++ s.text) :=
  (lineAfter_append before s.text).symm

theorem represents_lexemes (before : List Char) (segments : List Segment) :
    List.Forall₂ (fun p t => Represents p.1 p.2 t)
      ((located before segments).filter fun p => p.2.isLexeme)
      (lexemes (lineAfter before) segments) := by
  induction segments generalizing before with
  | nil => exact .nil
  | cons s rest ih =>
      have hrest := ih (before ++ s.text)
      rw [located, lexemes]
      by_cases hs : s.isLexeme
      · obtain ⟨t, ht, hrepresents⟩ := represents_token? hs before
        rw [List.filter_cons, if_pos hs, ht, lineAfter_add]
        exact .cons hrepresents hrest
      · rw [List.filter_cons, if_neg hs, token?_eq_none hs, lineAfter_add]
        exact hrest

theorem faults_errors (before : List Char) (segments : List Segment) :
    List.Forall₂ (fun p e => Faults p.1 p.2 e)
      ((located before segments).filter fun p => p.2.isFault)
      (errors (lineAfter before) segments) := by
  induction segments generalizing before with
  | nil => exact .nil
  | cons s rest ih =>
      have hrest := ih (before ++ s.text)
      rw [located, errors]
      by_cases hs : s.isFault
      · obtain ⟨e, he, hfaults⟩ := faults_error? hs before
        rw [List.filter_cons, if_pos hs, he]
        exact .cons hfaults (by rw [lineAfter_add]; exact hrest)
      · rw [List.filter_cons, if_neg hs, error?_eq_none hs, lineAfter_add]
        exact hrest

theorem newlinesIn_cut (source : List Char) : newlinesIn (cut source) = source.count '\n' := by
  rw [newlinesIn, flatMap_text_cut]

/-- The tokens of a source are those of its segments, then the end of the input. -/
theorem tokens_scan (source : String) :
    (scan source).tokens =
      lexemes 1 (cut source.toList) ++ [.endOfInput (lineAfter source.toList)] := by
  rw [scan, tokens_eq_lexemes, newlinesIn_cut]
  rfl

/-- There is one way to cut a source by longest match. Its scan gives a token for each
operator, number, word and string of it, then the end of the input, and an error for
each mistake. -/
theorem scan_exact (source : String) :
    ∃ segments, (∀ others, IsCut source.toList others ↔ others = segments) ∧
      (∃ found, (scan source).tokens = found ++ [.endOfInput (lineAfter source.toList)] ∧
        (∀ t ∈ found, t.kind ≠ .eof) ∧
        List.Forall₂ (fun p t => Represents p.1 p.2 t)
          ((located [] segments).filter fun p => p.2.isLexeme) found) ∧
      List.Forall₂ (fun p e => Faults p.1 p.2 e)
        ((located [] segments).filter fun p => p.2.isFault) (scan source).errors := by
  refine ⟨cut source.toList, ?_, ⟨lexemes 1 (cut source.toList), ?_, ?_, ?_⟩, ?_⟩
  · intro others
    rw [isCut_iff, eq_comm]
  · rw [scan, tokens_eq_lexemes, newlinesIn, flatMap_text_cut]
    rfl
  · intro t ht
    exact kind_ne_eof_of_mem_lexemes_cut ht
  · exact represents_lexemes [] _
  · exact faults_errors [] _

end Segment

end LoxCalc
