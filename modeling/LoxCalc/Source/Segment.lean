import LoxCalc.Token.Kind

/-!
# LoxCalc.Source.Segment

The lexical segments of a source text: blanks, comments, operators and
punctuation, numbers, words, strings, and the two kinds of text that are errors.

* `Segment.text` is the exact piece of the source that a segment stands for;
* `Segment.next` takes the longest segment off the front of a text; and
* `Segment.cut` cuts a whole text, so that nothing is lost or moved: the texts of
  the segments put together are the source again (`flatMap_text_cut`).
-/

namespace LoxCalc

/-- Characters that words may begin with; only the letters of ASCII count. -/
def isLetter (c : Char) : Bool := c.isAlpha || c == '_'

/-- Characters that words may go on with. -/
def isWordPart (c : Char) : Bool := isLetter c || c.isDigit

/-- A piece of a source text. -/
inductive Segment where
  /-- A space, tab, carriage return or newline. -/
  | blank (c : Char)
  /-- Two slashes and the rest of the line, without its newline. -/
  | comment (body : List Char)
  /-- An operator or a punctuation mark. -/
  | symbol (kind : Kind)
  /-- Decimal digits, and the digits after the point if there is one. -/
  | number (whole fraction : List Char)
  /-- A keyword or an identifier. -/
  | word (letters : List Char)
  /-- A string, by the text between its quotes. -/
  | quoted (body : List Char)
  /-- A quote that is never closed, by the text that follows it. -/
  | unclosed (body : List Char)
  /-- A character that begins nothing else. -/
  | stray (c : Char)
deriving DecidableEq

namespace Segment

/-- The piece of the source. -/
def text : Segment → List Char
  | blank c => [c]
  | comment body => '/' :: '/' :: body
  | symbol kind => kind.spelling.toList
  | number whole fraction => whole ++ if fraction.isEmpty then [] else '.' :: fraction
  | word letters => letters
  | quoted body => '"' :: (body ++ ['"'])
  | unclosed body => '"' :: body
  | stray c => [c]

/-- How many lines the segment ends. -/
def newlines (s : Segment) : Nat := s.text.count '\n'

/-! ### The longest segment at the front -/

/-- The digits of a fraction and what follows them. A point belongs to a number only
if a digit follows it. -/
def takeFraction : List Char → List Char × List Char
  | '.' :: d :: rest =>
    if d.isDigit then (d :: rest.takeWhile Char.isDigit, rest.dropWhile Char.isDigit)
    else ([], '.' :: d :: rest)
  | rest => ([], rest)

/-- The segment that begins with the quote before this text. -/
def takeString (rest : List Char) : Segment × List Char :=
  let body := rest.takeWhile (· != '"')
  match rest.dropWhile (· != '"') with
  | [] => (unclosed body, [])
  | _ :: after => (quoted body, after)

/-- The operator or punctuation mark that begins with `c`, as long as possible. -/
def takeSymbol (c : Char) (rest : List Char) : Segment × List Char :=
  match Kind.ofChar? c with
  | none => (stray c, rest)
  | some kind =>
    match kind.withEqual?, rest with
    | some longer, '=' :: after => (symbol longer, after)
    | _, _ => (symbol kind, rest)

/-- The longest segment of a text that begins with `c`, and what follows it. -/
def next (c : Char) (rest : List Char) : Segment × List Char :=
  if c.isWhitespace then
    (blank c, rest)
  else if c.isDigit then
    let (fraction, after) := takeFraction (rest.dropWhile Char.isDigit)
    (number (c :: rest.takeWhile Char.isDigit) fraction, after)
  else if isLetter c then
    (word (c :: rest.takeWhile isWordPart), rest.dropWhile isWordPart)
  else if c = '"' then
    takeString rest
  else if c = '/' ∧ rest.head? = some '/' then
    (comment (rest.tail.takeWhile (· != '\n')), rest.tail.dropWhile (· != '\n'))
  else
    takeSymbol c rest

/-! ### Nothing is lost -/

theorem takeFraction_append (rest : List Char) :
    (if (takeFraction rest).1.isEmpty then [] else '.' :: (takeFraction rest).1) ++
      (takeFraction rest).2 = rest := by
  unfold takeFraction
  split
  · split <;> simp
  · simp

theorem takeString_append (rest : List Char) :
    (takeString rest).1.text ++ (takeString rest).2 = '"' :: rest := by
  have split_rest := List.takeWhile_append_dropWhile (p := (· != '"')) (l := rest)
  unfold takeString
  split
  · rename_i h
    simpa [text, h] using split_rest
  · rename_i q after h
    have hq : q = '"' := by
      have := List.head?_dropWhile_not (· != '"') rest
      simpa [h] using this
    subst hq
    rw [h] at split_rest
    simpa [text] using split_rest

/-- A symbol of one character is spelled with that character. -/
theorem spelling_of_ofChar? {c : Char} {k : Kind} (h : Kind.ofChar? c = some k) :
    k.spelling.toList = [c] := by
  have := List.find?_some h
  simp_all

/-- A symbol that an equals sign extends is spelled with that sign at its end. -/
theorem spelling_withEqual? {k l : Kind} (h : k.withEqual? = some l) :
    l.spelling.toList = k.spelling.toList ++ ['='] := by
  cases k <;> simp [Kind.withEqual?] at h <;> subst h <;> decide

theorem takeSymbol_append (c : Char) (rest : List Char) :
    (takeSymbol c rest).1.text ++ (takeSymbol c rest).2 = c :: rest := by
  unfold takeSymbol
  split
  · rfl
  · rename_i kind h
    split
    · rename_i longer after hl
      simp [text, spelling_withEqual? hl, spelling_of_ofChar? h]
    · simp [text, spelling_of_ofChar? h]

/-- The front segment and the rest make up the text. -/
theorem next_append (c : Char) (rest : List Char) :
    (next c rest).1.text ++ (next c rest).2 = c :: rest := by
  unfold next
  split
  · rfl
  split
  · simp only [text, List.cons_append, List.append_assoc, takeFraction_append,
      List.takeWhile_append_dropWhile]
  split
  · simp [text, List.takeWhile_append_dropWhile]
  split
  · rename_i h
    rw [h, takeString_append]
  split
  · rename_i h
    obtain ⟨rfl, h⟩ := h
    obtain ⟨tail, rfl⟩ := List.head?_eq_some_iff.mp h
    simp [text, List.takeWhile_append_dropWhile]
  · exact takeSymbol_append c rest

theorem takeString_text_ne_nil (rest : List Char) : (takeString rest).1.text ≠ [] := by
  unfold takeString
  split <;> simp [text]

theorem takeSymbol_text_ne_nil (c : Char) (rest : List Char) :
    (takeSymbol c rest).1.text ≠ [] := by
  unfold takeSymbol
  split
  · simp [text]
  · rename_i kind h
    split
    · rename_i longer after hl
      simp only [text, spelling_withEqual? hl, ne_eq, List.append_eq_nil_iff, List.cons_ne_nil,
        and_false, not_false_eq_true]
    · simp only [text, spelling_of_ofChar? h, ne_eq, List.cons_ne_nil, not_false_eq_true]

/-- The front segment has at least one character. -/
theorem next_text_ne_nil (c : Char) (rest : List Char) : (next c rest).1.text ≠ [] := by
  unfold next
  split
  · simp [text]
  split
  · simp [text]
  split
  · simp [text]
  split
  · exact takeString_text_ne_nil rest
  split
  · simp [text]
  · exact takeSymbol_text_ne_nil c rest

/-- What follows the front segment is shorter than the text. -/
theorem length_next_lt (c : Char) (rest : List Char) :
    (next c rest).2.length < (c :: rest).length := by
  have whole := congrArg List.length (next_append c rest)
  have some_text := List.length_pos_iff.mpr (next_text_ne_nil c rest)
  simp only [List.length_append] at whole
  omega

/-! ### Cutting a text -/

/-- Cuts a text into segments, each the longest one at its place. -/
def cut : List Char → List Segment
  | [] => []
  | c :: rest => (next c rest).1 :: cut (next c rest).2
termination_by source => source.length
decreasing_by exact length_next_lt c rest

@[simp] theorem cut_nil : cut [] = [] := by
  rw [cut]

theorem cut_cons (c : Char) (rest : List Char) :
    cut (c :: rest) = (next c rest).1 :: cut (next c rest).2 := by
  rw [cut]

/-- The segments make up the source. -/
theorem flatMap_text_cut (source : List Char) : (cut source).flatMap text = source := by
  fun_induction cut source with
  | case1 => rfl
  | case2 c rest ih => rw [List.flatMap_cons, ih, next_append]

end Segment

end LoxCalc
