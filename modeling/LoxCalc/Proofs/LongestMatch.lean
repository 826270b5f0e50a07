import LoxCalc.Source.Segment

/-!
# LoxCalc.Proofs.LongestMatch

Cutting a text by longest match, apart from how it is done.

* `Fits s rest`: the segment may stand before the rest of the text, whether or not a
  longer one may.
* `IsLongest s rest`: it fits, and no segment that fits at the same place is longer.
* `Stands s rest`: it fits, and what follows cannot go on with it. This looks no
  further than two characters, and it is the same (`isLongest_iff_stands`).

`Segment.next` takes the segment that stands at the front (`next_eq_iff`), so there is
just one way to cut a text, and `Segment.cut` finds it (`isCut_iff`).
-/

namespace LoxCalc

/-! ### Characters -/

/-- The operators and punctuation marks, of one character and of two. -/
def Kind.marks : List Kind :=
  symbols ++ [bangEqual, equalEqual, greaterEqual, lessEqual]

/-- The character is no blank and begins no number, word or string. -/
def IsPlain (c : Char) : Prop :=
  c.isWhitespace = false ∧ c.isDigit = false ∧ isLetter c = false ∧ c ≠ '"'

instance (c : Char) : Decidable (IsPlain c) :=
  inferInstanceAs (Decidable (_ ∧ _ ∧ _ ∧ _))

theorem isWhitespace_iff {c : Char} : c.isWhitespace ↔ c ∈ [' ', '\r', '\t', '\n'] := by
  grind [Char.isWhitespace]

theorem isWhitespace_eq_false {c : Char} (h : c.isDigit ∨ isLetter c) :
    c.isWhitespace = false := by
  rw [Bool.eq_false_iff]
  intro hblank
  have hmem := isWhitespace_iff.mp hblank
  simp only [List.mem_cons, List.not_mem_nil, or_false] at hmem
  rcases hmem with rfl | rfl | rfl | rfl <;> exact absurd h (by decide)

theorem isDigit_eq_false {c : Char} (h : isLetter c) : c.isDigit = false := by
  rw [Bool.eq_false_iff]
  intro hdigit
  have hle : c.toNat ≤ '9'.toNat := (Char.isDigit_iff_toNat.mp hdigit).2
  have hletter : (c.isUpper || c.isLower || c == '_') = true := h
  simp only [Bool.or_eq_true, beq_iff_eq] at hletter
  rcases hletter with (hupper | hlower) | rfl
  · have hge : 'A'.toNat ≤ c.toNat := UInt32.le_iff_toNat_le.mp (of_decide_eq_true hupper).1
    exact absurd (Nat.le_trans hge hle) (by decide)
  · have hge : 'a'.toNat ≤ c.toNat :=
      UInt32.le_iff_toNat_le.mp (of_decide_eq_true (Bool.and_eq_true_iff.mp hlower).1)
    exact absurd (Nat.le_trans hge hle) (by decide)
  · exact absurd hdigit (by decide)

/-! ### Marks -/

namespace Kind

/-- Each symbol is spelled with one plain character, which is the first of no other. -/
theorem symbol_spelling :
    ∀ k ∈ symbols, ∃ c, k.spelling.toList = [c] ∧ ofChar? c = some k ∧ IsPlain c := by
  intro k hk
  cases k <;> first
    | exact ⟨_, rfl, by decide, by decide⟩
    | exact absurd hk (by decide)

theorem mem_marks_iff {k : Kind} :
    k ∈ marks ↔ k ∈ symbols ∨ ∃ j ∈ symbols, j.withEqual? = some k := by
  cases k <;> decide

theorem withEqual?_eq_none {j k : Kind} (h : j.withEqual? = some k) :
    k.withEqual? = none ∧ k ≠ .slash ∧ j ≠ .slash := by
  cases j <;> simp [withEqual?] at h <;> subst h <;> decide

theorem spelling_ne_nil : ∀ k ∈ marks, k.spelling.toList ≠ [] := by
  decide

theorem mem_marks_of_withEqual? {j k : Kind} (h : j.withEqual? = some k) : k ∈ marks := by
  cases j <;> simp [withEqual?] at h <;> subst h <;> decide

theorem mem_symbols_of_ofChar? {c : Char} {k : Kind} (h : ofChar? c = some k) : k ∈ symbols :=
  List.mem_of_find?_eq_some h

theorem ofChar?_eq_none_iff {c : Char} :
    ofChar? c = none ↔ ∀ k ∈ marks, k.spelling.toList.head? ≠ some c := by
  constructor
  · intro h k hk hhead
    obtain ⟨j, hj, hfirst⟩ : ∃ j ∈ symbols, j.spelling.toList.head? = some c := by
      rcases mem_marks_iff.mp hk with hk | ⟨j, hj, hjk⟩
      · exact ⟨k, hk, hhead⟩
      · obtain ⟨d, hd, -⟩ := symbol_spelling j hj
        rw [Segment.spelling_withEqual? hjk, hd] at hhead
        exact ⟨j, hj, by rw [hd]; exact hhead⟩
    obtain ⟨d, hd, hofChar, -⟩ := symbol_spelling j hj
    rw [hd, List.head?_cons, Option.some.injEq] at hfirst
    rw [hfirst, h] at hofChar
    cases hofChar
  · intro h
    cases hofChar : ofChar? c with
    | none => rfl
    | some k =>
        have hmem : k ∈ marks := mem_marks_iff.mpr (.inl (mem_symbols_of_ofChar? hofChar))
        exact absurd (by rw [Segment.spelling_of_ofChar? hofChar]; rfl) (h k hmem)

end Kind

namespace Segment

/-! ### Longest match -/

/-- The segment may stand before the rest of a text. -/
inductive Fits : Segment → List Char → Prop where
  | blank {c : Char} {rest : List Char} (mem : c ∈ [' ', '\r', '\t', '\n']) :
      Fits (.blank c) rest
  /-- A comment goes on to the end of its line. -/
  | comment {body rest : List Char} (line : '\n' ∉ body) (ends : ∀ c ∈ rest.head?, c = '\n') :
      Fits (.comment body) rest
  | symbol {k : Kind} {rest : List Char} (mem : k ∈ Kind.marks) : Fits (.symbol k) rest
  | number {whole fraction rest : List Char} (some : whole ≠ [])
      (whole_digits : ∀ c ∈ whole, c.isDigit) (fraction_digits : ∀ c ∈ fraction, c.isDigit) :
      Fits (.number whole fraction) rest
  | word {c : Char} {letters rest : List Char} (first : isLetter c)
      (parts : ∀ d ∈ letters, isWordPart d) : Fits (.word (c :: letters)) rest
  /-- A string goes on to the next quote. -/
  | quoted {body rest : List Char} (unquoted : '"' ∉ body) : Fits (.quoted body) rest
  /-- Without a next quote, everything is part of the string. -/
  | unclosed {body : List Char} (unquoted : '"' ∉ body) : Fits (.unclosed body) []
  /-- A character that begins nothing else. -/
  | stray {c : Char} {rest : List Char} (plain : IsPlain c)
      (unmarked : ∀ k ∈ Kind.marks, k.spelling.toList.head? ≠ some c) : Fits (.stray c) rest

/-- The segment is the longest of those that fit at its place. -/
structure IsLongest (s : Segment) (rest : List Char) : Prop where
  fits : s.Fits rest
  length_le : ∀ (s' : Segment) (rest' : List Char), s'.Fits rest' →
    s'.text ++ rest' = s.text ++ rest → s'.text.length ≤ s.text.length

/-- The segments make up the text, each the longest at its place. -/
inductive IsCut : List Char → List Segment → Prop where
  | nil : IsCut [] []
  | cons {s : Segment} {rest : List Char} {segments : List Segment} (front : s.IsLongest rest)
      (others : IsCut rest segments) : IsCut (s.text ++ rest) (s :: segments)

/-- The segment cannot go on into what follows it. -/
def Closed : Segment → List Char → Prop
  | symbol k, rest =>
    (k.withEqual?.isSome → rest.head? ≠ some '=') ∧ (k = .slash → rest.head? ≠ some '/')
  | number _ fraction, rest =>
    (∀ c ∈ rest.head?, c.isDigit = false) ∧
      (fraction = [] → ∀ d more, rest = '.' :: d :: more → d.isDigit = false)
  | word _, rest => ∀ c ∈ rest.head?, isWordPart c = false
  | blank _, _ | comment _, _ | quoted _, _ | unclosed _, _ | stray _, _ => True

/-- The segment fits and cannot go on. -/
structure Stands (s : Segment) (rest : List Char) : Prop where
  fits : s.Fits rest
  closed : s.Closed rest

/-! ### What stands at the front is taken -/

theorem takeWhile_append_of_head {p : Char → Bool} {l : List Char} (rest : List Char)
    (hl : ∀ c ∈ l, p c) (hrest : ∀ c ∈ rest.head?, p c = false) :
    (l ++ rest).takeWhile p = l ∧ (l ++ rest).dropWhile p = rest := by
  have hstop : rest.takeWhile p = [] ∧ rest.dropWhile p = rest := by
    cases rest with
    | nil => exact ⟨rfl, rfl⟩
    | cons c rest => simp [hrest c rfl]
  rw [List.takeWhile_append_of_pos hl, List.dropWhile_append_of_pos hl, hstop.1, hstop.2,
    List.append_nil]
  exact ⟨rfl, rfl⟩

theorem next_blank {c : Char} (h : c.isWhitespace) (rest : List Char) :
    next c rest = (blank c, rest) := by
  rw [next, if_pos h]

theorem next_digit {c : Char} (h : c.isDigit) (rest : List Char) :
    next c rest = (number (c :: rest.takeWhile Char.isDigit)
        (takeFraction (rest.dropWhile Char.isDigit)).1,
      (takeFraction (rest.dropWhile Char.isDigit)).2) := by
  rw [next, if_neg (by simp [isWhitespace_eq_false (.inl h)]), if_pos h]

theorem next_letter {c : Char} (h : isLetter c) (rest : List Char) :
    next c rest = (word (c :: rest.takeWhile isWordPart), rest.dropWhile isWordPart) := by
  rw [next, if_neg (by simp [isWhitespace_eq_false (.inr h)]),
    if_neg (by simp [isDigit_eq_false h]), if_pos h]

theorem next_quote (rest : List Char) : next '"' rest = takeString rest := by
  rw [next, if_neg (by decide), if_neg (by decide), if_neg (by decide), if_pos rfl]

theorem next_comment (rest : List Char) :
    next '/' ('/' :: rest) = (comment (rest.takeWhile (· != '\n')),
      rest.dropWhile (· != '\n')) := by
  rw [next, if_neg (by decide), if_neg (by decide), if_neg (by decide), if_neg (by decide),
    if_pos ⟨rfl, rfl⟩]
  rfl

theorem next_plain {c : Char} {rest : List Char} (h : IsPlain c)
    (hcomment : ¬(c = '/' ∧ rest.head? = some '/')) : next c rest = takeSymbol c rest := by
  obtain ⟨hblank, hdigit, hletter, hquote⟩ := h
  rw [next, if_neg (by simp [hblank]), if_neg (by simp [hdigit]), if_neg (by simp [hletter]),
    if_neg hquote, if_neg hcomment]

theorem takeFraction_digits {fraction rest : List Char} (hne : fraction ≠ [])
    (hdigits : ∀ c ∈ fraction, c.isDigit) (hrest : ∀ c ∈ rest.head?, c.isDigit = false) :
    takeFraction ('.' :: (fraction ++ rest)) = (fraction, rest) := by
  obtain ⟨d, more, rfl⟩ := List.exists_cons_of_ne_nil hne
  have hmore := takeWhile_append_of_head rest (fun c hc => hdigits c (List.mem_cons_of_mem d hc)) hrest
  have hd : d.isDigit := hdigits d List.mem_cons_self
  rw [List.cons_append, takeFraction, if_pos hd, hmore.1, hmore.2]

theorem takeFraction_nil {rest : List Char}
    (h : ∀ d more, rest = '.' :: d :: more → d.isDigit = false) :
    takeFraction rest = ([], rest) := by
  unfold takeFraction
  split
  · rename_i d more
    rw [if_neg (by simp [h d more rfl])]
  · rfl

theorem takeSymbol_mark {k : Kind} {c : Char} {rest more : List Char} (hmem : k ∈ Kind.marks)
    (hclosed : (symbol k).Closed rest) (h : (symbol k).text ++ rest = c :: more) :
    next c more = (symbol k, rest) := by
  obtain ⟨hequal, hslash⟩ := hclosed
  rcases Kind.mem_marks_iff.mp hmem with hk | ⟨j, hj, hjk⟩
  · obtain ⟨d, hspelling, hofChar, hplain⟩ := Kind.symbol_spelling k hk
    simp only [text, hspelling, List.singleton_append, List.cons.injEq] at h
    obtain ⟨rfl, rfl⟩ := h
    rw [next_plain hplain, takeSymbol, hofChar]
    · dsimp only
      split
      · rename_i longer after hlonger
        exact absurd rfl (hequal (by rw [hlonger]; rfl))
      · rfl
    · rintro ⟨rfl, hhead⟩
      have : k = .slash := Option.some.inj (hofChar.symm.trans (by decide))
      exact hslash this hhead
  · obtain ⟨d, hspelling, hofChar, hplain⟩ := Kind.symbol_spelling j hj
    simp only [text, spelling_withEqual? hjk, hspelling, List.cons_append, List.nil_append,
      List.cons.injEq] at h
    obtain ⟨rfl, rfl⟩ := h
    rw [next_plain hplain (by simp), takeSymbol, hofChar]
    simp only [hjk]

theorem ne_of_not_mem {c : Char} {l : List Char} (h : c ∉ l) : ∀ d ∈ l, (d != c) = true := by
  intro d hd
  simp only [bne_iff_ne, ne_eq]
  rintro rfl
  exact h hd

theorem takeString_quoted {body : List Char} (h : '"' ∉ body) (rest : List Char) :
    takeString (body ++ '"' :: rest) = (quoted body, rest) := by
  have hbody := takeWhile_append_of_head ('"' :: rest) (ne_of_not_mem h) (by simp)
  rw [takeString, hbody.1, hbody.2]

theorem takeString_unclosed {body : List Char} (h : '"' ∉ body) :
    takeString body = (unclosed body, []) := by
  have hbody := takeWhile_append_of_head [] (ne_of_not_mem h) (by simp)
  rw [List.append_nil] at hbody
  rw [takeString, hbody.1, hbody.2]

theorem next_number {whole fraction rest more : List Char} {c : Char}
    (hfits : (number whole fraction).Fits rest) (hclosed : (number whole fraction).Closed rest)
    (h : (number whole fraction).text ++ rest = c :: more) :
    next c more = (number whole fraction, rest) := by
  obtain ⟨hdigit, hpoint⟩ := hclosed
  cases hfits with
  | number hne hwhole hfraction =>
      obtain ⟨d, digits, rfl⟩ := List.exists_cons_of_ne_nil hne
      have hd : d.isDigit := hwhole d List.mem_cons_self
      have hdigits : ∀ c ∈ digits, c.isDigit := fun c hc => hwhole c (List.mem_cons_of_mem d hc)
      simp only [text, List.cons_append, List.cons.injEq, List.append_assoc] at h
      obtain ⟨rfl, rfl⟩ := h
      rw [next_digit hd]
      cases fraction with
      | nil =>
          have hrun := takeWhile_append_of_head rest hdigits hdigit
          simp only [List.isEmpty_nil, if_true, List.nil_append]
          rw [hrun.1, hrun.2, takeFraction_nil (hpoint rfl)]
      | cons f more =>
          have hrun := takeWhile_append_of_head ('.' :: (f :: more ++ rest)) hdigits (by simp)
          simp only [List.isEmpty_cons, Bool.false_eq_true, if_false, List.cons_append] at hrun ⊢
          rw [hrun.1, hrun.2, ← List.cons_append,
            takeFraction_digits (List.cons_ne_nil f more) hfraction hdigit]

/-- A segment that stands at the front of a text is the one taken off it. -/
theorem next_of_stands {s : Segment} {c : Char} {rest more : List Char} (hs : s.Stands rest)
    (h : s.text ++ rest = c :: more) : next c more = (s, rest) := by
  obtain ⟨hfits, hclosed⟩ := hs
  cases hfits with
  | symbol hmem => exact takeSymbol_mark hmem hclosed h
  | number hne hwhole hfraction => exact next_number (.number hne hwhole hfraction) hclosed h
  | blank hmem =>
      obtain ⟨rfl, rfl⟩ := List.cons.inj h
      exact next_blank (isWhitespace_iff.mpr hmem) rest
  | @comment body rest hline hends =>
      have hbody := takeWhile_append_of_head rest (ne_of_not_mem hline)
        (fun c hc => by simp [hends c hc])
      simp only [text, List.cons_append, List.cons.injEq] at h
      obtain ⟨rfl, rfl⟩ := h
      rw [next_comment, hbody.1, hbody.2]
  | @word d letters rest hfirst hparts =>
      have hletters := takeWhile_append_of_head rest hparts hclosed
      simp only [text, List.cons_append, List.cons.injEq] at h
      obtain ⟨rfl, rfl⟩ := h
      rw [next_letter hfirst, hletters.1, hletters.2]
  | @quoted body rest hbody =>
      simp only [text, List.cons_append, List.cons.injEq, List.append_assoc,
        List.nil_append] at h
      obtain ⟨rfl, rfl⟩ := h
      rw [next_quote, takeString_quoted hbody]
  | @unclosed body hbody =>
      simp only [text, List.cons.injEq, List.append_nil] at h
      obtain ⟨rfl, rfl⟩ := h
      rw [next_quote, takeString_unclosed hbody]
  | @stray d rest hplain hmarks =>
      have hnone := Kind.ofChar?_eq_none_iff.mpr hmarks
      simp only [text, List.singleton_append, List.cons.injEq] at h
      obtain ⟨rfl, rfl⟩ := h
      rw [next_plain hplain, takeSymbol, hnone]
      rintro ⟨rfl, -⟩
      exact absurd hnone (by decide)

/-! ### What is taken stands at the front -/

theorem head?_dropWhile {p : Char → Bool} {l : List Char} :
    ∀ c ∈ (l.dropWhile p).head?, p c = false := by
  intro c hc
  have hhead := List.head?_dropWhile_not p l
  rw [Option.mem_def.mp hc] at hhead
  simpa using hhead

theorem mem_takeWhile {p : Char → Bool} {l : List Char} : ∀ c ∈ l.takeWhile p, p c :=
  List.all_eq_true.mp List.all_takeWhile

theorem not_mem_takeWhile (q : Char) (l : List Char) : q ∉ l.takeWhile (· != q) := by
  intro h
  simpa using mem_takeWhile q h

theorem takeFraction_spec (rest : List Char) :
    (∀ c ∈ (takeFraction rest).1, c.isDigit) ∧
      ((∀ c ∈ rest.head?, c.isDigit = false) →
        ∀ c ∈ (takeFraction rest).2.head?, c.isDigit = false) ∧
      ((takeFraction rest).1 = [] →
        ∀ d more, (takeFraction rest).2 = '.' :: d :: more → d.isDigit = false) := by
  unfold takeFraction
  split
  · rename_i d more
    split
    · rename_i hd
      refine ⟨?_, fun _ => head?_dropWhile, fun h => by cases h⟩
      intro c hc
      rcases List.mem_cons.mp hc with rfl | hc
      · exact hd
      · exact mem_takeWhile c hc
    · rename_i hd
      refine ⟨by simp, id, ?_⟩
      intro _ e rest h
      simp only [List.cons.injEq, true_and] at h
      obtain ⟨rfl, rfl⟩ := h
      simpa using hd
  · rename_i hpoint
    exact ⟨by simp, id, fun _ d more h => absurd h (hpoint d more)⟩

theorem takeString_stands (rest : List Char) :
    (takeString rest).1.Stands (takeString rest).2 := by
  have hbody := not_mem_takeWhile '"' rest
  unfold takeString
  split
  · exact ⟨.unclosed hbody, trivial⟩
  · exact ⟨.quoted hbody, trivial⟩

theorem takeSymbol_stands {c : Char} {rest : List Char} (h : IsPlain c)
    (hcomment : ¬(c = '/' ∧ rest.head? = some '/')) :
    (takeSymbol c rest).1.Stands (takeSymbol c rest).2 := by
  unfold takeSymbol
  split
  · rename_i hnone
    exact ⟨.stray h (Kind.ofChar?_eq_none_iff.mp hnone), trivial⟩
  · rename_i k hofChar
    have hk := Kind.mem_symbols_of_ofChar? hofChar
    split
    · rename_i longer after hlonger
      obtain ⟨hnone, hslash, -⟩ := Kind.withEqual?_eq_none hlonger
      refine ⟨.symbol (Kind.mem_marks_iff.mpr (.inr ⟨k, hk, hlonger⟩)), ?_, ?_⟩
      · simp [hnone]
      · exact fun h => absurd h hslash
    · rename_i hequal
      refine ⟨.symbol (Kind.mem_marks_iff.mpr (.inl hk)), ?_, ?_⟩
      · intro hsome hhead
        obtain ⟨longer, hlonger⟩ := Option.isSome_iff_exists.mp hsome
        obtain ⟨after, rfl⟩ := List.head?_eq_some_iff.mp hhead
        exact hequal longer after hlonger rfl
      · rintro rfl hhead
        have hslash : [c] = ['/'] := (spelling_of_ofChar? hofChar).symm.trans (by decide)
        exact hcomment ⟨List.singleton_inj.mp hslash, hhead⟩

/-- The segment taken off a text stands at its front. -/
theorem next_stands (c : Char) (rest : List Char) :
    (next c rest).1.Stands (next c rest).2 := by
  by_cases hblank : c.isWhitespace
  · rw [next_blank hblank]
    exact ⟨.blank (isWhitespace_iff.mp hblank), trivial⟩
  by_cases hdigit : c.isDigit
  · rw [next_digit hdigit]
    obtain ⟨hdigits, hhead, hpoint⟩ := takeFraction_spec (rest.dropWhile Char.isDigit)
    refine ⟨.number (List.cons_ne_nil _ _) ?_ hdigits, hhead head?_dropWhile, hpoint⟩
    intro d hd
    rcases List.mem_cons.mp hd with rfl | hd
    · exact hdigit
    · exact mem_takeWhile d hd
  by_cases hletter : isLetter c
  · rw [next_letter hletter]
    exact ⟨.word hletter mem_takeWhile, head?_dropWhile⟩
  by_cases hquote : c = '"'
  · subst hquote
    rw [next_quote]
    exact takeString_stands rest
  by_cases hcomment : c = '/' ∧ rest.head? = some '/'
  · obtain ⟨rfl, hhead⟩ := hcomment
    obtain ⟨more, rfl⟩ := List.head?_eq_some_iff.mp hhead
    rw [next_comment]
    refine ⟨.comment (not_mem_takeWhile _ more) ?_, trivial⟩
    intro d hd
    simpa using head?_dropWhile d hd
  · have hplain : IsPlain c := ⟨by simpa using hblank, by simpa using hdigit,
      by simpa using hletter, hquote⟩
    rw [next_plain hplain hcomment]
    exact takeSymbol_stands hplain hcomment

theorem next_eq_iff {s : Segment} {c : Char} {rest more : List Char} :
    next c more = (s, rest) ↔ s.text ++ rest = c :: more ∧ s.Stands rest := by
  constructor
  · intro h
    have happend := next_append c more
    have hstands := next_stands c more
    rw [h] at happend hstands
    exact ⟨happend, hstands⟩
  · rintro ⟨h, hs⟩
    exact next_of_stands hs h

/-! ### The segment that stands is the longest -/

theorem length_le_takeWhile {p : Char → Bool} {l : List Char} (rest : List Char)
    (hl : ∀ c ∈ l, p c) : l.length ≤ ((l ++ rest).takeWhile p).length := by
  rw [List.takeWhile_append_of_pos hl, List.length_append]
  exact Nat.le_add_right ..

theorem length_number (whole fraction : List Char) :
    (number whole fraction).text.length =
      whole.length + if fraction.isEmpty then 0 else fraction.length + 1 := by
  rw [text, List.length_append]
  split <;> rfl

theorem length_number_le_next {whole fraction rest more : List Char} {c : Char}
    (hfits : (number whole fraction).Fits rest)
    (h : (number whole fraction).text ++ rest = c :: more) :
    (number whole fraction).text.length ≤ (next c more).1.text.length := by
  cases hfits with
  | number hne hwhole hfraction =>
      obtain ⟨d, digits, rfl⟩ := List.exists_cons_of_ne_nil hne
      have hdigits : ∀ c ∈ digits, c.isDigit := fun c hc => hwhole c (List.mem_cons_of_mem d hc)
      simp only [text, List.cons_append, List.cons.injEq, List.append_assoc] at h
      obtain ⟨rfl, rfl⟩ := h
      rw [next_digit (hwhole d List.mem_cons_self), length_number, length_number,
        List.length_cons, List.length_cons]
      cases fraction with
      | nil =>
          have hrun := length_le_takeWhile rest hdigits
          simp only [List.isEmpty_nil, if_true, List.nil_append]
          omega
      | cons f more =>
          have hrun := takeWhile_append_of_head ('.' :: (f :: more ++ rest)) hdigits (by simp)
          have hmore := length_le_takeWhile rest
            (fun c hc => hfraction c (List.mem_cons_of_mem f hc))
          have hf : f.isDigit := hfraction f List.mem_cons_self
          simp only [List.cons_append, List.isEmpty_cons, Bool.false_eq_true, if_false] at hrun ⊢
          rw [hrun.1, hrun.2, takeFraction, if_pos hf]
          simp only [List.isEmpty_cons, Bool.false_eq_true, if_false, List.length_cons]
          omega

/-- No segment that fits is longer than the one taken. -/
theorem Fits.length_le_next {s : Segment} {c : Char} {rest more : List Char}
    (hfits : s.Fits rest) (h : s.text ++ rest = c :: more) :
    s.text.length ≤ (next c more).1.text.length := by
  have hpos : 1 ≤ (next c more).1.text.length :=
    List.length_pos_iff.mpr (next_text_ne_nil c more)
  -- Segments that are closed wherever they fit are the ones taken.
  have htaken (hclosed : s.Closed rest) : s.text.length ≤ (next c more).1.text.length := by
    have hnext := next_of_stands ⟨hfits, hclosed⟩ h
    exact Nat.le_of_eq (by rw [hnext])
  cases hfits with
  | blank | stray => exact hpos
  | comment | quoted | unclosed => exact htaken trivial
  | symbol hmem =>
      rcases Kind.mem_marks_iff.mp hmem with hk | ⟨j, -, hjk⟩
      · obtain ⟨d, hspelling, -⟩ := Kind.symbol_spelling _ hk
        rw [text, hspelling]
        exact hpos
      · obtain ⟨hnone, hslash, -⟩ := Kind.withEqual?_eq_none hjk
        exact htaken ⟨by simp [hnone], fun h => absurd h hslash⟩
  | number hne hwhole hfraction =>
      exact length_number_le_next (.number hne hwhole hfraction) h
  | @word d letters rest hfirst hparts =>
      simp only [text, List.cons_append, List.cons.injEq] at h
      obtain ⟨rfl, rfl⟩ := h
      rw [next_letter hfirst]
      exact Nat.succ_le_succ (length_le_takeWhile rest hparts)

theorem Fits.text_ne_nil {s : Segment} {rest : List Char} (h : s.Fits rest) : s.text ≠ [] := by
  cases h with
  | blank | comment | word | quoted | unclosed | stray => exact List.cons_ne_nil _ _
  | number hne => exact List.append_ne_nil_of_left_ne_nil hne _
  | symbol hmem => exact Kind.spelling_ne_nil _ hmem

theorem isLongest_of_stands {s : Segment} {rest : List Char} (h : s.Stands rest) :
    s.IsLongest rest := by
  refine ⟨h.fits, ?_⟩
  intro s' rest' hfits heq
  obtain ⟨c, more, hcons⟩ := List.exists_cons_of_ne_nil (List.append_ne_nil_of_left_ne_nil
    h.fits.text_ne_nil rest)
  have hle := hfits.length_le_next (heq.trans hcons)
  rw [next_of_stands h hcons] at hle
  exact hle

/-- A longer segment that begins like the longest one at its place does not fit. -/
theorem IsLongest.not_fits {s : Segment} {rest : List Char} (h : s.IsLongest rest)
    (longer : Segment) (extra after : List Char) (htext : longer.text = s.text ++ extra)
    (hextra : extra ≠ []) (hrest : rest = extra ++ after) : ¬longer.Fits after := by
  intro hfits
  have hle := h.length_le longer after hfits (by rw [htext, hrest, List.append_assoc])
  have hpos := List.length_pos_iff.mpr hextra
  rw [htext, List.length_append] at hle
  omega

theorem digits_append_singleton {l : List Char} {d : Char} (hl : ∀ c ∈ l, c.isDigit)
    (hd : d.isDigit) : ∀ c ∈ l ++ [d], c.isDigit := by
  intro c hc
  rcases List.mem_append.mp hc with hc | hc
  · exact hl c hc
  · exact List.mem_singleton.mp hc ▸ hd

theorem IsLongest.number_closed {whole fraction rest : List Char}
    (h : (number whole fraction).IsLongest rest) : (number whole fraction).Closed rest := by
  have hfits := h.fits
  cases hfits with
  | number hne hwhole hfraction =>
      refine ⟨?_, ?_⟩
      · intro d hd
        obtain ⟨after, rfl⟩ := List.head?_eq_some_iff.mp hd
        rw [Bool.eq_false_iff]
        intro hdigit
        -- A digit goes on with the fraction, or with the whole part if there is none.
        cases fraction with
        | nil =>
            refine h.not_fits (number (whole ++ [d]) []) [d] after ?_ (by simp) rfl
              (.number (by simp) (digits_append_singleton hwhole hdigit) hfraction)
            simp [text]
        | cons f more =>
            refine h.not_fits (number whole (f :: more ++ [d])) [d] after ?_ (by simp) rfl
              (.number hne hwhole (digits_append_singleton hfraction hdigit))
            simp [text]
      · intro hnil d more hrest
        subst hnil hrest
        rw [Bool.eq_false_iff]
        intro hdigit
        refine h.not_fits (number whole [d]) ['.', d] more ?_ (by simp) rfl
          (.number hne hwhole (by simpa using hdigit))
        simp [text]

/-- The longest segment is closed: whatever went on with it would make a longer one. -/
theorem IsLongest.closed {s : Segment} {rest : List Char} (h : s.IsLongest rest) :
    s.Closed rest := by
  have hfits := h.fits
  cases hfits with
  | blank | comment | quoted | unclosed | stray => trivial
  | number => exact h.number_closed
  | symbol hmem =>
      refine ⟨?_, ?_⟩
      · intro hsome hhead
        obtain ⟨longer, hlonger⟩ := Option.isSome_iff_exists.mp hsome
        obtain ⟨after, rfl⟩ := List.head?_eq_some_iff.mp hhead
        exact h.not_fits (symbol longer) ['='] after (spelling_withEqual? hlonger) (by simp) rfl
          (.symbol (Kind.mem_marks_of_withEqual? hlonger))
      · rintro rfl hhead
        obtain ⟨after, rfl⟩ := List.head?_eq_some_iff.mp hhead
        refine h.not_fits (comment (after.takeWhile (· != '\n')))
          ('/' :: after.takeWhile (· != '\n')) (after.dropWhile (· != '\n')) ?_ (by simp)
          (by rw [List.cons_append, List.takeWhile_append_dropWhile])
          (.comment (not_mem_takeWhile _ after) ?_)
        · rfl
        · intro d hd
          simpa using head?_dropWhile d hd
  | @word c letters _ hfirst hparts =>
      intro d hd
      obtain ⟨after, rfl⟩ := List.head?_eq_some_iff.mp hd
      rw [Bool.eq_false_iff]
      intro hpart
      refine h.not_fits (word (c :: (letters ++ [d]))) [d] after rfl (by simp) rfl
        (.word hfirst ?_)
      intro e he
      rcases List.mem_append.mp he with he | he
      · exact hparts e he
      · exact List.mem_singleton.mp he ▸ hpart

theorem isLongest_iff_stands {s : Segment} {rest : List Char} :
    s.IsLongest rest ↔ s.Stands rest :=
  ⟨fun h => ⟨h.fits, h.closed⟩, isLongest_of_stands⟩

/-! ### The one way to cut a text -/

/-- A segment that stands at the front of a text is cut off it. -/
theorem cut_append {s : Segment} {rest : List Char} (h : s.Stands rest) :
    cut (s.text ++ rest) = s :: cut rest := by
  obtain ⟨c, more, hcons⟩ := List.exists_cons_of_ne_nil
    (List.append_ne_nil_of_left_ne_nil h.fits.text_ne_nil rest)
  rw [hcons, cut_cons, next_of_stands h hcons]

theorem isCut_cut (source : List Char) : IsCut source (cut source) := by
  fun_induction cut source with
  | case1 => exact .nil
  | case2 c rest ih =>
      have hcons := IsCut.cons (isLongest_of_stands (next_stands c rest)) ih
      rwa [next_append] at hcons

/-- A text is cut in just one way, the one that `cut` finds. -/
theorem isCut_iff {source : List Char} {segments : List Segment} :
    IsCut source segments ↔ cut source = segments := by
  constructor
  · intro h
    induction h with
    | nil => exact cut_nil
    | cons hfront _ ih => rw [cut_append (isLongest_iff_stands.mp hfront), ih]
  · rintro rfl
    exact isCut_cut source

theorem IsCut.flatMap_text {source : List Char} {segments : List Segment}
    (h : IsCut source segments) : segments.flatMap text = source := by
  rw [← isCut_iff.mp h, flatMap_text_cut]

theorem IsCut.cut_flatMap_text {source : List Char} {segments : List Segment}
    (h : IsCut source segments) : cut (segments.flatMap text) = segments := by
  rw [h.flatMap_text, isCut_iff.mp h]

theorem IsCut.front {s : Segment} {segments : List Segment} {source : List Char}
    (h : IsCut source (s :: segments)) :
    s.Stands (segments.flatMap text) ∧ IsCut (segments.flatMap text) segments := by
  cases h with
  | cons hfront others =>
      rw [others.flatMap_text]
      exact ⟨isLongest_iff_stands.mp hfront, others⟩

theorem IsCut.eq_nil_of_text {source : List Char} {before after : List Segment}
    (h : IsCut source (before ++ after)) (htext : before.flatMap text = []) : before = [] := by
  cases before with
  | nil => rfl
  | cons s before =>
      rw [List.flatMap_cons, List.append_eq_nil_iff] at htext
      exact absurd htext.1 (IsCut.front h).1.fits.text_ne_nil

end Segment

end LoxCalc
