import LoxCalc.Proofs.SourceLayout

/-!
# LoxCalc.Proofs.MendedSources

Mistakes of a source are as good as blanks.

`mendedSource` puts a space in the place of every character that begins nothing, and of every
character but newlines from a quote on that is never closed. Character by character the two
texts differ in nothing but such spaces (`Fades`), which keep neighbours apart as the mistakes
did (`Segment.Stands.fade`). So the rest of the source is cut as before
(`Segment.cut_flatMap_blanked`), and its tokens stay on their lines (`mistakes_act_as_blanks`).
-/

namespace LoxCalc

/-! ### Spaces in a text -/

/-- The second text is the first one with spaces in the place of some characters, none of them
a newline. -/
inductive Fades : List Char → List Char → Prop where
  | nil : Fades [] []
  | same (c : Char) {l l' : List Char} (others : Fades l l') : Fades (c :: l) (c :: l')
  | space {c : Char} {l l' : List Char} (ne : c ≠ '\n') (others : Fades l l') :
      Fades (c :: l) (' ' :: l')

namespace Fades

variable {a a' b b' l l' : List Char}

theorem refl (l : List Char) : Fades l l := by
  induction l with
  | nil => exact .nil
  | cons c l ih => exact .same c ih

theorem append (h : Fades a a') (h' : Fades b b') : Fades (a ++ b) (a' ++ b') := by
  induction h with
  | nil => exact h'
  | same c _ ih => exact .same c ih
  | space hne _ ih => exact .space hne ih

theorem count_newline (h : Fades l l') : l'.count '\n' = l.count '\n' := by
  induction h with
  | nil => rfl
  | same c _ ih => rw [List.count_cons, List.count_cons, ih]
  | space hne _ ih =>
      rw [List.count_cons_of_ne (by decide), List.count_cons_of_ne hne, ih]

/-- Two texts that differ have a first difference: a space in the place of something else. -/
theorem eq_or_exists_space (h : Fades l l') :
    l' = l ∨ ∃ x c r r', c ≠ '\n' ∧ l = x ++ c :: r ∧ l' = x ++ ' ' :: r' := by
  induction h with
  | nil => exact .inl rfl
  | same c _ ih =>
      rcases ih with rfl | ⟨x, d, r, r', hne, rfl, rfl⟩
      · exact .inl rfl
      · exact .inr ⟨c :: x, d, r, r', hne, rfl, rfl⟩
  | @space c l l' hne _ _ => exact .inr ⟨[], c, l, l', hne, rfl, rfl⟩

end Fades

/-- A space for every character that does not end a line. -/
def faded (c : Char) : Char := if c = '\n' then c else ' '

theorem fades_map (l : List Char) : Fades l (l.map faded) := by
  induction l with
  | nil => exact .nil
  | cons c l ih =>
      rw [List.map_cons, faded]
      split
      · exact .same c ih
      · rename_i hne
        exact .space hne ih

theorem faded_mem_blanks (c : Char) : faded c ∈ [' ', '\r', '\t', '\n'] := by
  unfold faded
  split
  · rename_i hnewline
    rw [hnewline]
    decide
  · decide

namespace Segment

variable {s : Segment} {rest rest' source : List Char} {segments : List Segment}

/-! ### Mistakes as blanks -/

/-- The text of the segment, or spaces and newlines if it is a mistake. -/
def blanked (s : Segment) : List Char := if s.isFault then s.text.map faded else s.text

/-- The segment, or blanks if it is a mistake. -/
def mended (s : Segment) : List Segment := if s.isFault then s.blanked.map blank else [s]

theorem mended_of_not_isFault (h : ¬s.isFault) : s.mended = [s] := if_neg h

theorem isLayout_of_mem_mended (h : s.isFault) : ∀ t ∈ s.mended, t.isLayout := by
  intro t ht
  rw [mended, if_pos h] at ht
  obtain ⟨c, -, rfl⟩ := List.mem_map.mp ht
  rfl

theorem flatMap_text_blank (l : List Char) : (l.map blank).flatMap text = l := by
  induction l with
  | nil => rfl
  | cons c l ih => rw [List.map_cons, List.flatMap_cons, ih, text, List.singleton_append]

theorem flatMap_text_mended (s : Segment) : s.mended.flatMap text = s.blanked := by
  unfold mended
  split
  · exact flatMap_text_blank _
  · rename_i h
    rw [blanked, if_neg h, List.flatMap_singleton]

theorem fades_blanked (s : Segment) : Fades s.text s.blanked := by
  unfold blanked
  split
  · exact fades_map _
  · exact .refl _

theorem fades_flatMap_blanked (segments : List Segment) :
    Fades (segments.flatMap text) (segments.flatMap blanked) := by
  induction segments with
  | nil => exact .nil
  | cons s segments ih => exact s.fades_blanked.append ih

theorem newlinesIn_mended (s : Segment) : newlinesIn s.mended = s.newlines := by
  rw [newlinesIn, flatMap_text_mended, s.fades_blanked.count_newline]
  rfl

/-! ### Cutting the mended source -/

theorem cut_blanks {w : List Char} (h : ∀ c ∈ w, c ∈ [' ', '\r', '\t', '\n'])
    (rest : List Char) : cut (w ++ rest) = w.map blank ++ cut rest := by
  induction w with
  | nil => rfl
  | cons c w ih =>
      have hblank : (blank c).Stands (w ++ rest) := ⟨.blank (h c List.mem_cons_self), trivial⟩
      have hfront : cut (c :: (w ++ rest)) = blank c :: cut (w ++ rest) := cut_append hblank
      rw [List.cons_append, hfront, ih fun d hd => h d (List.mem_cons_of_mem c hd)]
      rfl

/-- Spaces that take the place of other characters go on with no segment but a string that is
never closed. -/
theorem Stands.fade (h : s.Stands rest) (hfades : Fades rest rest') (hs : ¬s.isFault) :
    s.Stands rest' := by
  rcases hfades.eq_or_exists_space with rfl | ⟨x, c, r, r', hne, rfl, rfl⟩
  · exact h
  · refine h.before_blank ?_ ?_ (by decide) r'
    · rintro body rfl
      exact hs rfl
    · -- A comment goes on to the end of its line, so no other character follows it.
      rintro rfl
      refine .inr ?_
      rintro body rfl
      cases h.fits with
      | comment _ ends => exact hne (ends c rfl)

/-- With blanks in the place of mistakes, the other segments are cut as before. -/
theorem cut_flatMap_blanked (h : IsCut source segments) :
    cut (segments.flatMap blanked) = segments.flatMap mended := by
  induction h with
  | nil => exact cut_nil
  | @cons s rest segments hfront hothers ih =>
      rw [List.flatMap_cons, List.flatMap_cons, ← ih]
      by_cases hs : s.isFault
      · have hblanks : ∀ c ∈ s.text.map faded, c ∈ [' ', '\r', '\t', '\n'] := by
          intro c hc
          obtain ⟨d, -, rfl⟩ := List.mem_map.mp hc
          exact faded_mem_blanks d
        rw [mended, if_pos hs, blanked, if_pos hs, cut_blanks hblanks]
      · have hfades := fades_flatMap_blanked segments
        rw [hothers.flatMap_text] at hfades
        have hstands := (isLongest_iff_stands.mp hfront).fade hfades hs
        rw [mended_of_not_isFault hs, blanked, if_neg hs, cut_append hstands]
        rfl

/-! ### Tokens and errors of the mended source -/

theorem lexemes_mended (line : Nat) (s : Segment) :
    lexemes line s.mended = (s.token? (line + s.newlines)).toList := by
  by_cases hs : s.isFault
  · have hnone : s.token? (line + s.newlines) = none := by
      cases s with
      | stray | unclosed => rfl
      | blank | comment | symbol | number | word | quoted => cases hs
    rw [(silent_of_isLayout (isLayout_of_mem_mended hs) line).1, hnone]
    rfl
  · rw [mended_of_not_isFault hs, lexemes, lexemes, List.append_nil]

theorem errors_mended (line : Nat) (s : Segment) : errors line s.mended = [] := by
  by_cases hs : s.isFault
  · exact (silent_of_isLayout (isLayout_of_mem_mended hs) line).2
  · rw [mended_of_not_isFault hs, errors, errors, error?_eq_none hs]
    rfl

/-- The blanks leave all tokens on their lines. -/
theorem lexemes_flatMap_mended (line : Nat) (segments : List Segment) :
    lexemes line (segments.flatMap mended) = lexemes line segments := by
  induction segments generalizing line with
  | nil => rfl
  | cons s segments ih =>
      rw [List.flatMap_cons, lexemes_append, lexemes_mended, newlinesIn_mended, ih, lexemes]

theorem errors_flatMap_mended (line : Nat) (segments : List Segment) :
    errors line (segments.flatMap mended) = [] := by
  induction segments generalizing line with
  | nil => rfl
  | cons s segments ih => rw [List.flatMap_cons, errors_append, errors_mended, ih, List.append_nil]

/-- Every mistake is an error, and nothing else is. -/
theorem length_errors (line : Nat) (segments : List Segment) :
    (errors line segments).length = segments.countP isFault := by
  induction segments generalizing line with
  | nil => rfl
  | cons s segments ih =>
      rw [errors, List.length_append, ih, List.countP_cons, Nat.add_comm]
      cases s <;> rfl

/-! ### A string that is never closed -/

/-- Nothing follows a string that is never closed. -/
theorem IsCut.exists_concat_unclosed (h : IsCut source segments) {body : List Char}
    (hmem : unclosed body ∈ segments) :
    ∃ before, segments = before ++ [unclosed body] ∧ ∀ body', unclosed body' ∉ before := by
  induction h with
  | nil => exact absurd hmem List.not_mem_nil
  | @cons s rest segments hfront hothers ih =>
      by_cases hs : ∃ body', s = unclosed body'
      · obtain ⟨body', rfl⟩ := hs
        -- It goes on to the end, so there are no other segments.
        have hnil : segments = [] := by
          cases hfront.fits with
          | unclosed => exact isCut_iff.mp hothers ▸ cut_nil
        subst hnil
        exact ⟨[], by rw [List.mem_singleton.mp hmem]; rfl, by simp⟩
      · have hrest : unclosed body ∈ segments := by
          rcases List.mem_cons.mp hmem with rfl | hmem
          · exact absurd ⟨body, rfl⟩ hs
          · exact hmem
        obtain ⟨before, rfl, hbefore⟩ := ih hrest
        refine ⟨s :: before, rfl, ?_⟩
        intro body' hmem'
        rcases List.mem_cons.mp hmem' with rfl | hmem'
        · exact hs ⟨body', rfl⟩
        · exact hbefore body' hmem'

end Segment

open Segment

/-- The source with a space in the place of every mistake in it, newlines apart. -/
def mendedSource (source : String) : String :=
  .ofList ((cut source.toList).flatMap blanked)

/-- Behind some segments, the source goes on to its end with a string that is never closed.
Only the last error is about such a string, and nothing behind its quote gives a token but the
end of the input. -/
structure EndsUnclosed (source : String) (before : List Segment) (body : List Char)
    (earlier : List ScanError) (line : Nat) : Prop where
  cut_eq : cut source.toList = before ++ [.unclosed body]
  tokens_eq : (scan source).tokens = lexemes 1 before ++ [.endOfInput (lineAfter source.toList)]
  errors_eq : (scan source).errors = earlier ++ [.unclosed line]
  only : ∀ line', .unclosed line' ∉ earlier

theorem exists_endsUnclosed {source : String} {line : Nat}
    (h : .unclosed line ∈ (scan source).errors) :
    ∃ before body earlier, EndsUnclosed source before body earlier line := by
  obtain ⟨body, hmem⟩ := exists_unclosed_of_mem_errors h
  obtain ⟨before, hcut, hbefore⟩ := (isCut_cut source.toList).exists_concat_unclosed hmem
  have honly : ∀ line', .unclosed line' ∉ errors 1 before := by
    intro line' herror
    obtain ⟨body', hmem'⟩ := exists_unclosed_of_mem_errors herror
    exact hbefore body' hmem'
  have herrors : (scan source).errors =
      errors 1 before ++ [.unclosed (1 + newlinesIn before)] := by
    rw [scan, hcut, errors_append]
    rfl
  refine ⟨before, body, errors 1 before, hcut, ?_, ?_, honly⟩
  · rw [tokens_scan, hcut, lexemes_append]
    simp [lexemes, token?]
  · rw [herrors, List.mem_append, List.mem_singleton] at h
    rw [herrors, h.resolve_left (honly line)]

/-- The mended source is the source with spaces in some places, and scanning it gives the same
tokens on the same lines, and no errors. There are as many errors as there are mistakes, each
about its own, and at most one of them is about a string that is never closed. -/
theorem mistakes_act_as_blanks (source : String) :
    Fades source.toList (mendedSource source).toList ∧
      scan (mendedSource source) = ⟨(scan source).tokens, []⟩ ∧
      List.Forall₂ (fun p e => Faults p.1 p.2 e)
        ((located [] (cut source.toList)).filter fun p => p.2.isFault) (scan source).errors ∧
      (scan source).errors.length = (cut source.toList).countP isFault ∧
      ∀ line, .unclosed line ∈ (scan source).errors →
        ∃ before body earlier, EndsUnclosed source before body earlier line := by
  have hfades : Fades source.toList (mendedSource source).toList := by
    have hsegments := fades_flatMap_blanked (cut source.toList)
    rwa [flatMap_text_cut, ← String.toList_ofList (l := (cut source.toList).flatMap blanked)]
      at hsegments
  have hcut : cut (mendedSource source).toList = (cut source.toList).flatMap mended := by
    rw [mendedSource, String.toList_ofList, cut_flatMap_blanked (isCut_cut _)]
  have htokens : (scan (mendedSource source)).tokens = (scan source).tokens := by
    rw [tokens_scan, tokens_scan, hcut, lexemes_flatMap_mended, lineAfter, hfades.count_newline,
      lineAfter]
  have herrors : (scan (mendedSource source)).errors = [] := by
    rw [scan, hcut, errors_flatMap_mended]
  refine ⟨hfades, ?_, faults_errors [] _, length_errors 1 _, fun line => exists_endsUnclosed⟩
  rw [← htokens, ← herrors]

/-- What stands in strings and comments is no mistake, and newlines stay where they are. -/
example : mendedSource "1 § \"§\" // §\n@\"b\nc" = "1   \"§\" // §\n   \n " := by
  decide +kernel

end LoxCalc
