import LoxCalc.Proofs.SourceLayout

/-!
# LoxCalc.Proofs.JoinedSources

Scanning two texts with a blank between them.

A segment that stands at the end of a text still stands when a blank follows, unless it is a
string that is never closed, or a comment and the blank is no newline (`Stands.before_blank`).
So apart from these the two texts are cut as if each stood alone (`Segment.cut_append_blank`),
and scanning keeps nothing of the first text but its number of lines (`scan_joined_lines`).
-/

namespace LoxCalc

namespace Segment

/-- Two texts with a blank between them are cut like each of them, when nothing in the first
one goes on over the blank. -/
theorem cut_append_blank {a : List Char} {segments : List Segment} {c : Char}
    (h : IsCut a segments) (hc : c ∈ [' ', '\r', '\t', '\n'])
    (hclosed : ∀ body, unclosed body ∉ segments)
    (hcomment : c = '\n' ∨ ∀ body, comment body ∉ segments) (b : List Char) :
    cut (a ++ c :: b) = segments ++ blank c :: cut b := by
  induction h with
  | nil =>
      have hblank : (blank c).Stands b := ⟨.blank hc, trivial⟩
      exact cut_append hblank
  | @cons s rest segments hfront _ ih =>
      have hs : s.Stands (rest ++ []) := by
        rw [List.append_nil]
        exact isLongest_iff_stands.mp hfront
      have hjoined : s.Stands (rest ++ c :: b) := by
        refine hs.before_blank ?_ ?_ hc b
        · rintro body rfl
          exact hclosed body List.mem_cons_self
        · refine fun _ => hcomment.imp_right ?_
          rintro hnone body rfl
          exact hnone body List.mem_cons_self
      rw [List.append_assoc, cut_append hjoined, ih, List.cons_append]
      · exact fun body hmem => hclosed body (List.mem_cons_of_mem s hmem)
      · exact hcomment.imp_right fun hnone body hmem => hnone body (List.mem_cons_of_mem s hmem)

theorem tokens_newline (line : Nat) (segments : List Segment) :
    tokens line (blank '\n' :: segments) = tokens (line + 1) segments := rfl

theorem errors_newline (line : Nat) (segments : List Segment) :
    errors line (blank '\n' :: segments) = errors (line + 1) segments := rfl

end Segment

open Segment in
/-- Where the first of two texts leaves no string open, scanning them with a newline between
them gives the tokens of the first without the end of the input, then those of the second,
moved down by the lines of the first; and so for the errors. -/
theorem scan_joined_lines {a b : String} (h : ∀ line, .unclosed line ∉ (scan a).errors) :
    ∃ found, (scan a).tokens = found ++ [.endOfInput (lineAfter a.toList)] ∧
      scan (a ++ "\n" ++ b) =
        ⟨found ++ (scan b).tokens.map (.movedDown (1 + a.toList.count '\n')),
          (scan a).errors ++ (scan b).errors.map (.movedDown (1 + a.toList.count '\n'))⟩ := by
  have hclosed : ∀ body, unclosed body ∉ cut a.toList := by
    intro body hmem
    obtain ⟨line, herror⟩ := mem_errors_of_unclosed hmem 1
    exact h line herror
  have hcut : cut (a ++ "\n" ++ b).toList = cut a.toList ++ blank '\n' :: cut b.toList := by
    rw [String.toList_append, String.toList_append, List.append_assoc]
    exact cut_append_blank (isCut_cut _) (by decide) hclosed (.inl rfl) b.toList
  have hline : 1 + newlinesIn (cut a.toList) + 1 = 1 + (1 + a.toList.count '\n') := by
    rw [newlinesIn_cut]
    omega
  refine ⟨lexemes 1 (cut a.toList), tokens_scan a, ?_⟩
  rw [scan, hcut, tokens_append, errors_append, tokens_newline, errors_newline, hline, tokens_add,
    errors_add]
  rfl

/-- The comment at the end of the first text does not go on into the second one, and a number
does not go on over the newline. -/
theorem scan_joined_lines_comment :
    let a := "\"x\ny\" # 7 // \"7"
    let b := ".5 # \"z"
    (∀ line, .unclosed line ∉ (scan a).errors) ∧
      ∃ found, (scan a).tokens = found ++ [.endOfInput 2] ∧
        scan (a ++ "\n" ++ b) = ⟨found ++ (scan b).tokens.map (.movedDown 2),
          [.stray 2 '#', .stray 3 '#', .unclosed 3]⟩ := by
  intro a b
  have herrors : (scan a).errors = [.stray 2 '#'] := by
    decide +kernel
  have hclosed : ∀ line, .unclosed line ∉ (scan a).errors := by
    simp [herrors]
  have hmoved : (scan b).errors.map (ScanError.movedDown (1 + 1)) =
      [.stray 3 '#', .unclosed 3] := by
    decide +kernel
  have hcount : a.toList.count '\n' = 1 := by
    decide +kernel
  obtain ⟨found, htokens, hscan⟩ := scan_joined_lines (b := b) hclosed
  rw [lineAfter, hcount] at htokens
  rw [hcount, herrors, hmoved] at hscan
  exact ⟨hclosed, found, htokens, hscan⟩

end LoxCalc
