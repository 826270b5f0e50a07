import LoxCalc.Proofs.LineIndependence
import LoxCalc.Proofs.LongestMatch
import LoxCalc.Proofs.ScannedTokens

/-!
# LoxCalc.Proofs.SourceLayout

Layout between two segments of a source changes nothing but lines.

`IsGap` is layout that begins with a blank, so that no segment goes on into it, except for
a comment, which takes in what stands before the first newline. Put where a segment
ends, it only adds segments that say nothing (`Segment.exists_padding`), and moves what
follows down by its newlines (`gap_irrelevant`).
-/

namespace LoxCalc

/-- Blanks, and comments up to and with their newlines. -/
inductive IsLayout : List Char → Prop where
  | nil : IsLayout []
  | blank {c : Char} {rest : List Char} (mem : c ∈ [' ', '\r', '\t', '\n'])
      (others : IsLayout rest) : IsLayout (c :: rest)
  | comment {body rest : List Char} (line : '\n' ∉ body) (others : IsLayout rest) :
      IsLayout ('/' :: '/' :: (body ++ '\n' :: rest))

/-- Layout that begins with a blank. -/
structure IsGap (w : List Char) : Prop where
  isLayout : IsLayout w
  begins : ∃ c ∈ [' ', '\r', '\t', '\n'], w.head? = some c

/-- Layout is still layout when its first line is taken away up to the newline. -/
theorem IsLayout.dropWhile_line {w : List Char} (h : IsLayout w) :
    IsLayout (w.dropWhile (· != '\n')) := by
  induction h with
  | nil => exact .nil
  | @blank c rest mem others ih =>
      by_cases hc : c = '\n'
      · subst hc
        exact .blank mem others
      · rw [List.dropWhile_cons_of_pos (by simpa using hc)]
        exact ih
  | @comment body rest line others ih =>
      have hbody : ∀ c ∈ '/' :: '/' :: body, (c != '\n') = true := by
        refine Segment.ne_of_not_mem ?_
        simp [line]
      have hstop := Segment.takeWhile_append_of_head ('\n' :: rest) hbody (by simp)
      rw [← List.cons_append, ← List.cons_append, hstop.2]
      exact .blank (by decide) others

/-! ### Moving down -/

/-- The token some lines further down. -/
def Token.movedDown (lines : Nat) (t : Token) : Token := { t with line := t.line + lines }

/-- The error some lines further down. -/
def ScanError.movedDown (lines : Nat) : ScanError → ScanError
  | stray line c => stray (line + lines) c
  | unclosed line => unclosed (line + lines)

@[simp] theorem Token.unlined_movedDown (lines : Nat) (t : Token) :
    (t.movedDown lines).unlined = t.unlined := rfl

@[simp] theorem ScanError.unlined_movedDown (lines : Nat) (e : ScanError) :
    (e.movedDown lines).unlined = e.unlined := by
  cases e <;> rfl

namespace Segment

theorem token?_add (s : Segment) (line lines : Nat) :
    s.token? (line + lines) = (s.token? line).map (Token.movedDown lines) := by
  cases s <;> rfl

theorem error?_add (s : Segment) (line lines : Nat) :
    s.error? (line + lines) = (s.error? line).map (ScanError.movedDown lines) := by
  cases s <;> rfl

theorem tokens_add (segments : List Segment) (line lines : Nat) :
    tokens (line + lines) segments = (tokens line segments).map (Token.movedDown lines) := by
  induction segments generalizing line with
  | nil => rfl
  | cons s rest ih =>
      rw [tokens, tokens, Nat.add_right_comm, ih, token?_add, List.map_append]
      cases s.token? (line + s.newlines) <;> rfl

theorem errors_add (segments : List Segment) (line lines : Nat) :
    errors (line + lines) segments = (errors line segments).map (ScanError.movedDown lines) := by
  induction segments generalizing line with
  | nil => rfl
  | cons s rest ih =>
      rw [errors, errors, Nat.add_right_comm, ih, error?_add, List.map_append]
      cases s.error? line <;> rfl

/-! ### Segments that say nothing -/

/-- Is the segment a blank or a comment? -/
def isLayout : Segment → Bool
  | blank _ | comment _ => true
  | symbol _ | number _ _ | word _ | quoted _ | unclosed _ | stray _ => false

theorem silent_of_isLayout {segments : List Segment} (h : ∀ s ∈ segments, s.isLayout)
    (line : Nat) : lexemes line segments = [] ∧ errors line segments = [] := by
  induction segments generalizing line with
  | nil => exact ⟨rfl, rfl⟩
  | cons s rest ih =>
      have hs := h s List.mem_cons_self
      obtain ⟨hlexemes, herrors⟩ :=
        ih (fun s hs => h s (List.mem_cons_of_mem _ hs)) (line + s.newlines)
      rw [lexemes, errors, hlexemes, herrors]
      cases s <;> first | exact ⟨rfl, rfl⟩ | cases hs

/-- The segments `padded` are those of `segments`, with a text added that says nothing. -/
structure Pads (segments : List Segment) (w : List Char) (padded : List Segment) : Prop where
  text_eq : padded.flatMap text = segments.flatMap text ++ w
  lexemes_eq : ∀ line, lexemes line padded = lexemes line segments
  errors_eq : ∀ line, errors line padded = errors line segments

theorem pads_of_isLayout {segments padded : List Segment} {w : List Char}
    (hsegments : ∀ s ∈ segments, s.isLayout) (hpadded : ∀ s ∈ padded, s.isLayout)
    (htext : padded.flatMap text = segments.flatMap text ++ w) : Pads segments w padded where
  text_eq := htext
  lexemes_eq line := by
    rw [(silent_of_isLayout hsegments line).1, (silent_of_isLayout hpadded line).1]
  errors_eq line := by
    rw [(silent_of_isLayout hsegments line).2, (silent_of_isLayout hpadded line).2]

theorem Pads.cons {segments padded : List Segment} {w : List Char} (h : Pads segments w padded)
    (s : Segment) : Pads (s :: segments) w (s :: padded) where
  text_eq := by rw [List.flatMap_cons, List.flatMap_cons, h.text_eq, List.append_assoc]
  lexemes_eq line := by rw [lexemes, lexemes, h.lexemes_eq]
  errors_eq line := by rw [errors, errors, h.errors_eq]

theorem Pads.newlinesIn_eq {segments padded : List Segment} {w : List Char}
    (h : Pads segments w padded) :
    newlinesIn padded = newlinesIn segments + w.count '\n' := by
  rw [newlinesIn, h.text_eq, List.count_append]
  rfl

/-! ### Cutting a text with layout in it -/

/-- Layout is cut into blanks and comments, and what follows is cut as if it began there. -/
theorem exists_layout {w : List Char} (h : IsLayout w) (rest : List Char) :
    ∃ layout, cut (w ++ rest) = layout ++ cut rest ∧ layout.flatMap text = w ∧
      ∀ s ∈ layout, s.isLayout := by
  induction h with
  | nil => exact ⟨[], rfl, rfl, fun s hs => absurd hs List.not_mem_nil⟩
  | @blank c w mem _ ih =>
      obtain ⟨layout, hcut, htext, hall⟩ := ih
      refine ⟨blank c :: layout, ?_, ?_, ?_⟩
      · have hblank : (blank c).Stands (w ++ rest) := ⟨.blank mem, trivial⟩
        rw [List.cons_append, List.cons_append, ← hcut]
        exact cut_append hblank
      · rw [List.flatMap_cons, htext]
        rfl
      · exact List.forall_mem_cons.mpr ⟨rfl, hall⟩
  | @comment body w line _ ih =>
      obtain ⟨layout, hcut, htext, hall⟩ := ih
      refine ⟨comment body :: blank '\n' :: layout, ?_, ?_, ?_⟩
      · have hnewline : (blank '\n').Stands (w ++ rest) := ⟨.blank (by decide), trivial⟩
        have hcomment : (comment body).Stands ((blank '\n').text ++ (w ++ rest)) :=
          ⟨.comment line (by simp [text]), trivial⟩
        have hwhole := cut_append hcomment
        rw [cut_append hnewline, hcut] at hwhole
        simpa [text] using hwhole
      · simp [text, htext]
      · exact List.forall_mem_cons.mpr ⟨rfl, List.forall_mem_cons.mpr ⟨rfl, hall⟩⟩

/-- What is true of the four blanks is true of every blank. -/
theorem of_mem_blanks {p : Char → Prop} {c : Char} (hc : c ∈ [' ', '\r', '\t', '\n'])
    (h : p ' ' ∧ p '\r' ∧ p '\t' ∧ p '\n') : p c := by
  obtain ⟨hspace, hreturn, htab, hnewline⟩ := h
  simp only [List.mem_cons, List.not_mem_nil, or_false] at hc
  rcases hc with rfl | rfl | rfl | rfl <;> assumption

/-- A segment that stands before some text still does if the text is cut short by a blank.
Only a string that is never closed goes on over blanks, and a comment over all but newlines. -/
theorem Stands.before_blank {s : Segment} {x rest : List Char} {c : Char}
    (h : s.Stands (x ++ rest)) (hclosed : ∀ body, s ≠ unclosed body)
    (hcomment : x = [] → c = '\n' ∨ ∀ body, s ≠ comment body)
    (hc : c ∈ [' ', '\r', '\t', '\n']) (more : List Char) : s.Stands (x ++ c :: more) := by
  -- A blank goes on with nothing, and what is left of the text begins as before.
  have hhead {p : Char → Prop} (hp : ∀ d ∈ (x ++ rest).head?, p d)
      (hblank : p ' ' ∧ p '\r' ∧ p '\t' ∧ p '\n') : ∀ d ∈ (x ++ c :: more).head?, p d := by
    intro d hd
    cases x with
    | nil =>
        obtain rfl : c = d := Option.some.inj hd
        exact of_mem_blanks hc hblank
    | cons e x => exact hp d hd
  generalize hafter : x ++ rest = after at h hhead
  obtain ⟨hfits, hends⟩ := h
  cases hfits with
  | unclosed => exact absurd rfl (hclosed _)
  | blank mem => exact ⟨.blank mem, trivial⟩
  | quoted unquoted => exact ⟨.quoted unquoted, trivial⟩
  | stray plain unmarked => exact ⟨.stray plain unmarked, trivial⟩
  | comment line ends =>
      cases x with
      | nil =>
          rcases hcomment rfl with rfl | hne
          · exact ⟨.comment line (by simp), trivial⟩
          · exact absurd rfl (hne _)
      | cons e x =>
          subst hafter
          exact ⟨.comment line ends, trivial⟩
  | word first parts => exact ⟨.word first parts, hhead hends (by decide)⟩
  | @symbol k _ mem =>
      have hnot {d : Char} (hd : after.head? ≠ some d)
          (hblank : ' ' ≠ d ∧ '\r' ≠ d ∧ '\t' ≠ d ∧ '\n' ≠ d) : (x ++ c :: more).head? ≠ some d :=
        fun heq => hhead (p := (· ≠ d)) (fun e he h => hd (h ▸ he)) hblank d heq rfl
      exact ⟨.symbol mem, fun hsome => hnot (hends.1 hsome) (by decide),
        fun hslash => hnot (hends.2 hslash) (by decide)⟩
  | @number whole fraction _ some whole_digits fraction_digits =>
      refine ⟨.number some whole_digits fraction_digits, hhead hends.1 (by decide), ?_⟩
      intro hnil d tail heq
      cases x with
      | nil =>
          obtain ⟨rfl, -⟩ := List.cons.inj heq
          exact absurd hc (by decide)
      | cons e x =>
          cases x with
          | nil =>
              obtain ⟨-, htail⟩ := List.cons.inj heq
              obtain ⟨rfl, -⟩ := List.cons.inj htail
              exact of_mem_blanks (p := fun d => d.isDigit = false) hc (by decide)
          | cons e' x =>
              obtain ⟨rfl, htail⟩ := List.cons.inj heq
              obtain ⟨rfl, -⟩ := List.cons.inj htail
              exact hends.2 hnil e' (x ++ rest) hafter.symm

/-- A comment before a gap takes in the first line of it. -/
theorem exists_padding_comment {body w rest : List Char} (h : (comment body).Fits rest)
    (hgap : IsGap w) :
    ∃ padded, cut ((comment body).text ++ (w ++ rest)) = padded ++ cut rest ∧
      Pads [comment body] w padded := by
  cases h with
  | comment line ends =>
      obtain ⟨layout, hcut, htext, hall⟩ := exists_layout hgap.isLayout.dropWhile_line rest
      have hw := List.takeWhile_append_dropWhile (p := (· != '\n')) (l := w)
      have hstands : (comment (body ++ w.takeWhile (· != '\n'))).Stands
          (w.dropWhile (· != '\n') ++ rest) := by
        refine ⟨.comment ?_ ?_, trivial⟩
        · rw [List.mem_append, not_or]
          exact ⟨line, not_mem_takeWhile '\n' w⟩
        · intro c hc
          cases hdrop : w.dropWhile (· != '\n') with
          | nil =>
              rw [hdrop] at hc
              exact ends c hc
          | cons d more =>
              rw [hdrop] at hc
              have hd := head?_dropWhile (p := (· != '\n')) (l := w) c (by rw [hdrop]; exact hc)
              simpa using hd
      refine ⟨comment (body ++ w.takeWhile (· != '\n')) :: layout, ?_, ?_⟩
      · have hfront := cut_append hstands
        rw [hcut] at hfront
        have hwhole : (comment (body ++ w.takeWhile (· != '\n'))).text ++
            (w.dropWhile (· != '\n') ++ rest) = (comment body).text ++ (w ++ rest) := by
          rw [← List.append_assoc, ← List.append_assoc, text, ← List.cons_append,
            ← List.cons_append, List.append_assoc _ _ (w.dropWhile _), hw]
          rfl
        rw [List.cons_append, ← hfront, hwhole]
      · refine pads_of_isLayout (by simp [isLayout]) (List.forall_mem_cons.mpr ⟨rfl, hall⟩) ?_
        rw [List.flatMap_cons, htext]
        simp [text, hw]

/-- A gap after some of the segments of a text pads them, and the others are cut as before. -/
theorem exists_padding {source w : List Char} {before after : List Segment}
    (h : IsCut source (before ++ after)) (hclosed : ∀ body, unclosed body ∉ before)
    (hgap : IsGap w) :
    ∃ padded, cut (before.flatMap text ++ (w ++ after.flatMap text)) = padded ++ after ∧
      Pads before w padded := by
  -- Only the last segment before the gap gets it as its neighbour. A comment takes part of it
  -- in; any other segment stands before its blank as it stood before what followed.
  induction before generalizing source with
  | nil =>
      obtain ⟨layout, hcut, htext, hall⟩ := exists_layout hgap.isLayout (after.flatMap text)
      have hafter : cut (after.flatMap text) = after := IsCut.cut_flatMap_text h
      rw [hafter] at hcut
      exact ⟨layout, hcut, pads_of_isLayout (by simp) hall (by simpa using htext)⟩
  | cons s before ih =>
      have hcons : IsCut source (s :: (before ++ after)) := h
      obtain ⟨hstands, hrest⟩ := hcons.front
      rw [List.flatMap_append] at hstands
      by_cases hlast : before = [] ∧ ∃ body, s = comment body
      · obtain ⟨rfl, body, rfl⟩ := hlast
        obtain ⟨padded, hcut, hpads⟩ := exists_padding_comment hstands.fits hgap
        have hafter : cut (after.flatMap text) = after := IsCut.cut_flatMap_text hrest
        rw [List.flatMap_nil, List.nil_append, hafter] at hcut
        exact ⟨padded, by simpa using hcut, hpads⟩
      · obtain ⟨padded, hcut, hpads⟩ := ih hrest fun body hmem =>
          hclosed body (List.mem_cons_of_mem s hmem)
        have hs : s.Stands (before.flatMap text ++ (w ++ after.flatMap text)) := by
          obtain ⟨c, mem, hhead⟩ := hgap.begins
          obtain ⟨more, rfl⟩ := List.head?_eq_some_iff.mp hhead
          refine hstands.before_blank ?_ ?_ mem _
          · rintro body rfl
            exact hclosed body List.mem_cons_self
          · refine fun hnil => .inr ?_
            rintro body rfl
            exact hlast ⟨hrest.eq_nil_of_text hnil, body, rfl⟩
        refine ⟨s :: padded, ?_, hpads.cons s⟩
        rw [List.flatMap_cons, List.append_assoc, cut_append hs, hcut, List.cons_append]

theorem mem_errors_of_unclosed {segments : List Segment} {body : List Char}
    (h : unclosed body ∈ segments) (line : Nat) :
    ∃ line', ScanError.unclosed line' ∈ errors line segments := by
  induction segments generalizing line with
  | nil => exact absurd h List.not_mem_nil
  | cons s rest ih =>
      rw [errors]
      rcases List.mem_cons.mp h with rfl | h
      · exact ⟨line, List.mem_append_left _ (List.mem_singleton_self _)⟩
      · obtain ⟨line', hmem⟩ := ih h (line + s.newlines)
        exact ⟨line', List.mem_append_right _ hmem⟩

theorem exists_unclosed_of_mem_errors {segments : List Segment} {line line' : Nat}
    (h : .unclosed line' ∈ errors line segments) : ∃ body, unclosed body ∈ segments := by
  induction segments generalizing line with
  | nil => exact absurd h List.not_mem_nil
  | cons s segments ih =>
      rw [errors, List.mem_append, Option.mem_toList] at h
      rcases h with h | h
      · cases s <;> cases h
        exact ⟨_, List.mem_cons_self⟩
      · obtain ⟨body, hmem⟩ := ih h
        exact ⟨body, List.mem_cons_of_mem s hmem⟩

end Segment

/-! ### The scans and the sessions -/

/-- The text `a` of a source `a ++ b` ends where one segment ends and the next one begins:
there are the segments before this place, and those after it. -/
structure EndsBetween (a b : String) (before after : List Segment) : Prop where
  cut_eq : Segment.cut (a ++ b).toList = before ++ after
  text_eq : before.flatMap Segment.text = a.toList

open Segment in
/-- A gap between two segments of a source without unclosed strings changes neither the
tokens nor the errors, except that those of what follows, with the end of the input, are
moved down by the newlines of the gap. So a session comes to the same tree, the same value
and the same diagnostics, but for the lines. -/
theorem gap_irrelevant {a w b : String} {before after : List Segment}
    (hbetween : EndsBetween a b before after)
    (hclosed : ∀ line, .unclosed line ∉ (scan (a ++ b)).errors) (hgap : IsGap w.toList) :
    scan (a ++ b) = ⟨lexemes 1 before ++ tokens (lineAfter a.toList) after,
      errors 1 before ++ errors (lineAfter a.toList) after⟩ ∧
    scan (a ++ w ++ b) =
      ⟨lexemes 1 before ++
          (tokens (lineAfter a.toList) after).map (.movedDown (w.toList.count '\n')),
        errors 1 before ++
          (errors (lineAfter a.toList) after).map (.movedDown (w.toList.count '\n'))⟩ ∧
    ComeAlike (a ++ b) (a ++ w ++ b) := by
  obtain ⟨hcut, htext⟩ := hbetween
  have hline : lineAfter a.toList = 1 + newlinesIn before := by
    rw [lineAfter, ← htext]
    rfl
  have hscan : scan (a ++ b) = ⟨lexemes 1 before ++ tokens (lineAfter a.toList) after,
      errors 1 before ++ errors (lineAfter a.toList) after⟩ := by
    rw [scan, hcut, tokens_append, errors_append, hline]
  have hunclosed : ∀ body, unclosed body ∉ before := by
    intro body hmem
    obtain ⟨line, herror⟩ := mem_errors_of_unclosed hmem 1
    exact hclosed line (by rw [hscan]; exact List.mem_append_left _ herror)
  have hiscut := isCut_iff.mpr hcut
  have hafter : after.flatMap text = b.toList := by
    have hwhole := hiscut.flatMap_text
    rw [List.flatMap_append, htext, String.toList_append] at hwhole
    exact List.append_cancel_left hwhole
  obtain ⟨padded, hpadded, hpads⟩ := exists_padding hiscut hunclosed hgap
  rw [htext, hafter, ← List.append_assoc, ← String.toList_append, ← String.toList_append]
    at hpadded
  have hscan' : scan (a ++ w ++ b) =
      ⟨lexemes 1 before ++
          (tokens (lineAfter a.toList) after).map (.movedDown (w.toList.count '\n')),
        errors 1 before ++
          (errors (lineAfter a.toList) after).map (.movedDown (w.toList.count '\n'))⟩ := by
    rw [scan, hpadded, tokens_append, errors_append, hpads.lexemes_eq, hpads.errors_eq,
      hpads.newlinesIn_eq, ← Nat.add_assoc, tokens_add, errors_add, hline]
  refine ⟨hscan, hscan', ScannedAlike.comeAlike ⟨?_, ?_⟩⟩
  · simp [hscan, hscan', Function.comp_def]
  · simp [hscan, hscan', Function.comp_def]

/-- The gap after a comment that ends a line: the comment goes on into the gap, up to the
newline, and what fails moves down with its line. -/
theorem gap_irrelevant_after_comment :
    EndsBetween "6 // six" "\n/ 0"
      [.number ['6'] [], .blank ' ', .comment [' ', 's', 'i', 'x']]
      [.blank '\n', .symbol .slash, .blank ' ', .number ['0'] []] ∧
    IsGap " // \"\n\t".toList ∧
    (Session.fresh.run "6 // six\n/ 0").2.pending =
      [.runtime ⟨⟨.slash, "/", none, 2⟩, .divisionByZero⟩] ∧
    (Session.fresh.run "6 // six // \"\n\t\n/ 0").2.pending =
      [.runtime ⟨⟨.slash, "/", none, 3⟩, .divisionByZero⟩] ∧
    ComeAlike "6 // six\n/ 0" "6 // six // \"\n\t\n/ 0" := by
  have hbetween : EndsBetween "6 // six" "\n/ 0"
      [.number ['6'] [], .blank ' ', .comment [' ', 's', 'i', 'x']]
      [.blank '\n', .symbol .slash, .blank ' ', .number ['0'] []] :=
    ⟨by decide +kernel, by decide +kernel⟩
  have hgap : IsGap " // \"\n\t".toList := by
    have hbody : IsLayout ('/' :: '/' :: ([' ', '"'] ++ '\n' :: ['\t'])) :=
      .comment (by decide) (.blank (by decide) .nil)
    exact ⟨.blank (by decide) hbody, ' ', by decide, rfl⟩
  have hclosed : (scan ("6 // six" ++ "\n/ 0")).errors = [] := by
    decide +kernel
  obtain ⟨-, -, halike⟩ := gap_irrelevant hbetween
    (fun line hmem => absurd (hclosed ▸ hmem) List.not_mem_nil) hgap
  exact ⟨hbetween, hgap, by decide +kernel, by decide +kernel, halike⟩

end LoxCalc
