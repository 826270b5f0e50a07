import LoxCalc.Proofs.ScannedTokens

/-!
# LoxCalc.Proofs.CursorScans

Scanning with a cursor: two byte offsets into the source, of which one moves behind the
characters as they are looked at, and a line that is counted along the way.

* A `Cursor` gives no text if an offset is inside of a character, and its loops give nothing
  if they do not come to an end. Behind the last character it sees NUL, which is a character
  that a source may hold as well.
* The line goes up in two places: at a newline between the segments, and at one in a string.
  An error about a string without end has the line that was counted before the string.
* In terms of the characters, a cursor stands between what has been scanned and what is ahead
  (`Cursor.place`). A segment is scanned as it is cut (`Cursor.scanSegment_place`), and so a
  cursor finds what `scan` gives for every source (`Cursor.scan?_eq`).
-/

namespace LoxCalc

/-- A source that is scanned from its beginning on. Offsets are numbers of bytes. -/
structure Cursor where
  source : String
  /-- Where the segment begins that is being scanned. -/
  start : Nat
  /-- Where the next character begins. -/
  current : Nat
  /-- The line, counted from 1. -/
  line : Nat
  /-- The tokens so far. -/
  tokens : List Token
  /-- The errors so far. -/
  errors : List ScanError

namespace Cursor

/-- The cursor at the beginning of a source. -/
def ofSource (source : String) : Cursor := ⟨source, 0, 0, 1, [], []⟩

/-! ### Looking -/

/-- The text between two offsets, if they are in order and between characters. -/
def slice? (c : Cursor) (first last : Nat) : Option String :=
  if h : first ≤ last ∧ String.Pos.Raw.IsValid c.source ⟨first⟩ ∧
      String.Pos.Raw.IsValid c.source ⟨last⟩ then
    some (c.source.extract (c.source.pos ⟨first⟩ h.2.1) (c.source.pos ⟨last⟩ h.2.2))
  else
    none

/-- The text of the segment, up to where the cursor is. -/
def lexeme? (c : Cursor) : Option String := c.slice? c.start c.current

/-- The characters that have not been scanned. -/
def ahead? (c : Cursor) : Option (List Char) := do
  return (← c.slice? c.current c.source.utf8ByteSize).toList

/-- Has everything been scanned? -/
def atEnd (c : Cursor) : Bool := c.source.utf8ByteSize ≤ c.current

/-- The next character, or NUL at the end. -/
def peek (c : Cursor) : Option Char := do
  return (← c.ahead?).headD '\x00'

/-- The character after the next one, or NUL if there is none. -/
def peekNext (c : Cursor) : Option Char := do
  return (← c.ahead?).getD 1 '\x00'

/-! ### Moving -/

/-- Takes the next character, if there is one. -/
def advance (c : Cursor) : Option (Char × Cursor) := do
  let next ← c.peek
  return (next, if c.atEnd then c else { c with current := c.current + next.utf8Size })

/-- Takes the next character if it is the expected one. -/
def accept (expected : Char) (c : Cursor) : Option (Bool × Cursor) := do
  if c.atEnd || (← c.peek) != expected then
    return (false, c)
  else
    return (true, { c with current := c.current + expected.utf8Size })

/-- Does a step over and over as long as a condition holds. So many checks of the condition
are allowed. -/
def loop (condition : Cursor → Option Bool) (step : Cursor → Option Cursor) :
    Nat → Cursor → Option Cursor
  | 0, _ => none
  | checks + 1, c => do
    if ← condition c then
      loop condition step checks (← step c)
    else
      return c

/-- A loop that moves on with each step: one check for each byte suffices, and one for the
end. -/
def repeatWhile (condition : Cursor → Option Bool) (step : Cursor → Option Cursor) (c : Cursor) :
    Option Cursor :=
  loop condition step (c.source.utf8ByteSize + 1) c

/-- Takes characters of a sort. There is no check for the end, where NUL is seen. -/
def takeSort (sort : Char → Bool) (c : Cursor) : Option Cursor :=
  c.repeatWhile (fun c => return sort (← c.peek)) fun c => return (← c.advance).2

/-! ### Segments -/

/-- Adds a token of the segment, on the line that has been counted so far. -/
def addToken (kind : Kind) (literal : Option Value) (c : Cursor) : Option Cursor := do
  let token : Token := ⟨kind, ← c.lexeme?, literal, c.line⟩
  return { c with tokens := c.tokens ++ [token] }

/-- Adds an error. -/
def addError (e : ScanError) (c : Cursor) : Cursor := { c with errors := c.errors ++ [e] }

/-- Counts a newline. -/
def nextLine (c : Cursor) : Cursor := { c with line := c.line + 1 }

/-- A symbol that an equals sign may extend. -/
def scanSymbol (longer shorter : Kind) (c : Cursor) : Option Cursor := do
  let (extended, c) ← c.accept '='
  c.addToken (if extended then longer else shorter) none

/-- The rest of the line, without its newline. -/
def takeComment (c : Cursor) : Option Cursor :=
  c.repeatWhile (fun c => return (← c.peek) != '\n' && !c.atEnd) fun c => return (← c.advance).2

/-- The rest of a comment, or a slash. -/
def scanSlash (c : Cursor) : Option Cursor := do
  let (comment, c) ← c.accept '/'
  if comment then c.takeComment else c.addToken .slash none

/-- The text up to a quote or the end. The line goes up at each newline in it. -/
def takeBody (c : Cursor) : Option Cursor :=
  c.repeatWhile (fun c => return (← c.peek) != '"' && !c.atEnd) fun c => do
    let c := if (← c.peek) = '\n' then c.nextLine else c
    return (← c.advance).2

/-- The rest of a string. -/
def scanString (c : Cursor) : Option Cursor := do
  let openingLine := c.line
  let c ← c.takeBody
  if c.atEnd then
    return c.addError (.unclosed openingLine)
  else
    let (_, c) ← c.advance
    c.addToken .string (some (.string (← c.slice? (c.start + 1) (c.current - 1))))

/-- The number that a text of digits stands for, with a point among them or without. -/
def numberOf (text : String) : Double :=
  .ofDecimal (text.toList.takeWhile (· != '.')) (text.toList.dropWhile (· != '.')).tail

/-- The fraction of a number. A point belongs to it only if a digit follows. -/
def takeFraction (c : Cursor) : Option Cursor := do
  if (← c.peek) = '.' ∧ (← c.peekNext).isDigit then
    (← c.advance).2.takeSort Char.isDigit
  else
    return c

/-- The rest of a number. -/
def scanNumber (c : Cursor) : Option Cursor := do
  let c ← (← c.takeSort Char.isDigit).takeFraction
  c.addToken .number (some (.number (numberOf (← c.lexeme?))))

/-- The rest of a word. -/
def scanWord (c : Cursor) : Option Cursor := do
  let c ← c.takeSort isWordPart
  c.addToken (.ofWord (← c.lexeme?)) none

/-- The cursor where a segment begins. -/
def begin (c : Cursor) : Cursor := { c with start := c.current }

/-- Scans one segment. -/
def scanSegment (c : Cursor) : Option Cursor := do
  let (first, c) ← c.advance
  match first with
  | '(' => c.addToken .leftParen none
  | ')' => c.addToken .rightParen none
  | '\x7b' => c.addToken .leftBrace none
  | '\x7d' => c.addToken .rightBrace none
  | ',' => c.addToken .comma none
  | '.' => c.addToken .dot none
  | '-' => c.addToken .minus none
  | '+' => c.addToken .plus none
  | ';' => c.addToken .semicolon none
  | '*' => c.addToken .star none
  | '!' => c.scanSymbol .bangEqual .bang
  | '=' => c.scanSymbol .equalEqual .equal
  | '<' => c.scanSymbol .lessEqual .less
  | '>' => c.scanSymbol .greaterEqual .greater
  | '/' => c.scanSlash
  | ' ' | '\r' | '\t' => return c
  | '\n' => return c.nextLine
  | '"' => c.scanString
  | other =>
    if other.isDigit then c.scanNumber
    else if isLetter other then c.scanWord
    else return c.addError (.stray c.line other)

/-- Scans a whole source. The end of the input has the line that was counted last. -/
def scan? (source : String) : Option Scan := do
  let c ← (ofSource source).repeatWhile (fun c => return !c.atEnd) (scanSegment ·.begin)
  return ⟨c.tokens ++ [.endOfInput c.line], c.errors⟩

/-! ### Places -/

/-- How many bytes a text takes. -/
def bytes (text : List Char) : Nat := (String.ofList text).utf8ByteSize

/-- The cursor in a source that is put together of `before`, which has been scanned, of
`front`, which has been scanned of the segment at hand, and of what is ahead. -/
def place (c : Cursor) (before front rest : List Char) : Cursor :=
  { c with
    source := .ofList (before ++ front ++ rest)
    start := bytes before
    current := bytes (before ++ front) }

variable {c : Cursor} {before front rest : List Char} {next : Char}

theorem bytes_append (a b : List Char) : bytes (a ++ b) = bytes a + bytes b := by
  rw [bytes, String.ofList_append, String.utf8ByteSize_append]
  rfl

theorem bytes_singleton (next : Char) : bytes [next] = next.utf8Size := by
  rw [bytes, ← String.singleton_eq_ofList, String.utf8ByteSize_singleton]

/-- A text takes a byte or more for each of its characters. -/
theorem length_le_bytes (text : List Char) : text.length ≤ bytes text := by
  induction text with
  | nil => exact Nat.zero_le _
  | cons next text ih =>
      have hsize : 0 < next.utf8Size := next.utf8Size_pos
      rw [← List.singleton_append, bytes_append, bytes_singleton, List.length_append,
        List.length_singleton]
      omega

theorem slice?_append {a text b : String} (h : c.source = a ++ text ++ b) :
    c.slice? a.utf8ByteSize (a.utf8ByteSize + text.utf8ByteSize) = some text := by
  have hfirst : String.Pos.Raw.IsValid c.source ⟨a.utf8ByteSize⟩ := by
    rw [h, String.append_assoc]
    exact String.Pos.Raw.isValid_rawEndPos.append_right _
  have hlast : String.Pos.Raw.IsValid c.source ⟨a.utf8ByteSize + text.utf8ByteSize⟩ := by
    rw [h, ← String.utf8ByteSize_append]
    exact String.Pos.Raw.isValid_rawEndPos.append_right _
  have hsource : c.source.toByteArray =
      a.toByteArray ++ (text.toByteArray ++ b.toByteArray) := by
    rw [h, String.toByteArray_append, String.toByteArray_append, ByteArray.append_assoc]
  rw [slice?, dif_pos ⟨Nat.le_add_right _ _, hfirst, hlast⟩, Option.some.injEq,
    ← String.toByteArray_inj, String.toByteArray_extract, String.offset_pos, String.offset_pos,
    hsource]
  show ByteArray.extract _ (a.toByteArray.size + 0) (a.toByteArray.size + text.toByteArray.size) =
    text.toByteArray
  rw [ByteArray.extract_append_size_add, ByteArray.extract_append_eq_left rfl]

theorem slice?_ofList {a text b : List Char} (h : c.source = .ofList (a ++ text ++ b)) :
    c.slice? (bytes a) (bytes (a ++ text)) = some (.ofList text) := by
  rw [String.ofList_append, String.ofList_append] at h
  rw [bytes_append]
  exact slice?_append h

@[simp] theorem ahead?_place : (c.place before front rest).ahead? = some rest := by
  have hend : (c.place before front rest).source.utf8ByteSize = bytes (before ++ front ++ rest) :=
    rfl
  have hsource : (c.place before front rest).source = .ofList (before ++ front ++ rest ++ []) := by
    rw [List.append_nil]
    rfl
  rw [ahead?, hend]
  show (do return (← slice? _ (bytes (before ++ front)) _).toList) = _
  rw [slice?_ofList hsource]
  simp

@[simp] theorem peek_place : (c.place before front rest).peek = some (rest.headD '\x00') := by
  rw [peek, ahead?_place]
  rfl

@[simp] theorem peekNext_place :
    (c.place before front rest).peekNext = some (rest.getD 1 '\x00') := by
  rw [peekNext, ahead?_place]
  rfl

@[simp] theorem lexeme?_place : (c.place before front rest).lexeme? = some (.ofList front) :=
  slice?_ofList rfl

@[simp] theorem atEnd_place : (c.place before front rest).atEnd = rest.isEmpty := by
  have hlength := length_le_bytes rest
  show decide (bytes (before ++ front ++ rest) ≤ bytes (before ++ front)) = _
  rw [bytes_append (before ++ front)]
  cases rest with
  | nil => simp [bytes]
  | cons next rest =>
      rw [List.length_cons] at hlength
      rw [List.isEmpty_cons, decide_eq_false_iff_not]
      omega

theorem place_snoc :
    c.place before (front ++ [next]) rest =
      { c.place before front (next :: rest) with
        current := bytes (before ++ front) + next.utf8Size } := by
  simp only [place, List.append_assoc, List.singleton_append, ← bytes_singleton, ← bytes_append]

@[simp] theorem advance_place :
    (c.place before front (next :: rest)).advance =
      some (next, c.place before (front ++ [next]) rest) := by
  rw [advance, peek_place, place_snoc]
  show some (next, _) = some (next, _)
  rw [atEnd_place]
  rfl

theorem accept_place_self :
    (c.place before front (next :: rest)).accept next =
      some (true, c.place before (front ++ [next]) rest) := by
  rw [accept, peek_place, place_snoc]
  show (if ((c.place before front (next :: rest)).atEnd || next != next) = true then _ else _) = _
  rw [atEnd_place, List.isEmpty_cons, Bool.false_or, bne_self_eq_false, if_neg Bool.false_ne_true]
  rfl

theorem accept_place_other {expected : Char} (h : rest.head? ≠ some expected) :
    (c.place before front rest).accept expected = some (false, c.place before front rest) := by
  rw [accept, peek_place, atEnd_place]
  cases rest with
  | nil => rfl
  | cons next rest =>
      have hne : (next != expected) = true := by
        simpa using h
      show (if (false || next != expected) = true then _ else _) = _
      rw [Bool.false_or, if_pos hne]
      rfl

theorem addToken_place (kind : Kind) (literal : Option Value) :
    (c.place before front rest).addToken kind literal =
      some (({ c with tokens := c.tokens ++ [⟨kind, .ofList front, literal, c.line⟩] } : Cursor).place
        before front rest) := by
  rw [addToken, lexeme?_place]
  rfl

/-! ### Loops -/

section Loops

variable {condition : Cursor → Option Bool} {step : Cursor → Option Cursor} {sort : Char → Bool}
  {mark : Cursor → Char → Cursor}

/-- A loop takes the characters ahead of a sort, if its condition tells the sort of the next one
and its step takes it, with whatever else it does to mark that. -/
theorem loop_place
    (hend : ∀ c front, condition (place c before front []) = some false)
    (hcondition : ∀ c front next rest,
      condition (place c before front (next :: rest)) = some (sort next))
    (hstep : ∀ c front next rest, step (place c before front (next :: rest)) =
      some (place (mark c next) before (front ++ [next]) rest))
    {checks : Nat} (hchecks : rest.length < checks) :
    loop condition step checks (c.place before front rest) =
      some (((rest.takeWhile sort).foldl mark c).place before (front ++ rest.takeWhile sort)
        (rest.dropWhile sort)) := by
  induction checks generalizing c front rest with
  | zero => exact absurd hchecks (Nat.not_lt_zero _)
  | succ checks ih =>
      cases rest with
      | nil =>
          rw [loop, hend]
          simp
      | cons next rest =>
          rw [loop, hcondition, List.takeWhile_cons, List.dropWhile_cons]
          cases hsort : sort next with
          | false => simp
          | true =>
              have hrest : loop condition step checks
                  ((mark c next).place before (front ++ [next]) rest) = _ :=
                ih (Nat.lt_of_succ_lt_succ hchecks)
              simpa [hstep] using hrest

theorem repeatWhile_place
    (hend : ∀ c front, condition (place c before front []) = some false)
    (hcondition : ∀ c front next rest,
      condition (place c before front (next :: rest)) = some (sort next))
    (hstep : ∀ c front next rest, step (place c before front (next :: rest)) =
      some (place (mark c next) before (front ++ [next]) rest)) :
    (c.place before front rest).repeatWhile condition step =
      some (((rest.takeWhile sort).foldl mark c).place before (front ++ rest.takeWhile sort)
        (rest.dropWhile sort)) := by
  have hchecks : rest.length < bytes (before ++ front ++ rest) + 1 := by
    have hlength := length_le_bytes rest
    rw [bytes_append]
    omega
  exact loop_place hend hcondition hstep hchecks

end Loops

/-- NUL is of no sort that is looked for, so the end of the source ends the loop as well. -/
theorem takeSort_place {sort : Char → Bool} (h : sort '\x00' = false) :
    (c.place before front rest).takeSort sort =
      some (c.place before (front ++ rest.takeWhile sort) (rest.dropWhile sort)) := by
  have hloop : (c.place before front rest).takeSort sort =
      some (((rest.takeWhile sort).foldl (fun c _ => c) c).place before
        (front ++ rest.takeWhile sort) (rest.dropWhile sort)) :=
    repeatWhile_place (by simp [h]) (by simp) (by simp)
  rwa [List.foldl_fixed] at hloop

/-! ### Segments -/

/-- The cursor with what a segment says added to it. -/
def told (c : Cursor) (s : Segment) : Cursor :=
  { c with
    line := c.line + s.newlines
    tokens := c.tokens ++ (s.token? (c.line + s.newlines)).toList
    errors := c.errors ++ (s.error? c.line).toList }

/-- The segment is scanned from the place where it begins to the place where it ends. -/
def Scans (rule : Cursor → Option Cursor) (first : Char) (rest : List Char) : Prop :=
  ∀ (c : Cursor) (before : List Char), rule (c.place before [first] rest) =
    some ((c.told (Segment.next first rest).1).place before (Segment.next first rest).1.text
      (Segment.next first rest).2)

theorem told_of_token {s : Segment} {t : Token} (hlines : s.newlines = 0)
    (ht : s.token? c.line = some t) : c.told s = { c with tokens := c.tokens ++ [t] } := by
  have herror : s.error? c.line = none := by
    cases s with
    | blank | comment | symbol | number | word | quoted => rfl
    | unclosed | stray => cases ht
  rw [told, hlines, Nat.add_zero, ht, herror, Option.toList_none, List.append_nil]
  rfl

theorem told_of_silent {s : Segment} (hlines : s.newlines = 0)
    (ht : s.token? c.line = none) (he : s.error? c.line = none) : c.told s = c := by
  rw [told, hlines, Nat.add_zero, ht, he, Option.toList_none, Option.toList_none,
    List.append_nil, List.append_nil]

open Segment (symbol number word comment stray)

/-- A mark that stands at the front is scanned with its token. -/
theorem addToken_symbol {text more : List Char} {first : Char} {kind : Kind}
    (hmark : kind ∈ Kind.marks) (hspelling : kind.spelling.toList = text)
    (hclosed : (symbol kind).Closed rest) (happend : text ++ rest = first :: more)
    (c : Cursor) (before : List Char) :
    (c.place before text rest).addToken kind none =
      some ((c.told (Segment.next first more).1).place before (Segment.next first more).1.text
        (Segment.next first more).2) := by
  subst hspelling
  have hnext : Segment.next first more = (symbol kind, rest) :=
    Segment.next_of_stands ⟨.symbol hmark, hclosed⟩ happend
  rw [addToken_place, hnext, told_of_token (Segment.newlines_mark kind hmark) rfl]
  rfl

/-- A symbol that nothing extends. -/
theorem scans_mark {first : Char} {kind : Kind} (hkind : Kind.ofChar? first = some kind)
    (hplain : kind.withEqual? = none) (hslash : first ≠ '/') :
    Scans (addToken kind none) first rest := by
  intro c before
  have hmark : kind ∈ Kind.marks :=
    Kind.mem_marks_iff.mpr (.inl (Kind.mem_symbols_of_ofChar? hkind))
  have hspelling := Segment.spelling_of_ofChar? hkind
  have hclosed : (symbol kind).Closed rest := by
    refine ⟨by simp [hplain], ?_⟩
    rintro rfl
    have hfirst : [first] = ['/'] := hspelling.symm.trans (by decide)
    exact absurd (List.singleton_inj.mp hfirst) hslash
  exact addToken_symbol hmark hspelling hclosed rfl c before

/-- A symbol that an equals sign extends. -/
theorem scans_symbol {first : Char} {shorter longer : Kind}
    (hkind : Kind.ofChar? first = some shorter) (hlonger : shorter.withEqual? = some longer) :
    Scans (scanSymbol longer shorter) first rest := by
  intro c before
  have hshort : shorter ∈ Kind.marks :=
    Kind.mem_marks_iff.mpr (.inl (Kind.mem_symbols_of_ofChar? hkind))
  have hlong : longer ∈ Kind.marks := Kind.mem_marks_of_withEqual? hlonger
  have hspelling := Segment.spelling_of_ofChar? hkind
  obtain ⟨hlongest, hlong', hshort'⟩ := Kind.withEqual?_eq_none hlonger
  by_cases hequal : rest.head? = some '='
  · obtain ⟨rest, rfl⟩ := List.head?_eq_some_iff.mp hequal
    have hspelled : longer.spelling.toList = [first, '='] := by
      rw [Segment.spelling_withEqual? hlonger, hspelling]
      rfl
    have hclosed : (symbol longer).Closed rest :=
      ⟨by simp [hlongest], fun h => absurd h hlong'⟩
    rw [scanSymbol, accept_place_self]
    exact addToken_symbol hlong hspelled hclosed rfl c before
  · have hclosed : (symbol shorter).Closed rest :=
      ⟨fun _ => hequal, fun h => absurd h hshort'⟩
    rw [scanSymbol, accept_place_other hequal]
    exact addToken_symbol hshort hspelling hclosed rfl c before

theorem takeComment_place :
    (c.place before front rest).takeComment =
      some (c.place before (front ++ rest.takeWhile (· != '\n')) (rest.dropWhile (· != '\n'))) := by
  have hloop : (c.place before front rest).takeComment =
      some (((rest.takeWhile (· != '\n')).foldl (fun c _ => c) c).place before
        (front ++ rest.takeWhile (· != '\n')) (rest.dropWhile (· != '\n'))) :=
    repeatWhile_place (by simp) (by simp) (by simp)
  rwa [List.foldl_fixed] at hloop

theorem scans_slash : Scans scanSlash '/' rest := by
  intro c before
  by_cases hslash : rest.head? = some '/'
  · obtain ⟨rest, rfl⟩ := List.head?_eq_some_iff.mp hslash
    have hline : '\n' ∉ rest.takeWhile (· != '\n') := Segment.not_mem_takeWhile '\n' rest
    have hnewlines : (comment (rest.takeWhile (· != '\n'))).newlines = 0 :=
      List.count_eq_zero.mpr (by simpa [Segment.text] using hline)
    rw [Segment.next_comment, scanSlash, accept_place_self, told_of_silent hnewlines rfl rfl]
    exact takeComment_place
  · have hclosed : (symbol .slash).Closed rest :=
      ⟨fun h => absurd h (by decide), fun _ => hslash⟩
    rw [scanSlash, accept_place_other hslash]
    exact addToken_symbol (by decide) (by decide) hclosed rfl c before

theorem scans_blank {first : Char} (h : first ∈ [' ', '\r', '\t']) : Scans some first rest := by
  intro c before
  have hmem : first ∈ [' ', '\r', '\t', '\n'] := List.mem_append_left ['\n'] h
  rw [Segment.next_blank (isWhitespace_iff.mpr hmem), told_of_silent ?_ rfl rfl]
  · rfl
  · refine List.count_eq_zero.mpr fun hnewline => ?_
    rw [← List.mem_singleton.mp hnewline] at h
    exact absurd h (by decide)

theorem scans_newline : Scans (fun c => some c.nextLine) '\n' rest := by
  intro c before
  rw [Segment.next_blank (by decide)]
  simp [told, Segment.newlines, Segment.text, Segment.token?, Segment.error?, place, nextLine]

theorem scans_word {first : Char} (h : isLetter first) : Scans scanWord first rest := by
  intro c before
  have hnext := Segment.next_letter h rest
  have hfits := (Segment.next_stands first rest).fits
  rw [hnext] at hfits ⊢
  rw [scanWord, takeSort_place (by decide), told_of_token (hfits.newlines_eq_zero rfl nofun) rfl]
  show (do (place c before _ _).addToken (.ofWord (← (place c before _ _).lexeme?)) none) = _
  rw [lexeme?_place]
  exact addToken_place _ _

theorem numberOf_text {whole fraction : List Char} (h : ∀ x ∈ whole, x.isDigit) :
    numberOf (.ofList (number whole fraction).text) = .ofDecimal whole fraction := by
  have hpoint : ∀ x ∈ whole, (x != '.') = true := by
    intro x hx
    simp only [bne_iff_ne, ne_eq]
    rintro rfl
    exact absurd (h '.' hx) (by decide)
  have hsplit := Segment.takeWhile_append_of_head
    (if fraction.isEmpty then [] else '.' :: fraction) hpoint (by cases fraction <;> simp)
  rw [numberOf, String.toList_ofList, Segment.text, hsplit.1, hsplit.2]
  cases fraction <;> rfl

theorem takeFraction_place :
    (c.place before front rest).takeFraction =
      some (c.place before
        (front ++ if (Segment.takeFraction rest).1.isEmpty then []
          else '.' :: (Segment.takeFraction rest).1) (Segment.takeFraction rest).2) := by
  have hstay : ¬(rest.headD '\x00' = '.' ∧ (rest.getD 1 '\x00').isDigit) →
      Segment.takeFraction rest = ([], rest) := by
    intro hpoint
    refine Segment.takeFraction_nil fun d more hrest => ?_
    subst hrest
    simpa using hpoint
  rw [takeFraction, peek_place, peekNext_place]
  show (if _ then _ else _) = _
  split
  · rename_i hpoint
    obtain ⟨hhead, hdigit⟩ := hpoint
    match rest with
    | [] => exact absurd hhead (by decide)
    | [_] =>
        have hnul : Char.isDigit '\x00' = false := by decide
        exact absurd (hnul.symm.trans hdigit) Bool.false_ne_true
    | p :: d :: rest =>
        obtain rfl : p = '.' := hhead
        have hd : d.isDigit := hdigit
        rw [advance_place]
        show takeSort _ _ = _
        rw [takeSort_place (by decide), Segment.takeFraction, if_pos hd, List.takeWhile_cons,
          List.dropWhile_cons, if_pos hd, if_pos hd]
        simp
  · rename_i hpoint
    rw [hstay hpoint]
    simp [pure]

theorem scans_number {first : Char} (h : first.isDigit) : Scans scanNumber first rest := by
  intro c before
  have hnext := Segment.next_digit h rest
  have hfits := (Segment.next_stands first rest).fits
  have hwhole : ∀ x ∈ first :: rest.takeWhile Char.isDigit, x.isDigit :=
    List.forall_mem_cons.mpr ⟨h, Segment.mem_takeWhile⟩
  rw [hnext] at hfits ⊢
  rw [scanNumber, takeSort_place (by decide)]
  simp only [Option.bind_eq_bind, Option.bind_some, takeFraction_place, lexeme?_place]
  rw [told_of_token (hfits.newlines_eq_zero rfl nofun) rfl, ← numberOf_text hwhole]
  exact addToken_place _ _

/-- The line goes up once for each newline that is taken. -/
theorem foldl_nextLine (text : List Char) (c : Cursor) :
    text.foldl (fun c x => if x = '\n' then c.nextLine else c) c =
      { c with line := c.line + text.count '\n' } := by
  induction text generalizing c with
  | nil => rfl
  | cons x text ih =>
      rw [List.foldl_cons, ih, List.count_cons]
      by_cases hx : x = '\n'
      · simp [hx, nextLine, Nat.add_assoc, Nat.add_comm 1]
      · simp [hx]

theorem takeBody_place :
    (c.place before front rest).takeBody =
      some (({ c with line := c.line + (rest.takeWhile (· != '"')).count '\n' } : Cursor).place
        before (front ++ rest.takeWhile (· != '"')) (rest.dropWhile (· != '"'))) := by
  have hnextLine (c : Cursor) (front rest : List Char) :
      (c.place before front rest).nextLine = c.nextLine.place before front rest := rfl
  rw [← foldl_nextLine]
  refine repeatWhile_place (by simp) (by simp) fun c front next rest => ?_
  simp only [peek_place, Option.bind_eq_bind, Option.bind_some, List.headD_cons]
  split
  · rw [hnextLine, advance_place]
    rfl
  · rw [advance_place]
    rfl

/-- A quote is one byte, so the text between the quotes begins and ends one byte off. -/
theorem slice?_quoted {body : List Char} :
    let shown := c.place before (['"'] ++ body ++ ['"']) rest
    shown.slice? (shown.start + 1) (shown.current - 1) = some (.ofList body) := by
  intro shown
  have hquote : bytes ['"'] = 1 := by
    rw [bytes_singleton]
    rfl
  have hstart : shown.start + 1 = bytes (before ++ ['"']) := by
    rw [bytes_append, hquote]
    rfl
  have hcurrent : shown.current - 1 = bytes (before ++ ['"'] ++ body) := by
    show bytes (before ++ (['"'] ++ body ++ ['"'])) - 1 = _
    rw [← List.append_assoc, ← List.append_assoc, bytes_append (before ++ ['"'] ++ body), hquote,
      Nat.add_sub_cancel]
  have hsource : shown.source = .ofList (before ++ ['"'] ++ body ++ (['"'] ++ rest)) := by
    show String.ofList (before ++ (['"'] ++ body ++ ['"']) ++ rest) = _
    simp only [List.append_assoc]
  rw [hstart, hcurrent, slice?_ofList hsource]

theorem scans_string : Scans scanString '"' rest := by
  intro c before
  have hquote : ∀ x ∈ (rest.dropWhile (· != '"')).head?, (x != '"') = false :=
    Segment.head?_dropWhile
  rw [Segment.next_quote, Segment.takeString, scanString, takeBody_place]
  simp only [Option.bind_eq_bind, Option.bind_some, atEnd_place]
  generalize rest.takeWhile (· != '"') = body
  cases hafter : rest.dropWhile (· != '"') with
  | nil =>
      simp [told, Segment.newlines, Segment.text, Segment.token?, Segment.error?, place, addError]
  | cons q after =>
      rw [hafter] at hquote
      obtain rfl : q = '"' := by simpa using hquote q rfl
      have hcount : (Segment.quoted body).newlines = body.count '\n' := by
        simp [Segment.newlines, Segment.text]
      simp only [List.isEmpty_cons, Bool.false_eq_true, if_false, advance_place, Option.bind_some]
      rw [slice?_quoted]
      simp [told, hcount, Segment.text, Segment.token?, Segment.error?, addToken_place]

theorem scans_stray {first : Char} (hplain : IsPlain first) (hkind : Kind.ofChar? first = none) :
    Scans (fun c => some (c.addError (.stray c.line first))) first rest := by
  intro c before
  have hslash : ¬(first = '/' ∧ rest.head? = some '/') := by
    rintro ⟨rfl, -⟩
    exact absurd hkind (by decide)
  have hline : first ≠ '\n' := by
    rintro rfl
    exact absurd hplain (by decide)
  have hnewlines : (stray first).newlines = 0 :=
    List.count_eq_zero.mpr (by simpa [Segment.text] using hline.symm)
  rw [Segment.next_plain hplain hslash, Segment.takeSymbol, hkind]
  simp [told, hnewlines, Segment.token?, Segment.error?, addError, place, Segment.text]

/-- A character that is none of the marks begins no symbol. -/
theorem ofChar?_eq_none {first : Char}
    (h : first ∉ ['(', ')', '\x7b', '\x7d', ',', '.', '-', '+', ';', '/', '*', '!', '=', '>', '<']) :
    Kind.ofChar? first = none := by
  cases hkind : Kind.ofChar? first with
  | none => rfl
  | some kind =>
      have hspelling := Segment.spelling_of_ofChar? hkind
      have hall : ∀ kind ∈ Kind.symbols, kind.spelling.toList.head?.getD ' ' ∈
          ['(', ')', '\x7b', '\x7d', ',', '.', '-', '+', ';', '/', '*', '!', '=', '>', '<'] := by
        decide
      have hmem := hall kind (Kind.mem_symbols_of_ofChar? hkind)
      rw [hspelling] at hmem
      exact absurd hmem h

/-- A segment is scanned just as it is cut off the text. -/
theorem scanSegment_place (first : Char) (rest : List Char) (c : Cursor) (before : List Char) :
    (c.place before [] (first :: rest)).scanSegment =
      some ((c.told (Segment.next first rest).1).place before (Segment.next first rest).1.text
        (Segment.next first rest).2) := by
  rw [scanSegment, advance_place]
  simp only [Option.bind_eq_bind, Option.bind_some, List.nil_append]
  split
  case h_11 | h_12 | h_13 | h_14 => exact scans_symbol (by decide) (by decide) c before
  case h_15 => exact scans_slash c before
  case h_16 | h_17 | h_18 => exact scans_blank (by decide) c before
  case h_19 => exact scans_newline c before
  case h_20 => exact scans_string c before
  case h_21 =>
    have hmarks : first ∉
        ['(', ')', '\x7b', '\x7d', ',', '.', '-', '+', ';', '/', '*', '!', '=', '>', '<'] := by
      simp only [List.mem_cons, List.not_mem_nil, or_false, not_or]
      and_intros <;> assumption
    have hblank : first.isWhitespace = false := by
      rw [Bool.eq_false_iff, ne_eq, isWhitespace_iff]
      grind
    have hquote : first ≠ '"' := by assumption
    split
    · rename_i hdigit
      exact scans_number hdigit c before
    split
    · rename_i hletter
      exact scans_word hletter c before
    · rename_i hdigit hletter
      have hplain : IsPlain first := ⟨hblank, by simpa using hdigit, by simpa using hletter, hquote⟩
      exact scans_stray hplain (ofChar?_eq_none hmarks) c before
  all_goals exact scans_mark (by decide) (by decide) (by decide) c before

/-! ### Whole sources -/

/-- What some segments say is added up as `scan` puts it together. -/
theorem foldl_told (segments : List Segment) (c : Cursor) :
    let c' := segments.foldl told c
    c'.line = c.line + Segment.newlinesIn segments ∧
      c'.tokens = c.tokens ++ Segment.lexemes c.line segments ∧
      c'.errors = c.errors ++ Segment.errors c.line segments := by
  induction segments generalizing c with
  | nil => simp [Segment.lexemes, Segment.errors]
  | cons s segments ih =>
      obtain ⟨hline, htokens, herrors⟩ := ih (c.told s)
      rw [List.foldl_cons]
      refine ⟨?_, ?_, ?_⟩
      · rw [hline, Segment.newlinesIn_cons, ← Nat.add_assoc]
        rfl
      · rw [htokens, Segment.lexemes, ← List.append_assoc]
        rfl
      · rw [herrors, Segment.errors, ← List.append_assoc]
        rfl

theorem begin_place : (c.place before front rest).begin = c.place (before ++ front) [] rest := by
  simp [begin, place]

/-- The main loop goes from segment to segment, and ends where the source ends. -/
theorem loop_segments (c : Cursor) (before front : List Char) {rest : List Char} {checks : Nat}
    (hchecks : rest.length < checks) :
    ∃ earlier last, loop (fun c => return !c.atEnd) (scanSegment ·.begin) checks
      (c.place before front rest) = some (((Segment.cut rest).foldl told c).place earlier last []) := by
  -- Every segment takes one check, and leaves less of the source ahead.
  induction checks generalizing c before front rest with
  | zero => exact absurd hchecks (Nat.not_lt_zero _)
  | succ checks ih =>
      cases rest with
      | nil => exact ⟨before, front, by simp [loop]⟩
      | cons first rest =>
          have hshorter : (Segment.next first rest).2.length < checks := by
            have hlt := Segment.length_next_lt first rest
            omega
          obtain ⟨earlier, last, hloop⟩ :=
            ih (c.told (Segment.next first rest).1) (before ++ front) _ hshorter
          refine ⟨earlier, last, ?_⟩
          rw [loop, atEnd_place, begin_place, scanSegment_place, Segment.cut_cons]
          exact hloop

theorem told_cut (source : String) :
    let c := (Segment.cut source.toList).foldl told (ofSource source)
    Scan.mk (c.tokens ++ [.endOfInput c.line]) c.errors = LoxCalc.scan source := by
  intro c
  obtain ⟨hline, htokens, herrors⟩ := foldl_told (Segment.cut source.toList) (ofSource source)
  rw [hline, htokens, herrors, LoxCalc.scan, Segment.tokens_eq_lexemes]
  rfl

/-- Scanning with a cursor comes to an end and finds what `scan` finds. It takes texts at
offsets between characters only. -/
theorem scan?_eq (source : String) : scan? source = some (LoxCalc.scan source) := by
  have hplace : (ofSource source).place [] [] source.toList = ofSource source := by
    simp [ofSource, place, bytes]
  have hchecks : source.toList.length < source.utf8ByteSize + 1 := by
    have hlength := length_le_bytes source.toList
    rw [bytes, String.ofList_toList] at hlength
    omega
  obtain ⟨earlier, last, hloop⟩ := loop_segments (ofSource source) [] [] hchecks
  rw [hplace] at hloop
  have hrun : (ofSource source).repeatWhile (fun c => return !c.atEnd) (scanSegment ·.begin) = _ :=
    hloop
  rw [scan?, hrun, ← told_cut]
  rfl

end Cursor

end LoxCalc
