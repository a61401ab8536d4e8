import Lexis.Proofs.Source.Cells
import Lexis.Proofs.Source.Extents
import Lexis.Proofs.Text.Reading
set_option autoImplicit false

/-!
Which lines an excerpt shows, and how its rows are laid out. Main statements: the rows of the lines
have no gaps and the bars stand in one column; a span is shown with the lines from its first byte to
its last, but as one that goes on in the next line if it ends with a terminator.
-/
namespace Lexis.Excerpt

def Row.line? : Row → Option (Nat × List UInt8)
  | .line number cells => some (number, cells.map (·.byte))
  | _ => none

def Row.HasBar : Row → Prop
  | .blank | .line _ _ | .note _ _ => True
  | .heading _ _ | .footer _ => False

/-- The characters in front of the first bar. -/
def barColumn? (pieces : List Styled) : Option Nat := (Styled.characters pieces).idxOf? '┃'

/-- The rows of an excerpt that has the given first and last line for those of its span. -/
structure LaidOut (s : Source) (first last : Nat) (x : Excerpt) : Prop where
  width : x.width = digitCount (last + 1)
  lines : x.rows.filterMap Row.line? =
    (List.range' (max 1 (first - 1)) (min s.lineCount (last + 1) + 1 - max 1 (first - 1))).map
      fun n => (n, s.lineBytes n)
  fits : ∀ number cells, .line number cells ∈ x.rows → digitCount number ≤ x.width
  texts : ∀ number cells, .line number cells ∈ x.rows →
    Styled.characters ((Row.line number cells).pieces x.width) =
      (toString number).toList ++
        List.replicate (x.width + 1 - (toString number).length) ' ' ++ ['┃', ' '] ++
          (s.lineBytes number).flatMap glyphs
  blanks : x.rows.count .blank = 2
  bars : ∀ row ∈ x.rows, row.HasBar → barColumn? (row.pieces x.width) = some (x.width + 1)
  printed : x.render.toList =
    x.rows.flatMap fun row => (row.pieces x.width).flatMap Styled.written ++ ['\n']

variable {s : Source} {x : Span}

theorem barColumn?_append {front : List Styled} (clear : '┃' ∉ Styled.characters front)
    (rest : List Styled) :
    barColumn? (front ++ bar :: rest) = some (Styled.characters front).length := by
  have text : Styled.characters (front ++ bar :: rest) =
      Styled.characters front ++ '┃' :: Styled.characters rest := Styled.characters_append _ _
  rw [barColumn?, text, List.idxOf?_eq_some_iff]
  refine ⟨by simp, by simp, fun n before => ?_⟩
  rw [List.getElem_append_left before]
  exact fun found => clear (found ▸ List.getElem_mem before)

theorem bar_not_mem_spaces (n : Nat) : '┃' ∉ (spaces n).toList := by
  rw [spaces, String.toList_ofList]
  exact fun h => absurd (List.eq_of_mem_replicate h) (by decide)

theorem bar_not_mem_toDigits (n : Nat) : '┃' ∉ Nat.toDigits 10 n :=
  not_mem_toDigits (by decide) (by decide) (by decide) n

theorem barColumn?_spaces (n : Nat) (rest : List Styled) :
    barColumn? (.plain (spaces n) :: bar :: rest) = some n := by
  have clear : '┃' ∉ Styled.characters [.plain (spaces n)] := by
    simpa [Styled.characters, Styled.plain] using bar_not_mem_spaces n
  have column := barColumn?_append clear rest
  rwa [Styled.length_characters_cons, Styled.length_characters_nil, Styled.plain, length_spaces]
    at column

theorem barColumn?_line {number width : Nat} (positive : 1 ≤ number)
    (fits : digitCount number ≤ width) (cells : List Cell) :
    barColumn? ((Row.line number cells).pieces width) = some (width + 1) := by
  have clear : '┃' ∉ Styled.characters
      [label (toString number), .plain (spaces (width - digitCount number + 1))] := by
    simpa [Styled.characters, Styled.plain, label] using
      ⟨bar_not_mem_toDigits number, bar_not_mem_spaces _⟩
  have column := barColumn?_append clear (.plain " " :: cells.flatMap Cell.pieces)
  have size : (toString number).length + (width - digitCount number + 1) = width + 1 := by
    rw [length_toString positive]
    omega
  rw [Styled.length_characters_cons, Styled.length_characters_cons, Styled.length_characters_nil,
    Styled.plain, label, length_spaces, Nat.add_zero, size] at column
  exact column

theorem barColumn?_pieces {row : Row} {width : Nat} (hasBar : row.HasBar)
    (fits : ∀ number cells, row = .line number cells → 1 ≤ number ∧ digitCount number ≤ width) :
    barColumn? (row.pieces width) = some (width + 1) := by
  cases row with
  | heading path start => exact hasBar.elim
  | footer text => exact hasBar.elim
  | blank => exact barColumn?_spaces (width + 1) []
  | note indent text => exact barColumn?_spaces (width + 1) _
  | line number cells =>
    obtain ⟨positive, room⟩ := fits number cells rfl
    exact barColumn?_line positive room cells

theorem characters_line {number width : Nat} (positive : 1 ≤ number)
    (fits : digitCount number ≤ width) (cells : List Cell) :
    Styled.characters ((Row.line number cells).pieces width) =
      (toString number).toList ++ List.replicate (width + 1 - (toString number).length) ' ' ++
        ['┃', ' '] ++ (cells.map (·.byte)).flatMap glyphs := by
  have room : width - digitCount number + 1 = width + 1 - (toString number).length := by
    rw [length_toString positive]
    omega
  rw [Row.pieces, Styled.characters_append, characters_cells, room]
  simp [Styled.characters, Styled.plain, label, bar, spaces]

theorem toList_render (x : Excerpt) : x.render.toList =
    x.rows.flatMap fun row => (row.pieces x.width).flatMap Styled.written ++ ['\n'] := by
  have ended : (Styled.plain "\n").written = ['\n'] := rfl
  simp [render, pieces, Styled.toList_renderAll, List.flatMap_assoc, ended]

theorem filterMap_line?_ofSpan (valid : x.Within s.bytes.length) (help? : Option String) :
    (ofSpan s x help?).rows.filterMap Row.line? =
      (List.range' (max 1 ((s.place x.start).line - 1))
        (min s.lineCount ((s.place x.stop).line + 1) + 1 -
          max 1 ((s.place x.start).line - 1))).map fun n => (n, s.lineBytes n) := by
  rw [List.filterMap_eq_flatMap_toList, flatMap_rows_ofSpan valid, lineRows, List.flatMap_map,
    List.map_eq_flatMap]
  · simp only [Row.line?, Source.map_byte_lineCells, Option.toList_some]
  · intro row not_line
    cases row with
    | line number cells => exact absurd rfl (not_line number cells)
    | heading path start => rfl
    | blank => rfl
    | note indent text => rfl
    | footer text => rfl

theorem count_blank_ofSpan (valid : x.Within s.bytes.length) (help? : Option String) :
    (ofSpan s x help?).rows.count .blank = 2 := by
  have lines (first last : Nat) : (lineRows s x first last).count .blank = 0 :=
    List.count_eq_zero.2 (by simp [mem_lineRows])
  have note : (noteRow? s (Extent.ofSpan s x) help?).toList.count .blank = 0 :=
    List.count_eq_zero.2 (by simp [noteRow?_eq_some_iff])
  have footer : (footerRow? (Extent.ofSpan s x) help?).toList.count .blank = 0 :=
    List.count_eq_zero.2 (by simp [footerRow?_eq_some_iff])
  rw [rows_ofSpan valid]
  simp only [List.count_append, lines, note, footer]
  rfl

/-- An excerpt has a row for each line of its span, one for the line before and one for the line
after, and its bars are in the same column behind the longest number. -/
theorem ofSpan_laidOut (valid : x.Within s.bytes.length) (help? : Option String) :
    1 ≤ (s.place x.start).line ∧
    (∀ n ∈ (Extent.ofSpan s x).lineNumbers, s.line? n ≠ none) ∧
    (ofSpan s x help?).LaidOut s (s.place x.start).line (s.place x.stop).line := by
  have bounds := Source.line_place_bounds valid
  have width : (ofSpan s x help?).width = digitCount ((s.place x.stop).line + 1) := by
    rw [← Extent.lastLine_ofSpan]
    rfl
  have fits (number : Nat) (cells : List Cell) (h : .line number cells ∈ (ofSpan s x help?).rows) :
      1 ≤ number ∧ digitCount number ≤ (ofSpan s x help?).width := by
    have range := ((line_mem_rows_ofSpan valid).1 h).1
    rw [width]
    exact ⟨by omega, digitCount_mono (by omega)⟩
  refine ⟨bounds.1, fun n hn none => ?_, width, filterMap_line?_ofSpan valid help?,
    fun number cells h => (fits number cells h).2, fun number cells h => ?_,
    count_blank_ofSpan valid help?, fun row hrow hasBar => ?_, toList_render _⟩
  · have own := Extent.mem_lineNumbers.1 hn
    have outside := (s.line?_eq_none_iff n).1 none
    omega
  · have ⟨positive, room⟩ := fits number cells h
    rw [characters_line positive room, ((line_mem_rows_ofSpan valid).1 h).2,
      Source.map_byte_lineCells]
  · exact barColumn?_pieces hasBar fun number cells same => fits number cells (same ▸ hrow)

theorem ofSpan_laidOut_at_ten :
    (Span.mk 8 9).Within (Source.ofBytes "a.mk" (Array.replicate 12 0x0a)).bytes.length ∧
      1 ≤ 9 ∧
      (∀ n ∈ (Extent.ofSpan (.ofBytes "a.mk" (Array.replicate 12 0x0a)) ⟨8, 9⟩).lineNumbers,
        (Source.ofBytes "a.mk" (Array.replicate 12 0x0a)).line? n ≠ none) ∧
      (ofSpan (.ofBytes "a.mk" (Array.replicate 12 0x0a)) ⟨8, 9⟩ (some "h")).LaidOut
        (.ofBytes "a.mk" (Array.replicate 12 0x0a)) 9 10 := by
  have valid : (Span.mk 8 9).Within
      (Source.ofBytes "a.mk" (Array.replicate 12 0x0a)).bytes.length := by decide
  have laid_out := ofSpan_laidOut valid (some "h")
  rw [Source.line_place (Nat.le_trans valid.1 valid.2), Source.line_place valid.2] at laid_out
  exact ⟨valid, laid_out⟩

def numbers (x : Excerpt) : List Nat := (x.rows.filterMap Row.line?).map (·.1)

/-- The excerpt shows a text, if there is one, for a span that has the given first and last line: at
the foot if these are two lines and else under the line, and with one more line after the last, if
there is one. -/
structure TakesLines (s : Source) (first last : Nat) (help? : Option String) (x : Excerpt) :
    Prop where
  footer : ∀ help, .footer help ∈ x.rows ↔ help? = some help ∧ first ≠ last
  bottom : ∀ help, .footer help ∉ x.rows.dropLast
  sign : ∀ help, Styled.characters ((Row.footer help).pieces x.width) =
    List.replicate (x.width + 1) ' ' ++ "= help: ".toList ++ help.toList
  note : ∀ help, (∃ indent, .note indent help ∈ x.rows) ↔ help? = some help ∧ first = last
  following : x.numbers.filter (last < ·) = if last < s.lineCount then [last + 1] else []

theorem isMultiline_ofSpan (s : Source) (x : Span) :
    (Extent.ofSpan s x).isMultiline = ((s.place x.start).line != (s.place x.stop).line) := by
  rw [Extent.isMultiline, Extent.lastLine_ofSpan]
  rfl

variable {help? : Option String} {help : String}

theorem footer_mem_rows_ofSpan (valid : x.Within s.bytes.length) :
    .footer help ∈ (ofSpan s x help?).rows ↔
      help? = some help ∧ (s.place x.start).line ≠ (s.place x.stop).line := by
  simp [mem_rows_ofSpan valid, mem_lineRows, noteRow?_eq_some_iff, footerRow?_eq_some_iff,
    isMultiline_ofSpan, and_comm]

theorem note_mem_rows_ofSpan (valid : x.Within s.bytes.length) :
    (∃ indent, .note indent help ∈ (ofSpan s x help?).rows) ↔
      help? = some help ∧ (s.place x.start).line = (s.place x.stop).line := by
  simp [mem_rows_ofSpan valid, mem_lineRows, noteRow?_eq_some_iff, footerRow?_eq_some_iff,
    isMultiline_ofSpan, and_comm]

theorem footer_not_mem_dropLast (valid : x.Within s.bytes.length) :
    .footer help ∉ (ofSpan s x help?).rows.dropLast := by
  rw [rows_ofSpan valid]
  generalize rows : [.heading s.path (s.place x.start), .blank] ++
    lineRows s x (max 1 ((s.place x.start).line - 1)) (s.place x.stop).line ++
    (noteRow? s (Extent.ofSpan s x) help?).toList ++
    lineRows s x ((s.place x.stop).line + 1) (min s.lineCount ((s.place x.stop).line + 1)) ++
    [Row.blank] = front
  have clear : .footer help ∉ front := by
    simp [← rows, mem_lineRows, noteRow?_eq_some_iff]
  cases footerRow? (Extent.ofSpan s x) help? with
  | none => simpa using fun mem => clear (List.dropLast_subset _ mem)
  | some row => simpa using clear

theorem characters_footer (width : Nat) (help : String) :
    Styled.characters ((Row.footer help).pieces width) =
      List.replicate (width + 1) ' ' ++ "= help: ".toList ++ help.toList := by
  simp [Styled.characters, Row.pieces, Styled.plain, spaces, label, Excerpt.help]

theorem filter_numbers_ofSpan (valid : x.Within s.bytes.length) (help? : Option String) :
    (ofSpan s x help?).numbers.filter ((s.place x.stop).line < ·) =
      if (s.place x.stop).line < s.lineCount then [(s.place x.stop).line + 1] else [] := by
  have bounds := Source.line_place_bounds valid
  have before : max 1 ((s.place x.start).line - 1) ≤ (s.place x.stop).line + 1 := by omega
  have after : (s.place x.stop).line ≤ min s.lineCount ((s.place x.stop).line + 1) := by omega
  have not_after : (List.range' (max 1 ((s.place x.start).line - 1)) ((s.place x.stop).line + 1 -
      max 1 ((s.place x.start).line - 1))).filter ((s.place x.stop).line < ·) = [] :=
    List.filter_eq_nil_iff.2 fun n hn => by
      have range := List.mem_range'_1.1 hn
      simp only [decide_eq_true_eq]
      omega
  rw [numbers, filterMap_line?_ofSpan valid, List.map_map, range'_split before after,
    List.map_append, List.filter_append]
  simp only [Function.comp_def, List.map_id', not_after, List.nil_append]
  split
  · next more => rw [Nat.min_eq_right more, Nat.add_sub_cancel_left]; simp
  · next last => rw [Nat.min_eq_left (by omega), Nat.sub_eq_zero_of_le (by omega)]; rfl

theorem takesLines_place (valid : x.Within s.bytes.length) (help? : Option String) :
    (ofSpan s x help?).TakesLines s (s.place x.start).line (s.place x.stop).line help? :=
  ⟨fun _ => footer_mem_rows_ofSpan valid, fun _ => footer_not_mem_dropLast valid,
    characters_footer _, fun _ => note_mem_rows_ofSpan valid, filter_numbers_ofSpan valid help?⟩

theorem line_place_stop (valid : x.Within s.bytes.length) (nonempty : x.start < x.stop) :
    (s.place x.stop).line =
      (s.place (x.stop - 1)).line + if EndsLine s.bytes (x.stop - 1) then 1 else 0 := by
  have stop : x.stop - 1 + 1 = x.stop := Nat.sub_add_cancel (Nat.one_le_of_lt nonempty)
  have inside : x.stop - 1 ≤ s.bytes.length := Nat.le_trans (Nat.sub_le _ 1) valid.2
  have step := terminatorsBefore_succ s.bytes (x.stop - 1)
  rw [stop] at step
  rw [Source.line_place valid.2, Source.line_place inside, step, Nat.add_right_comm]

/-- A span is shown for one with the lines from its first byte to its last, but if it ends with a
terminator, it is shown as if it went on in the next line. -/
theorem takesLines_ofSpan (valid : x.Within s.bytes.length) (nonempty : x.start < x.stop)
    (help? : Option String) :
    (¬ EndsLine s.bytes (x.stop - 1) → (ofSpan s x help?).TakesLines s
      (s.place x.start).line (s.place (x.stop - 1)).line help?) ∧
    (EndsLine s.bytes (x.stop - 1) → (ofSpan s x help?).TakesLines s
      (s.place x.start).line ((s.place (x.stop - 1)).line + 1) help?) := by
  have takes := takesLines_place valid help?
  rw [line_place_stop valid nonempty] at takes
  refine ⟨fun inside => ?_, fun ends => ?_⟩
  · rwa [if_neg inside] at takes
  · rwa [if_pos ends] at takes

theorem takesLines_ofSpan_crlf :
    ((Span.mk 0 1).Within (Source.ofBytes "a.mk" #[0x61, 0x0d, 0x0a, 0x62]).bytes.length ∧
      ¬ EndsLine (Source.ofBytes "a.mk" #[0x61, 0x0d, 0x0a, 0x62]).bytes 0 ∧
      (ofSpan (.ofBytes "a.mk" #[0x61, 0x0d, 0x0a, 0x62]) ⟨0, 1⟩ (some "h")).TakesLines
        (.ofBytes "a.mk" #[0x61, 0x0d, 0x0a, 0x62]) 1 1 (some "h")) ∧
    (Span.mk 0 3).Within (Source.ofBytes "a.mk" #[0x61, 0x0d, 0x0a, 0x62]).bytes.length ∧
      EndsLine (Source.ofBytes "a.mk" #[0x61, 0x0d, 0x0a, 0x62]).bytes 2 ∧
      (ofSpan (.ofBytes "a.mk" #[0x61, 0x0d, 0x0a, 0x62]) ⟨0, 3⟩ (some "h")).TakesLines
        (.ofBytes "a.mk" #[0x61, 0x0d, 0x0a, 0x62]) 1 2 (some "h") := by
  have short : (Span.mk 0 1).Within
      (Source.ofBytes "a.mk" #[0x61, 0x0d, 0x0a, 0x62]).bytes.length := by decide
  have long : (Span.mk 0 3).Within
      (Source.ofBytes "a.mk" #[0x61, 0x0d, 0x0a, 0x62]).bytes.length := by decide
  have inside := (takesLines_ofSpan short (by decide) (some "h")).1 (by decide)
  have ends := (takesLines_ofSpan long (by decide) (some "h")).2 (by decide)
  rw [Source.line_place (by decide), Source.line_place (by decide)] at inside ends
  exact ⟨⟨short, by decide, inside⟩, long, by decide, ends⟩

/-- A line with its terminator, in front of another line, is shown as if it were two. -/
theorem not_takesLines_terminator :
    ¬ (ofSpan (.ofBytes "main.mk" #[0x61, 0x0a, 0x62]) ⟨0, 2⟩ (some "h")).TakesLines
        (.ofBytes "main.mk" #[0x61, 0x0a, 0x62])
        ((Source.ofBytes "main.mk" #[0x61, 0x0a, 0x62]).place 0).line
        ((Source.ofBytes "main.mk" #[0x61, 0x0a, 0x62]).place (2 - 1)).line (some "h") := by
  intro takes
  have valid : (Span.mk 0 2).Within
      (Source.ofBytes "main.mk" #[0x61, 0x0a, 0x62]).bytes.length := by decide
  have footer := ((takesLines_place valid (some "h")).footer "h").symm.trans (takes.footer "h")
  rw [Source.line_place (by decide), Source.line_place (by decide),
    Source.line_place (by decide)] at footer
  exact absurd footer (by decide)

end Lexis.Excerpt
