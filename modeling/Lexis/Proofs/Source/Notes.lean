import Lexis.Proofs.Source.Rows
set_option autoImplicit false

/-!
Where a note stands. Main statement: the note of a span in one line stands below this line and
begins in the column of the screen in which the span begins, but one column behind it if the span
is between the two bytes of a terminator.
-/
namespace Lexis

/-- The index is between the two bytes of a terminator. -/
def CutsTerminator (s : List UInt8) : Nat → Prop
  | 0 => False
  | i + 1 => s[i]? = some carriageReturn ∧ s[i + 1]? = some lineFeed

instance (s : List UInt8) : DecidablePred (CutsTerminator s)
  | 0 => inferInstanceAs (Decidable False)
  | i + 1 => inferInstanceAs (Decidable (s[i]? = _ ∧ s[i + 1]? = _))

theorem IsPlain.take {text : List UInt8} (plain : IsPlain text) (k : Nat) : IsPlain (text.take k) :=
  fun b hb => plain b (List.mem_of_mem_take hb)

section Lines

variable {text rest : List UInt8} {e : Ending}

theorem cutsTerminator_append (a b : List UInt8) (n : Nat) :
    CutsTerminator (a ++ b) (a.length + (n + 1)) ↔ CutsTerminator b (n + 1) := by
  have behind (k : Nat) : (a ++ b)[a.length + k]? = b[k]? := by
    rw [List.getElem?_append_right (Nat.le_add_right _ _), Nat.add_sub_cancel_left]
  rw [← Nat.add_assoc, CutsTerminator, CutsTerminator, Nat.add_assoc, behind, behind]

theorem not_cutsTerminator_plain (plain : IsPlain text) (rest : List UInt8) {k : Nat}
    (inside : k ≤ text.length) : ¬ CutsTerminator (text ++ rest) k := by
  intro cut
  cases k with
  | zero => exact cut
  | succ k =>
    have byte := cut.1
    rw [List.getElem?_append_left inside] at byte
    exact plain _ (List.mem_of_getElem? byte) (.inr rfl)

/-- No terminator goes on behind an ending that is read as a whole. -/
theorem not_cutsTerminator_ending (closes : e.Closes rest) (text : List UInt8) :
    ¬ CutsTerminator (text ++ (e.bytes ++ rest)) (text ++ e.bytes).length := by
  intro cut
  cases e with
  | lf =>
    have last : (text ++ ([lineFeed] ++ rest))[text.length]? = some lineFeed := by simp
    rw [Ending.bytes, List.length_append, List.length_singleton] at cut
    exact absurd (last.symm.trans cut.1) (by decide)
  | crlf =>
    have last : (text ++ ([carriageReturn, lineFeed] ++ rest))[text.length + 1]? =
      some lineFeed := by simp
    rw [Ending.bytes, List.length_append, List.length_cons, List.length_singleton] at cut
    exact absurd (last.symm.trans cut.1) (by decide)
  | cr =>
    have next : (text ++ ([carriageReturn] ++ rest))[text.length + 1]? = rest.head? := by
      rw [List.getElem?_append_right (Nat.le_add_right _ 1), Nat.add_sub_cancel_left,
        List.head?_eq_getElem?]
      rfl
    rw [Ending.bytes, List.length_append, List.length_singleton] at cut
    exact closes rfl (next.symm.trans cut.2)

theorem cutsTerminator_line (closes : e.Closes rest) (text : List UInt8) (n : Nat) :
    CutsTerminator (text ++ (e.bytes ++ rest)) ((text ++ e.bytes).length + n) ↔
      CutsTerminator rest n := by
  cases n with
  | zero => exact iff_of_false (not_cutsTerminator_ending closes text) id
  | succ n =>
    rw [← List.append_assoc]
    exact cutsTerminator_append _ rest n

theorem countP_plain (plain : IsPlain text) : text.countP (IsTerminator ·) = 0 :=
  List.countP_eq_zero.2 fun b hb => by simpa using plain b hb

theorem countP_take_line (plain : IsPlain text) (rest : List UInt8) {k : Nat}
    (inside : k < (text ++ e.bytes).length) :
    ((text ++ e.bytes).take k).countP (IsTerminator ·) =
      if CutsTerminator (text ++ (e.bytes ++ rest)) k then 1 else 0 := by
  obtain short | long := Nat.lt_or_ge text.length k
  · have second : e = .crlf ∧ k = text.length + 1 := by
      cases e <;> simp_all [Ending.bytes] <;> omega
    obtain ⟨rfl, rfl⟩ := second
    have cut : CutsTerminator (text ++ (Ending.crlf.bytes ++ rest)) (text.length + 1) :=
      (cutsTerminator_append text (Ending.crlf.bytes ++ rest) 0).2 ⟨rfl, rfl⟩
    rw [if_pos cut, List.take_append, List.countP_append,
      List.take_of_length_le (Nat.le_succ _), countP_plain plain, Nat.add_sub_cancel_left]
    rfl
  · rw [if_neg (not_cutsTerminator_plain plain _ long), List.take_append_of_le_length long,
      countP_plain (plain.take k)]

/-- In front of a place of a line stands a byte of a terminator only if the place cuts it. -/
theorem countP_take_split {bytes : List UInt8} {before after : List (List UInt8)}
    {line : List UInt8} {k : Nat} (split : splitLines bytes = before ++ line :: after)
    (inside : k < line.length ∨ after = [] ∧ k = line.length) :
    (line.take k).countP (IsTerminator ·) =
      if CutsTerminator bytes (before.flatten.length + k) then 1 else 0 := by
  induction bytes using line_induction generalizing before with
  | last text plain =>
    rw [splitLines_plain plain] at split
    cases before with
    | nil =>
      obtain ⟨rfl, rfl⟩ := List.cons.inj split
      have whole := not_cutsTerminator_plain plain [] (k := k) (by omega)
      rw [List.append_nil] at whole
      rw [countP_plain (plain.take k), List.flatten_nil, List.length_nil, Nat.zero_add,
        if_neg whole]
    | cons first before => simp at split
  | line text e rest plain closes ih =>
    rw [splitLines_line plain closes] at split
    cases before with
    | nil =>
      obtain ⟨rfl, rfl⟩ := List.cons.inj split
      have not_last := inside.resolve_right fun h => splitLines_ne_nil rest h.1
      rw [List.flatten_nil, List.length_nil, Nat.zero_add]
      exact countP_take_line plain rest not_last
    | cons first before =>
      obtain ⟨rfl, later⟩ := List.cons.inj split
      rw [ih later, List.flatten_cons, List.length_append, Nat.add_assoc]
      simp only [cutsTerminator_line closes]

end Lines

/-- A span of one line that begins between the bytes of a terminator is empty. -/
theorem CutsTerminator.eq_stop {s : Source} {x : Span} (cut : CutsTerminator s.bytes x.start)
    (valid : x.Within s.bytes.length) (single : (s.place x.start).line = (s.place x.stop).line) :
    x.start = x.stop := by
  obtain same | less := Nat.eq_or_lt_of_le valid.1
  · exact same
  · have ends : EndsLine s.bytes x.start := by
      cases start : x.start with
      | zero => rw [start] at cut; exact cut.elim
      | succ i => rw [start] at cut; exact .inl cut.2
    have later := terminatorsBefore_mono s.bytes less
    rw [Nat.succ_eq_add_one, terminatorsBefore_succ, if_pos ends] at later
    rw [Source.line_place (Nat.le_trans valid.1 valid.2), Source.line_place valid.2] at single
    omega

namespace Excerpt

variable {s : Source} {x : Span} {help : String}

def shownBefore (cells : List Cell) (column : Nat) : List Char :=
  Styled.characters ((cells.take (column - 1)).flatMap Cell.pieces)

/-- Below the line with the given bytes, in which a span starts, stands a note. Its text begins in
the column of the screen in which the span begins, or so many columns behind it. -/
structure NotesBelow (s : Source) (start : Location) (help : String) (behind : Nat)
    (cells : List Cell) (x : Excerpt) : Prop where
  bytes : cells.map (·.byte) = s.lineBytes start.line
  rows : ∃ before after, x.rows = before ++ .line start.line cells ::
    .note ((shownBefore cells start.column).length + behind) help :: after
  line : ∃ gutter rest, gutter.length = x.width + 1 ∧
    Styled.characters ((Row.line start.line cells).pieces x.width) =
      gutter ++ ['┃', ' '] ++ shownBefore cells start.column ++ rest
  note : Styled.characters
      ((Row.note ((shownBefore cells start.column).length + behind) help).pieces x.width) =
    List.replicate (x.width + 1) ' ' ++ ['┃', ' '] ++
      List.replicate ((shownBefore cells start.column).length + behind) ' ' ++
      "help: ".toList ++ help.toList

theorem indent_place {i : Nat} (inside : i ≤ s.bytes.length) {cells : List Cell}
    (bytes : cells.map (·.byte) = s.lineBytes (s.place i).line) :
    indent s (s.place i) = (shownBefore cells (s.place i).column).length +
      if CutsTerminator s.bytes i then 1 else 0 := by
  obtain ⟨place, index⟩ := Source.place_spec inside
  obtain ⟨before, after, split, _, start, column⟩ := place.exists_split
  have hidden := countP_take_split split column
  rw [← start, index, ← bytes, ← List.map_take] at hidden
  rw [indent, ← Source.lineBytes, ← bytes, ← List.map_take, columns_eq, hidden, shownBefore,
    characters_cells]

theorem characters_note (width indent : Nat) (help : String) :
    Styled.characters ((Row.note indent help).pieces width) =
      List.replicate (width + 1) ' ' ++ ['┃', ' '] ++ List.replicate indent ' ' ++
        "help: ".toList ++ help.toList := by
  simp [Styled.characters, Row.pieces, Styled.plain, spaces, bar, label, Excerpt.help]

theorem exists_characters_line {number width : Nat} (positive : 1 ≤ number)
    (fits : digitCount number ≤ width) (cells : List Cell) (column : Nat) :
    ∃ gutter rest, gutter.length = width + 1 ∧
      Styled.characters ((Row.line number cells).pieces width) =
        gutter ++ ['┃', ' '] ++ shownBefore cells column ++ rest := by
  have parts : (cells.map (·.byte)).flatMap glyphs = shownBefore cells column ++
      ((cells.drop (column - 1)).map (·.byte)).flatMap glyphs := by
    rw [shownBefore, characters_cells, ← List.flatMap_append, ← List.map_append,
      List.take_append_drop]
  refine ⟨(toString number).toList ++ List.replicate (width + 1 - (toString number).length) ' ',
    _, ?_, by rw [characters_line positive fits, parts, ← List.append_assoc]⟩
  rw [List.length_append, String.length_toList, List.length_replicate, length_toString positive]
  omega

theorem lineRows_self (s : Source) (x : Span) (number : Nat) :
    lineRows s x number number = [.line number (s.lineCells x number)] := by
  rw [lineRows, Nat.add_sub_cancel_left]
  rfl

theorem exists_rows_ofSpan (valid : x.Within s.bytes.length)
    (single : (s.place x.start).line = (s.place x.stop).line) (help : String) :
    ∃ before after, (ofSpan s x (some help)).rows =
      before ++ .line (s.place x.start).line (s.lineCells x (s.place x.start).line) ::
        .note (indent s (s.place x.start)) help :: after := by
  have bounds := Source.line_place_bounds valid
  have note : noteRow? s (Extent.ofSpan s x) (some help) =
      some (.note (indent s (s.place x.start)) help) :=
    noteRow?_eq_some_iff.2 ⟨by simp [isMultiline_ofSpan, single], help, rfl, rfl⟩
  have first : max 1 ((s.place x.start).line - 1) ≤ (s.place x.start).line - 1 + 1 := by omega
  have lines := lineRows_append s x first (Nat.sub_le _ 1)
  rw [Nat.sub_add_cancel bounds.1, lineRows_self] at lines
  refine ⟨[.heading s.path (s.place x.start), .blank] ++
      lineRows s x (max 1 ((s.place x.start).line - 1)) ((s.place x.start).line - 1),
    lineRows s x ((s.place x.stop).line + 1) (min s.lineCount ((s.place x.stop).line + 1)) ++
      [.blank] ++ (footerRow? (Extent.ofSpan s x) (some help)).toList, ?_⟩
  rw [rows_ofSpan valid, ← single, ← lines, note]
  simp only [Option.toList_some, List.append_assoc, List.cons_append, List.nil_append]

theorem notesBelow_ofSpan (valid : x.Within s.bytes.length)
    (single : (s.place x.start).line = (s.place x.stop).line) (help : String) :
    (ofSpan s x (some help)).NotesBelow s (s.place x.start) help
      (if CutsTerminator s.bytes x.start then 1 else 0)
      (s.lineCells x (s.place x.start).line) := by
  have bounds := Source.line_place_bounds valid
  have bytes := s.map_byte_lineCells x (s.place x.start).line
  have width : digitCount (s.place x.start).line ≤ (ofSpan s x (some help)).width := by
    rw [ofSpan, Extent.width, Extent.lastLine_ofSpan]
    exact digitCount_mono (Nat.le_succ_of_le bounds.2.1)
  obtain ⟨before, after, rows⟩ := exists_rows_ofSpan valid single help
  rw [indent_place (Nat.le_trans valid.1 valid.2) bytes] at rows
  exact ⟨bytes, ⟨before, after, rows⟩, exists_characters_line bounds.1 width _ _,
    characters_note _ _ help⟩

theorem eq_indent_of_mem (valid : x.Within s.bytes.length) {n : Nat}
    (mem : .note n help ∈ (ofSpan s x (some help)).rows) : n = indent s (s.place x.start) := by
  simp only [mem_rows_ofSpan valid, mem_lineRows, noteRow?_eq_some_iff, footerRow?_eq_some_iff,
    reduceCtorEq, and_false, exists_false, false_or, or_false] at mem
  obtain ⟨_, text, _, same⟩ := mem
  exact (Row.note.inj same).1

/-- The shown characters do not depend on marks, so a note is so many columns behind or another. -/
theorem NotesBelow.behind_eq {behind : Nat} {cells : List Cell} (valid : x.Within s.bytes.length)
    (h : (ofSpan s x (some help)).NotesBelow s (s.place x.start) help behind cells) :
    behind = if CutsTerminator s.bytes x.start then 1 else 0 := by
  obtain ⟨before, after, rows⟩ := h.rows
  have indented := eq_indent_of_mem valid
    (rows ▸ List.mem_append_right before (List.mem_cons_of_mem _ List.mem_cons_self))
  rw [indent_place (Nat.le_trans valid.1 valid.2) h.bytes] at indented
  exact Nat.add_left_cancel indented

/-- The note of a span in one line begins in the column in which the span begins, and one column
behind it if the span is between the bytes of a terminator. -/
theorem exists_notesBelow (valid : x.Within s.bytes.length)
    (single : (Extent.ofSpan s x).isMultiline = false) (help : String) :
    (¬ CutsTerminator s.bytes x.start → ∃ cells,
      (ofSpan s x (some help)).NotesBelow s (s.place x.start) help 0 cells) ∧
    (CutsTerminator s.bytes x.start → x.start = x.stop ∧ ∃ cells,
      (ofSpan s x (some help)).NotesBelow s (s.place x.start) help 1 cells) := by
  have one_line : (s.place x.start).line = (s.place x.stop).line := by
    simpa [isMultiline_ofSpan] using single
  have below := notesBelow_ofSpan valid one_line help
  constructor
  · intro whole
    rw [if_neg whole] at below
    exact ⟨_, below⟩
  · intro cut
    rw [if_pos cut] at below
    exact ⟨cut.eq_stop valid one_line, _, below⟩

theorem exists_notesBelow_crlf :
    ((Span.mk 1 1).Within (Source.ofBytes "a.mk" #[0x09, 0x0d, 0x0a, 0x62]).bytes.length ∧
      (Extent.ofSpan (.ofBytes "a.mk" #[0x09, 0x0d, 0x0a, 0x62]) ⟨1, 1⟩).isMultiline = false ∧
      ¬ CutsTerminator (Source.ofBytes "a.mk" #[0x09, 0x0d, 0x0a, 0x62]).bytes 1 ∧
      ∃ cells, (ofSpan (.ofBytes "a.mk" #[0x09, 0x0d, 0x0a, 0x62]) ⟨1, 1⟩ (some "h")).NotesBelow
        (.ofBytes "a.mk" #[0x09, 0x0d, 0x0a, 0x62])
        ((Source.ofBytes "a.mk" #[0x09, 0x0d, 0x0a, 0x62]).place 1) "h" 0 cells) ∧
    (Span.mk 2 2).Within (Source.ofBytes "a.mk" #[0x09, 0x0d, 0x0a, 0x62]).bytes.length ∧
      (Extent.ofSpan (.ofBytes "a.mk" #[0x09, 0x0d, 0x0a, 0x62]) ⟨2, 2⟩).isMultiline = false ∧
      CutsTerminator (Source.ofBytes "a.mk" #[0x09, 0x0d, 0x0a, 0x62]).bytes 2 ∧
      ∃ cells, (ofSpan (.ofBytes "a.mk" #[0x09, 0x0d, 0x0a, 0x62]) ⟨2, 2⟩ (some "h")).NotesBelow
        (.ofBytes "a.mk" #[0x09, 0x0d, 0x0a, 0x62])
        ((Source.ofBytes "a.mk" #[0x09, 0x0d, 0x0a, 0x62]).place 2) "h" 1 cells := by
  have front : (Span.mk 1 1).Within
      (Source.ofBytes "a.mk" #[0x09, 0x0d, 0x0a, 0x62]).bytes.length := by decide
  have between : (Span.mk 2 2).Within
      (Source.ofBytes "a.mk" #[0x09, 0x0d, 0x0a, 0x62]).bytes.length := by decide
  have single (i : Nat) : (Extent.ofSpan (.ofBytes "a.mk" #[0x09, 0x0d, 0x0a, 0x62])
      ⟨i, i⟩).isMultiline = false := by simp [isMultiline_ofSpan]
  exact ⟨⟨front, single 1, by decide, (exists_notesBelow front (single 1) "h").1 (by decide)⟩,
    between, single 2, by decide, ((exists_notesBelow between (single 2) "h").2 (by decide)).2⟩

/-- The note between the two bytes of a terminator does not begin where the span begins. -/
theorem not_notesBelow_inside_crlf :
    (Extent.ofSpan (.ofBytes "main.mk" #[0x61, 0x0d, 0x0a, 0x62]) ⟨2, 2⟩).isMultiline = false ∧
      ¬ ∃ cells, (ofSpan (.ofBytes "main.mk" #[0x61, 0x0d, 0x0a, 0x62]) ⟨2, 2⟩
        (some "h")).NotesBelow (.ofBytes "main.mk" #[0x61, 0x0d, 0x0a, 0x62])
        ((Source.ofBytes "main.mk" #[0x61, 0x0d, 0x0a, 0x62]).place 2) "h" 0 cells := by
  have valid : (Span.mk 2 2).Within
      (Source.ofBytes "main.mk" #[0x61, 0x0d, 0x0a, 0x62]).bytes.length := by decide
  refine ⟨by simp [isMultiline_ofSpan], fun ⟨cells, below⟩ => ?_⟩
  exact absurd (below.behind_eq valid) (by decide)

end Excerpt

end Lexis
