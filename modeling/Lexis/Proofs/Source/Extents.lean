import Lexis.Proofs.Source.Indices
import Lexis.Source.Excerpt
set_option autoImplicit false

/-!
The rows of an excerpt, told by the indices of the bytes in them. Main statement: the rows of lines
are those of the lines of the span with one line around them, and they have a byte marked exactly if
the span contains its index.
-/
namespace Lexis

namespace Span

def Contains (x : Span) (i : Nat) : Prop := x.start ≤ i ∧ i < x.stop

instance (x : Span) : DecidablePred x.Contains := fun _ => inferInstanceAs (Decidable (_ ∧ _))

end Span

namespace Source

variable {s : Source} {x : Span} {l : Location} {i : Nat}

theorem lineCount_pos (s : Source) : 1 ≤ s.lineCount := by
  rw [lineCount_eq]
  exact List.length_pos_iff.2 (splitLines_ne_nil s.bytes)

/-- The location of an index, or the place after the last byte. -/
def place (s : Source) (i : Nat) : Location := (s.location? i).getD (Extent.pastEnd s)

theorem place_eq_pastEnd (h : s.bytes.length ≤ i) : s.place i = Extent.pastEnd s := by
  rw [place, location?_eq_none h, Option.getD_none]

theorem isPlace_pastEnd (s : Source) : (Extent.pastEnd s).IsPlace s :=
  ⟨⟨s.lineCount_pos, Nat.le_refl _⟩, Nat.succ_pos _, .inr ⟨rfl, rfl⟩⟩

theorem indexOf_pastEnd (s : Source) : s.indexOf (Extent.pastEnd s) = s.bytes.length := by
  rw [← lineStart_total, lineStart_succ]
  rfl

theorem place_spec (h : i ≤ s.bytes.length) :
    (s.place i).IsPlace s ∧ s.indexOf (s.place i) = i := by
  obtain inside | at_end := Nat.lt_or_eq_of_le h
  · obtain ⟨l, hl, rfl⟩ := exists_isIn inside
    rw [place, hl.location?, Option.getD_some]
    exact ⟨hl.isPlace, rfl⟩
  · rw [place_eq_pastEnd (Nat.le_of_eq at_end.symm), indexOf_pastEnd]
    exact ⟨s.isPlace_pastEnd, at_end.symm⟩

theorem line_place (h : i ≤ s.bytes.length) :
    (s.place i).line = terminatorsBefore s.bytes i + 1 := by
  obtain ⟨stands, index⟩ := place_spec h
  rw [stands.line_eq, index]

theorem line_place_bounds (valid : x.Within s.bytes.length) :
    1 ≤ (s.place x.start).line ∧ (s.place x.start).line ≤ (s.place x.stop).line ∧
      (s.place x.stop).line ≤ s.lineCount := by
  have start := Nat.le_trans valid.1 valid.2
  refine ⟨(place_spec start).1.line.1, ?_, (place_spec valid.2).1.line.2⟩
  rw [line_place start, line_place valid.2]
  exact Nat.succ_le_succ (terminatorsBefore_mono _ valid.1)

theorem contains_indexOf_iff (valid : x.Within s.bytes.length) (hl : l.IsIn s) :
    x.Contains (s.indexOf l) ↔
      compare l (s.place x.start) ≠ .lt ∧ compare l (s.place x.stop) = .lt := by
  obtain ⟨start, from_start⟩ := place_spec (Nat.le_trans valid.1 valid.2)
  obtain ⟨stop, to_stop⟩ := place_spec valid.2
  rw [Ne, ← hl.isPlace.indexOf_lt_iff start, ← hl.isPlace.indexOf_lt_iff stop, from_start, to_stop,
    Nat.not_lt, Span.Contains]

theorem not_contains_indexOf (valid : x.Within s.bytes.length) (hl : l.IsIn s)
    (outside : l.line < (s.place x.start).line ∨ (s.place x.stop).line < l.line) :
    ¬ x.Contains (s.indexOf l) := by
  rw [contains_indexOf_iff valid hl, Ne, Location.compare_eq_lt_iff, Location.compare_eq_lt_iff]
  omega

def lineCells (s : Source) (x : Span) (number : Nat) : List Cell :=
  ((s.lineBytes number).zipIdx (s.lineStart number)).map fun (b, i) => ⟨b, x.Contains i⟩

theorem map_byte_lineCells (s : Source) (x : Span) (number : Nat) :
    (s.lineCells x number).map (·.byte) = s.lineBytes number := by
  rw [lineCells, List.map_map]
  exact List.zipIdx_map_fst _ _

end Source

namespace Extent

variable {s : Source} {x : Span} {l : Location}

theorem lastLine_ofSpan (s : Source) (x : Span) :
    (ofSpan s x).lastLine = (s.place x.stop).line := by
  rw [ofSpan, Source.place]
  cases s.location? x.stop <;> rfl

theorem mem_lineNumbers {s : Source} {x : Span} {n : Nat} : n ∈ (ofSpan s x).lineNumbers ↔
    (s.place x.start).line ≤ n ∧ n ≤ (s.place x.stop).line := by
  have start : (ofSpan s x).start = s.place x.start := rfl
  rw [lineNumbers, lastLine_ofSpan, start, List.mem_range'_1]
  omega

theorem isBeforeStop_iff (hl : l.IsIn s) (last : l.line = (s.place x.stop).line) :
    (ofSpan s x).isBeforeStop l.column = true ↔ l.column < (s.place x.stop).column := by
  rw [isBeforeStop, ofSpan, Source.place] at *
  cases found : s.location? x.stop with
  | some stop => simp
  | none =>
    -- There is no byte after the span, and every column of the last line is in front of its end.
    rw [found, Option.getD_none] at last
    have inside := hl.column.2
    rw [last] at inside
    simp only [Option.map_none, Option.all_none, Option.getD_none, true_iff]
    exact Nat.lt_succ_of_le inside

/-- In the lines of the span, columns tell what the indices tell. -/
theorem covers_iff (valid : x.Within s.bytes.length) (hl : l.IsIn s)
    (from_first : (s.place x.start).line ≤ l.line) (to_last : l.line ≤ (s.place x.stop).line) :
    (ofSpan s x).covers l.line l.column = true ↔ x.Contains (s.indexOf l) := by
  have before_stop := isBeforeStop_iff (x := x) hl
  have start : (ofSpan s x).start = s.place x.start := rfl
  rw [Source.contains_indexOf_iff valid hl, Ne, Location.compare_eq_lt_iff,
    Location.compare_eq_lt_iff]
  simp only [covers, isMultiline, lastLine_ofSpan, start, bne_iff_ne, ne_eq]
  split
  · by_cases last : l.line = (s.place x.stop).line
    · simp only [before_stop last, Bool.or_eq_true, Bool.and_eq_true, beq_iff_eq, decide_eq_true_eq]
      omega
    · simp only [last, Bool.or_eq_true, Bool.and_eq_true, beq_iff_eq, decide_eq_true_eq, false_and,
        or_false]
      omega
  · have last : l.line = (s.place x.stop).line := by omega
    simp only [before_stop last, Bool.and_eq_true, decide_eq_true_eq]
    omega

end Extent

namespace Excerpt

variable {s : Source} {x : Span} {number : Nat}

theorem range'_split {first middle last : Nat} (h : first ≤ middle + 1) (h' : middle ≤ last) :
    List.range' first (last + 1 - first) = List.range' first (middle + 1 - first) ++
      List.range' (middle + 1) (last + 1 - (middle + 1)) := by
  have next : first + (middle + 1 - first) = middle + 1 := by omega
  have size : last + 1 - first = middle + 1 - first + (last + 1 - (middle + 1)) := by omega
  rw [size, ← List.range'_append_1, next]

def lineRows (s : Source) (x : Span) (first last : Nat) : List Row :=
  (List.range' first (last + 1 - first)).map fun n => .line n (s.lineCells x n)

theorem lineRows_append (s : Source) (x : Span) {first middle last : Nat}
    (h : first ≤ middle + 1) (h' : middle ≤ last) :
    lineRows s x first middle ++ lineRows s x (middle + 1) last = lineRows s x first last := by
  rw [lineRows, lineRows, lineRows, range'_split h h', List.map_append]

theorem lineRow?_eq {marks : Nat → Bool} (inside : 1 ≤ number ∧ number ≤ s.lineCount)
    (agree : ∀ l : Location, l.IsIn s → l.line = number →
      (marks l.column = true ↔ x.Contains (s.indexOf l))) :
    lineRow? s marks number = some (.line number (s.lineCells x number)) := by
  obtain ⟨line, found⟩ := Source.exists_line? (s := s) ⟨inside.1, by omega⟩
  have bytes : s.lineBytes number = line := by rw [Source.lineBytes, found, Option.getD_some]
  rw [lineRow?, found, Option.map_some, Source.lineCells, bytes]
  refine congrArg (fun cells => some (Row.line number cells)) ?_
  refine List.ext_getElem (by simp) fun n in_line _ => ?_
  rw [List.length_map, List.length_zipIdx] at in_line
  have here := agree ⟨number, 1 + n⟩ ⟨inside, by simp only [bytes]; omega⟩ rfl
  have index : s.indexOf ⟨number, 1 + n⟩ = s.lineStart number + n := by simp [Source.indexOf]
  have marked : marks (1 + n) = decide (x.Contains (s.lineStart number + n)) := by
    rw [Bool.eq_iff_iff, here, index, decide_eq_true_eq]
  simp [marked]

theorem lineRow?_eq_none {marks : Nat → Bool} (outside : number = 0 ∨ s.lineCount < number) :
    lineRow? s marks number = none := by
  rw [lineRow?, (Source.line?_eq_none_iff s number).2 outside, Option.map_none]

theorem contextRow?_eq (valid : x.Within s.bytes.length)
    (inside : 1 ≤ number ∧ number ≤ s.lineCount)
    (outside : number < (s.place x.start).line ∨ (s.place x.stop).line < number) :
    contextRow? s number = some (.line number (s.lineCells x number)) := by
  refine lineRow?_eq inside fun l hl here => ?_
  subst here
  simpa using Source.not_contains_indexOf valid hl outside

theorem toList_contextRow?_before (valid : x.Within s.bytes.length) :
    (contextRow? s ((s.place x.start).line - 1)).toList =
      lineRows s x (max 1 ((s.place x.start).line - 1)) ((s.place x.start).line - 1) := by
  have bounds := Source.line_place_bounds valid
  obtain first | later := Nat.eq_or_lt_of_le bounds.1
  · rw [← first]
    rfl
  · rw [contextRow?_eq valid ⟨by omega, by omega⟩ (.inl (by omega)), Nat.max_eq_right (by omega),
      lineRows, Nat.add_sub_cancel_left]
    rfl

theorem toList_contextRow?_after (valid : x.Within s.bytes.length) :
    (contextRow? s ((s.place x.stop).line + 1)).toList =
      lineRows s x ((s.place x.stop).line + 1) (min s.lineCount ((s.place x.stop).line + 1)) := by
  obtain last | earlier := Nat.lt_or_ge s.lineCount ((s.place x.stop).line + 1)
  · rw [contextRow?, lineRow?_eq_none (.inr last), Nat.min_eq_left (Nat.le_of_lt last), lineRows,
      Nat.sub_eq_zero_of_le (by omega)]
    rfl
  · rw [contextRow?_eq valid ⟨by omega, earlier⟩ (.inr (by omega)), Nat.min_eq_right earlier,
      lineRows, Nat.add_sub_cancel_left]
    rfl

theorem filterMap_lineRow? (valid : x.Within s.bytes.length) :
    (Extent.ofSpan s x).lineNumbers.filterMap
        (fun n => lineRow? s ((Extent.ofSpan s x).covers n) n) =
      lineRows s x (s.place x.start).line (s.place x.stop).line := by
  have bounds := Source.line_place_bounds valid
  have numbers : List.range' (s.place x.start).line
      ((s.place x.stop).line + 1 - (s.place x.start).line) = (Extent.ofSpan s x).lineNumbers := by
    rw [Extent.lineNumbers, Extent.lastLine_ofSpan]
    rfl
  rw [lineRows, numbers, ← List.filterMap_eq_map]
  refine List.filterMap_congr fun n hn => ?_
  have between := Extent.mem_lineNumbers.1 hn
  refine lineRow?_eq ⟨by omega, by omega⟩ fun l hl here => ?_
  rw [← here] at between ⊢
  exact Extent.covers_iff valid hl between.1 between.2

/-- The rows of lines follow each other without gaps, with a note in front of the last line at
most. -/
theorem rows_ofSpan (valid : x.Within s.bytes.length) (help? : Option String) :
    (ofSpan s x help?).rows =
      [.heading s.path (s.place x.start), .blank] ++
        lineRows s x (max 1 ((s.place x.start).line - 1)) (s.place x.stop).line ++
        (noteRow? s (Extent.ofSpan s x) help?).toList ++
        lineRows s x ((s.place x.stop).line + 1) (min s.lineCount ((s.place x.stop).line + 1)) ++
        [.blank] ++ (footerRow? (Extent.ofSpan s x) help?).toList := by
  have bounds := Source.line_place_bounds valid
  have before : max 1 ((s.place x.start).line - 1) ≤ (s.place x.start).line - 1 + 1 := by omega
  have lines := lineRows_append s x before (Nat.le_trans (Nat.sub_le _ 1) bounds.2.1)
  rw [Nat.sub_add_cancel bounds.1] at lines
  rw [← lines, ← toList_contextRow?_before valid, ← toList_contextRow?_after valid,
    ← filterMap_lineRow? valid, ofSpan]
  simp only [Extent.lastLine_ofSpan, List.append_assoc]
  rfl

theorem lineRows_ofSpan (valid : x.Within s.bytes.length) :
    lineRows s x (max 1 ((s.place x.start).line - 1)) (s.place x.stop).line ++
        lineRows s x ((s.place x.stop).line + 1) (min s.lineCount ((s.place x.stop).line + 1)) =
      lineRows s x (max 1 ((s.place x.start).line - 1))
        (min s.lineCount ((s.place x.stop).line + 1)) := by
  have bounds := Source.line_place_bounds valid
  exact lineRows_append s x (by omega) (by omega)

variable {row : Row} {help? : Option String}

theorem mem_lineRows {first last : Nat} : row ∈ lineRows s x first last ↔
    ∃ n, (first ≤ n ∧ n ≤ last) ∧ row = .line n (s.lineCells x n) := by
  have range (n : Nat) : n ∈ List.range' first (last + 1 - first) ↔ first ≤ n ∧ n ≤ last := by
    rw [List.mem_range'_1]
    omega
  simp only [lineRows, List.mem_map, range, eq_comm]

theorem noteRow?_eq_some_iff {e : Extent} : noteRow? s e help? = some row ↔
    e.isMultiline = false ∧ ∃ text, help? = some text ∧ row = .note (indent s e.start) text := by
  rw [noteRow?]
  cases e.isMultiline <;> simp [Option.map_eq_some_iff, eq_comm (a := row)]

theorem footerRow?_eq_some_iff {e : Extent} : footerRow? e help? = some row ↔
    e.isMultiline = true ∧ ∃ text, help? = some text ∧ row = .footer text := by
  rw [footerRow?]
  cases e.isMultiline <;> simp [Option.map_eq_some_iff, eq_comm (a := row)]

theorem mem_rows_ofSpan (valid : x.Within s.bytes.length) :
    row ∈ (ofSpan s x help?).rows ↔
      row = .heading s.path (s.place x.start) ∨ row = .blank ∨
      row ∈ lineRows s x (max 1 ((s.place x.start).line - 1))
        (min s.lineCount ((s.place x.stop).line + 1)) ∨
      noteRow? s (Extent.ofSpan s x) help? = some row ∨
      footerRow? (Extent.ofSpan s x) help? = some row := by
  rw [rows_ofSpan valid, ← lineRows_ofSpan valid]
  simp only [List.mem_append, List.mem_cons, List.not_mem_nil, Option.mem_toList, or_false]
  tauto

theorem line_mem_rows_ofSpan (valid : x.Within s.bytes.length) {cells : List Cell} :
    .line number cells ∈ (ofSpan s x help?).rows ↔
      (max 1 ((s.place x.start).line - 1) ≤ number ∧
        number ≤ min s.lineCount ((s.place x.stop).line + 1)) ∧ cells = s.lineCells x number := by
  simp [mem_rows_ofSpan valid, mem_lineRows, noteRow?_eq_some_iff, footerRow?_eq_some_iff]

theorem flatMap_rows_ofSpan {α : Type} (valid : x.Within s.bytes.length) (help? : Option String)
    {f : Row → List α} (other : ∀ row, (∀ number cells, row ≠ .line number cells) → f row = []) :
    (ofSpan s x help?).rows.flatMap f =
      (lineRows s x (max 1 ((s.place x.start).line - 1))
        (min s.lineCount ((s.place x.stop).line + 1))).flatMap f := by
  have note : (noteRow? s (Extent.ofSpan s x) help?).toList.flatMap f = [] :=
    List.flatMap_eq_nil_iff.2 fun row hrow => other row fun _ _ same => by
      simp [same, noteRow?_eq_some_iff] at hrow
  have footer : (footerRow? (Extent.ofSpan s x) help?).toList.flatMap f = [] :=
    List.flatMap_eq_nil_iff.2 fun row hrow => other row fun _ _ same => by
      simp [same, footerRow?_eq_some_iff] at hrow
  have heading (start : Location) : f (.heading s.path start) = [] := other _ nofun
  have blank : f .blank = [] := other _ nofun
  rw [rows_ofSpan valid, ← lineRows_ofSpan valid]
  simp only [List.flatMap_append, List.flatMap_cons, List.flatMap_nil, note, footer, heading, blank,
    List.append_nil, List.nil_append]

end Excerpt

end Lexis
