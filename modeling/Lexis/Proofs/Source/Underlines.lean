import Lexis.Proofs.Source.Cells
import Lexis.Proofs.Source.Extents
set_option autoImplicit false

/-!
What an excerpt underlines. Main statement: the characters that are underlined are those of the
bytes of the span, each once and in order, and every other byte of a line is shown plain.
-/
namespace Lexis.Excerpt

open Styled (isUnderlined)

/-- The byte is shown as a character. A tab and a terminator are not. -/
def IsGlyph (b : UInt8) : Prop := Latin1.char b ≠ '\t' ∧ ¬ IsTerminator b

instance : DecidablePred IsGlyph := fun _ => inferInstanceAs (Decidable (_ ∧ _))

def shownByte (x : Span) (b : UInt8) (i : Nat) : List Styled :=
  if Latin1.char b = '\t' then [.plain (spaces 4)]
  else if IsTerminator b then []
  else if x.Contains i then [mark b]
  else [.plain (Latin1.char b).toString]

def shownBytes (x : Span) (start : Nat) (bytes : List UInt8) : List Styled :=
  (bytes.zipIdx start).flatMap fun (b, i) => shownByte x b i

variable {s : Source} {x : Span} {start : Nat} {bytes : List UInt8}

theorem pieces_eq_shownByte (x : Span) (b : UInt8) (i : Nat) :
    Cell.pieces ⟨b, x.Contains i⟩ = shownByte x b i := by
  rw [shownByte]
  split
  · next tab =>
    obtain rfl : b = 0x09 := Latin1.char_inj.1 tab
    exact pieces_of_tab _
  · next tab =>
    split
    · next terminator => exact pieces_of_isTerminator terminator _
    · next inside =>
      rw [pieces_of_visible inside tab]
      by_cases contained : x.Contains i <;> simp [contained, mark, Styled.plain]

theorem pieces_lineCells (s : Source) (x : Span) (number : Nat) :
    (s.lineCells x number).flatMap Cell.pieces =
      shownBytes x (s.lineStart number) (s.lineBytes number) := by
  simp only [Source.lineCells, List.flatMap_map, pieces_eq_shownByte, shownBytes]

theorem shownBytes_cons (x : Span) (start : Nat) (b : UInt8) (rest : List UInt8) :
    shownBytes x start (b :: rest) = shownByte x b start ++ shownBytes x (start + 1) rest := rfl

theorem shownBytes_append (x : Span) (start : Nat) (a b : List UInt8) :
    shownBytes x start (a ++ b) = shownBytes x start a ++ shownBytes x (start + a.length) b := by
  rw [shownBytes, List.zipIdx_append, List.flatMap_append]
  rfl

theorem filter_shownByte (x : Span) (b : UInt8) (i : Nat) :
    (shownByte x b i).filter isUnderlined = if IsGlyph b ∧ x.Contains i then [mark b] else [] := by
  rw [shownByte]
  split
  · next tab => simp [IsGlyph, tab, isUnderlined, Styled.plain]
  · next tab =>
    split
    · next terminator => simp [IsGlyph, terminator]
    · next inside =>
      split
      · next contained =>
        rw [if_pos ⟨⟨tab, inside⟩, contained⟩]
        rfl
      · next outside =>
        rw [if_neg fun h => outside h.2]
        rfl

theorem filter_outside (h : ∀ i, start ≤ i → i < start + bytes.length → ¬ x.Contains i) :
    (shownBytes x start bytes).filter isUnderlined = [] := by
  induction bytes generalizing start with
  | nil => rfl
  | cons b rest ih =>
    have here : ¬ x.Contains start := h start (Nat.le_refl _) (by simp)
    rw [shownBytes_cons, List.filter_append, filter_shownByte, if_neg fun both => here both.2,
      List.nil_append]
    exact ih fun i from_next to_end => h i (by omega) (by simp only [List.length_cons]; omega)

theorem filter_inside (h : ∀ i, start ≤ i → i < start + bytes.length → x.Contains i) :
    (shownBytes x start bytes).filter isUnderlined =
      (bytes.filter (IsGlyph ·)).map mark := by
  induction bytes generalizing start with
  | nil => rfl
  | cons b rest ih =>
    have here : x.Contains start := h start (Nat.le_refl _) (by simp)
    have later := ih fun i (from_next : start + 1 ≤ i) to_end =>
      h i (by omega) (by simp only [List.length_cons]; omega)
    rw [shownBytes_cons, List.filter_append, filter_shownByte, later, List.filter_cons]
    by_cases glyph : IsGlyph b <;> simp [glyph, here]

theorem filter_bytes (valid : x.Within s.bytes.length) :
    (shownBytes x 0 s.bytes).filter isUnderlined =
      ((s.slice x).filter (IsGlyph ·)).map mark := by
  have parts : s.bytes = s.bytes.take x.start ++ (s.slice x ++ s.bytes.drop x.stop) := by
    rw [slice_eq_bytesOf, Span.bytesOf, ← drop_eq_append s.bytes valid.1, List.take_append_drop]
  have before : (s.bytes.take x.start).length = x.start :=
    List.length_take_of_le (Nat.le_trans valid.1 valid.2)
  have covered : (s.slice x).length = x.stop - x.start := by
    rw [slice_eq_bytesOf, Span.bytesOf, List.length_take, List.length_drop]
    exact Nat.min_eq_left (Nat.sub_le_sub_right valid.2 _)
  conv => lhs; rw [parts]
  rw [shownBytes_append, shownBytes_append, List.filter_append, List.filter_append, before, covered,
    Nat.zero_add, Nat.add_sub_cancel' valid.1, filter_outside, filter_inside, filter_outside,
    List.nil_append, List.append_nil]
  · exact fun i from_stop _ contained => Nat.not_lt.2 from_stop contained.2
  · exact fun i from_start to_stop => ⟨from_start, by omega⟩
  · exact fun i _ to_start contained => by
      have from_start := contained.1
      omega

def lineMarks (s : Source) (x : Span) (number : Nat) : List Styled :=
  (shownBytes x (s.lineStart number) (s.lineBytes number)).filter isUnderlined

theorem filter_lineRows (s : Source) (x : Span) (width first last : Nat) :
    (lineRows s x first last).flatMap
        (fun row => (row.pieces width ++ [.plain "\n"]).filter isUnderlined) =
      (List.range' first (last + 1 - first)).flatMap (lineMarks s x) := by
  rw [lineRows, List.flatMap_map]
  refine List.flatMap_congr fun n _ => ?_
  rw [Row.pieces, List.filter_append, List.filter_append, pieces_lineCells]
  exact List.append_nil _

theorem lineMarks_outside (valid : x.Within s.bytes.length) {number : Nat}
    (outside : number < (s.place x.start).line ∨ (s.place x.stop).line < number) :
    lineMarks s x number = [] := by
  refine filter_outside fun i from_start to_end contained => ?_
  have index : s.indexOf ⟨number, i - s.lineStart number + 1⟩ = i := by
    simp only [Source.indexOf]
    omega
  have in_line : Location.IsIn ⟨number, i - s.lineStart number + 1⟩ s := by
    refine ⟨?_, by simp only; omega⟩
    -- A number without a line has no bytes to show.
    by_contra no_line
    have none : s.line? number = none := (s.line?_eq_none_iff number).2 (by
      simp only at no_line
      omega)
    rw [Source.lineBytes, none] at to_end
    exact Nat.not_lt.2 from_start to_end
  rw [← index] at contained
  exact Source.not_contains_indexOf valid in_line outside contained

theorem flatMap_lineMarks_outside (valid : x.Within s.bytes.length) (first count : Nat)
    (outside : ∀ n, first ≤ n → n < first + count →
      n < (s.place x.start).line ∨ (s.place x.stop).line < n) :
    (List.range' first count).flatMap (lineMarks s x) = [] :=
  List.flatMap_eq_nil_iff.2 fun n hn =>
    have ⟨from_first, to_last⟩ := List.mem_range'_1.1 hn
    lineMarks_outside valid (outside n from_first to_last)

theorem flatMap_lineMarks_take (s : Source) (x : Span) (n : Nat) :
    (List.range' 1 n).flatMap (lineMarks s x) =
      (shownBytes x 0 ((splitLines s.bytes).take n).flatten).filter isUnderlined := by
  induction n with
  | zero => rfl
  | succ n ih =>
    have line : s.lineBytes (n + 1) = ((splitLines s.bytes)[n]?.toList).flatten := by
      rw [Source.lineBytes_succ]
      cases (splitLines s.bytes)[n]? <;> simp
    rw [List.range'_1_concat, List.flatMap_append, ih, List.take_add_one, List.flatten_append,
      shownBytes_append, List.filter_append, Nat.zero_add, ← Source.lineStart_eq_take, ← line,
      List.flatMap_singleton, Nat.add_comm 1, lineMarks]

theorem flatMap_lineMarks (valid : x.Within s.bytes.length) {first last : Nat}
    (positive : 1 ≤ first) (from_first : first ≤ (s.place x.start).line)
    (to_last : (s.place x.stop).line ≤ last) (bounded : last ≤ s.lineCount) :
    (List.range' first (last + 1 - first)).flatMap (lineMarks s x) =
      ((s.slice x).filter (IsGlyph ·)).map mark := by
  have bounds := Source.line_place_bounds valid
  have all := flatMap_lineMarks_take s x s.lineCount
  rw [Source.lineCount_eq, List.take_length, flatten_splitLines, ← Source.lineCount_eq,
    filter_bytes valid] at all
  have before := flatMap_lineMarks_outside valid 1 (first - 1) fun n _ to_first => .inl (by omega)
  have after := flatMap_lineMarks_outside valid (last + 1) (s.lineCount + 1 - (last + 1))
    fun n from_next _ => .inr (by omega)
  have inner : first ≤ last + 1 := by omega
  have outer : first - 1 ≤ s.lineCount := by omega
  have lines := range'_split (Nat.le_add_left 1 (first - 1)) outer
  rw [Nat.add_sub_cancel, Nat.sub_add_cancel positive, range'_split inner bounded] at lines
  rw [← all, lines, List.flatMap_append, List.flatMap_append, before, after, List.nil_append,
    List.append_nil]

theorem filter_pieces_ofSpan (valid : x.Within s.bytes.length) (help? : Option String) :
    (ofSpan s x help?).pieces.filter isUnderlined =
      ((s.slice x).filter (IsGlyph ·)).map mark := by
  have bounds := Source.line_place_bounds valid
  rw [pieces, List.filter_flatMap, flatMap_rows_ofSpan valid, filter_lineRows,
    flatMap_lineMarks valid (Nat.le_max_left _ _) (by omega) (by omega) (Nat.min_le_left _ _)]
  intro row not_line
  cases row with
  | line number cells => exact absurd rfl (not_line number cells)
  | heading path start => rfl
  | blank => rfl
  | note indent text => rfl
  | footer text => rfl

/-- The excerpt has the bytes of the span underlined that are shown as characters, and nothing else.
All other bytes of the lines are shown plain, and so is a line next to those of the span. -/
structure Underlines (s : Source) (x : Span) (excerpt : Excerpt) : Prop where
  marked : excerpt.pieces.filter isUnderlined =
    ((s.slice x).filter (IsGlyph ·)).map mark
  shown : ∀ number cells, .line number cells ∈ excerpt.rows → cells.flatMap Cell.pieces =
    ((s.lineBytes number).zipIdx (s.lineStart number)).flatMap fun (b, i) => shownByte x b i
  context : ∀ number cells, .line number cells ∈ excerpt.rows →
    number < (s.place x.start).line ∨ (s.place x.stop).line < number →
      (cells.flatMap Cell.pieces).filter isUnderlined = []

end Lexis.Excerpt
