import Lexis.Proofs.Source.Cells
import Lexis.Proofs.Stream.ByLine
import Lexis.Proofs.Stream.Strays
set_option autoImplicit false

/-!
What is printed of a stray byte. Main statement: the excerpt shows the line of the byte with this
byte alone underlined, and the note in the row below it stands exactly beneath the byte.
-/
namespace Lexis

open Excerpt

/-- A byte of a source in its line. -/
structure Pointer (s : Source) where
  index : Nat
  byte : UInt8
  place : Location
  before : List UInt8
  after : List UInt8
  found : s.bytes[index]? = some byte
  located : s.location? index = some place
  line : s.line? place.line = some (before ++ byte :: after)
  column : place.column = before.length + 1

namespace Pointer

variable {s : Source} (p : Pointer s)

/-- The room for the numbers of the lines; the next line has the longest. -/
def width : Nat := (toString (p.place.line + 1)).length

def blanks (n : Nat) : Styled := ⟨[], String.ofList (List.replicate n ' ')⟩

def bar : Styled := ⟨[.bold, .cyan], "┃"⟩

def gutter (number : Nat) : List Styled :=
  [⟨[.bold, .cyan], toString number⟩, blanks (p.width - (toString number).length + 1), bar,
    ⟨[], " "⟩]

def edge : List Styled := [blanks (p.width + 1), bar]

def noteGutter : List Styled := p.edge ++ [⟨[], " "⟩]

def heading : List Styled :=
  [blanks p.width, ⟨[.bold, .cyan], "-->"⟩,
    ⟨[], " " ++ s.path ++ ":" ++ (toString p.place.line ++ ":" ++ toString p.place.column)⟩]

def context? (number : Nat) : Option (List Styled) :=
  (s.line? number).map fun line => p.gutter number ++ unmarked line

def indent : Nat := (p.before.flatMap glyphs).length

def target : Styled := ⟨[.underline, .bold, .red], String.ofList [Char.ofNat p.byte.toNat]⟩

def rows (note : String) : List (List Styled) :=
  [p.heading, p.edge] ++ (p.context? (p.place.line - 1)).toList ++
    [p.gutter p.place.line ++ (unmarked p.before ++ p.target :: unmarked p.after),
      p.noteGutter ++ [blanks p.indent, ⟨[.bold], "help"⟩, ⟨[], ": " ++ note⟩]] ++
    (p.context? (p.place.line + 1)).toList ++ [p.edge]

def pieces (note : String) : List Styled := (p.rows note).flatMap (· ++ [⟨[], "\n"⟩])

/-- The diagnostic of the byte is printed as the pointer has it: the byte is the only character that
is underlined, and the note begins beneath it, as both rows have the same number of characters in
front. -/
structure Shows (d : Diagnostic) : Prop where
  of_byte : d = .illegalCharacter ⟨p.index, p.index + 1⟩ p.byte
  shown : (d.excerpt s).pieces = p.pieces "this character is not part of any token"
  rendered : (d.render s).toList =
    d.message.render.toList ++ '\n' :: (d.excerpt s).pieces.flatMap Styled.written
  underlined : (d.excerpt s).pieces.filter Styled.isUnderlined = [p.target]
  gutters : (Styled.characters (p.gutter p.place.line)).length =
    (Styled.characters p.noteGutter).length
  beneath : (Styled.characters (unmarked p.before)).length =
    (Styled.characters [blanks p.indent]).length

variable {p}

theorem length_toString_le {number : Nat} (fits : number ≤ p.place.line + 1)
    (positive : 0 < number) : (toString number).length ≤ p.width := by
  rw [width, length_toString positive, length_toString (Nat.succ_pos _)]
  exact digitCount_mono fits

theorem pieces_line {number : Nat} (positive : 0 < number) (cells : List Cell) :
    (Row.line number cells).pieces p.width = p.gutter number ++ cells.flatMap Cell.pieces := by
  rw [gutter, length_toString positive]
  rfl

theorem length_blanks (n : Nat) : (blanks n).text.length = n := by simp [blanks]

theorem length_gutter {number : Nat} (fits : number ≤ p.place.line + 1) (positive : 0 < number) :
    (Styled.characters (p.gutter number)).length = (Styled.characters p.noteGutter).length := by
  have room := length_toString_le fits positive
  simp only [gutter, noteGutter, edge, List.cons_append, List.nil_append, bar,
    Styled.length_characters_cons, Styled.length_characters_nil, length_blanks]
  omega

theorem filter_gutter (number : Nat) : (p.gutter number).filter Styled.isUnderlined = [] := rfl

theorem filter_context? (number : Nat) :
    (p.context? number).toList.flatMap (List.filter Styled.isUnderlined) = [] := by
  rw [context?]
  cases s.line? number with
  | none => rfl
  | some line =>
    simp only [Option.map_some, Option.toList_some, List.flatMap_singleton, List.filter_append,
      filter_gutter, filter_unmarked, List.append_nil]

theorem filter_pieces (note : String) :
    (p.pieces note).filter Styled.isUnderlined = [p.target] := by
  have ended (row : List Styled) : (row ++ [Styled.mk [] "\n"]).filter Styled.isUnderlined =
      row.filter Styled.isUnderlined := by
    rw [List.filter_append]
    exact List.append_nil _
  have marked : (p.gutter p.place.line ++
      (unmarked p.before ++ p.target :: unmarked p.after)).filter Styled.isUnderlined =
        [p.target] := by
    rw [List.filter_append, List.filter_append, List.filter_cons_of_pos rfl, filter_gutter,
      filter_unmarked, filter_unmarked]
    rfl
  rw [pieces, List.filter_flatMap]
  simp only [ended, rows, List.flatMap_append, filter_context?, List.flatMap_cons, marked]
  rfl

theorem mark_eq : mark p.byte = p.target := by
  rw [mark, target, Latin1.char_eq_ofNat]
  rfl

theorem map_contextRow? (number : Nat) :
    (contextRow? s number).map (Row.pieces p.width) = p.context? number := by
  rw [contextRow?, lineRow?, context?]
  cases found : s.line? number with
  | none => rfl
  | some line =>
    have shown : (cells (fun _ => false) 1 line).flatMap Cell.pieces = unmarked line :=
      pieces_of_not_marked fun _ _ _ => rfl
    simp only [Option.map_some]
    rw [pieces_line (Source.pos_of_line? found), ← shown]
    rfl

/-- The extent is that of the byte alone. There is no column after it if the byte is the last of the
source. -/
structure IsExtent (p : Pointer s) (e : Extent) : Prop where
  start : e.start = p.place
  last : e.lastLine = p.place.line
  stop : e.stopColumn? = some (p.place.column + 1) ∨ e.stopColumn? = none ∧ p.after = []

variable {e : Extent}

theorem IsExtent.single (h : p.IsExtent e) : e.isMultiline = false := by
  rw [Extent.isMultiline, h.start, h.last, bne_self_eq_false]

theorem IsExtent.lineNumbers_eq (h : p.IsExtent e) : e.lineNumbers = [p.place.line] := by
  rw [Extent.lineNumbers, h.start, h.last, Nat.add_sub_cancel_left]
  rfl

theorem IsExtent.covers_iff (h : p.IsExtent e) {n : Nat}
    (inside : n ≤ (p.before ++ p.byte :: p.after).length) :
    e.covers p.place.line n = true ↔ n = p.before.length + 1 := by
  rw [Extent.covers, h.single, if_neg Bool.false_ne_true, Extent.isBeforeStop, h.start, p.column,
    Bool.and_eq_true, decide_eq_true_eq]
  obtain next | ⟨none, last⟩ := h.stop
  · rw [next, p.column, Option.all_some, decide_eq_true_eq]
    omega
  · -- Without a next column every later one counts as covered, but the line has none.
    rw [last, List.length_append, List.length_singleton] at inside
    simp only [none, Option.all_none, and_true]
    omega

theorem IsExtent.pieces_cells (h : p.IsExtent e) (inside : ¬ IsTerminator p.byte)
    (tab : Latin1.char p.byte ≠ '\t') :
    (cells (e.covers p.place.line) 1 (p.before ++ p.byte :: p.after)).flatMap Cell.pieces =
      unmarked p.before ++ p.target :: unmarked p.after := by
  rw [← mark_eq]
  refine pieces_of_marked inside tab fun n _ to_last => ?_
  rw [h.covers_iff (by omega), Nat.add_comm]

theorem indent_eq (plain : IsPlain p.before) : Excerpt.indent s p.place = p.indent := by
  rw [Excerpt.indent, p.line, Option.getD_some, p.column, Nat.add_sub_cancel, List.take_left,
    columns_of_plain plain, indent]

theorem ofSpan_eq (extent : p.IsExtent (Extent.ofSpan s ⟨p.index, p.index + 1⟩))
    (plain : IsPlain p.before) (note : String) :
    Excerpt.ofSpan s ⟨p.index, p.index + 1⟩ (some note) =
      ⟨p.width,
        [.heading s.path p.place, .blank] ++ (contextRow? s (p.place.line - 1)).toList ++
          [.line p.place.line
            (cells ((Extent.ofSpan s ⟨p.index, p.index + 1⟩).covers p.place.line) 1
              (p.before ++ p.byte :: p.after)),
            .note p.indent note] ++
          (contextRow? s (p.place.line + 1)).toList ++ [.blank]⟩ := by
  generalize span : Extent.ofSpan s ⟨p.index, p.index + 1⟩ = e at extent
  have row : lineRow? s (e.covers p.place.line) p.place.line = some (.line p.place.line
      (cells (e.covers p.place.line) 1 (p.before ++ p.byte :: p.after))) := by
    rw [lineRow?, p.line]
    rfl
  have note_row : noteRow? s e (some note) = some (.note p.indent note) := by
    rw [noteRow?, extent.single, extent.start, indent_eq plain]
    rfl
  have footer : footerRow? e (some note) = none := by
    rw [footerRow?, extent.single]
    rfl
  have width : e.width = p.width := by
    rw [Extent.width, extent.last, width, length_toString (Nat.succ_pos _)]
  rw [Excerpt.ofSpan, span]
  simp only [width, extent.start, extent.last, extent.lineNumbers_eq, List.filterMap_cons,
    List.filterMap_nil, row, note_row, footer, Option.toList_some, Option.toList_none,
    List.append_assoc, List.append_nil]
  rfl

theorem pieces_ofSpan (extent : p.IsExtent (Extent.ofSpan s ⟨p.index, p.index + 1⟩))
    (plain : IsPlain p.before) (inside : ¬ IsTerminator p.byte) (tab : Latin1.char p.byte ≠ '\t')
    (note : String) :
    (Excerpt.ofSpan s ⟨p.index, p.index + 1⟩ (some note)).pieces = p.pieces note := by
  rw [Excerpt.pieces_eq, ofSpan_eq extent plain, pieces]
  have shown := pieces_line (p := p) (Source.pos_of_line? p.line)
  simp only [List.map_append, List.map_cons, List.map_nil, ← Option.toList_map, map_contextRow?,
    shown, extent.pieces_cells inside tab]
  rfl

variable {before after : List (List UInt8)} {left right tail : List UInt8} {b : UInt8}

def ofLine (line : HasLine s.bytes before (left ++ b :: right) tail after) : Pointer s where
  index := before.flatten.length + left.length
  byte := b
  place := ⟨before.length + 1, left.length + 1⟩
  before := left
  after := right ++ tail
  found := by
    rw [line.joined, List.getElem?_append_right (Nat.le_add_right _ _), Nat.add_sub_cancel_left,
      List.append_assoc, List.append_assoc, List.getElem?_append_right (Nat.le_refl _),
      Nat.sub_self]
    rfl
  located := Source.location?_split line.split (by simp)
  line := by rw [Source.line?_split line.split, List.append_assoc, List.cons_append]
  column := rfl

theorem isExtent_ofLine (line : HasLine s.bytes before (left ++ b :: right) tail after) :
    (ofLine line).IsExtent
      (Extent.ofSpan s ⟨(ofLine line).index, (ofLine line).index + 1⟩) := by
  have extent := Extent.ofSpan_shift line (Nat.lt_succ_self left.length) (by simp)
  refine ⟨congrArg Extent.start extent, congrArg Extent.lastLine extent, ?_⟩
  have stop := congrArg Extent.stopColumn? extent
  dsimp only at stop
  split at stop
  · next at_end =>
    have last : tail = [] := line.terminated.2 (List.isEmpty_iff.1 at_end.1)
    have short : right = [] := by simpa using at_end.2
    exact .inr ⟨stop, List.append_eq_nil_iff.2 ⟨short, last⟩⟩
  · exact .inl stop

end Pointer

/-- A byte that ends no line has a pointer, in front of the terminator of its line. -/
theorem exists_pointer {s : Source} {i : Nat} {b : UInt8} (hb : s.bytes[i]? = some b)
    (inside : ¬ IsTerminator b) : ∃ p : Pointer s, p.index = i ∧ p.byte = b ∧ IsPlain p.before ∧
      p.IsExtent (Extent.ofSpan s ⟨p.index, p.index + 1⟩) := by
  obtain ⟨before, text, tail, after, k, line, rfl, found⟩ := exists_hasLine hb inside
  obtain ⟨left, right, rfl, rfl⟩ : ∃ left right, text = left ++ b :: right ∧ k = left.length := by
    obtain ⟨in_text, rfl⟩ := List.getElem?_eq_some_iff.1 found
    exact ⟨text.take k, text.drop (k + 1), by simp, by simp; omega⟩
  exact ⟨.ofLine line, rfl, rfl, fun c hc => line.plain c (List.mem_append_left _ hc),
    Pointer.isExtent_ofLine line⟩

theorem Pointer.shows {s : Source} {p : Pointer s}
    (extent : p.IsExtent (Extent.ofSpan s ⟨p.index, p.index + 1⟩)) (plain : IsPlain p.before)
    (stray : IsStray p.byte) : p.Shows (.illegalCharacter ⟨p.index, p.index + 1⟩ p.byte) := by
  have inside : ¬ IsTerminator p.byte := fun terminator => stray.1 terminator.isBlank
  have tab : Latin1.char p.byte ≠ '\t' := fun tab => stray.1 (by simp [IsBlank, tab])
  have shown := pieces_ofSpan extent plain inside tab "this character is not part of any token"
  refine ⟨rfl, shown, ?_, ?_, p.length_gutter (Nat.le_succ _) (Source.pos_of_line? p.line), ?_⟩
  · simp [Diagnostic.render, Excerpt.render, Styled.toList_renderAll]
  · exact (congrArg (List.filter Styled.isUnderlined) shown).trans (p.filter_pieces _)
  · rw [characters_unmarked, Styled.length_characters_cons, Styled.length_characters_nil,
      length_blanks, indent, Nat.add_zero]

/-- Each reported byte is pointed at: its excerpt has the byte underlined, and nothing else, and the
note beneath it. -/
theorem exists_pointer_shows {s : Source} {d : Diagnostic}
    (h : d ∈ (TokenStream.tokenize s (Storage.empty : Storage Diagnostic)).2.toList) :
    ∃ p : Pointer s, p.Shows d := by
  rw [toList_tokenize] at h
  obtain ⟨i, b, hb, stray, rfl⟩ := mem_strays.1 (show d ∈ strays 0 s.bytes from h)
  rw [Nat.zero_add]
  obtain ⟨p, rfl, rfl, plain, extent⟩ :=
    exists_pointer hb fun terminator => stray.1 terminator.isBlank
  exact ⟨p, p.shows extent plain stray⟩

theorem exists_pointer_shows_tab :
    Diagnostic.illegalCharacter ⟨1, 2⟩ 0x40 ∈ (TokenStream.tokenize
        (Source.ofBytes "a.mk" #[0x09, 0x40, 0x0a]) (Storage.empty : Storage Diagnostic)).2.toList ∧
      ∃ p : Pointer (Source.ofBytes "a.mk" #[0x09, 0x40, 0x0a]),
        p.Shows (.illegalCharacter ⟨1, 2⟩ 0x40) := by
  have reported : Diagnostic.illegalCharacter ⟨1, 2⟩ 0x40 ∈ (TokenStream.tokenize
      (Source.ofBytes "a.mk" #[0x09, 0x40, 0x0a])
        (Storage.empty : Storage Diagnostic)).2.toList := by
    rw [toList_tokenize]
    decide
  exact ⟨reported, exists_pointer_shows reported⟩

end Lexis
