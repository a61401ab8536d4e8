import Lexis.Proofs.Source.Cells
import Lexis.Proofs.Source.Locations
set_option autoImplicit false

/-!
Sources that differ in their terminators only. Main statement: they show the same excerpt of any
extent that begins inside a line.
-/
namespace Lexis

def Source.SameText (s s' : Source) : Prop :=
  s.lineCount = s'.lineCount ∧ ∀ n, (s.line? n).map chomp = (s'.line? n).map chomp

theorem Source.sameText_iff {s s' : Source} :
    s.SameText s' ↔ (splitLines s.bytes).map chomp = (splitLines s'.bytes).map chomp := by
  constructor
  · intro same
    refine List.ext_getElem? fun n => ?_
    rw [List.getElem?_map, List.getElem?_map, ← line?_eq, ← line?_eq, same.2]
  · intro texts
    refine ⟨?_, fun n => ?_⟩
    · have lengths := congrArg List.length texts
      rwa [List.length_map, List.length_map, ← lineCount_eq, ← lineCount_eq] at lengths
    · cases n with
      | zero => rfl
      | succ n => rw [line?_eq, line?_eq, ← List.getElem?_map, ← List.getElem?_map, texts]

theorem Source.sameText_convert (e : Ending) (path path' : String) (content : Array UInt8) :
    (ofBytes path content).SameText (ofBytes path' (e.convert content.toList).toArray) :=
  sameText_iff.2 (chomp_splitLines_convert e content.toList).symm

namespace Excerpt

variable {s s' : Source}

theorem lineRow?_pieces (same : s.SameText s') (marks : Nat → Bool) (number width : Nat) :
    (lineRow? s marks number).map (Row.pieces width) =
      (lineRow? s' marks number).map (Row.pieces width) := by
  have of_text : ∀ s : Source, (lineRow? s marks number).map (Row.pieces width) =
      ((s.line? number).map chomp).map fun text =>
        Row.pieces width (.line number (cells marks 1 text)) := by
    intro s
    simp only [lineRow?, Option.map_map, Function.comp_def, Row.pieces, pieces_chomp]
    rfl
  rw [of_text, of_text, same.2]

theorem indent_eq (same : s.SameText s') {start : Location} {text : List UInt8}
    (line : (s.line? start.line).map chomp = some text)
    (inside : start.column ≤ text.length + 1) : indent s start = indent s' start := by
  have of_text : ∀ s : Source, (s.line? start.line).map chomp = some text →
      indent s start = columns (text.take (start.column - 1)) := by
    intro s line
    obtain ⟨bytes, found, rfl⟩ := Option.map_eq_some_iff.1 line
    obtain ⟨tail, joined, _⟩ := exists_terminators bytes
    have visible : bytes.take (start.column - 1) = (chomp bytes).take (start.column - 1) := by
      conv => lhs; rw [joined]
      exact List.take_append_of_le_length (by omega)
    rw [indent, found, Option.getD_some, visible]
  rw [of_text s line, of_text s' (same.2 start.line ▸ line)]

theorem render_ofSpan (same : s.SameText s') (path : s.path = s'.path) {x x' : Span}
    (extent : Extent.ofSpan s x = Extent.ofSpan s' x') {text : List UInt8}
    (line : (s.line? (Extent.ofSpan s x).start.line).map chomp = some text)
    (inside : (Extent.ofSpan s x).start.column ≤ text.length + 1) (help? : Option String) :
    (ofSpan s x help?).render = (ofSpan s' x' help?).render := by
  have note : noteRow? s (Extent.ofSpan s x) help? = noteRow? s' (Extent.ofSpan s x) help? := by
    rw [noteRow?, noteRow?, indent_eq same line inside]
  have width : (ofSpan s x help?).width = (ofSpan s' x' help?).width := congrArg Extent.width extent
  have rows : ∀ width : Nat, (ofSpan s x help?).rows.map (Row.pieces width) =
      (ofSpan s' x' help?).rows.map (Row.pieces width) := by
    intro width
    simp only [ofSpan, ← extent, List.map_append, List.map_filterMap, ← Option.toList_map,
      contextRow?, lineRow?_pieces same, note, path]
  rw [render, render, pieces_eq, pieces_eq, width, rows]

end Excerpt

end Lexis
