import Lexis.Proofs.Source.Lines
import Lexis.Proofs.Text.Styling
import Lexis.Source.Excerpt
set_option autoImplicit false

/-!
The bytes of a line as they are shown. Main statements: terminators are not shown, only marked bytes
are underlined, and in front of a byte of a line as many characters are shown as its columns.
-/
namespace Lexis

namespace Excerpt

theorem pieces_eq (x : Excerpt) :
    x.pieces = (x.rows.map (Row.pieces x.width)).flatMap (· ++ [.plain "\n"]) := by
  rw [List.flatMap_map]
  rfl

theorem pieces_of_isTerminator {b : UInt8} (h : IsTerminator b) (marked : Bool) :
    Cell.pieces ⟨b, marked⟩ = [] := by
  obtain rfl | rfl := h <;> rfl

def cells (marks : Nat → Bool) (column : Nat) (line : List UInt8) : List Cell :=
  (line.zipIdx column).map fun (b, n) => ⟨b, marks n⟩

theorem cells_cons (marks : Nat → Bool) (column : Nat) (b : UInt8) (rest : List UInt8) :
    cells marks column (b :: rest) = ⟨b, marks column⟩ :: cells marks (column + 1) rest := rfl

theorem cells_append (marks : Nat → Bool) (column : Nat) (a b : List UInt8) :
    cells marks column (a ++ b) = cells marks column a ++ cells marks (column + a.length) b := by
  simp only [cells, List.zipIdx_append, List.map_append]

theorem pieces_terminators {tail : List UInt8} (h : ∀ b ∈ tail, IsTerminator b)
    (marks : Nat → Bool) (column : Nat) : (cells marks column tail).flatMap Cell.pieces = [] := by
  refine List.flatMap_eq_nil_iff.2 fun c hc => ?_
  obtain ⟨⟨b, n⟩, hb, rfl⟩ := List.mem_map.1 hc
  exact pieces_of_isTerminator (h b (List.fst_mem_of_mem_zipIdx hb)) (marks n)

theorem pieces_chomp (marks : Nat → Bool) (column : Nat) (line : List UInt8) :
    (cells marks column (chomp line)).flatMap Cell.pieces =
      (cells marks column line).flatMap Cell.pieces := by
  obtain ⟨tail, joined, terminators⟩ := exists_terminators line
  have split := congrArg (fun line => (cells marks column line).flatMap Cell.pieces) joined
  simp only [cells_append, List.flatMap_append, pieces_terminators terminators,
    List.append_nil] at split
  exact split.symm

theorem pieces_of_tab (marked : Bool) : Cell.pieces ⟨0x09, marked⟩ = [.plain (spaces 4)] := rfl

theorem pieces_of_visible {b : UInt8} (inside : ¬ IsTerminator b) (tab : Latin1.char b ≠ '\t')
    (marked : Bool) : Cell.pieces ⟨b, marked⟩ =
      [⟨if marked then [.underline, .bold, .red] else [], (Latin1.char b).toString⟩] := by
  have feed : Latin1.char b ≠ '\n' := fun h => inside (.inl (Latin1.char_inj.1 h))
  have carriage : Latin1.char b ≠ '\r' := fun h => inside (.inr (Latin1.char_inj.1 h))
  unfold Cell.pieces
  split <;> simp_all

/-- What is seen of a byte in its line, whether it is marked or not. -/
def glyphs (b : UInt8) : List Char :=
  if b = 0x09 then [' ', ' ', ' ', ' ']
  else if b = 0x0a ∨ b = 0x0d then []
  else [Char.ofNat b.toNat]

theorem glyphs_of_isTerminator {b : UInt8} (h : IsTerminator b) : glyphs b = [] := by
  obtain rfl | rfl := h <;> rfl

theorem glyphs_of_visible {b : UInt8} (inside : ¬ IsTerminator b) (tab : b ≠ 0x09) :
    glyphs b = [Latin1.char b] := by
  have shown : ¬ (b = 0x0a ∨ b = 0x0d) := inside
  rw [glyphs, if_neg tab, if_neg shown, Latin1.char_eq_ofNat]

def unmarked (line : List UInt8) : List Styled :=
  line.flatMap fun b => if IsTerminator b then [] else [⟨[], String.ofList (glyphs b)⟩]

theorem pieces_unmarked (b : UInt8) : Cell.pieces ⟨b, false⟩ =
    if IsTerminator b then [] else [⟨[], String.ofList (glyphs b)⟩] := by
  by_cases terminator : IsTerminator b
  · rw [pieces_of_isTerminator terminator, if_pos terminator]
  · rw [if_neg terminator]
    by_cases tab : b = 0x09
    · subst tab
      rfl
    · rw [pieces_of_visible terminator (fun same => tab (Latin1.char_inj.1 same)),
        glyphs_of_visible terminator tab]
      rfl

theorem pieces_of_not_marked {marks : Nat → Bool} {column : Nat} {line : List UInt8}
    (h : ∀ n, column ≤ n → n < column + line.length → marks n = false) :
    (cells marks column line).flatMap Cell.pieces = unmarked line := by
  induction line generalizing column with
  | nil => rfl
  | cons b rest ih =>
    have first : marks column = false := h column (Nat.le_refl _) (by simp)
    have later : (cells marks (column + 1) rest).flatMap Cell.pieces = unmarked rest :=
      ih fun n from_next to_end => h n (by omega) (by simp only [List.length_cons]; omega)
    rw [cells_cons, List.flatMap_cons, later, first, pieces_unmarked]
    rfl

def mark (b : UInt8) : Styled := ⟨[.underline, .bold, .red], (Latin1.char b).toString⟩

theorem pieces_of_marked {marks : Nat → Bool} {column : Nat} {before after : List UInt8} {b : UInt8}
    (inside : ¬ IsTerminator b) (tab : Latin1.char b ≠ '\t')
    (h : ∀ n, column ≤ n → n < column + (before ++ b :: after).length →
      (marks n = true ↔ n = column + before.length)) :
    (cells marks column (before ++ b :: after)).flatMap Cell.pieces =
      unmarked before ++ mark b :: unmarked after := by
  have long : (before ++ b :: after).length = before.length + (after.length + 1) := by simp
  have not_before : (cells marks column before).flatMap Cell.pieces = unmarked before :=
    pieces_of_not_marked fun n from_first to_mark => Bool.eq_false_iff.2 fun marked => by
      have place := (h n from_first (by omega)).1 marked
      omega
  have not_after : (cells marks (column + before.length + 1) after).flatMap Cell.pieces =
      unmarked after :=
    pieces_of_not_marked fun n past_mark to_last => Bool.eq_false_iff.2 fun marked => by
      have place := (h n (by omega) (by omega)).1 marked
      omega
  have here : marks (column + before.length) = true := (h _ (by omega) (by omega)).2 rfl
  rw [cells_append, cells_cons, List.flatMap_append, List.flatMap_cons, not_before, not_after, here,
    pieces_of_visible inside tab]
  rfl

theorem filter_unmarked (line : List UInt8) : (unmarked line).filter Styled.isUnderlined = [] := by
  refine List.filter_eq_nil_iff.2 fun x hx => ?_
  obtain ⟨b, _, shown⟩ := List.mem_flatMap.1 hx
  split at shown
  · simp at shown
  · simp [List.mem_singleton.1 shown, Styled.isUnderlined]

theorem characters_unmarked (line : List UInt8) :
    Styled.characters (unmarked line) = line.flatMap glyphs := by
  induction line with
  | nil => rfl
  | cons b rest ih =>
    have first : Styled.characters
        (if IsTerminator b then [] else [⟨[], String.ofList (glyphs b)⟩]) = glyphs b := by
      split
      · next terminator => rw [glyphs_of_isTerminator terminator]; rfl
      · simp [Styled.characters]
    rw [List.flatMap_cons, ← ih, ← first]
    exact Styled.characters_append _ _

theorem characters_pieces (c : Cell) : Styled.characters c.pieces = glyphs c.byte := by
  obtain ⟨b, marked⟩ := c
  by_cases tab : b = 0x09
  · subst tab
    rfl
  · by_cases terminator : IsTerminator b
    · rw [pieces_of_isTerminator terminator, glyphs_of_isTerminator terminator]
      rfl
    · rw [pieces_of_visible terminator (fun same => tab (Latin1.char_inj.1 same)),
        glyphs_of_visible terminator tab]
      simp [Styled.characters]

theorem characters_cells (cs : List Cell) :
    Styled.characters (cs.flatMap Cell.pieces) = (cs.map (·.byte)).flatMap glyphs := by
  induction cs with
  | nil => rfl
  | cons c cs ih =>
    rw [List.flatMap_cons, Styled.characters_append, characters_pieces, ih, List.map_cons,
      List.flatMap_cons]

theorem length_glyphs (b : UInt8) : (if Latin1.char b = '\t' then 4 else 1) =
    (glyphs b).length + if IsTerminator b then 1 else 0 := by
  have tab : Latin1.char b = '\t' ↔ b = 0x09 := Latin1.char_inj (c := 0x09)
  simp only [tab]
  by_cases is_tab : b = 0x09
  · subst is_tab
    rfl
  · by_cases terminator : IsTerminator b
    · simp [is_tab, terminator, glyphs_of_isTerminator]
    · simp [is_tab, terminator, glyphs_of_visible]

/-- Columns count terminators, which are not shown. -/
theorem columns_eq (bytes : List UInt8) :
    columns bytes = (bytes.flatMap glyphs).length + bytes.countP (IsTerminator ·) := by
  induction bytes with
  | nil => rfl
  | cons b rest ih =>
    simp only [columns, length_glyphs, ih, List.flatMap_cons, List.length_append, List.countP_cons,
      decide_eq_true_eq]
    omega

theorem columns_of_plain {text : List UInt8} (plain : IsPlain text) :
    columns text = (text.flatMap glyphs).length := by
  have none_hidden : text.countP (IsTerminator ·) = 0 :=
    List.countP_eq_zero.2 fun b hb => by simpa using plain b hb
  rw [columns_eq, none_hidden, Nat.add_zero]

end Excerpt

end Lexis
