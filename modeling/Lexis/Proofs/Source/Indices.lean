import Lexis.Proofs.Source.Partition
set_option autoImplicit false

/-!
Indices and locations. Main statement: the locations of a source number its bytes line after line
and without gaps, and a byte is further on in the source where its location is further on.
-/
namespace Lexis

theorem terminatorsBefore_mono (s : List UInt8) {i j : Nat} (h : i ≤ j) :
    terminatorsBefore s i ≤ terminatorsBefore s j := (List.range_sublist.2 h).countP_le

theorem terminatorsBefore_succ (s : List UInt8) (i : Nat) :
    terminatorsBefore s (i + 1) = terminatorsBefore s i + if EndsLine s i then 1 else 0 := by
  simp only [terminatorsBefore, List.range_succ, List.countP_append, List.countP_singleton,
    decide_eq_true_eq]

theorem terminatorsBefore_line {text rest : List UInt8} {e : Ending} (plain : IsPlain text)
    (closes : e.Closes rest) :
    terminatorsBefore (text ++ (e.bytes ++ rest)) (text ++ e.bytes).length = 1 := by
  rw [List.length_append, terminatorsBefore_append, terminatorsBefore_plain plain,
    terminatorsBefore_ending closes]

/-- A terminator counts from its last byte on. -/
theorem terminatorsBefore_inside {text : List UInt8} {e : Ending} (plain : IsPlain text)
    (rest : List UInt8) {k : Nat} (inside : k < (text ++ e.bytes).length) :
    terminatorsBefore (text ++ (e.bytes ++ rest)) k = 0 := by
  have none_before := terminatorsBefore_plain plain (e.bytes ++ rest)
  rw [List.length_append] at inside
  obtain short | long := Nat.lt_or_ge text.length k
  · have second : e = .crlf ∧ k = text.length + 1 := by
      cases e <;> simp_all [Ending.bytes] <;> omega
    rw [second.1, second.2, terminatorsBefore_append, ← second.1, none_before, second.1]
    rfl
  · exact Nat.le_zero.1 (none_before ▸ terminatorsBefore_mono _ long)

theorem terminatorsBefore_split {bytes : List UInt8} {before after : List (List UInt8)}
    {line : List UInt8} {k : Nat} (split : splitLines bytes = before ++ line :: after)
    (inside : k < line.length ∨ after = [] ∧ k = line.length) :
    terminatorsBefore bytes (before.flatten.length + k) = before.length := by
  induction bytes using line_induction generalizing before with
  | last text plain =>
    rw [splitLines_plain plain] at split
    cases before with
    | nil =>
      obtain ⟨rfl, rfl⟩ := List.cons.inj split
      have all := terminatorsBefore_plain plain []
      rw [List.append_nil] at all
      refine Nat.le_zero.1 (all ▸ terminatorsBefore_mono text ?_)
      simp only [List.flatten_nil, List.length_nil]
      omega
    | cons first before => simp at split
  | line text e rest plain closes ih =>
    rw [splitLines_line plain closes] at split
    cases before with
    | nil =>
      obtain ⟨rfl, rfl⟩ := List.cons.inj split
      have not_last := inside.resolve_right fun h => splitLines_ne_nil rest h.1
      simpa using terminatorsBefore_inside plain rest not_last
    | cons first before =>
      obtain ⟨rfl, later⟩ := List.cons.inj split
      have here := terminatorsBefore_line plain closes
      rw [← List.append_assoc] at here ⊢
      rw [List.flatten_cons, List.length_append, Nat.add_assoc, terminatorsBefore_append, here,
        ih later, List.length_cons, Nat.add_comm]

namespace Source

variable {s : Source}

def lineBytes (s : Source) (number : Nat) : List UInt8 := (s.line? number).getD []

/-- The sum of the lengths of the lines in front of the given one. -/
def lineStart (s : Source) : Nat → Nat
  | 0 => 0
  | number + 1 => s.lineStart number + (s.lineBytes number).length

theorem lineStart_succ (s : Source) (number : Nat) :
    s.lineStart (number + 1) = s.lineStart number + (s.lineBytes number).length := rfl

theorem lineStart_mono (s : Source) {m n : Nat} (h : m ≤ n) : s.lineStart m ≤ s.lineStart n := by
  induction n, h using Nat.le_induction with
  | base => exact Nat.le_refl _
  | succ n _ ih =>
    rw [lineStart_succ]
    exact Nat.le_trans ih (Nat.le_add_right _ _)

theorem lineBytes_succ (s : Source) (n : Nat) :
    s.lineBytes (n + 1) = ((splitLines s.bytes)[n]?).getD [] := by rw [lineBytes, line?_eq]

theorem lineStart_eq_take (s : Source) (n : Nat) :
    s.lineStart (n + 1) = ((splitLines s.bytes).take n).flatten.length := by
  induction n with
  | zero => rfl
  | succ n ih =>
    rw [lineStart_succ, ih, lineBytes_succ, List.take_add_one, List.flatten_append,
      List.length_append]
    cases (splitLines s.bytes)[n]? <;> simp

theorem lineStart_total (s : Source) : s.lineStart (s.lineCount + 1) = s.bytes.length := by
  rw [lineStart_eq_take, lineCount_eq, List.take_length, flatten_splitLines]

theorem exists_split {number : Nat} (h : 1 ≤ number ∧ number ≤ s.lineCount) :
    ∃ before after, splitLines s.bytes = before ++ s.lineBytes number :: after ∧
      number = before.length + 1 ∧ s.lineStart number = before.flatten.length := by
  obtain ⟨n, rfl⟩ := Nat.exists_eq_add_of_le' h.1
  have inside : n < (splitLines s.bytes).length := by
    rw [← lineCount_eq]
    exact h.2
  refine ⟨(splitLines s.bytes).take n, (splitLines s.bytes).drop (n + 1), ?_, ?_,
    lineStart_eq_take s n⟩
  · rw [lineBytes_succ, List.getElem?_eq_getElem inside, Option.getD_some,
      ← List.drop_eq_getElem_cons inside, List.take_append_drop]
  · rw [List.length_take_of_le (Nat.le_of_lt inside)]

def indexOf (s : Source) (l : Location) : Nat := s.lineStart l.line + (l.column - 1)

end Source

namespace Location

structure IsIn (l : Location) (s : Source) : Prop where
  line : 1 ≤ l.line ∧ l.line ≤ s.lineCount
  column : 1 ≤ l.column ∧ l.column ≤ (s.lineBytes l.line).length

/-- A location of a byte, or the place after the last byte. -/
structure IsPlace (l : Location) (s : Source) : Prop where
  line : 1 ≤ l.line ∧ l.line ≤ s.lineCount
  column : 1 ≤ l.column
  inside : l.column ≤ (s.lineBytes l.line).length ∨
    l.line = s.lineCount ∧ l.column = (s.lineBytes l.line).length + 1

variable {s : Source} {k l : Location}

theorem IsIn.isPlace (h : l.IsIn s) : l.IsPlace s := ⟨h.line, h.column.1, .inl h.column.2⟩

theorem compare_eq_lt_iff :
    compare k l = .lt ↔ k.line < l.line ∨ k.line = l.line ∧ k.column < l.column := by
  have parts : compare k l =
      (compare k.line l.line).then ((compare k.column l.column).then .eq) := by
    cases k
    cases l
    rfl
  simp [parts, Ordering.then_eq_lt, Nat.compare_eq_lt]

namespace IsPlace

theorem indexOf_lt_lineStart (h : l.IsPlace s) (not_last : l.line < s.lineCount) :
    s.indexOf l < s.lineStart (l.line + 1) := by
  have inside := h.inside.resolve_right fun last => Nat.ne_of_lt not_last last.1
  have positive := h.column
  rw [Source.lineStart_succ, Source.indexOf]
  omega

theorem indexOf_lt (hk : k.IsPlace s) (hl : l.IsPlace s) (h : compare k l = .lt) :
    s.indexOf k < s.indexOf l := by
  obtain earlier | ⟨same, left⟩ := compare_eq_lt_iff.1 h
  · calc s.indexOf k
      _ < s.lineStart (k.line + 1) := hk.indexOf_lt_lineStart (Nat.lt_of_lt_of_le earlier hl.line.2)
      _ ≤ s.lineStart l.line := s.lineStart_mono earlier
      _ ≤ s.indexOf l := Nat.le_add_right _ _
  · have positive := hk.column
    rw [Source.indexOf, Source.indexOf, same]
    omega

/-- Places stand in the order of their indices. -/
theorem indexOf_lt_iff (hk : k.IsPlace s) (hl : l.IsPlace s) :
    s.indexOf k < s.indexOf l ↔ compare k l = .lt := by
  refine ⟨fun less => ?_, indexOf_lt hk hl⟩
  -- Otherwise the places are the same or stand the other way round.
  by_contra not_before
  obtain same | after : k = l ∨ compare l k = .lt := by
    cases k
    cases l
    simp only [compare_eq_lt_iff, mk.injEq] at not_before ⊢
    omega
  · exact Nat.ne_of_lt less (congrArg s.indexOf same)
  · exact Nat.lt_asymm less (indexOf_lt hl hk after)

theorem exists_split (h : l.IsPlace s) :
    ∃ before after, splitLines s.bytes = before ++ s.lineBytes l.line :: after ∧
      l.line = before.length + 1 ∧ s.indexOf l = before.flatten.length + (l.column - 1) ∧
      (l.column - 1 < (s.lineBytes l.line).length ∨
        after = [] ∧ l.column - 1 = (s.lineBytes l.line).length) := by
  obtain ⟨before, after, split, number, start⟩ := Source.exists_split h.line
  have positive := h.column
  refine ⟨before, after, split, number, by rw [Source.indexOf, start], ?_⟩
  obtain inside | ⟨last, past⟩ := h.inside
  · exact .inl (by omega)
  · have count := congrArg List.length split
    rw [← Source.lineCount_eq, List.length_append, List.length_cons] at count
    exact .inr ⟨List.eq_nil_of_length_eq_zero (by omega), by omega⟩

theorem line_eq (h : l.IsPlace s) : l.line = terminatorsBefore s.bytes (s.indexOf l) + 1 := by
  obtain ⟨before, after, split, number, index, inside⟩ := h.exists_split
  rw [index, terminatorsBefore_split split inside, number]

end IsPlace

theorem IsIn.location? (h : l.IsIn s) : s.location? (s.indexOf l) = some l := by
  obtain ⟨before, after, split, number, start⟩ := Source.exists_split h.line
  have inside := h.column
  rw [Source.indexOf, start, Source.location?_split split (by omega), ← number,
    Nat.sub_add_cancel inside.1]

end Location

namespace Source

variable {s : Source} {i : Nat} {l : Location}

theorem exists_isIn_of_lt_lineStart {number : Nat} (bounded : number ≤ s.lineCount)
    (h : i < s.lineStart (number + 1)) : ∃ l : Location, l.IsIn s ∧ s.indexOf l = i := by
  induction number with
  | zero => exact absurd h (Nat.not_lt_zero i)
  | succ n ih =>
    obtain earlier | here := Nat.lt_or_ge i (s.lineStart (n + 1))
    · exact ih (Nat.le_of_succ_le bounded) earlier
    · rw [lineStart_succ] at h
      exact ⟨⟨n + 1, i - s.lineStart (n + 1) + 1⟩, ⟨⟨by simp, bounded⟩, by simp only; omega⟩,
        by simp only [indexOf]; omega⟩

theorem exists_isIn (h : i < s.bytes.length) : ∃ l : Location, l.IsIn s ∧ s.indexOf l = i :=
  exists_isIn_of_lt_lineStart (Nat.le_refl s.lineCount) (by rwa [lineStart_total])

theorem location?_eq_none_iff : s.location? i = none ↔ s.bytes.length ≤ i := by
  refine ⟨fun none => ?_, location?_eq_none⟩
  by_contra inside
  obtain ⟨l, hl, rfl⟩ := exists_isIn (Nat.lt_of_not_le inside)
  exact nomatch hl.location?.symm.trans none

theorem location?_eq_some_iff : s.location? i = some l ↔ l.IsIn s ∧ s.indexOf l = i := by
  constructor
  · intro found
    have inside : i < s.bytes.length := by
      by_contra outside
      rw [location?_eq_none (Nat.le_of_not_lt outside)] at found
      exact nomatch found
    obtain ⟨k, hk, rfl⟩ := exists_isIn inside
    obtain rfl : k = l := Option.some.inj (hk.location?.symm.trans found)
    exact ⟨hk, rfl⟩
  · rintro ⟨hl, rfl⟩
    exact hl.location?

/-- Bytes and locations are in one order: each byte has one location and each location in a line
one byte, with as many bytes in front as the lines and columns say. -/
theorem location?_bijective (s : Source) :
    (∀ i l, s.location? i = some l ↔ l.IsIn s ∧ s.lineStart l.line + (l.column - 1) = i) ∧
    (∀ i, s.location? i = none ↔ s.bytes.length ≤ i) ∧
    (∀ l : Location, l.IsIn s ↔ ∃! i, s.location? i = some l) ∧
    (∀ i l, s.location? i = some l → l.line = terminatorsBefore s.bytes i + 1) ∧
    ∀ i j k l, s.location? i = some k → s.location? j = some l →
      (i < j ↔ compare k l = .lt) := by
  refine ⟨fun i l => location?_eq_some_iff, fun i => location?_eq_none_iff, fun l => ⟨fun h => ?_,
    fun ⟨i, found, _⟩ => (location?_eq_some_iff.1 found).1⟩, fun i l found => ?_,
    fun i j k l first second => ?_⟩
  · exact ⟨s.indexOf l, h.location?, fun i found => (location?_eq_some_iff.1 found).2.symm⟩
  · obtain ⟨h, rfl⟩ := location?_eq_some_iff.1 found
    exact h.isPlace.line_eq
  · obtain ⟨hk, rfl⟩ := location?_eq_some_iff.1 first
    obtain ⟨hl, rfl⟩ := location?_eq_some_iff.1 second
    exact hk.isPlace.indexOf_lt_iff hl.isPlace

end Source

end Lexis
