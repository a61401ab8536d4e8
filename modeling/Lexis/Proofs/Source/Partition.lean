import Lexis.Proofs.Scan.Tokenization
import Lexis.Proofs.Source.Locations
set_option autoImplicit false

/-!
The line table, said of the whole list of spans and without the way it is found. Main statement: it
is the only list of adjacent spans that cut a text behind each of its terminators and nowhere else.
-/
namespace Lexis

def EndsLine (s : List UInt8) (i : Nat) : Prop :=
  s[i]? = some lineFeed ∨ (s[i]? = some carriageReturn ∧ s[i + 1]? ≠ some lineFeed)

instance (s : List UInt8) : DecidablePred (EndsLine s) :=
  fun _ => inferInstanceAs (Decidable (_ ∨ _))

def terminatorsBefore (s : List UInt8) (index : Nat) : Nat :=
  (List.range index).countP fun i => decide (EndsLine s i)

/-- The span has a terminator at its end and no other, and it takes the whole of it. -/
def Span.IsTerminated (x : Span) (s : List UInt8) : Prop :=
  ∃ (text : List UInt8) (e : Ending), x.stop = x.start + (text ++ e.bytes).length ∧
    x.bytesOf s = text ++ e.bytes ∧ IsPlain text ∧ e.Closes (s.drop x.stop)

/-- Adjacent spans from an index to the end of a text, of which each but the last is terminated. A
span with the first byte of a long terminator has the second one, too. -/
structure IsLineTable (s : List UInt8) (start : Nat) (xs : List Span) : Prop where
  first : ∀ x ∈ xs.head?, x.start = start
  adjacent : xs.IsChain fun x y => x.stop = y.start
  last : ∃ x ∈ xs.getLast?, x.stop = s.length ∧ IsPlain (x.bytesOf s)
  terminated : ∀ x ∈ xs.dropLast, x.start < x.stop ∧ x.IsTerminated s
  together : ∀ x ∈ xs, ∀ i, x.start ≤ i → i < x.stop →
    s[i]? = some carriageReturn → s[i + 1]? = some lineFeed → i + 1 < x.stop

namespace Span

variable {s : List UInt8} {x : Span}

theorem IsTerminated.drop_eq (h : x.IsTerminated s) :
    ∃ (text : List UInt8) (e : Ending), x.stop = x.start + (text ++ e.bytes).length ∧
      s.drop x.start = text ++ (e.bytes ++ s.drop x.stop) ∧ IsPlain text ∧
        e.Closes (s.drop x.stop) := by
  obtain ⟨text, e, width, bytes, plain, closes⟩ := h
  refine ⟨text, e, width, ?_, plain, closes⟩
  rw [drop_eq_append s (q := x.stop) (by omega), ← List.append_assoc, ← bytes, bytesOf]

theorem IsTerminated.stop_le (h : x.IsTerminated s) (bounded : x.start ≤ s.length) :
    x.stop ≤ s.length := by
  obtain ⟨text, e, width, split, _, _⟩ := h.drop_eq
  have size := congrArg List.length split
  simp only [List.length_append, List.length_drop] at size width
  omega

theorem isTerminated_of_drop {text rest : List UInt8} {e : Ending} {start : Nat}
    (split : s.drop start = text ++ (e.bytes ++ rest)) (plain : IsPlain text)
    (closes : e.Closes rest) : (mk start (start + (text ++ e.bytes).length)).IsTerminated s := by
  rw [← List.append_assoc] at split
  exact ⟨text, e, rfl, bytesOf_of_drop split, plain, by rwa [drop_of_drop_eq_append split]⟩

theorem IsTerminated.nonempty (h : x.IsTerminated s) : x.start < x.stop := by
  obtain ⟨text, e, width, _⟩ := h
  have taken := List.length_pos_iff.2 e.bytes_ne_nil
  rw [List.length_append] at width
  omega

theorem IsTerminated.together (h : x.IsTerminated s) {i : Nat} (inside : i < x.stop)
    (carriage : s[i]? = some carriageReturn) (feed : s[i + 1]? = some lineFeed) :
    i + 1 < x.stop := by
  refine Nat.lt_of_le_of_ne inside fun at_end => ?_
  obtain ⟨text, e, width, split, _, closes⟩ := h.drop_eq
  have ending (n : Nat) : s[x.start + text.length + n]? = (e.bytes ++ s.drop x.stop)[n]? := by
    rw [← drop_of_drop_eq_append split, List.getElem?_drop]
  rw [List.length_append, ← Nat.add_assoc] at width
  cases e with
  | lf =>
    obtain rfl : i = x.start + text.length := Nat.succ.inj (at_end.trans width)
    have byte : s[x.start + text.length]? = some lineFeed := ending 0
    exact absurd (carriage.symm.trans byte) (by decide)
  | crlf =>
    obtain rfl : i = x.start + text.length + 1 := Nat.succ.inj (at_end.trans width)
    have byte : s[x.start + text.length + 1]? = some lineFeed := ending 1
    exact absurd (carriage.symm.trans byte) (by decide)
  | cr =>
    rw [at_end] at feed
    exact closes rfl (List.head?_drop.trans feed)

end Span

namespace IsLineTable

variable {s : List UInt8} {start : Nat} {x y : Span} {xs : List Span}

theorem tail (h : IsLineTable s start (x :: y :: xs)) : IsLineTable s x.stop (y :: xs) := by
  obtain ⟨meet, adjacent⟩ := List.isChain_cons_cons.1 h.adjacent
  refine ⟨fun z hz => ?_, adjacent, ?_, fun z hz => ?_, fun z hz => ?_⟩
  · rw [← Option.some.inj hz, meet]
  · simpa using h.last
  · exact h.terminated z (by simp [hz])
  · exact h.together z (List.mem_cons_of_mem x hz)

/-- There is no other way to cut a text into lines. -/
theorem eq_spansFrom (h : IsLineTable s start xs) (bounded : start ≤ s.length) :
    xs = spansFrom start (splitLines (s.drop start)) := by
  induction xs generalizing start with
  | nil =>
    obtain ⟨x, hx, _⟩ := h.last
    exact nomatch hx
  | cons x xs ih =>
    obtain rfl : x.start = start := h.first x rfl
    cases xs with
    | nil =>
      obtain ⟨z, hz, to_end, plain⟩ := h.last
      obtain rfl : x = z := Option.some.inj hz
      have whole : x.bytesOf s = s.drop x.start := by
        rw [Span.bytesOf, to_end, List.take_of_length_le (by rw [List.length_drop])]
      rw [← whole, splitLines_plain plain, whole, spansFrom, spansFrom, List.length_drop,
        Nat.add_sub_cancel' bounded, ← to_end]
    | cons y xs =>
      have terminated := (h.terminated x (by simp)).2
      obtain ⟨text, e, width, split, plain, closes⟩ := terminated.drop_eq
      have rest := ih h.tail (terminated.stop_le bounded)
      rw [split, splitLines_line plain closes, spansFrom, ← width, ← rest]

theorem single (plain : IsPlain (s.drop start)) :
    IsLineTable s start [⟨start, s.length⟩] := by
  have whole : (Span.mk start s.length).bytesOf s = s.drop start :=
    List.take_of_length_le (by rw [List.length_drop])
  refine ⟨by simp, List.isChain_singleton _, ⟨_, rfl, rfl, whole ▸ plain⟩, by simp, ?_⟩
  intro x hx i from_start _ carriage _
  obtain rfl := List.mem_singleton.1 hx
  refine absurd (.inr rfl) (plain carriageReturn (List.mem_of_getElem? (i := i - start) ?_))
  rw [List.getElem?_drop, Nat.add_sub_cancel' from_start, carriage]

theorem cons (terminated : x.IsTerminated s) (h : IsLineTable s x.stop xs) :
    IsLineTable s x.start (x :: xs) := by
  obtain ⟨z, hz, to_end⟩ := h.last
  obtain ⟨y, ys, rfl⟩ : ∃ y ys, xs = y :: ys := List.exists_cons_of_ne_nil fun none => by
    simp [none] at hz
  refine ⟨by simp, ?_, ⟨z, by simpa using hz, to_end⟩, ?_, ?_⟩
  · exact List.isChain_cons_cons.2 ⟨(h.first y rfl).symm, h.adjacent⟩
  · rw [List.dropLast_cons_cons]
    exact List.forall_mem_cons.2 ⟨⟨terminated.nonempty, terminated⟩, h.terminated⟩
  · exact List.forall_mem_cons.2 ⟨fun i _ to_stop => terminated.together to_stop, h.together⟩

theorem of_drop {bytes : List UInt8} (suffix : s.drop start = bytes)
    (bounded : start ≤ s.length) :
    IsLineTable s start (spansFrom start (splitLines bytes)) := by
  induction bytes using line_induction generalizing start with
  | last text plain =>
    have to_end := congrArg List.length suffix
    rw [List.length_drop] at to_end
    have stop : start + text.length = s.length := by omega
    rw [splitLines_plain plain, spansFrom, spansFrom, stop]
    exact single (suffix ▸ plain)
  | line text e rest plain closes ih =>
    have terminated := Span.isTerminated_of_drop suffix plain closes
    rw [splitLines_line plain closes, spansFrom]
    rw [← List.append_assoc] at suffix
    exact cons terminated (ih (drop_of_drop_eq_append suffix) (terminated.stop_le bounded))

end IsLineTable

theorem slice_eq_bytesOf (s : Source) (x : Span) : s.slice x = x.bytesOf s.bytes := by
  simp [Source.slice, Source.bytes, Span.bytesOf]

theorem endsLine_append (a b : List UInt8) (i : Nat) :
    EndsLine (a ++ b) (a.length + i) ↔ EndsLine b i := by
  rw [EndsLine, EndsLine, Nat.add_assoc, List.getElem?_append_right (Nat.le_add_right _ _),
    List.getElem?_append_right (Nat.le_add_right _ _), Nat.add_sub_cancel_left,
    Nat.add_sub_cancel_left]

theorem terminatorsBefore_append (a b : List UInt8) (n : Nat) :
    terminatorsBefore (a ++ b) (a.length + n) =
      terminatorsBefore (a ++ b) a.length + terminatorsBefore b n := by
  simp only [terminatorsBefore, List.range_add, List.countP_append, List.countP_map,
    Function.comp_def, endsLine_append]

theorem terminatorsBefore_plain {text : List UInt8} (plain : IsPlain text) (rest : List UInt8) :
    terminatorsBefore (text ++ rest) text.length = 0 := by
  refine List.countP_eq_zero.2 fun i hi => ?_
  have byte : (text ++ rest)[i]? = text[i]? := List.getElem?_append_left (List.mem_range.1 hi)
  rw [decide_eq_true_eq, EndsLine, byte]
  intro ends
  obtain feed | ⟨carriage, _⟩ := ends
  · exact plain _ (List.mem_of_getElem? feed) (.inl rfl)
  · exact plain _ (List.mem_of_getElem? carriage) (.inr rfl)

theorem terminatorsBefore_ending {e : Ending} {rest : List UInt8} (closes : e.Closes rest) :
    terminatorsBefore (e.bytes ++ rest) e.bytes.length = 1 := by
  cases e with
  | lf => rfl
  | crlf => rfl
  | cr =>
    have next : rest[0]? ≠ some lineFeed := fun feed =>
      closes rfl (List.head?_eq_getElem?.trans feed)
    simp [terminatorsBefore, EndsLine, Ending.bytes, next]

theorem length_splitLines (bytes : List UInt8) :
    (splitLines bytes).length = terminatorsBefore bytes bytes.length + 1 := by
  induction bytes using line_induction with
  | last text plain =>
    have none_found := terminatorsBefore_plain plain []
    rw [List.append_nil] at none_found
    rw [splitLines_plain plain, none_found, List.length_singleton]
  | line text e rest plain closes ih =>
    rw [splitLines_line plain closes, List.length_cons, ih, List.length_append, List.length_append,
      terminatorsBefore_append, terminatorsBefore_append, terminatorsBefore_plain plain,
      terminatorsBefore_ending closes]
    omega

namespace Source

theorem map_line? (s : Source) :
    (List.range' 1 s.lineCount).map s.line? = (splitLines s.bytes).map some := by
  refine List.ext_getElem (by simp [lineCount_eq]) fun n inside _ => ?_
  rw [List.length_map, List.length_range', lineCount_eq] at inside
  simp [Nat.add_comm 1, line?_eq, List.getElem?_eq_getElem inside]

theorem line?_eq_none_iff (s : Source) (number : Nat) :
    s.line? number = none ↔ number = 0 ∨ s.lineCount < number := by
  cases number with
  | zero => exact ⟨fun _ => .inl rfl, fun _ => rfl⟩
  | succ n =>
    rw [line?_eq, List.getElem?_eq_none_iff, lineCount_eq]
    omega

/-- The line table is the only partition of a content into lines. -/
theorem isLineTable_iff (s : Source) :
    (∀ xs, IsLineTable s.bytes 0 xs ↔ xs = (lineTable s.bytes).toList) ∧
    (∃ lines : List (List UInt8), (List.range' 1 s.lineCount).map s.line? = lines.map some ∧
      lines.flatten = s.bytes) ∧
    (∀ number, s.line? number = none ↔ number = 0 ∨ s.lineCount < number) ∧
    s.lineCount = terminatorsBefore s.bytes s.bytes.length + 1 := by
  have table : (lineTable s.bytes).toList = spansFrom 0 (splitLines s.bytes) := by
    rw [← lines_toList, s.lines_eq]
    rfl
  refine ⟨fun xs => ⟨fun h => ?_, ?_⟩, ⟨_, map_line? s, flatten_splitLines s.bytes⟩,
    line?_eq_none_iff s, ?_⟩
  · rw [table]
    exact h.eq_spansFrom (Nat.zero_le _)
  · intro same
    rw [same, table]
    exact IsLineTable.of_drop List.drop_zero (Nat.zero_le _)
  · rw [lineCount_eq, length_splitLines]

end Source

end Lexis
