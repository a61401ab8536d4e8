import Lexis.Proofs.Source.Lines
set_option autoImplicit false

/-!
The line table and the search in it. Main statements: the table holds the places of the lines of the
text, and the location of a byte is the number of its line and its place there.
-/
namespace Lexis

def spansFrom (start : Nat) : List (List UInt8) → List Span
  | [] => []
  | line :: rest => ⟨start, start + line.length⟩ :: spansFrom (start + line.length) rest

theorem spansFrom_length (start : Nat) (lines : List (List UInt8)) :
    (spansFrom start lines).length = lines.length := by
  induction lines generalizing start with
  | nil => rfl
  | cons line rest ih => simp [spansFrom, ih]

theorem spansFrom_append (start : Nat) (a b : List (List UInt8)) :
    spansFrom start (a ++ b) = spansFrom start a ++ spansFrom (start + a.flatten.length) b := by
  induction a generalizing start with
  | nil => rfl
  | cons line a ih =>
    rw [List.cons_append, spansFrom, ih, spansFrom, List.flatten_cons, List.length_append,
      Nat.add_assoc, List.cons_append]

theorem spansFrom_split (start : Nat) (before : List (List UInt8)) (line : List UInt8)
    (after : List (List UInt8)) :
    (spansFrom start (before ++ line :: after))[before.length]? =
      some ⟨start + before.flatten.length, start + before.flatten.length + line.length⟩ := by
  have here := spansFrom_length start before
  rw [spansFrom_append, spansFrom, List.getElem?_append_right (by omega), here, Nat.sub_self]
  rfl

theorem start_le_of_mem_spansFrom {start : Nat} {lines : List (List UInt8)} {x : Span}
    (h : x ∈ spansFrom start lines) : start ≤ x.start ∧ x.start ≤ x.stop := by
  induction lines generalizing start with
  | nil => simp [spansFrom] at h
  | cons line rest ih =>
    obtain rfl | h := List.mem_cons.1 h
    · simp
    · have later := ih h
      omega

theorem spansFrom_sorted (start : Nat) (lines : List (List UInt8)) :
    (spansFrom start lines).Pairwise fun x y => x.stop ≤ y.start := by
  induction lines generalizing start with
  | nil => exact .nil
  | cons line rest ih =>
    exact List.pairwise_cons.2 ⟨fun x hx => (start_le_of_mem_spansFrom hx).1, ih _⟩

namespace LineTable

theorem linesOnto_crlf (found : Array Span) (start position : Nat) (rest : List UInt8) :
    linesOnto found start position (carriageReturn :: lineFeed :: rest) =
      linesOnto (found.push ⟨start, position + 2⟩) (position + 2) (position + 2) rest := rfl

theorem linesOnto_cons {b : UInt8} {rest : List UInt8} (found : Array Span) (start position : Nat)
    (short : b = carriageReturn → rest.head? ≠ some lineFeed) :
    linesOnto found start position (b :: rest) =
      if IsTerminator b then
        linesOnto (found.push ⟨start, position + 1⟩) (position + 1) (position + 1) rest
      else linesOnto found start (position + 1) rest :=
  linesOnto.eq_3 found start position b rest fun _ carriage feed => short carriage (feed ▸ rfl)

theorem linesOnto_plain {text : List UInt8} (found : Array Span) (start position : Nat)
    (plain : IsPlain text) (rest : List UInt8) :
    linesOnto found start position (text ++ rest) =
      linesOnto found start (position + text.length) rest := by
  induction text generalizing position with
  | nil => rfl
  | cons b text ih =>
    obtain ⟨inside, plain⟩ := isPlain_cons.1 plain
    rw [List.cons_append, linesOnto_cons _ _ _ fun h => absurd (.inr h) inside, if_neg inside,
      ih _ plain, List.length_cons, Nat.add_assoc, Nat.add_comm 1]

theorem linesOnto_ending {e : Ending} {rest : List UInt8} (found : Array Span)
    (start position : Nat) (closes : e.Closes rest) :
    linesOnto found start position (e.bytes ++ rest) =
      linesOnto (found.push ⟨start, position + e.bytes.length⟩) (position + e.bytes.length)
        (position + e.bytes.length) rest := by
  cases e with
  | lf => exact linesOnto_cons (b := lineFeed) _ _ _ fun h => absurd h (by decide)
  | crlf => exact linesOnto_crlf found start position rest
  | cr => exact linesOnto_cons (b := carriageReturn) _ _ _ fun _ => closes rfl

theorem linesOnto_toList (found : Array Span) (start : Nat) (bytes : List UInt8) :
    (linesOnto found start start bytes).toList =
      found.toList ++ spansFrom start (splitLines bytes) := by
  induction bytes using line_induction generalizing found start with
  | last text plain =>
    have scanned := linesOnto_plain found start start plain []
    rw [List.append_nil] at scanned
    simp [scanned, linesOnto, splitLines_plain plain, spansFrom]
  | line text e rest plain closes ih =>
    rw [linesOnto_plain found start start plain, linesOnto_ending _ _ _ closes, ih,
      splitLines_line plain closes, spansFrom]
    simp [Nat.add_assoc]

theorem find?_eq {lines : Array Span} {index low high : Nat} {bounded : high ≤ lines.size}
    (forward : ∀ x ∈ lines, x.start ≤ x.stop)
    (sorted : lines.toList.Pairwise fun x y => x.stop ≤ y.start) {n : Nat}
    (low_le : low ≤ n) (lt_high : n < high)
    (inside : lines[n].start ≤ index ∧ index < lines[n].stop) :
    find? lines index low high bounded = some ⟨n, by omega⟩ := by
  have apart : ∀ (m k : Nat) (hm : m < lines.size) (hk : k < lines.size), m < k →
      lines[m].stop ≤ lines[k].start := fun m k hm hk less =>
    List.pairwise_iff_getElem.1 sorted m k hm hk less
  fun_induction find? lines index low high bounded with
  | case1 low high bounded open_range middle lt before ih =>
    have middle_forward := forward _ (Array.getElem_mem lt)
    obtain less | same | less := Nat.lt_trichotomy n middle
    · exact ih low_le less inside
    · simp only [same] at inside
      omega
    · have := apart middle n lt (by omega) less
      omega
  | case2 low high bounded open_range middle lt not_before past ih =>
    obtain less | same | less := Nat.lt_trichotomy n middle
    · have := apart n middle (by omega) lt less
      omega
    · simp only [same] at inside
      omega
    · exact ih less lt_high inside
  | case3 low high bounded open_range middle lt not_before not_past =>
    obtain less | same | less := Nat.lt_trichotomy n middle
    · have := apart n middle (by omega) lt less
      omega
    · exact congrArg some (Fin.ext same.symm)
    · have := apart middle n lt (by omega) less
      omega
  | case4 low high bounded closed => omega

end LineTable

namespace Source

variable {s : Source} {before after : List (List UInt8)} {line : List UInt8}

theorem lines_toList (s : Source) : s.lines.toList = spansFrom 0 (splitLines s.bytes) := by
  rw [s.lines_eq, lineTable, LineTable.linesOnto_toList]
  rfl

theorem lineCount_eq (s : Source) : s.lineCount = (splitLines s.bytes).length := by
  rw [lineCount, ← Array.length_toList, lines_toList, spansFrom_length]

theorem lines_split (split : splitLines s.bytes = before ++ line :: after) :
    s.lines[before.length]? =
      some ⟨before.flatten.length, before.flatten.length + line.length⟩ := by
  have found := spansFrom_split 0 before line after
  rw [Nat.zero_add] at found
  rw [← Array.getElem?_toList, lines_toList, split, found]

theorem line?_split (split : splitLines s.bytes = before ++ line :: after) :
    s.line? (before.length + 1) = some line := by
  have joined : before.flatten ++ (line ++ after.flatten) = s.bytes := by
    rw [← flatten_splitLines s.bytes, split]
    simp
  have content : s.content.toList = before.flatten ++ (line ++ after.flatten) := joined.symm
  simp [line?, lines_split split, slice, content]

theorem pos_of_line? {number : Nat} (h : s.line? number = some line) : 0 < number := by
  cases number with
  | zero => exact nomatch h
  | succ n => exact Nat.succ_pos n

theorem line?_eq (s : Source) (n : Nat) : s.line? (n + 1) = (splitLines s.bytes)[n]? := by
  by_cases inside : n < (splitLines s.bytes).length
  · have split := List.take_append_drop n (splitLines s.bytes)
    rw [List.drop_eq_getElem_cons inside] at split
    have here : ((splitLines s.bytes).take n).length = n := List.length_take_of_le (by omega)
    rw [List.getElem?_eq_getElem inside, ← line?_split split.symm, here]
  · have outside : s.lines.size ≤ n := by
      rw [← lineCount, lineCount_eq]
      omega
    rw [line?, Array.getElem?_eq_none outside, List.getElem?_eq_none (by omega)]
    rfl

theorem exists_line? {s : Source} {number : Nat} (h : 1 ≤ number ∧ number < 1 + s.lineCount) :
    ∃ line, s.line? number = some line := by
  obtain ⟨n, rfl⟩ := Nat.exists_eq_add_of_le' h.1
  rw [lineCount_eq] at h
  exact ⟨_, (line?_eq s n).trans (List.getElem?_eq_getElem (by omega))⟩

theorem location?_split (split : splitLines s.bytes = before ++ line :: after) {i : Nat}
    (inside : i < line.length) :
    s.location? (before.flatten.length + i) = some ⟨before.length + 1, i + 1⟩ := by
  have forward : ∀ x ∈ s.lines, x.start ≤ x.stop := fun x hx => by
    rw [← Array.mem_toList_iff, lines_toList] at hx
    exact (start_le_of_mem_spansFrom hx).2
  have sorted : s.lines.toList.Pairwise fun x y => x.stop ≤ y.start :=
    lines_toList s ▸ spansFrom_sorted 0 _
  have within : before.flatten.length + i < s.content.size := by
    have whole := congrArg List.length (flatten_splitLines s.bytes)
    rw [split] at whole
    simp only [List.flatten_append, List.flatten_cons, List.length_append, bytes,
      Array.length_toList] at whole
    omega
  obtain ⟨lt, found⟩ := Array.getElem?_eq_some_iff.1 (lines_split split)
  have searched : LineTable.find? s.lines (before.flatten.length + i) 0 s.lines.size
      (Nat.le_refl _) = some ⟨before.length, lt⟩ := by
    refine LineTable.find?_eq forward sorted (Nat.zero_le _) lt ?_
    rw [found]
    simpa using inside
  rw [location?, if_pos within, searched]
  simp [found]

theorem location?_eq_none {index : Nat} (h : s.bytes.length ≤ index) :
    s.location? index = none := if_neg (by simpa [bytes] using h)

end Source

end Lexis
