import Lexis.Source.Basic
set_option autoImplicit false

/-!
The lines of a text as lists of bytes. A text is cut into plain texts and the endings between them;
the line table holds exactly the places of these lines, and other endings leave them as they are.
-/
namespace Lexis

def IsTerminator (b : UInt8) : Prop := b = lineFeed ∨ b = carriageReturn

instance : DecidablePred IsTerminator := fun _ => inferInstanceAs (Decidable (_ ∨ _))

inductive Ending where
  | lf
  | crlf
  | cr
  deriving DecidableEq, Repr

def Ending.bytes : Ending → List UInt8
  | .lf => [lineFeed]
  | .crlf => [carriageReturn, lineFeed]
  | .cr => [carriageReturn]

/-- The ending is not read as a longer one together with the text after it. -/
def Ending.Closes (e : Ending) (rest : List UInt8) : Prop :=
  e = .cr → rest.head? ≠ some lineFeed

def IsPlain (text : List UInt8) : Prop := ∀ b ∈ text, ¬ IsTerminator b

/-- The lines of a text, each with its terminator; only the last line has none. -/
def splitLines : List UInt8 → List (List UInt8)
  | [] => [[]]
  | carriageReturn :: lineFeed :: rest => [carriageReturn, lineFeed] :: splitLines rest
  | b :: rest =>
    if IsTerminator b then [b] :: splitLines rest else (splitLines rest).modifyHead (b :: ·)

def chomp : List UInt8 → List UInt8
  | [] => []
  | b :: rest =>
    if b :: rest ∈ [Ending.lf.bytes, Ending.crlf.bytes, Ending.cr.bytes] then []
    else b :: chomp rest

/-- The text with every terminator replaced by the given ending. -/
def Ending.convert (e : Ending) (bytes : List UInt8) : List UInt8 :=
  e.bytes.intercalate ((splitLines bytes).map chomp)

theorem isPlain_nil : IsPlain [] := fun _ h => absurd h (by simp)

theorem isPlain_cons {b : UInt8} {text : List UInt8} :
    IsPlain (b :: text) ↔ ¬ IsTerminator b ∧ IsPlain text := List.forall_mem_cons

theorem Ending.isTerminator_of_mem {e : Ending} : ∀ b ∈ e.bytes, IsTerminator b := by
  cases e <;> simp [bytes, IsTerminator]

theorem Ending.bytes_ne_nil (e : Ending) : e.bytes ≠ [] := by cases e <;> decide

theorem plain_or_ending (bytes : List UInt8) :
    IsPlain bytes ∨ ∃ (text : List UInt8) (e : Ending) (rest : List UInt8),
      IsPlain text ∧ e.Closes rest ∧ bytes = text ++ (e.bytes ++ rest) := by
  induction bytes with
  | nil => exact .inl isPlain_nil
  | cons b tail ih =>
    by_cases feed : b = lineFeed
    · exact .inr ⟨[], .lf, tail, isPlain_nil, nofun, feed ▸ rfl⟩
    by_cases carriage : b = carriageReturn
    · by_cases long : tail.head? = some lineFeed
      · obtain ⟨rest, rfl⟩ := List.head?_eq_some_iff.1 long
        exact .inr ⟨[], .crlf, rest, isPlain_nil, nofun, carriage ▸ rfl⟩
      · exact .inr ⟨[], .cr, tail, isPlain_nil, fun _ => long, carriage ▸ rfl⟩
    have inside : ¬ IsTerminator b := not_or.2 ⟨feed, carriage⟩
    obtain plain | ⟨text, e, rest, plain, closes, rfl⟩ := ih
    · exact .inl (isPlain_cons.2 ⟨inside, plain⟩)
    · exact .inr ⟨b :: text, e, rest, isPlain_cons.2 ⟨inside, plain⟩, closes, rfl⟩

/-- Every text is one last line, or a line with its ending and the text after it. -/
@[elab_as_elim]
theorem line_induction {motive : List UInt8 → Prop} (bytes : List UInt8)
    (last : ∀ text, IsPlain text → motive text)
    (line : ∀ text (e : Ending) rest, IsPlain text → e.Closes rest → motive rest →
      motive (text ++ (e.bytes ++ rest))) : motive bytes := by
  induction size : bytes.length using Nat.strongRecOn generalizing bytes with
  | ind n ih =>
    obtain plain | ⟨text, e, rest, plain, closes, rfl⟩ := plain_or_ending bytes
    · exact last bytes plain
    · have taken := List.length_pos_iff.2 e.bytes_ne_nil
      have parts : (text ++ (e.bytes ++ rest)).length =
          text.length + (e.bytes.length + rest.length) := by simp
      exact line text e rest plain closes (ih rest.length (by omega) rest rfl)

theorem splitLines_crlf (rest : List UInt8) :
    splitLines (carriageReturn :: lineFeed :: rest) =
      [carriageReturn, lineFeed] :: splitLines rest := rfl

theorem splitLines_cons {b : UInt8} {rest : List UInt8}
    (short : b = carriageReturn → rest.head? ≠ some lineFeed) :
    splitLines (b :: rest) =
      if IsTerminator b then [b] :: splitLines rest else (splitLines rest).modifyHead (b :: ·) :=
  splitLines.eq_3 b rest fun _ carriage feed => short carriage (feed ▸ rfl)

theorem splitLines_plain {text : List UInt8} (plain : IsPlain text) : splitLines text = [text] := by
  induction text with
  | nil => rfl
  | cons b text ih =>
    obtain ⟨inside, plain⟩ := isPlain_cons.1 plain
    rw [splitLines_cons fun h => absurd (.inr h) inside, if_neg inside, ih plain]
    rfl

theorem splitLines_line {text rest : List UInt8} {e : Ending} (plain : IsPlain text)
    (closes : e.Closes rest) :
    splitLines (text ++ (e.bytes ++ rest)) = (text ++ e.bytes) :: splitLines rest := by
  induction text with
  | nil =>
    cases e with
    | lf => exact splitLines_cons (b := lineFeed) fun h => absurd h (by decide)
    | crlf => exact splitLines_crlf rest
    | cr => exact splitLines_cons (b := carriageReturn) fun _ => closes rfl
  | cons b text ih =>
    obtain ⟨inside, plain⟩ := isPlain_cons.1 plain
    rw [List.cons_append, splitLines_cons fun h => absurd (.inr h) inside, if_neg inside, ih plain]
    rfl

theorem flatten_splitLines (bytes : List UInt8) : (splitLines bytes).flatten = bytes := by
  induction bytes using line_induction with
  | last text plain => simp [splitLines_plain plain]
  | line text e rest plain closes ih => simp [splitLines_line plain closes, ih]

theorem splitLines_ne_nil (bytes : List UInt8) : splitLines bytes ≠ [] := by
  induction bytes using line_induction with
  | last text plain => simp [splitLines_plain plain]
  | line text e rest plain closes ih => simp [splitLines_line plain closes]

/-- A line of a text between the others: plain bytes, and a terminator unless it is the last. -/
structure HasLine (bytes : List UInt8) (before : List (List UInt8)) (text tail : List UInt8)
    (after : List (List UInt8)) : Prop where
  split : splitLines bytes = before ++ (text ++ tail) :: after
  plain : IsPlain text
  terminated : tail = [] ↔ after = []

namespace HasLine

variable {bytes text tail rest : List UInt8} {before after : List (List UInt8)} {e : Ending}

theorem last (plain : IsPlain text) : HasLine text [] text [] [] :=
  ⟨by rw [splitLines_plain plain, List.append_nil]; rfl, plain, by simp⟩

theorem first (plain : IsPlain text) (closes : e.Closes rest) :
    HasLine (text ++ (e.bytes ++ rest)) [] text e.bytes (splitLines rest) :=
  ⟨splitLines_line plain closes, plain, iff_of_false e.bytes_ne_nil (splitLines_ne_nil rest)⟩

theorem later {other : List UInt8} (h : HasLine rest before text tail after)
    (plain : IsPlain other) (closes : e.Closes rest) :
    HasLine (other ++ (e.bytes ++ rest)) ((other ++ e.bytes) :: before) text tail after :=
  ⟨by rw [splitLines_line plain closes, h.split, List.cons_append], h.plain, h.terminated⟩

theorem joined (h : HasLine bytes before text tail after) :
    bytes = before.flatten ++ ((text ++ tail) ++ after.flatten) := by
  rw [← flatten_splitLines bytes, h.split, List.flatten_append, List.flatten_cons]

end HasLine

/-- A byte that ends no line stands in a line, in front of the terminator. -/
theorem exists_hasLine {bytes : List UInt8} {i : Nat} {b : UInt8} (hb : bytes[i]? = some b)
    (inside : ¬ IsTerminator b) : ∃ before text tail after k, HasLine bytes before text tail after ∧
      i = before.flatten.length + k ∧ text[k]? = some b := by
  induction bytes using line_induction generalizing i with
  | last text plain => exact ⟨[], text, [], [], i, .last plain, by simp, hb⟩
  | line text e rest plain closes ih =>
    obtain here | later := Nat.lt_or_ge i text.length
    · rw [List.getElem?_append_left here] at hb
      exact ⟨[], text, e.bytes, splitLines rest, i, .first plain closes, by simp, hb⟩
    rw [List.getElem?_append_right later] at hb
    obtain ending | further := Nat.lt_or_ge (i - text.length) e.bytes.length
    · rw [List.getElem?_append_left ending] at hb
      exact absurd (Ending.isTerminator_of_mem b (List.mem_of_getElem? hb)) inside
    rw [List.getElem?_append_right further] at hb
    obtain ⟨before, other, tail, after, k, has_line, index, found⟩ := ih hb
    refine ⟨(text ++ e.bytes) :: before, other, tail, after, k, has_line.later plain closes, ?_,
      found⟩
    rw [List.flatten_cons, List.length_append, List.length_append]
    omega

theorem chomp_append {text : List UInt8} (plain : IsPlain text) (tail : List UInt8) :
    chomp (text ++ tail) = text ++ chomp tail := by
  induction text with
  | nil => rfl
  | cons b text ih =>
    obtain ⟨inside, plain⟩ := isPlain_cons.1 plain
    have longer : b :: (text ++ tail) ∉
        [Ending.lf.bytes, Ending.crlf.bytes, Ending.cr.bytes] := by
      intro h
      simp only [Ending.bytes, List.mem_cons, List.cons.injEq, List.not_mem_nil, or_false] at h
      obtain ⟨feed, _⟩ | ⟨carriage, _⟩ | ⟨carriage, _⟩ := h
      · exact inside (.inl feed)
      · exact inside (.inr carriage)
      · exact inside (.inr carriage)
    rw [List.cons_append, chomp, if_neg longer, ih plain, List.cons_append]

theorem chomp_plain {text : List UInt8} (plain : IsPlain text) : chomp text = text := by
  simpa [chomp] using chomp_append plain []

theorem chomp_line {text : List UInt8} (plain : IsPlain text) (e : Ending) :
    chomp (text ++ e.bytes) = text := by
  have alone : chomp e.bytes = [] := by cases e <;> decide
  rw [chomp_append plain, alone, List.append_nil]

theorem exists_terminators (line : List UInt8) :
    ∃ tail, line = chomp line ++ tail ∧ ∀ b ∈ tail, IsTerminator b := by
  induction line with
  | nil => exact ⟨[], rfl, by simp⟩
  | cons b rest ih =>
    rw [chomp]
    split
    · rename_i ending
      refine ⟨b :: rest, rfl, ?_⟩
      simp only [List.mem_cons, List.not_mem_nil, or_false] at ending
      obtain h | h | h := ending <;> exact h ▸ Ending.isTerminator_of_mem
    · obtain ⟨tail, joined, terminators⟩ := ih
      exact ⟨tail, congrArg (b :: ·) joined, terminators⟩

theorem convert_plain (e : Ending) {text : List UInt8} (plain : IsPlain text) :
    e.convert text = text := by
  simp [Ending.convert, splitLines_plain plain, chomp_plain plain]

theorem convert_line (e : Ending) {text rest : List UInt8} {old : Ending} (plain : IsPlain text)
    (closes : old.Closes rest) :
    e.convert (text ++ (old.bytes ++ rest)) = text ++ (e.bytes ++ e.convert rest) := by
  obtain ⟨line, more, lines⟩ := List.exists_cons_of_ne_nil (splitLines_ne_nil rest)
  simp [Ending.convert, splitLines_line plain closes, chomp_line plain, lines]

theorem convert_closes (e : Ending) (bytes : List UInt8) : e.Closes (e.convert bytes) := by
  intro he
  obtain plain | ⟨text, old, rest, plain, closes, rfl⟩ := plain_or_ending bytes
  · rw [convert_plain e plain]
    exact fun h => plain _ (List.mem_of_mem_head? h) (.inl rfl)
  · rw [convert_line e plain closes, he]
    cases text with
    | nil => exact fun h => absurd h (by simp [Ending.bytes, carriageReturn, lineFeed])
    | cons b text => exact fun h => plain b List.mem_cons_self (.inl (Option.some.inj h))

theorem chomp_splitLines_convert (e : Ending) (bytes : List UInt8) :
    (splitLines (e.convert bytes)).map chomp = (splitLines bytes).map chomp := by
  induction bytes using line_induction with
  | last text plain => rw [convert_plain e plain]
  | line text old rest plain closes ih =>
    rw [convert_line e plain closes, splitLines_line plain (convert_closes e rest),
      splitLines_line plain closes, List.map_cons, List.map_cons, ih, chomp_line plain,
      chomp_line plain]

end Lexis
