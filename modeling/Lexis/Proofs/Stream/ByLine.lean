import Lexis.Proofs.Scan.Tokens
import Lexis.Proofs.Source.Locations
import Lexis.Source.Excerpt
set_option autoImplicit false

/-!
The tokens of a source line by line. Main statement: they are the tokens of the lines, each line
scanned alone and without its terminator, and so are their places in lines and columns.
-/
namespace Lexis

structure PlacedToken where
  token : Token
  start? : Option Location
  extent : Extent
  deriving DecidableEq, Repr

namespace PlacedToken

def ofSource (s : Source) (t : SpannedToken) : PlacedToken :=
  ⟨t.token, s.location? t.span.start, Extent.ofSpan s t.span⟩

/-- The places of a token in a line that is scanned alone. Only at the end of the last line is there
no byte after the token. -/
def ofLine (number : Nat) (text : List UInt8) (last : Bool) (t : SpannedToken) : PlacedToken :=
  let start : Location := ⟨number, t.span.start + 1⟩
  let stopColumn? := if last ∧ t.span.stop = text.length then none else some (t.span.stop + 1)
  ⟨t.token, some start, ⟨start, number, stopColumn?⟩⟩

def ofLines (number : Nat) : List (List UInt8) → List PlacedToken
  | [] => []
  | text :: rest =>
    (Scan.tokens 0 text).map (ofLine number text rest.isEmpty) ++ ofLines (number + 1) rest

end PlacedToken

theorem IsTerminator.isBlank {b : UInt8} (h : IsTerminator b) : IsBlank b := by
  obtain rfl | rfl := h <;> decide

/-- No token goes over the end of a line. -/
theorem tokens_line (position : Nat) (text : List UInt8) (e : Ending) (rest : List UInt8) :
    Scan.tokens position (text ++ (e.bytes ++ rest)) =
      Scan.tokens position text ++ Scan.tokens (position + (text ++ e.bytes).length) rest := by
  have blank : ∀ b ∈ e.bytes, IsBlank b := fun b hb => (Ending.isTerminator_of_mem b hb).isBlank
  rw [tokens_append, tokens_gap _ blank, List.length_append, Nat.add_assoc]
  intro t _ _ c hc
  have first : c ∈ e.bytes := by
    cases e <;> simp_all [Ending.bytes]
  exact (blank c first).not_extends _

/-- A token stands in one line, in front of the terminator. -/
theorem exists_hasLine_of_mem_tokens {bytes : List UInt8} {position : Nat} {t : SpannedToken}
    (h : t ∈ Scan.tokens position bytes) :
    ∃ before text tail after, HasLine bytes before text tail after ∧
      position + before.flatten.length ≤ t.span.start ∧
      t.span.stop ≤ position + before.flatten.length + text.length := by
  induction bytes using line_induction generalizing position with
  | last text plain =>
    have within := within_of_mem_tokens h
    exact ⟨[], text, [], [], .last plain, by simp; omega, by simp; omega⟩
  | line text e rest plain closes ih =>
    rw [tokens_line] at h
    obtain here | later := List.mem_append.1 h
    · have within := within_of_mem_tokens here
      exact ⟨[], text, e.bytes, splitLines rest, .first plain closes, by simp; omega,
        by simp; omega⟩
    · obtain ⟨before, other, tail, after, has_line, from_start, to_stop⟩ := ih later
      refine ⟨(text ++ e.bytes) :: before, other, tail, after, has_line.later plain closes, ?_, ?_⟩
      · rw [List.flatten_cons, List.length_append]
        omega
      · rw [List.flatten_cons, List.length_append]
        omega

/-- The extent of a part of a line. Only at the end of the last line is there no byte after it. -/
theorem Extent.ofSpan_shift {s : Source} {before after : List (List UInt8)}
    {text tail : List UInt8} (line : HasLine s.bytes before text tail after) {start stop : Nat}
    (nonempty : start < stop) (inside : stop ≤ text.length) :
    ofSpan s ⟨before.flatten.length + start, before.flatten.length + stop⟩ =
      ⟨⟨before.length + 1, start + 1⟩, before.length + 1,
        if after.isEmpty ∧ stop = text.length then none else some (stop + 1)⟩ := by
  have first := Source.location?_split (i := start) line.split (by simp; omega)
  -- A span that stops at a terminator stops inside the line, so only the last line is special.
  by_cases at_end : tail = [] ∧ stop = text.length
  · obtain ⟨rfl, rfl⟩ := at_end
    obtain rfl := line.terminated.1 rfl
    have whole := congrArg List.length line.joined
    simp only [List.append_nil, List.length_append, List.flatten_nil] at whole
    have past : s.location? (before.flatten.length + text.length) = none :=
      Source.location?_eq_none (by omega)
    have count : s.lineCount = before.length + 1 := by rw [Source.lineCount_eq, line.split]; simp
    simp only [ofSpan, first, past, count]
    simp
  · have before_end : stop < (text ++ tail).length := by
      rw [List.length_append]
      cases tail with
      | nil =>
        have short : stop ≠ text.length := fun h => at_end ⟨rfl, h⟩
        simp only [List.length_nil]
        omega
      | cons b tail =>
        simp only [List.length_cons]
        omega
    have next := Source.location?_split line.split before_end
    have not_last : ¬ (after.isEmpty = true ∧ stop = text.length) := by
      rw [List.isEmpty_iff, ← line.terminated]
      exact at_end
    simp only [ofSpan, first, next, if_neg not_last]
    rfl

theorem PlacedToken.ofSource_shift {s : Source} {before after : List (List UInt8)}
    {text tail : List UInt8} (line : HasLine s.bytes before text tail after) {t : SpannedToken}
    (nonempty : t.span.start < t.span.stop) (inside : t.span.stop ≤ text.length) :
    ofSource s (t.shift before.flatten.length) =
      ofLine (before.length + 1) text after.isEmpty t := by
  have start := Source.location?_split (i := t.span.start) line.split (by simp; omega)
  simp only [ofSource, SpannedToken.shift, Nat.add_comm _ before.flatten.length, start,
    Extent.ofSpan_shift line nonempty inside, ofLine]

theorem PlacedToken.map_ofSource_shift {s : Source} {before after : List (List UInt8)}
    {text tail : List UInt8} (line : HasLine s.bytes before text tail after) :
    (Scan.tokens before.flatten.length text).map (ofSource s) =
      (Scan.tokens 0 text).map (ofLine (before.length + 1) text after.isEmpty) := by
  have shifted := tokens_shift 0 before.flatten.length text
  rw [Nat.zero_add] at shifted
  rw [shifted, List.map_map]
  refine List.map_congr_left fun t ht => ?_
  obtain ⟨_, nonempty, inside⟩ := within_of_mem_tokens ht
  exact ofSource_shift line nonempty (by omega)

theorem map_ofSource_tokens (s : Source) :
    (Scan.tokens 0 s.bytes).map (PlacedToken.ofSource s) =
      PlacedToken.ofLines 1 ((splitLines s.bytes).map chomp) := by
  -- The lines before the rest of the text are carried along; they give its position and number.
  have from_rest : ∀ (bytes : List UInt8) (before : List (List UInt8)),
      splitLines s.bytes = before ++ splitLines bytes →
      (Scan.tokens before.flatten.length bytes).map (PlacedToken.ofSource s) =
        PlacedToken.ofLines (before.length + 1) ((splitLines bytes).map chomp) := by
    intro bytes before split
    induction bytes using line_induction generalizing before with
    | last text plain =>
      rw [splitLines_plain plain] at split ⊢
      rw [List.map_singleton, chomp_plain plain, PlacedToken.ofLines, PlacedToken.ofLines,
        List.append_nil]
      exact PlacedToken.map_ofSource_shift ⟨by rw [split, List.append_nil], plain, by simp⟩
    | line text e rest plain closes ih =>
      rw [splitLines_line plain closes] at split ⊢
      have line : HasLine s.bytes before text e.bytes (splitLines rest) :=
        ⟨split, plain, (HasLine.first plain closes).terminated⟩
      have lines := ih (before ++ [text ++ e.bytes]) (by rw [split]; simp)
      have number : (before ++ [text ++ e.bytes]).length + 1 = before.length + 1 + 1 := by simp
      have position : (before ++ [text ++ e.bytes]).flatten.length =
          before.flatten.length + (text ++ e.bytes).length := by simp
      rw [number, position] at lines
      rw [tokens_line, List.map_append, PlacedToken.map_ofSource_shift line, lines, List.map_cons,
        PlacedToken.ofLines, chomp_line plain, List.isEmpty_map]
  exact from_rest s.bytes [] rfl

theorem PlacedToken.exists_line_of_mem {number : Nat} {texts : List (List UInt8)} {p : PlacedToken}
    (h : p ∈ ofLines number texts) : ∃ n text, texts[n]? = some text ∧
      p.extent.start.line = number + n ∧ p.extent.start.column ≤ text.length := by
  induction texts generalizing number with
  | nil => simp [ofLines] at h
  | cons text rest ih =>
    obtain here | later := List.mem_append.1 h
    · obtain ⟨t, ht, rfl⟩ := List.mem_map.1 here
      obtain ⟨_, nonempty, inside⟩ := within_of_mem_tokens ht
      refine ⟨0, text, rfl, rfl, ?_⟩
      simp only [ofLine]
      omega
    · obtain ⟨n, other, found, line, column⟩ := ih later
      exact ⟨n + 1, other, found, by omega, column⟩

end Lexis
