import Lexis.Proofs.Scan.Tokenization
import Lexis.Proofs.Stream.ByLine
import Lexis.Proofs.Stream.Strays
set_option autoImplicit false

/-!
Where the tokens of a stream stand. Main statement: a stream is made of its lines, each of them read
by a lexer of its own, and the place of a token in its line is its location in the source.
-/
namespace Lexis

def Source.lineTokens (s : Source) (number : Nat) : List (Token × Option Location) :=
  (Scan.tokens 0 ((s.line? number).getD [])).map fun t =>
    (t.token, some ⟨number, t.span.start + 1⟩)

/-- The bytes of a token stand side by side in one line from a place on. -/
structure SpannedToken.StandsAt (t : SpannedToken) (s : Source) (place : Location)
    (line : List UInt8) : Prop where
  located : s.location? t.span.start = some place
  of_line : s.line? place.line = some line
  inside : place.column - 1 + (t.span.stop - t.span.start) ≤ line.length
  bytes : s.slice t.span = (line.drop (place.column - 1)).take (t.span.stop - t.span.start)
  same_line : ∀ i, t.span.start ≤ i → i < t.span.stop →
    s.location? i = some ⟨place.line, place.column + (i - t.span.start)⟩

theorem tokens_chomp (position : Nat) (line : List UInt8) :
    Scan.tokens position (chomp line) = Scan.tokens position line := by
  obtain ⟨tail, joined, terminators⟩ := exists_terminators line
  have blank : ∀ b ∈ tail, IsBlank b := fun b hb => (terminators b hb).isBlank
  conv => rhs; rw [joined]
  rw [tokens_append, tokens_blank _ blank, List.append_nil]
  intro t _ _ c hc
  exact (blank c (List.mem_of_mem_head? hc)).not_extends _

theorem map_ofLines (number : Nat) (lines : List (List UInt8)) :
    (PlacedToken.ofLines number (lines.map chomp)).map (fun p => (p.token, p.start?)) =
      (lines.zipIdx number).flatMap fun (line, n) =>
        (Scan.tokens 0 line).map fun t => (t.token, some ⟨n, t.span.start + 1⟩) := by
  induction lines generalizing number with
  | nil => rfl
  | cons line rest ih =>
    rw [List.map_cons, PlacedToken.ofLines, List.map_append, ih, List.map_map, tokens_chomp,
      List.zipIdx_cons, List.flatMap_cons]
    rfl

theorem flatMap_lineTokens (s : Source) :
    (List.range' 1 s.lineCount).flatMap s.lineTokens =
      ((splitLines s.bytes).zipIdx 1).flatMap fun (line, n) =>
        (Scan.tokens 0 line).map fun t => (t.token, some ⟨n, t.span.start + 1⟩) := by
  have numbered : (splitLines s.bytes).zipIdx 1 =
      (List.range' 1 s.lineCount).map fun n => ((s.line? n).getD [], n) := by
    refine List.ext_getElem (by simp [Source.lineCount_eq]) fun n inside _ => ?_
    rw [List.length_zipIdx] at inside
    simp [Nat.add_comm 1, Source.line?_eq, List.getElem?_eq_getElem inside]
  rw [numbered, List.flatMap_map]
  rfl

theorem exists_standsAt {s : Source} {t : SpannedToken} (h : t ∈ Scan.tokens 0 s.bytes) :
    ∃ place line, t.StandsAt s place line := by
  obtain ⟨before, text, tail, after, has_line, from_start, to_stop⟩ :=
    exists_hasLine_of_mem_tokens h
  have nonempty := (within_of_mem_tokens h).2.1
  rw [Nat.zero_add] at from_start to_stop
  have long : (text ++ tail).length = text.length + tail.length := List.length_append
  obtain ⟨k, start⟩ := Nat.exists_eq_add_of_le from_start
  have located : ∀ n, k + n < (text ++ tail).length →
      s.location? (t.span.start + n) = some ⟨before.length + 1, k + 1 + n⟩ := by
    intro n inside
    rw [start, Nat.add_assoc, Source.location?_split has_line.split inside, Nat.add_right_comm]
  refine ⟨⟨before.length + 1, k + 1⟩, text ++ tail, located 0 (by omega),
    Source.line?_split has_line.split, by simp only; omega, ?_, fun i from_i to_i => ?_⟩
  · rw [slice_eq_bytesOf, Span.bytesOf, has_line.joined, start, ← List.drop_drop, List.drop_left,
      List.drop_append_of_le_length (by omega), Nat.add_sub_cancel]
    refine List.take_append_of_le_length ?_
    rw [List.length_drop]
    omega
  · have here := located (i - t.span.start) (by omega)
    rwa [Nat.add_sub_cancel' from_i] at here

/-- The tokens of a source are those of its lines, each line read alone, and none of them goes over
the end of a line. Only the end token has no place. -/
theorem significant_eq_lines {σ : Type} [Handler σ Diagnostic] (s : Source) (h : σ) :
    (TokenStream.tokenize s h).1.significant.map
        (fun t => (t.token, s.location? t.span.start)) =
      (List.range' 1 s.lineCount).flatMap s.lineTokens ∧
    (∀ n ∈ List.range' 1 s.lineCount, ∃ line, s.line? n = some line ∧
      (Lexer.ofBytes line).Drains (Scan.tokens 0 line) (Scan.endToken line.length)) ∧
    (∀ t ∈ (TokenStream.tokenize s h).1.significant,
      t.token.literal = Latin1.decode (s.slice t.span) ∧
        ∃ place line, t.StandsAt s place line) ∧
    ∀ t ∈ (TokenStream.tokenize s h).1.tokens,
      s.location? t.span.start = none ↔ t.token.kind = .eof := by
  have significant : (TokenStream.tokenize s h).1.significant = Scan.tokens 0 s.bytes :=
    List.dropLast_concat
  have tokens : (TokenStream.tokenize s h).1.tokens =
      Scan.tokens 0 s.bytes ++ [Scan.endToken s.bytes.length] := rfl
  rw [significant, tokens]
  refine ⟨?_, fun n hn => ?_, fun t ht => ⟨?_, exists_standsAt ht⟩, fun t ht => ?_⟩
  · have placed := congrArg (List.map fun p => (p.token, p.start?)) (map_ofSource_tokens s)
    rw [map_ofLines, ← flatMap_lineTokens, List.map_map] at placed
    exact placed
  · obtain ⟨line, found⟩ := Source.exists_line? (List.mem_range'_1.1 hn)
    exact ⟨line, found, Lexer.drains_ofBytes line⟩
  · rw [slice_eq_bytesOf]
    exact (IsTokenization.of_tokens (Nat.zero_le s.bytes.length)).literal_eq ht
  · obtain before_end | last := List.mem_append.1 ht
    · obtain ⟨place, line, stands⟩ := exists_standsAt before_end
      obtain ⟨w, spelling, _⟩ := exists_spelling_of_mem_tokens before_end
      simp [stands.located, spelling.kind_ne_eof]
    · rw [List.mem_singleton.1 last, Scan.endToken, Source.location?_eq_none (Nat.le_refl _)]
      simp [Token.eof]

end Lexis
