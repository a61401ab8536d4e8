import Lexis.Lexer
import Lexis.Proofs.Scan.Tokenization
set_option autoImplicit false

/-!
Where a lexer stands in its input. Main statements: every token is read from the position on and
leaves the lexer at its end, and the tokens to come are those of the input from the position on.
-/
namespace Lexis

structure Lexer.StandsIn (l : Lexer) (s : List UInt8) : Prop where
  input : l.input = s
  position_le : l.position ≤ s.length
  rest : l.rest = s.drop l.position

/-- The next token is read from the bytes between two lexers. -/
structure Lexer.Moves (l : Lexer) (t : SpannedToken) (l' : Lexer) : Prop where
  position_le : l.position ≤ l'.position
  position_lt : t.token.kind ≠ .eof → l.position < l'.position
  stop : l'.position = t.span.stop

namespace Lexer

theorem standsIn_ofBytes (s : List UInt8) : (ofBytes s).StandsIn s :=
  ⟨rfl, Nat.zero_le _, List.drop_zero.symm⟩

namespace StandsIn

variable {l : Lexer} {s : List UInt8} (h : l.StandsIn s)

include h

theorem length_rest : l.rest.length = s.length - l.position := by rw [h.rest, List.length_drop]

theorem readPosition : l.readPosition = min (l.position + 1) s.length := by
  have le := h.position_le
  have left := h.length_rest
  unfold Lexer.readPosition
  split
  · next none_left =>
    rw [none_left, List.length_nil] at left
    omega
  · next b rest some_left =>
    rw [some_left, List.length_cons] at left
    omega

theorem current? : l.current? = s[l.position]? := by rw [Lexer.current?, h.rest, List.head?_drop]

theorem current?_eq_none_iff : l.current? = none ↔ l.position = s.length := by
  have le := h.position_le
  rw [h.current?, List.getElem?_eq_none_iff]
  omega

theorem nextSpanned : l.nextSpanned.2.StandsIn s ∧ l.Moves l.nextSpanned.1 l.nextSpanned.2 := by
  have le := h.position_le
  have left := h.length_rest
  have suffix := h.rest.symm
  obtain blank | ⟨gap, x, blank, hx, split⟩ := blank_or_munch l.rest
  · have answer : l.nextSpanned = (Scan.endToken l.atEnd.position, l.atEnd) := by
      rw [Lexer.nextSpanned, next?_blank l.position blank]
    have to_end : l.atEnd.position = s.length := by
      simp only [atEnd]
      omega
    rw [answer]
    refine ⟨⟨h.input, Nat.le_of_eq to_end, ?_⟩, ⟨to_end ▸ le, fun before_end => ?_, rfl⟩⟩
    · rw [to_end, List.drop_length]
      rfl
    · exact absurd rfl before_end
  · have answer : l.nextSpanned = (x.token (l.position + gap.length),
        ⟨l.input, l.position + gap.length + x.bytes.length, x.rest⟩) := by
      rw [Lexer.nextSpanned, split, next?_munch l.position blank hx]
      rfl
    have taken := List.length_pos_iff.2 hx.spelling.ne_nil
    rw [split] at suffix left
    have from_token := drop_of_drop_eq_append suffix
    have from_rest := drop_of_drop_eq_append from_token
    rw [List.length_append, List.length_append] at left
    rw [answer]
    refine ⟨⟨h.input, ?_, from_rest.symm⟩, ⟨?_, fun _ => ?_, rfl⟩⟩ <;> simp only <;> omega

theorem exists_drained : ∃ us last, (ofBytes (s.drop l.position)).Drains us last ∧
    ∀ ts last', l.Drains ts last' ↔
      ts = us.map (SpannedToken.shift l.position) ∧ last' = last.shift l.position := by
  have whole := l.drains_tokens
  have moved : Scan.tokens l.position l.rest =
      (Scan.tokens 0 (s.drop l.position)).map (SpannedToken.shift l.position) := by
    rw [h.rest, ← tokens_shift, Nat.zero_add]
  have moved_end : Scan.endToken (l.position + l.rest.length) =
      (Scan.endToken (s.drop l.position).length).shift l.position := by
    rw [h.rest, Nat.add_comm]
    rfl
  rw [moved, moved_end] at whole
  refine ⟨_, _, drains_ofBytes (s.drop l.position), fun ts last' => ⟨whole.unique, ?_⟩⟩
  intro same
  obtain ⟨rfl, rfl⟩ := same
  exact whole

end StandsIn

end Lexer

end Lexis
