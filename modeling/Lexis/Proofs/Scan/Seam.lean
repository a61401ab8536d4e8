import Lexis.Proofs.Scan.Layout
import Lexis.Proofs.Scan.Tokenization
set_option autoImplicit false

/-!
A text in front of another. Main statement: the tokens of both together are those of the first and
then those of the second, unless the first ends inside a word, an integer or a joined symbol.
-/
namespace Lexis

/-- A token of the two texts together goes over the end of the first. A last byte tells whether it
is part of a word or an integer, but only the tokens tell whether an equal sign is taken. -/
inductive FuseAcross (a b : List UInt8) : Prop where
  | word {x y : UInt8} : x ∈ a.getLast? → y ∈ b.head? → IsLetter x → IsLetter y → FuseAcross a b
  | integer {x y : UInt8} : x ∈ a.getLast? → y ∈ b.head? → IsDigit x → IsDigit y → FuseAcross a b
  | joined {t : SpannedToken} : t ∈ (Scan.tokens 0 a).getLast? →
      t.token.kind = .assign ∨ t.token.kind = .bang → t.span.stop = a.length →
      equalSign ∈ b.head? → FuseAcross a b

namespace IsTokenization

variable {s : List UInt8} {ts : List SpannedToken}

theorem mem_getLast? (h : IsTokenization s 0 ts) {t : SpannedToken} (ht : t ∈ ts)
    (at_end : t.span.stop = s.length) : t ∈ ts.getLast? := by
  obtain ⟨before, after, rfl⟩ := List.append_of_mem ht
  cases after with
  | nil => simp
  | cons u after =>
    -- A token after it would have no byte to stand on.
    have later := (List.isChain_append.1 h.ordered).2.1.rel
    have within := h.within u (by simp)
    omega

theorem exists_getLast? (h : IsTokenization s 0 ts) {x : UInt8} (hx : x ∈ s.getLast?)
    (nonblank : ¬ IsBlank x) :
    ∃ t ∈ ts.getLast?, t.span.stop = s.length ∧ x ∈ t.span.bytesOf s := by
  rw [List.getLast?_eq_getElem?] at hx
  obtain ⟨t, ht, from_start, to_stop⟩ := (h.covers _ x (Nat.zero_le _) hx).2 nonblank
  have within := h.within t ht
  have at_end : t.span.stop = s.length := by omega
  exact ⟨t, h.mem_getLast? ht at_end, at_end, Span.mem_bytesOf from_start to_stop hx⟩

theorem exists_mem_getLast? (h : IsTokenization s 0 ts) {t : SpannedToken} (ht : t ∈ ts)
    (at_end : t.span.stop = s.length) : ∃ x ∈ s.getLast?, x ∈ t.span.bytesOf s := by
  have within := h.within t ht
  have inside : s.length - 1 < s.length := by omega
  have last : s[s.length - 1]? = some s[s.length - 1] := List.getElem?_eq_getElem inside
  exact ⟨_, List.getLast?_eq_getElem?.trans last, Span.mem_bytesOf (by omega) (by omega) last⟩

end IsTokenization

theorem IsLetter.not_blank {b : UInt8} (h : IsLetter b) : ¬ IsBlank b :=
  fun blank => blank.not_letter h

theorem IsDigit.not_blank {b : UInt8} (h : IsDigit b) : ¬ IsBlank b :=
  fun blank => blank.not_digit h

theorem fuseAcross_iff {a b : List UInt8} :
    FuseAcross a b ↔ ∃ t ∈ (Scan.tokens 0 a).getLast?, t.span.stop = a.length ∧
      ∃ c ∈ b.head?, Extends c t.token.kind := by
  have whole : IsTokenization a 0 (Scan.tokens 0 a) := IsTokenization.of_tokens (Nat.zero_le _)
  constructor
  · intro fused
    cases fused with
    | @word x y hx hy letter letter' =>
      obtain ⟨t, ht, at_end, inside⟩ := whole.exists_getLast? hx letter.not_blank
      have word := ((whole.spelling t (List.mem_of_getLast? ht)).mem_iff inside).1.1 letter
      exact ⟨t, ht, at_end, y, hy, .inl ⟨word, letter'⟩⟩
    | @integer x y hx hy digit digit' =>
      obtain ⟨t, ht, at_end, inside⟩ := whole.exists_getLast? hx digit.not_blank
      have integer := ((whole.spelling t (List.mem_of_getLast? ht)).mem_iff inside).2.1 digit
      exact ⟨t, ht, at_end, y, hy, .inr (.inl ⟨integer, digit'⟩)⟩
    | @joined t ht joinable at_end sign =>
      exact ⟨t, ht, at_end, equalSign, sign, .inr (.inr ⟨joinable, rfl⟩)⟩
  · intro found
    obtain ⟨t, ht, at_end, c, hc, longer⟩ := found
    have member := List.mem_of_getLast? ht
    obtain ⟨x, hx, inside⟩ := whole.exists_mem_getLast? member at_end
    have class_x := (whole.spelling t member).mem_iff inside
    obtain ⟨word, letter⟩ | ⟨integer, digit⟩ | ⟨joinable, rfl⟩ := longer
    · exact .word hx hc (class_x.1.2 word) letter
    · exact .integer hx hc (class_x.2.2 integer) digit
    · exact .joined ht joinable at_end hc

/-- The tokens of two texts put together are the tokens of each, where they stand in the whole,
exactly when no token goes over the seam. -/
theorem tokens_append_iff (a b : List UInt8) :
    Scan.tokens 0 (a ++ b) =
        Scan.tokens 0 a ++ (Scan.tokens 0 b).map (SpannedToken.shift a.length) ↔
      ¬ FuseAcross a b := by
  have moved := tokens_shift 0 a.length b
  rw [fuseAcross_iff, ← moved]
  constructor
  · intro joined overrun
    obtain ⟨t, ht, at_end, c, hc, longer⟩ := overrun
    have whole : IsTokenization (a ++ b) 0 (Scan.tokens 0 (a ++ b)) :=
      IsTokenization.of_tokens (Nat.zero_le _)
    have member : t ∈ Scan.tokens 0 (a ++ b) := by
      rw [joined]
      exact List.mem_append_left _ (List.mem_of_getLast? ht)
    refine whole.maximal t member c ?_ longer
    rw [at_end, List.getElem?_append_right (Nat.le_refl _), Nat.sub_self, ← List.head?_eq_getElem?]
    exact hc
  · intro apart
    refine tokens_append fun t ht at_end c hc longer => apart ⟨t, ht, ?_, c, hc, longer⟩
    rw [at_end, Nat.zero_add]

end Lexis
