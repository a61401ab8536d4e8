import Lexis.Lexer
import Lexis.Proofs.Scan.Tokens
import Mathlib.Data.List.Chain
set_option autoImplicit false

/-!
What a scan is, said of the whole list of tokens and without the way it is found. Main statement:
the tokens that a lexer hands out before the end are the only tokenization of its input.
-/
namespace Lexis

def Span.bytesOf (x : Span) (s : List UInt8) : List UInt8 :=
  (s.drop x.start).take (x.stop - x.start)

/-- The tokens cut a text from an index on: each byte belongs to one of them or is blank, and each
of them is spelled as its kind asks and as long as can be. -/
structure IsTokenization (s : List UInt8) (start : Nat) (ts : List SpannedToken) : Prop where
  within : ∀ t ∈ ts, start ≤ t.span.start ∧ t.span.start < t.span.stop ∧ t.span.stop ≤ s.length
  ordered : ts.IsChain fun t u => t.span.stop ≤ u.span.start
  covers : ∀ i b, start ≤ i → s[i]? = some b →
    ((∃ t ∈ ts, t.span.start ≤ i ∧ i < t.span.stop) ↔ ¬ IsBlank b)
  literal : ∀ t ∈ ts,
    t.token.literal.toList.map Char.toNat = (t.span.bytesOf s).map UInt8.toNat
  spelling : ∀ t ∈ ts, Spelling t.token.kind (t.span.bytesOf s)
  maximal : ∀ t ∈ ts, ∀ b ∈ s[t.span.stop]?, ¬ Extends b t.token.kind

/-- The lexer answers its tokens one after the other, and then the end token. -/
inductive Lexer.Drains : Lexer → List SpannedToken → SpannedToken → Prop where
  | finish {l : Lexer} : l.nextSpanned.1.token.isEof = true → Drains l [] l.nextSpanned.1
  | token {l : Lexer} {ts : List SpannedToken} {last : SpannedToken} :
      l.nextSpanned.1.token.isEof = false → Drains l.nextSpanned.2 ts last →
      Drains l (l.nextSpanned.1 :: ts) last

theorem drop_eq_append {p q : Nat} (s : List UInt8) (h : p ≤ q) :
    s.drop p = (s.drop p).take (q - p) ++ s.drop q := by
  rw [← Nat.add_sub_cancel' h, ← List.drop_drop, Nat.add_sub_cancel_left, List.take_append_drop]

theorem Span.mem_bytesOf {s : List UInt8} {x : Span} {i : Nat} {b : UInt8}
    (from_start : x.start ≤ i) (to_stop : i < x.stop) (h : s[i]? = some b) :
    b ∈ x.bytesOf s := by
  refine List.mem_of_getElem? (i := i - x.start) ?_
  rw [Span.bytesOf, List.getElem?_take_of_lt (by omega), List.getElem?_drop,
    Nat.add_sub_cancel' from_start, h]

theorem drop_of_drop_eq_append {s a b : List UInt8} {n : Nat} (h : s.drop n = a ++ b) :
    s.drop (n + a.length) = b := by
  rw [← List.drop_drop, h, List.drop_left]

theorem Span.bytesOf_of_drop {s w rest : List UInt8} {n : Nat} (h : s.drop n = w ++ rest) :
    (Span.mk n (n + w.length)).bytesOf s = w := by
  rw [bytesOf, h, Nat.add_sub_cancel_left, List.take_left]

namespace IsTokenization

variable {s : List UInt8} {start : Nat} {t : SpannedToken} {ts : List SpannedToken}

theorem stop_le_start (ordered : (t :: ts).IsChain fun t u => t.span.stop ≤ u.span.start)
    (nonempty : ∀ u ∈ ts, u.span.start < u.span.stop) : ∀ u ∈ ts, t.span.stop ≤ u.span.start := by
  induction ts generalizing t with
  | nil => simp
  | cons v ts ih =>
    intro u hu
    obtain ⟨first, ordered⟩ := List.isChain_cons_cons.1 ordered
    obtain rfl | hu := List.mem_cons.1 hu
    · exact first
    · have later := ih ordered (fun w hw => nonempty w (List.mem_cons_of_mem v hw)) u hu
      have positive := nonempty v List.mem_cons_self
      omega

theorem stop_le (h : IsTokenization s start (t :: ts)) : ∀ u ∈ ts, t.span.stop ≤ u.span.start :=
  stop_le_start h.ordered fun u hu => (h.within u (List.mem_cons_of_mem t hu)).2.1

theorem tail (h : IsTokenization s start (t :: ts)) : IsTokenization s t.span.stop ts := by
  have from_start := h.within t List.mem_cons_self
  refine ⟨fun u hu => ⟨h.stop_le u hu, (h.within u (List.mem_cons_of_mem t hu)).2⟩,
    h.ordered.tail, fun i b hi hb => ?_, fun u hu => h.literal u (List.mem_cons_of_mem t hu),
    fun u hu => h.spelling u (List.mem_cons_of_mem t hu),
    fun u hu => h.maximal u (List.mem_cons_of_mem t hu)⟩
  rw [← h.covers i b (by omega) hb]
  constructor
  · intro covered
    obtain ⟨u, hu, inside⟩ := covered
    exact ⟨u, List.mem_cons_of_mem t hu, inside⟩
  · intro covered
    obtain ⟨u, hu, inside⟩ := covered
    obtain rfl | hu := List.mem_cons.1 hu
    · omega
    · exact ⟨u, hu, inside⟩

theorem gap_blank (h : IsTokenization s start (t :: ts)) {i : Nat} {b : UInt8} (hi : start ≤ i)
    (before : i < t.span.start) (hb : s[i]? = some b) : IsBlank b := by
  refine Decidable.byContradiction fun nonblank => ?_
  obtain ⟨u, hu, inside⟩ := (h.covers i b hi hb).2 nonblank
  have from_start := h.within t List.mem_cons_self
  obtain rfl | hu := List.mem_cons.1 hu
  · omega
  · have later := h.stop_le u hu
    omega

theorem literal_eq (h : IsTokenization s start ts) (ht : t ∈ ts) :
    t.token.literal = Latin1.decode (t.span.bytesOf s) := Latin1.eq_decode_iff.2 (h.literal t ht)

theorem nil (blank : ∀ i b, start ≤ i → s[i]? = some b → IsBlank b) : IsTokenization s start [] :=
  ⟨by simp, .nil, fun i b hi hb => by simpa using blank i b hi hb, by simp, by simp, by simp⟩

theorem cons (from_start : start ≤ t.span.start) (nonempty : t.span.start < t.span.stop)
    (gap : ∀ i b, start ≤ i → i < t.span.start → s[i]? = some b → IsBlank b)
    (to_end : t.span.stop ≤ s.length)
    (literal : t.token.literal.toList.map Char.toNat = (t.span.bytesOf s).map UInt8.toNat)
    (spelling : Spelling t.token.kind (t.span.bytesOf s))
    (maximal : ∀ b ∈ s[t.span.stop]?, ¬ Extends b t.token.kind)
    (rest : IsTokenization s t.span.stop ts) : IsTokenization s start (t :: ts) := by
  refine ⟨?_, ?_, fun i b hi hb => ⟨?_, fun nonblank => ?_⟩, ?_, ?_, ?_⟩
  · refine List.forall_mem_cons.2 ⟨⟨from_start, nonempty, to_end⟩, fun u hu => ?_⟩
    have bounds := rest.within u hu
    omega
  · refine List.isChain_cons.2 ⟨fun u hu => ?_, rest.ordered⟩
    exact (rest.within u (List.mem_of_mem_head? hu)).1
  · intro covered
    obtain ⟨u, hu, inside⟩ := covered
    obtain rfl | hu := List.mem_cons.1 hu
    · exact spelling.not_blank (Span.mem_bytesOf inside.1 inside.2 hb)
    · have bounds := rest.within u hu
      exact (rest.covers i b (by omega) hb).1 ⟨u, hu, inside⟩
  · by_cases before : i < t.span.start
    · exact absurd (gap i b hi before hb) nonblank
    · by_cases inside : i < t.span.stop
      · exact ⟨t, List.mem_cons_self, by omega, inside⟩
      · obtain ⟨u, hu, inside⟩ := (rest.covers i b (by omega) hb).2 nonblank
        exact ⟨u, List.mem_cons_of_mem t hu, inside⟩
  · exact List.forall_mem_cons.2 ⟨literal, rest.literal⟩
  · exact List.forall_mem_cons.2 ⟨spelling, rest.spelling⟩
  · exact List.forall_mem_cons.2 ⟨maximal, rest.maximal⟩

theorem isMunch (h : IsTokenization s start (t :: ts)) :
    (Lexeme.mk t.token.kind (t.span.bytesOf s) (s.drop t.span.stop)).IsMunch := by
  refine ⟨h.spelling t List.mem_cons_self, fun b hb => ?_⟩
  rw [List.head?_drop] at hb
  exact h.maximal t List.mem_cons_self b hb

theorem eq_tokens (h : IsTokenization s start ts) : ts = Scan.tokens start (s.drop start) := by
  -- The bytes in front of the first range are a gap, and its own bytes are a munch.
  induction ts generalizing start with
  | nil =>
    have blank : ∀ b ∈ s.drop start, IsBlank b := by
      intro b hb
      obtain ⟨i, hi⟩ := List.mem_iff_getElem?.1 hb
      rw [List.getElem?_drop] at hi
      simpa using h.covers (start + i) b (by omega) hi
    rw [tokens_blank start blank]
  | cons t ts ih =>
    obtain ⟨from_start, nonempty, to_end⟩ := h.within t List.mem_cons_self
    have blank : ∀ b ∈ (s.drop start).take (t.span.start - start), IsBlank b := by
      intro b hb
      obtain ⟨i, hi⟩ := List.mem_iff_getElem?.1 hb
      rw [List.getElem?_take] at hi
      split at hi
      · rw [List.getElem?_drop] at hi
        exact h.gap_blank (by omega) (by omega) hi
      · simp at hi
    have gap_length : ((s.drop start).take (t.span.start - start)).length =
        t.span.start - start := by
      rw [List.length_take, List.length_drop]
      omega
    have width : (t.span.bytesOf s).length = t.span.stop - t.span.start := by
      rw [Span.bytesOf, List.length_take, List.length_drop]
      omega
    have same : t = (Lexeme.mk t.token.kind (t.span.bytesOf s) (s.drop t.span.stop)).token
        t.span.start := by
      rw [Lexeme.token, width, ← h.literal_eq List.mem_cons_self,
        Nat.add_sub_cancel' (Nat.le_of_lt nonempty)]
    rw [drop_eq_append s from_start, drop_eq_append s (Nat.le_of_lt nonempty)]
    have munched := tokens_munch start blank h.isMunch
    rw [gap_length, width, Nat.add_sub_cancel' from_start,
      Nat.add_sub_cancel' (Nat.le_of_lt nonempty), ← ih h.tail, ← same] at munched
    exact munched.symm

theorem of_tokens {start : Nat} (bounded : start ≤ s.length) :
    IsTokenization s start (Scan.tokens start (s.drop start)) := by
  obtain ⟨bytes, suffix⟩ : ∃ bytes, s.drop start = bytes := ⟨_, rfl⟩
  rw [suffix]
  induction bytes using munch_induction generalizing start with
  | blank gap blank =>
    rw [tokens_blank start blank]
    refine nil fun i b hi hb => blank b ?_
    rw [← suffix]
    exact List.mem_of_getElem? (i := i - start) (by rw [List.getElem?_drop]; simpa [hi] using hb)
  | munch gap x blank hx ih =>
    rw [tokens_munch start blank hx]
    have size := congrArg List.length suffix
    have taken := List.length_pos_iff.2 hx.spelling.ne_nil
    simp only [List.length_drop, List.length_append] at size
    have from_token := drop_of_drop_eq_append suffix
    have from_rest := drop_of_drop_eq_append from_token
    have spelled : (x.token (start + gap.length)).span.bytesOf s = x.bytes :=
      Span.bytesOf_of_drop from_token
    refine cons (Nat.le_add_right _ _) ?_ (fun i b hi before hb => blank b ?_) ?_ ?_ ?_ ?_ ?_
    · simp only [Lexeme.token]
      omega
    · have inside : (s.drop start)[i - start]? = some b := by
        rw [List.getElem?_drop, Nat.add_sub_cancel' hi, hb]
      rw [suffix, List.getElem?_append_left] at inside
      · exact List.mem_of_getElem? inside
      · simp only [Lexeme.token] at before
        omega
    · simp only [Lexeme.token]
      omega
    · rw [spelled, ← Latin1.eq_decode_iff]
      rfl
    · rw [spelled]
      exact hx.spelling
    · intro b hb
      rw [← List.head?_drop, Lexeme.token, from_rest] at hb
      exact hx.maximal b hb
    · have rest_bounded : start + gap.length + x.bytes.length ≤ s.length := by omega
      exact ih rest_bounded from_rest

end IsTokenization

namespace Lexer

theorem drains_tokens (l : Lexer) :
    l.Drains (Scan.tokens l.position l.rest) (Scan.endToken (l.position + l.rest.length)) := by
  obtain ⟨input, position, rest⟩ := l
  simp only
  induction rest using munch_induction generalizing position with
  | blank gap blank =>
    have answer : (Lexer.mk input position gap).nextSpanned =
        (Scan.endToken (position + gap.length), ⟨input, position + gap.length, []⟩) := by
      rw [nextSpanned, next?_blank position blank]
      rfl
    rw [tokens_blank position blank]
    have done := Drains.finish (l := Lexer.mk input position gap) (by rw [answer]; rfl)
    rwa [answer] at done
  | munch gap x blank hx ih =>
    have answer : (Lexer.mk input position (gap ++ (x.bytes ++ x.rest))).nextSpanned =
        (x.token (position + gap.length),
          ⟨input, position + gap.length + x.bytes.length, x.rest⟩) := by
      rw [nextSpanned, next?_munch position blank hx]
      rfl
    have not_end : (x.token (position + gap.length)).token.isEof = false := by
      simpa [Lexeme.token, Token.isEof] using hx.spelling.kind_ne_eof
    have total : position + (gap ++ (x.bytes ++ x.rest)).length =
        position + gap.length + x.bytes.length + x.rest.length := by
      simp only [List.length_append, Nat.add_assoc]
    rw [tokens_munch position blank hx, total]
    have drained := Drains.token (l := Lexer.mk input position (gap ++ (x.bytes ++ x.rest)))
      (by rw [answer]; exact not_end) (by rw [answer]; exact ih _)
    rwa [answer] at drained

theorem drains_ofBytes (s : List UInt8) :
    (ofBytes s).Drains (Scan.tokens 0 s) (Scan.endToken s.length) := by
  have drained := (ofBytes s).drains_tokens
  rwa [ofBytes, Nat.zero_add] at drained

theorem Drains.unique {l : Lexer} {ts us : List SpannedToken} {last other : SpannedToken}
    (h : l.Drains ts last) (h' : l.Drains us other) : us = ts ∧ other = last := by
  induction h generalizing us other with
  | finish at_end =>
    cases h' with
    | finish _ => exact ⟨rfl, rfl⟩
    | token before_end _ => simp [at_end] at before_end
  | token before_end _ ih =>
    cases h' with
    | finish at_end => simp [at_end] at before_end
    | token _ rest =>
      obtain ⟨rfl, rfl⟩ := ih rest
      exact ⟨rfl, rfl⟩

end Lexer

/-- The tokens that a lexer answers before the end token are the one tokenization of its input. -/
theorem exists_drained_iff_isTokenization (s : List UInt8) :
    ∃ ts, scan s = ts ++ [⟨⟨.eof, ""⟩, ⟨s.length, s.length⟩⟩] ∧
      (∀ us last, (Lexer.ofBytes s).Drains us last ↔
        us = ts ∧ last = ⟨⟨.eof, ""⟩, ⟨s.length, s.length⟩⟩) ∧
      ∀ us, IsTokenization s 0 us ↔ us = ts := by
  have drained : (Lexer.ofBytes s).Drains (Scan.tokens 0 s) ⟨⟨.eof, ""⟩, ⟨s.length, s.length⟩⟩ := by
    have drained := (Lexer.ofBytes s).drains_tokens
    simpa [Lexer.ofBytes, Scan.endToken, Token.eof] using drained
  refine ⟨Scan.tokens 0 s, rfl, fun us last => ⟨drained.unique, ?_⟩,
    fun us => ⟨fun h => h.eq_tokens, ?_⟩⟩
  · intro same
    obtain ⟨rfl, rfl⟩ := same
    exact drained
  · intro same
    rw [same]
    exact IsTokenization.of_tokens (Nat.zero_le _)

end Lexis
