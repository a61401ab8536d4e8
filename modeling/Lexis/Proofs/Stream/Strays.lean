import Lexis.Proofs.Source.Partition
import Lexis.TokenStream
set_option autoImplicit false

/-!
What a stream reports, said of the bytes alone. Main statement: every handler receives one
diagnostic for each stray byte, in the order of the bytes, and no other.
-/
namespace Lexis

def strays (position : Nat) : List UInt8 → List Diagnostic
  | [] => []
  | b :: rest =>
    if IsStray b then .illegalCharacter ⟨position, position + 1⟩ b :: strays (position + 1) rest
    else strays (position + 1) rest

theorem strays_of_none {bytes : List UInt8} (position : Nat) (h : ∀ b ∈ bytes, ¬ IsStray b) :
    strays position bytes = [] := by
  induction bytes generalizing position with
  | nil => rfl
  | cons b rest ih =>
    obtain ⟨first, rest_none⟩ := List.forall_mem_cons.1 h
    rw [strays, if_neg first, ih _ rest_none]

theorem strays_append (position : Nat) (a b : List UInt8) :
    strays position (a ++ b) = strays position a ++ strays (position + a.length) b := by
  induction a generalizing position with
  | nil => rfl
  | cons c a ih =>
    have next : position + (c :: a).length = position + 1 + a.length := by
      rw [List.length_cons]
      omega
    simp only [List.cons_append, strays, ih, next]
    split <;> rfl

theorem mem_strays {d : Diagnostic} {position : Nat} {bytes : List UInt8} :
    d ∈ strays position bytes ↔ ∃ i b, bytes[i]? = some b ∧ IsStray b ∧
      d = .illegalCharacter ⟨position + i, position + i + 1⟩ b := by
  induction bytes generalizing position with
  | nil => simp [strays]
  | cons c rest ih =>
    rw [strays]
    constructor
    · intro hd
      have later : d ∈ strays (position + 1) rest → ∃ i b, (c :: rest)[i]? = some b ∧ IsStray b ∧
          d = .illegalCharacter ⟨position + i, position + i + 1⟩ b := by
        intro hd
        obtain ⟨i, b, hb, stray, rfl⟩ := ih.1 hd
        refine ⟨i + 1, b, hb, stray, ?_⟩
        rw [show position + 1 + i = position + (i + 1) by omega]
      split at hd
      · obtain rfl | hd := List.mem_cons.1 hd
        · exact ⟨0, c, rfl, ‹_›, rfl⟩
        · exact later hd
      · exact later hd
    · intro found
      obtain ⟨i, b, hb, stray, same⟩ := found
      cases i with
      | zero =>
        obtain rfl := Option.some.inj hb
        rw [same, if_pos stray]
        exact List.mem_cons_self
      | succ i =>
        rw [show position + (i + 1) = position + 1 + i by omega] at same
        have later := ih.2 ⟨i, b, hb, stray, same⟩
        split
        · exact List.mem_cons_of_mem _ later
        · exact later

theorem strays_sorted (position : Nat) (bytes : List UInt8) :
    (strays position bytes).Pairwise fun d e => d.span.start < e.span.start := by
  induction bytes generalizing position with
  | nil => exact .nil
  | cons b rest ih =>
    rw [strays]
    split
    · refine List.pairwise_cons.2 ⟨fun d hd => ?_, ih _⟩
      obtain ⟨i, c, _, _, rfl⟩ := mem_strays.1 hd
      simp only [Diagnostic.span]
      omega
    · exact ih _

theorem exclamationMark_not_stray : ¬ IsStray exclamationMark := by decide

theorem symbols_not_stray : ∀ x ∈ symbols, ¬ IsStray x.1.toUInt8 ∧ x.2 ≠ .illegal := by decide

/-- A token is illegal or free of stray bytes, and an illegal one is a single byte. -/
theorem Spelling.illegal_or {kind : Kind} {w : List UInt8} (h : Spelling kind w) :
    (kind = .illegal ∧ ∃ b, w = [b] ∧ IsStray b) ∨ (kind ≠ .illegal ∧ ∀ b ∈ w, ¬ IsStray b) := by
  cases h with
  | word _ letters =>
    exact .inr ⟨(Kind.isWord_ofWord _).ne (by decide), fun b hb stray => stray.2.1 (letters b hb)⟩
  | integer _ digits => exact .inr ⟨by decide, fun b hb stray => stray.2.2.1 (digits b hb)⟩
  | symbol h =>
    obtain ⟨stray, kind_ne⟩ := symbols_not_stray _ h
    rw [Latin1.toUInt8_char] at stray
    exact .inr ⟨kind_ne, by simpa using stray⟩
  | illegal stray => exact .inl ⟨rfl, _, rfl, stray⟩
  | _ => exact .inr ⟨by decide, by simp [equalSign_apart, exclamationMark_not_stray]⟩

theorem filterMap_ofToken? (s : Source) (position : Nat) {bytes : List UInt8}
    (suffix : s.bytes.drop position = bytes) :
    (Scan.tokens position bytes).filterMap (Diagnostic.ofToken? s) = strays position bytes := by
  induction bytes using munch_induction generalizing position with
  | blank gap blank =>
    rw [tokens_blank position blank, strays_of_none position fun b hb stray => stray.1 (blank b hb)]
    rfl
  | munch gap x blank hx ih =>
    have gap_none : strays position gap = [] :=
      strays_of_none position fun b hb stray => stray.1 (blank b hb)
    have from_token := drop_of_drop_eq_append suffix
    have spelled : s.slice (x.token (position + gap.length)).span = x.bytes := by
      rw [slice_eq_bytesOf]
      exact Span.bytesOf_of_drop from_token
    rw [tokens_munch position blank hx, List.filterMap_cons,
      ih _ (drop_of_drop_eq_append from_token), strays_append, gap_none,
      List.nil_append, strays_append, Diagnostic.ofToken?, spelled]
    obtain ⟨illegal, b, bytes_eq, stray⟩ | ⟨legal, none_stray⟩ := hx.spelling.illegal_or
    · simp [Lexeme.token, illegal, bytes_eq, strays, stray]
    · simp [Lexeme.token, legal, strays_of_none _ none_stray]

theorem diagnostics_ofSource (s : Source) :
    (TokenStream.ofSource s).diagnostics = strays 0 s.bytes := by
  have reported := filterMap_ofToken? s 0 (List.drop_zero (l := s.bytes))
  rw [TokenStream.diagnostics, TokenStream.ofSource, scan, List.filterMap_append, reported]
  simp [Diagnostic.ofToken?, Scan.endToken, Token.eof]

namespace Handler

theorem receiveAll_cons {σ α : Type} [Handler σ α] (h : σ) (x : α) (xs : List α) :
    receiveAll h (x :: xs) = receiveAll (receive h x) xs := rfl

variable {α : Type}

theorem receiveAll_storage (h : Storage α) (xs : List α) :
    (receiveAll h xs).toList = h.toList ++ xs := by
  induction xs generalizing h with
  | nil => simp [receiveAll]
  | cons x xs ih =>
    rw [receiveAll_cons, ih]
    simp [Storage.toList, receive]

theorem receiveAll_counter (h : Counter) (xs : List α) :
    (receiveAll h xs).count = h.count + xs.length := by
  induction xs generalizing h with
  | nil => rfl
  | cons x xs ih =>
    rw [receiveAll_cons, ih, List.length_cons]
    simp only [receive]
    omega

end Handler

theorem toList_tokenize (s : Source) (h : Storage Diagnostic) :
    (TokenStream.tokenize s h).2.toList = h.toList ++ strays 0 s.bytes := by
  rw [TokenStream.tokenize, diagnostics_ofSource]
  exact Handler.receiveAll_storage h _

theorem tokenize_reports_strays (s : Source) : ∃ (ts : List SpannedToken) (ds : List Diagnostic),
    scan s.bytes = ts ++ [Scan.endToken s.bytes.length] ∧ (∀ t ∈ ts, t.token.kind ≠ .eof) ∧
      (∀ d, d ∈ ds ↔ ∃ i b, s.bytes[i]? = some b ∧ IsStray b ∧
        d = .illegalCharacter ⟨i, i + 1⟩ b) ∧
      ds.Pairwise (fun d e => d.span.start < e.span.start) ∧
      (∀ (σ : Type) [Handler σ Diagnostic] (h : σ),
        TokenStream.tokenize s h = (⟨s, scan s.bytes⟩, Handler.receiveAll h ds) ∧
          (TokenStream.tokenize s h).1.significant = ts) ∧
      (∀ h : Storage Diagnostic, (TokenStream.tokenize s h).2.toList = h.toList ++ ds) ∧
      (∀ h : Counter, (TokenStream.tokenize s h).2.count = h.count + ds.length) ∧
      ∀ h : Dummy, (TokenStream.tokenize s h).2 = h := by
  have reported : ∀ (σ : Type) [Handler σ Diagnostic] (h : σ),
      TokenStream.tokenize s h = (⟨s, scan s.bytes⟩, Handler.receiveAll h (strays 0 s.bytes)) := by
    intro σ _ h
    rw [TokenStream.tokenize, diagnostics_ofSource]
    rfl
  refine ⟨Scan.tokens 0 s.bytes, strays 0 s.bytes, rfl, fun t ht => ?_, ?_,
    strays_sorted 0 s.bytes, ?_, ?_, ?_, ?_⟩
  · obtain ⟨w, spelling, _⟩ := exists_spelling_of_mem_tokens ht
    exact spelling.kind_ne_eof
  · intro d
    simpa using @mem_strays d 0 s.bytes
  · intro σ _ h
    refine ⟨reported σ h, ?_⟩
    rw [reported, TokenStream.significant, scan, List.dropLast_concat]
  · intro h
    rw [reported, Handler.receiveAll_storage]
  · intro h
    rw [reported, Handler.receiveAll_counter]
  · intro h
    rfl

end Lexis
