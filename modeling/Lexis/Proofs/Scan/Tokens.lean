import Lexis.Proofs.Scan.Munch
set_option autoImplicit false

/-!
A whole scan, one munch after the other. Main statements: how the scan of a text begins, an
induction that follows it, and when the scan of two texts put together is made of their scans.
-/
namespace Lexis

theorem next?_blank {gap : List UInt8} (position : Nat) (blank : ∀ b ∈ gap, IsBlank b) :
    Scan.next? position gap = none := by
  have skipped : (gap ++ []).dropWhile isBlank = [] := dropWhile_run @isBlank_iff blank (by simp)
  rw [List.append_nil] at skipped
  simp [Scan.next?, skipped]

theorem next?_munch {gap : List UInt8} {x : Lexeme} (position : Nat)
    (blank : ∀ b ∈ gap, IsBlank b) (h : x.IsMunch) :
    Scan.next? position (gap ++ (x.bytes ++ x.rest)) =
      some (x.token (position + gap.length), x.rest) := by
  obtain ⟨b, w, spelled⟩ := List.exists_cons_of_ne_nil h.spelling.ne_nil
  have split : x.bytes ++ x.rest = b :: (w ++ x.rest) := by rw [spelled, List.cons_append]
  have stop : ∀ c ∈ (b :: (w ++ x.rest)).head?, ¬ IsBlank c := by
    simpa using h.spelling.not_blank (spelled ▸ List.mem_cons_self)
  simp only [Scan.next?, split, takeWhile_run @isBlank_iff blank stop,
    dropWhile_run @isBlank_iff blank stop, h.first_eq split]

theorem tokens_blank {gap : List UInt8} (position : Nat) (blank : ∀ b ∈ gap, IsBlank b) :
    Scan.tokens position gap = [] := Scan.tokens_of_none (next?_blank position blank)

theorem tokens_munch {gap : List UInt8} {x : Lexeme} (position : Nat)
    (blank : ∀ b ∈ gap, IsBlank b) (h : x.IsMunch) :
    Scan.tokens position (gap ++ (x.bytes ++ x.rest)) =
      x.token (position + gap.length) ::
        Scan.tokens (position + gap.length + x.bytes.length) x.rest :=
  Scan.tokens_of_some (next?_munch position blank h)

theorem blank_or_munch (bytes : List UInt8) :
    (∀ b ∈ bytes, IsBlank b) ∨ ∃ (gap : List UInt8) (x : Lexeme),
      (∀ b ∈ gap, IsBlank b) ∧ x.IsMunch ∧ bytes = gap ++ (x.bytes ++ x.rest) := by
  have blank : ∀ b ∈ bytes.takeWhile isBlank, IsBlank b := fun b hb =>
    of_mem_takeWhile @isBlank_iff hb
  have joined : bytes.takeWhile isBlank ++ bytes.dropWhile isBlank = bytes :=
    List.takeWhile_append_dropWhile
  cases dropped : bytes.dropWhile isBlank with
  | nil =>
    rw [dropped, List.append_nil] at joined
    exact .inl (joined ▸ blank)
  | cons b tail =>
    have stop : ¬ IsBlank b := fun hb =>
      not_of_mem_head?_dropWhile @isBlank_iff
        (dropped ▸ rfl : b ∈ (bytes.dropWhile isBlank).head?) hb
    refine .inr ⟨_, Lexeme.first b tail, blank, Lexeme.isMunch_first tail stop, ?_⟩
    rw [Lexeme.first_bytes_append_rest, ← dropped, joined]

/-- Every text is blank, or it is a gap, a munch and the text after it. -/
@[elab_as_elim]
theorem munch_induction {motive : List UInt8 → Prop} (bytes : List UInt8)
    (blank : ∀ gap, (∀ b ∈ gap, IsBlank b) → motive gap)
    (munch : ∀ gap (x : Lexeme), (∀ b ∈ gap, IsBlank b) → x.IsMunch → motive x.rest →
      motive (gap ++ (x.bytes ++ x.rest))) : motive bytes := by
  induction size : bytes.length using Nat.strongRecOn generalizing bytes with
  | ind n ih =>
    obtain all_blank | ⟨gap, x, gap_blank, hx, rfl⟩ := blank_or_munch bytes
    · exact blank bytes all_blank
    · have taken := List.length_pos_iff.2 hx.spelling.ne_nil
      simp only [List.length_append] at size
      exact munch gap x gap_blank hx (ih x.rest.length (by omega) x.rest rfl)

theorem tokens_gap {gap : List UInt8} (position : Nat) (blank : ∀ b ∈ gap, IsBlank b)
    (bytes : List UInt8) :
    Scan.tokens position (gap ++ bytes) = Scan.tokens (position + gap.length) bytes := by
  obtain all_blank | ⟨more, x, more_blank, hx, rfl⟩ := blank_or_munch bytes
  · have both : ∀ b ∈ gap ++ bytes, IsBlank b := fun b hb =>
      (List.mem_append.1 hb).elim (blank b) (all_blank b)
    rw [tokens_blank _ both, tokens_blank _ all_blank]
  · have both : ∀ b ∈ gap ++ more, IsBlank b := fun b hb =>
      (List.mem_append.1 hb).elim (blank b) (more_blank b)
    rw [← List.append_assoc gap, tokens_munch _ both hx, tokens_munch _ more_blank hx]
    simp only [List.length_append, Nat.add_assoc]

/-- The scan of two texts is made of their scans, unless the first text ends in a token that the
second one lengthens. -/
theorem tokens_append {position : Nat} {a b : List UInt8}
    (seam : ∀ t ∈ (Scan.tokens position a).getLast?, t.span.stop = position + a.length →
      ∀ c ∈ b.head?, ¬ Extends c t.token.kind) :
    Scan.tokens position (a ++ b) =
      Scan.tokens position a ++ Scan.tokens (position + a.length) b := by
  induction a using munch_induction generalizing position with
  | blank gap blank => rw [tokens_gap _ blank, tokens_blank _ blank, List.nil_append]
  | munch gap x blank hx ih =>
    rw [tokens_munch position blank hx] at seam ⊢
    simp only [List.length_append, List.getLast?_cons] at seam ⊢
    have longer : (Lexeme.mk x.kind x.bytes (x.rest ++ b)).IsMunch := by
      refine ⟨hx.spelling, fun c hc => ?_⟩
      cases at_end : x.rest with
      | nil =>
        rw [at_end, tokens_blank _ (by simp)] at seam
        refine seam (x.token (position + gap.length)) rfl ?_ c (by simpa [at_end] using hc)
        simp only [Lexeme.token, List.length_nil]
        omega
      | cons d rest => exact hx.maximal c (by simpa [at_end] using hc)
    have rest_seam : ∀ t ∈ (Scan.tokens (position + gap.length + x.bytes.length) x.rest).getLast?,
        t.span.stop = position + gap.length + x.bytes.length + x.rest.length →
        ∀ c ∈ b.head?, ¬ Extends c t.token.kind := by
      intro t ht stop
      refine seam t ?_ (by omega)
      rw [Option.mem_def.1 ht]
      rfl
    have whole : gap ++ (x.bytes ++ x.rest) ++ b = gap ++ (x.bytes ++ (x.rest ++ b)) := by simp
    rw [whole, tokens_munch position blank longer, ih rest_seam]
    simp only [List.cons_append, Lexeme.token, Nat.add_assoc]

theorem mem_tokens_of_some {position : Nat} {bytes rest : List UInt8} {t : SpannedToken}
    (read : Scan.next? position bytes = some (t, rest)) : t ∈ Scan.tokens position bytes := by
  rw [Scan.tokens_of_some read]
  exact List.mem_cons_self

theorem within_of_mem_tokens {position : Nat} {bytes : List UInt8} {t : SpannedToken}
    (h : t ∈ Scan.tokens position bytes) :
    position ≤ t.span.start ∧ t.span.start < t.span.stop ∧
      t.span.stop ≤ position + bytes.length := by
  induction bytes using munch_induction generalizing position with
  | blank gap blank => simp [tokens_blank position blank] at h
  | munch gap x blank hx ih =>
    have taken := List.length_pos_iff.2 hx.spelling.ne_nil
    rw [tokens_munch position blank hx] at h
    simp only [List.length_append]
    obtain rfl | h := List.mem_cons.1 h
    · simp only [Lexeme.token]
      omega
    · have bounds := ih h
      omega

theorem exists_spelling_of_mem_tokens {position : Nat} {bytes : List UInt8} {t : SpannedToken}
    (h : t ∈ Scan.tokens position bytes) :
    ∃ w, Spelling t.token.kind w ∧ t.token.literal = Latin1.decode w ∧
      t.span.stop = t.span.start + w.length := by
  induction bytes using munch_induction generalizing position with
  | blank gap blank => simp [tokens_blank position blank] at h
  | munch gap x blank hx ih =>
    rw [tokens_munch position blank hx] at h
    obtain rfl | h := List.mem_cons.1 h
    · exact ⟨x.bytes, hx.spelling, rfl, rfl⟩
    · exact ih h

def SpannedToken.shift (n : Nat) (t : SpannedToken) : SpannedToken :=
  ⟨t.token, ⟨t.span.start + n, t.span.stop + n⟩⟩

theorem tokens_shift (position n : Nat) (bytes : List UInt8) :
    Scan.tokens (position + n) bytes = (Scan.tokens position bytes).map (SpannedToken.shift n) := by
  induction bytes using munch_induction generalizing position with
  | blank gap blank => simp [tokens_blank _ blank]
  | munch gap x blank hx ih =>
    rw [tokens_munch _ blank hx, tokens_munch _ blank hx, List.map_cons, ← ih]
    simp only [SpannedToken.shift, Lexeme.token, Nat.add_right_comm _ n]

end Lexis
