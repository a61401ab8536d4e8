import Lexis.Proofs.Scan.Tokens
import Mathlib.Data.List.Chain
set_option autoImplicit false

/-!
Texts written from tokens with blanks between them. Main statement: the tokens are read back, each
at its place, exactly when no two neighbours fuse for want of a blank.
-/
namespace Lexis

/-- The tokens that can stand in a text. -/
inductive Token.WellFormed : Token → Prop where
  | identifier {w : List UInt8} : w ≠ [] → (∀ b ∈ w, IsLetter b) →
      (∀ k : Kind, k.isKeyword = true → k.text? ≠ some (Latin1.decode w)) →
      WellFormed ⟨.identifier, Latin1.decode w⟩
  | integer {w : List UInt8} : w ≠ [] → (∀ b ∈ w, IsDigit b) →
      WellFormed ⟨.integer, Latin1.decode w⟩
  | fixed {kind : Kind} {text : String} : kind.text? = some text → WellFormed ⟨kind, text⟩
  | illegal {b : UInt8} : IsStray b → WellFormed ⟨.illegal, Latin1.decode [b]⟩

structure Blanks where
  bytes : List UInt8
  blank : ∀ b ∈ bytes, IsBlank b

structure Written where
  token : Token
  wellFormed : token.WellFormed
  after : Blanks

/-- Two tokens of these kinds become one or two others if no blank stands between them. -/
def Fuse (k l : Kind) : Prop :=
  (k.IsWord ∧ l.IsWord) ∨ (k = .integer ∧ l = .integer) ∨
    ((k = .assign ∨ k = .bang) ∧ (l = .assign ∨ l = .equal))

namespace Written

def width (x : Written) : Nat := (Latin1.encode x.token.literal).length

def text : List Written → List UInt8
  | [] => []
  | x :: rest => Latin1.encode x.token.literal ++ (x.after.bytes ++ text rest)

def placed (position : Nat) : List Written → List SpannedToken
  | [] => []
  | x :: rest =>
    ⟨x.token, ⟨position, position + x.width⟩⟩ ::
      placed (position + x.width + x.after.bytes.length) rest

def Separated (xs : List Written) : Prop :=
  xs.IsChain fun x y => x.after.bytes = [] → ¬ Fuse x.token.kind y.token.kind

end Written

theorem decode_encode_of_text : ∀ k ∈ Kind.all, ∀ w ∈ k.text?,
    Latin1.decode (Latin1.encode w) = w := by decide

theorem word_of_keyword : ∀ k ∈ Kind.all, k.isKeyword = true → ∀ w ∈ k.text?,
    Kind.ofWord w = k ∧ Latin1.encode w ≠ [] ∧ (Latin1.encode w).all isLetter = true := by decide

theorem symbol_of_text : ∀ k ∈ Kind.all, k.isKeyword = false → ∀ w ∈ k.text?,
    k ∈ [.assign, .equal, .bang, .notEqual] ∨
      ∃ x ∈ symbols, x.2 = k ∧ Latin1.encode w = [x.1.toUInt8] := by decide

theorem symbols_latin1 : ∀ x ∈ symbols, Latin1.char x.1.toUInt8 = x.1 := by decide

theorem spelling_of_text {kind : Kind} {w : String} (h : kind.text? = some w) :
    Spelling kind (Latin1.encode w) := by
  cases keyword : kind.isKeyword with
  | true =>
    obtain ⟨same, nonempty, letters⟩ := word_of_keyword kind kind.mem_all keyword w h
    have spelled := Spelling.word nonempty fun b hb =>
      isLetter_iff.1 (List.all_eq_true.1 letters b hb)
    rwa [decode_encode_of_text kind kind.mem_all w h, same] at spelled
  | false =>
    obtain joinable | ⟨x, hx, rfl, spelled⟩ := symbol_of_text kind kind.mem_all keyword w h
    · simp only [List.mem_cons, List.not_mem_nil, or_false] at joinable
      rcases joinable with rfl | rfl | rfl | rfl <;> obtain rfl := Option.some.inj h
      · exact .assign
      · exact .equal
      · exact .bang
      · exact .notEqual
    · rw [spelled]
      exact .symbol (by rwa [symbols_latin1 x hx])

theorem ofWord_of_not_keyword {w : String}
    (h : ∀ k : Kind, k.isKeyword = true → k.text? ≠ some w) : Kind.ofWord w = .identifier := by
  have none_found : Kind.ofKeyword? w = none := by
    rw [Kind.ofKeyword?, List.find?_eq_none]
    intro k hk found
    exact h k (List.mem_filter.1 hk).2 (by simpa using found)
  rw [Kind.ofWord, none_found, Option.getD_none]

namespace Token.WellFormed

theorem decode_encode {t : Token} (h : t.WellFormed) :
    Latin1.decode (Latin1.encode t.literal) = t.literal := by
  cases h with
  | fixed h => exact decode_encode_of_text _ (Kind.mem_all _) _ h
  | _ => rw [Latin1.encode_decode]

theorem spelling {t : Token} (h : t.WellFormed) : Spelling t.kind (Latin1.encode t.literal) := by
  cases h with
  | identifier nonempty letters other =>
    rw [Latin1.encode_decode]
    exact ofWord_of_not_keyword other ▸ .word nonempty letters
  | integer nonempty digits =>
    rw [Latin1.encode_decode]
    exact .integer nonempty digits
  | fixed h => exact spelling_of_text h
  | illegal stray =>
    rw [Latin1.encode_decode]
    exact .illegal stray

end Token.WellFormed

theorem symbols_apart : ∀ x ∈ symbols, ¬ IsLetter x.1.toUInt8 ∧ ¬ IsDigit x.1.toUInt8 ∧
    x.1.toUInt8 ≠ equalSign ∧ x.2 ∉ [.assign, .equal] := by decide

/-- Every byte of a token tells whether the token is a word or an integer. -/
theorem Spelling.mem_iff {kind : Kind} {w : List UInt8} (h : Spelling kind w) {b : UInt8}
    (hb : b ∈ w) : (IsLetter b ↔ kind.IsWord) ∧ (IsDigit b ↔ kind = .integer) := by
  cases h with
  | word _ letters =>
    have letter := letters b hb
    have word := Kind.isWord_ofWord (Latin1.decode w)
    have digit : ¬ IsDigit b := fun digit => digit.not_letter letter
    simp [letter, word, digit, word.ne (l := .integer) (by decide)]
  | integer _ digits =>
    have digit := digits b hb
    simp [digit, digit.not_letter, Kind.IsWord, Kind.isKeyword]
  | symbol h =>
    obtain ⟨letter, digit, _⟩ := symbols_apart _ h
    obtain ⟨word, integer, _⟩ := isClosed_of_symbol _ h
    rw [Latin1.toUInt8_char, ← List.mem_singleton.1 hb] at letter digit
    simp [letter, digit, word, integer]
  | illegal stray =>
    rw [← List.mem_singleton.1 hb] at stray
    simp [stray.2.1, stray.2.2.1, Kind.IsWord, Kind.isKeyword]
  | _ =>
    have sign : b = equalSign ∨ b = exclamationMark := by grind
    obtain rfl | rfl := sign <;> decide

/-- The first byte of a token tells which tokens it could lengthen. -/
theorem Spelling.head_iff {kind : Kind} {b : UInt8} {w : List UInt8} (h : Spelling kind (b :: w)) :
    (IsLetter b ↔ kind.IsWord) ∧ (IsDigit b ↔ kind = .integer) ∧
      (b = equalSign ↔ kind = .assign ∨ kind = .equal) := by
  obtain ⟨letter, digit⟩ := h.mem_iff List.mem_cons_self
  refine ⟨letter, digit, ?_⟩
  cases h with
  | word _ letters =>
    have word := Kind.isWord_ofWord (Latin1.decode (b :: w))
    have sign : b ≠ equalSign := fun sign =>
      equalSign_apart.1 (sign ▸ letters b List.mem_cons_self)
    simp [sign, word.ne (l := .assign) (by decide), word.ne (l := .equal) (by decide)]
  | integer _ digits =>
    have sign : b ≠ equalSign := fun sign =>
      equalSign_apart.2.1 (sign ▸ digits b List.mem_cons_self)
    simp [sign]
  | symbol h =>
    obtain ⟨_, _, sign, kind_apart⟩ := symbols_apart _ h
    rw [Latin1.toUInt8_char] at sign
    simp_all
  | illegal stray =>
    have sign : b ≠ equalSign := fun sign => equalSign_apart.2.2 (sign ▸ stray)
    simp [sign]
  | _ => decide

theorem extends_iff_fuse {k l : Kind} {b : UInt8} {w : List UInt8} (h : Spelling l (b :: w)) :
    Extends b k ↔ Fuse k l := by
  obtain ⟨letter, digit, equal⟩ := h.head_iff
  rw [Extends, Fuse, letter, digit, equal]

/-- A scan begins with a token exactly when its bytes come first and cannot be lengthened. -/
theorem tokens_eq_cons_iff {gap w tail : List UInt8} {t : Token} {us : List Token} (position : Nat)
    (blank : ∀ b ∈ gap, IsBlank b) (spelling : Spelling t.kind w)
    (literal : Latin1.decode w = t.literal) :
    (Scan.tokens position (gap ++ (w ++ tail))).map (·.token) = t :: us ↔
      (Lexeme.mk t.kind w tail).IsMunch ∧
        (Scan.tokens (position + gap.length + w.length) tail).map (·.token) = us := by
  obtain ⟨kind, text⟩ := t
  simp only at spelling literal ⊢
  subst literal
  constructor
  · intro same
    obtain ⟨b, v, rfl⟩ := List.exists_cons_of_ne_nil spelling.ne_nil
    have munch := Lexeme.isMunch_first (v ++ tail) (spelling.not_blank List.mem_cons_self)
    have split := Lexeme.first_bytes_append_rest b (v ++ tail)
    generalize Lexeme.first b (v ++ tail) = x at munch split
    rw [List.cons_append, ← split, tokens_munch position blank munch, List.map_cons] at same
    obtain ⟨first, rest⟩ := List.cons.inj same
    have kind_eq : x.kind = kind := congrArg Token.kind first
    have bytes_eq : x.bytes = b :: v := Latin1.decode_inj.1 (congrArg Token.literal first)
    rw [bytes_eq, List.cons_append] at split
    have rest_eq : x.rest = tail := List.append_cancel_left (List.cons.inj split).2
    rw [bytes_eq, rest_eq] at rest
    obtain rfl : x = ⟨kind, b :: v, tail⟩ := by rw [← kind_eq, ← bytes_eq, ← rest_eq]
    exact ⟨munch, rest⟩
  · intro both
    obtain ⟨munch, rest⟩ := both
    rw [tokens_munch position blank munch, List.map_cons, rest]
    rfl

namespace Written

theorem isMunch_iff (x : Written) (rest : List Written) :
    (Lexeme.mk x.token.kind (Latin1.encode x.token.literal) (x.after.bytes ++ text rest)).IsMunch ↔
      ∀ y ∈ rest.head?, x.after.bytes = [] → ¬ Fuse x.token.kind y.token.kind := by
  have maximal_iff : (Lexeme.mk x.token.kind (Latin1.encode x.token.literal)
      (x.after.bytes ++ text rest)).IsMunch ↔
        ∀ b ∈ (x.after.bytes ++ text rest).head?, ¬ Extends b x.token.kind :=
    ⟨fun h => h.maximal, fun h => ⟨x.wellFormed.spelling, h⟩⟩
  rw [maximal_iff]
  cases gap : x.after.bytes with
  | cons g gs =>
    have blank := x.after.blank g (by rw [gap]; exact List.mem_cons_self)
    simp [blank.not_extends]
  | nil =>
    cases rest with
    | nil => simp [text]
    | cons y rest =>
      obtain ⟨b, w, spelled⟩ := List.exists_cons_of_ne_nil y.wellFormed.spelling.ne_nil
      have joins := extends_iff_fuse (k := x.token.kind) (spelled ▸ y.wellFormed.spelling)
      simp [text, spelled, joins]

theorem map_placed (position : Nat) (xs : List Written) :
    (placed position xs).map (·.token) = xs.map (·.token) := by
  induction xs generalizing position with
  | nil => rfl
  | cons x rest ih => rw [placed, List.map_cons, List.map_cons, ih]

theorem separated_cons {x : Written} {rest : List Written} :
    Separated (x :: rest) ↔
      (∀ y ∈ rest.head?, x.after.bytes = [] → ¬ Fuse x.token.kind y.token.kind) ∧
        Separated rest := List.isChain_cons

theorem tokens_text (position : Nat) (lead : Blanks) (xs : List Written) :
    (Scan.tokens position (lead.bytes ++ text xs)).map (·.token) = xs.map (·.token) ↔
      Separated xs := by
  induction xs generalizing position lead with
  | nil => simp [text, Separated, tokens_blank position lead.blank]
  | cons x rest ih =>
    rw [text, List.map_cons, tokens_eq_cons_iff position lead.blank x.wellFormed.spelling
      x.wellFormed.decode_encode, ih _ x.after, isMunch_iff, separated_cons]

theorem tokens_text_placed {xs : List Written} (separated : Separated xs) (position : Nat)
    (lead : Blanks) :
    Scan.tokens position (lead.bytes ++ text xs) = placed (position + lead.bytes.length) xs := by
  induction xs generalizing position lead with
  | nil => simp [text, placed, tokens_blank position lead.blank]
  | cons x rest ih =>
    obtain ⟨first, separated⟩ := separated_cons.1 separated
    have munch := (isMunch_iff x rest).2 first
    rw [text, tokens_munch position lead.blank munch, ih separated _ x.after]
    simp only [placed, Lexeme.token, x.wellFormed.decode_encode, width]

end Written

/-- Written tokens are read back, and where they stand, exactly when they are separated. -/
theorem scan_text_iff (lead : Blanks) (xs : List Written) :
    ((scan (lead.bytes ++ Written.text xs)).map (·.token) = xs.map (·.token) ++ [.eof] ↔
      Written.Separated xs) ∧
    (scan (lead.bytes ++ Written.text xs) = Written.placed lead.bytes.length xs ++
        [Scan.endToken (lead.bytes ++ Written.text xs).length] ↔ Written.Separated xs) := by
  have read_back := Written.tokens_text 0 lead xs
  refine ⟨?_, fun same => ?_, fun separated => ?_⟩
  · rw [← read_back, scan, List.map_append]
    exact List.append_left_inj _
  · rw [← read_back, List.append_cancel_right same, Written.map_placed]
  · have placed := Written.tokens_text_placed separated 0 lead
    rw [Nat.zero_add] at placed
    rw [scan, placed]

namespace Written

def unspaced {t : Token} (h : t.WellFormed) : Written := ⟨t, h, ⟨[], by simp⟩⟩

def x : Written :=
  unspaced (t := ⟨.identifier, "x"⟩) (.identifier (w := [0x78]) (List.cons_ne_nil _ _)
    (List.forall_mem_singleton.2 (by decide)) fun k _ => by cases k <;> decide)

def assign : Written := unspaced (t := ⟨.assign, "="⟩) (.fixed rfl)

def one : Written :=
  unspaced (t := ⟨.integer, "1"⟩) (.integer (w := [0x31]) (List.cons_ne_nil _ _)
    (List.forall_mem_singleton.2 (by decide)))

end Written

/-- No blanks are needed in `x=1`, but the two signs of `x==1` are read as one. -/
theorem scan_text_iff_unspaced :
    scan (Latin1.encode "x=1") = [⟨⟨.identifier, "x"⟩, ⟨0, 1⟩⟩, ⟨⟨.assign, "="⟩, ⟨1, 2⟩⟩,
        ⟨⟨.integer, "1"⟩, ⟨2, 3⟩⟩, ⟨.eof, ⟨3, 3⟩⟩] ∧
      (scan (Latin1.encode "x==1")).map (·.token) ≠
        [⟨.identifier, "x"⟩, ⟨.assign, "="⟩, ⟨.assign, "="⟩, ⟨.integer, "1"⟩, .eof] := by
  let lead : Blanks := ⟨[], by simp⟩
  have separated : Written.Separated [.x, .assign, .one] := by
    simp [Written.Separated, Fuse, Written.x, Written.assign, Written.one, Written.unspaced,
      Kind.IsWord, Kind.isKeyword]
  have fused : ¬ Written.Separated [.x, .assign, .assign, .one] := by
    simp [Written.Separated, Fuse, Written.x, Written.assign, Written.one, Written.unspaced]
  exact ⟨(scan_text_iff lead [.x, .assign, .one]).2.2 separated,
    fun same => fused ((scan_text_iff lead [.x, .assign, .assign, .one]).1.1 same)⟩

end Lexis
