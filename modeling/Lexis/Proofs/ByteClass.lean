import Lexis.Scan
set_option autoImplicit false

/-!
The classes of bytes by plain lists and ranges of ASCII characters, and the bytes of a Latin-1 text.
Main statement: a byte is given a class exactly when it stands in the list or range of that class.
-/
namespace Lexis

namespace Latin1

theorem toUInt8_char (b : UInt8) : (char b).toUInt8 = b := UInt8.toUInt8_toUInt32 b

/-- The bytes of a text whose characters all have a number below 256. -/
def encode (text : String) : List UInt8 := text.toList.map Char.toUInt8

@[simp] theorem encode_decode (bytes : List UInt8) : encode (decode bytes) = bytes := by
  simp [encode, Function.comp_def, toUInt8_char]

theorem decode_inj {x y : List UInt8} : decode x = decode y ↔ x = y :=
  ⟨fun h => by simpa using congrArg encode h, fun h => h ▸ rfl⟩

theorem eq_decode_iff {text : String} {bytes : List UInt8} :
    text = decode bytes ↔ text.toList.map Char.toNat = bytes.map UInt8.toNat := by
  have numbers : (bytes.map char).map Char.toNat = bytes.map UInt8.toNat := by
    rw [List.map_map]
    rfl
  rw [← String.toList_inj, toList_decode, ← numbers]
  exact (List.map_inj_right fun _ _ => Char.toNat_inj.1).symm

end Latin1

def equalSign : UInt8 := 0x3d

def exclamationMark : UInt8 := 0x21

def IsBlank (b : UInt8) : Prop := Latin1.char b ∈ [' ', '\t', '\r', '\n']

def IsLetter (b : UInt8) : Prop :=
  ('a' ≤ Latin1.char b ∧ Latin1.char b ≤ 'z') ∨ ('A' ≤ Latin1.char b ∧ Latin1.char b ≤ 'Z') ∨
    Latin1.char b = '_'

def IsDigit (b : UInt8) : Prop := '0' ≤ Latin1.char b ∧ Latin1.char b ≤ '9'

/-- The bytes that are a token alone and never part of a longer one. -/
def symbols : List (Char × Kind) :=
  [('+', .plus), ('-', .minus), ('*', .asterisk), ('/', .slash), ('<', .lessThan),
    ('>', .greaterThan), (',', .comma), (';', .semicolon), ('(', .leftParenthesis),
    (')', .rightParenthesis), ('\x7b', .leftBrace), ('\x7d', .rightBrace)]

/-- A stray byte belongs to no token. -/
def IsStray (b : UInt8) : Prop :=
  ¬ IsBlank b ∧ ¬ IsLetter b ∧ ¬ IsDigit b ∧
    Latin1.char b ∉ ['=', '!', '+', '-', '*', '/', '<', '>', ',', ';', '(', ')', '\x7b', '\x7d']

instance : DecidablePred IsBlank := fun _ => inferInstanceAs (Decidable (_ ∈ _))

instance : DecidablePred IsLetter := fun _ => inferInstanceAs (Decidable (_ ∨ _))

instance : DecidablePred IsDigit := fun _ => inferInstanceAs (Decidable (_ ∧ _))

instance : DecidablePred IsStray := fun _ => inferInstanceAs (Decidable (_ ∧ _))

theorem isBlank_iff {b : UInt8} : isBlank b = true ↔ IsBlank b := by
  simp [isBlank, IsBlank, or_assoc]

theorem isLetter_iff {b : UInt8} : isLetter b = true ↔ IsLetter b := by
  have unfolded : isLetter b = ((decide ('A' ≤ Latin1.char b ∧ Latin1.char b ≤ 'Z') ||
      (decide ('a' ≤ Latin1.char b) && decide (Latin1.char b ≤ 'z'))) ||
        Latin1.char b == '_') := rfl
  simp only [unfolded, IsLetter, Bool.or_eq_true, Bool.and_eq_true, decide_eq_true_eq, beq_iff_eq]
  rw [← or_assoc, Or.comm (a := 'a' ≤ _ ∧ _)]

theorem isDigit_iff {b : UInt8} : isDigit b = true ↔ IsDigit b := by
  simp [isDigit, IsDigit, Char.isDigit, Char.le_def]

theorem isEqualSign_iff {b : UInt8} : isEqualSign b = true ↔ b = equalSign := by
  simp only [isEqualSign, beq_iff_eq, ← Latin1.char_inj]
  rfl

theorem IsBlank.cases {b : UInt8} (h : IsBlank b) :
    b = 0x20 ∨ b = 0x09 ∨ b = 0x0d ∨ b = 0x0a := by
  simp only [IsBlank, List.mem_cons, List.not_mem_nil, or_false] at h
  exact h.imp Latin1.char_inj.1 (.imp Latin1.char_inj.1 (.imp Latin1.char_inj.1 Latin1.char_inj.1))

theorem IsBlank.not_letter {b : UInt8} (h : IsBlank b) : ¬ IsLetter b := by
  rcases h.cases with rfl | rfl | rfl | rfl <;> decide

theorem IsBlank.not_digit {b : UInt8} (h : IsBlank b) : ¬ IsDigit b := by
  rcases h.cases with rfl | rfl | rfl | rfl <;> decide

theorem IsDigit.not_letter {b : UInt8} (h : IsDigit b) : ¬ IsLetter b := by
  have bounds : 0x30 ≤ b.toNat ∧ b.toNat ≤ 0x39 := h
  intro letter
  obtain letter | letter | letter := letter
  · have : 0x61 ≤ b.toNat := letter.1
    omega
  · have : 0x41 ≤ b.toNat := letter.1
    omega
  · have : b.toNat = 0x5f := congrArg Char.toNat letter
    omega

theorem equalSign_apart : ¬ IsLetter equalSign ∧ ¬ IsDigit equalSign ∧ ¬ IsStray equalSign := by
  decide

namespace ByteClass

def Holds (b : UInt8) : ByteClass → Prop
  | .blank => IsBlank b
  | .letter => IsLetter b
  | .digit => IsDigit b
  | .symbol kind => (Latin1.char b, kind) ∈ symbols
  | .joinable alone joined =>
    (b = equalSign ∧ alone = .assign ∧ joined = .equal) ∨
      (b = exclamationMark ∧ alone = .bang ∧ joined = .notEqual)
  | .illegal => IsStray b

theorem holds_ofSymbol {b : UInt8} (blank : ¬ IsBlank b) (letter : ¬ IsLetter b)
    (digit : ¬ IsDigit b) : (ofSymbol (Latin1.char b)).Holds b := by
  unfold ofSymbol
  split
  case h_1 h => exact .inl ⟨Latin1.char_inj.1 h, rfl, rfl⟩
  case h_2 h => exact .inr ⟨Latin1.char_inj.1 h, rfl, rfl⟩
  all_goals simp_all [Holds, symbols, IsStray]

theorem holds_ofByte (b : UInt8) : (ofByte b).Holds b := by
  unfold ofByte
  simp only [isBlank_iff, isLetter_iff, isDigit_iff]
  split
  · assumption
  · split
    · assumption
    · split
      · assumption
      · exact holds_ofSymbol ‹_› ‹_› ‹_›

theorem ofByte_of_symbol : ∀ x ∈ symbols, ofByte x.1.toUInt8 = .symbol x.2 := by decide

theorem Holds.ofByte_eq {b : UInt8} {c : ByteClass} (h : c.Holds b) : ofByte b = c := by
  cases c with
  | blank => simp [ofByte, isBlank_iff.2 h]
  | letter =>
    have blank : ¬ IsBlank b := fun blank => blank.not_letter h
    simp [ofByte, isBlank_iff, isLetter_iff.2 h, blank]
  | digit =>
    have blank : ¬ IsBlank b := fun blank => blank.not_digit h
    simp [ofByte, isBlank_iff, isLetter_iff, isDigit_iff.2 h, blank, IsDigit.not_letter h]
  | symbol kind =>
    have spelled := ofByte_of_symbol _ h
    rwa [Latin1.toUInt8_char] at spelled
  | joinable alone joined => rcases h with ⟨rfl, rfl, rfl⟩ | ⟨rfl, rfl, rfl⟩ <;> decide
  | illegal =>
    obtain ⟨blank, letter, digit, symbol⟩ := h
    simp only [ofByte, isBlank_iff, isLetter_iff, isDigit_iff, blank, letter, digit, if_false]
    unfold ofSymbol
    split <;> simp_all

theorem ofByte_eq_iff {b : UInt8} {c : ByteClass} : ofByte b = c ↔ c.Holds b :=
  ⟨fun h => h ▸ holds_ofByte b, Holds.ofByte_eq⟩

end ByteClass

end Lexis
