import Lexis.Proofs.ByteClass
import Lexis.Scan
set_option autoImplicit false

/-!
One token against its spelling. Main statement: at a byte that is no blank, the first lexeme is the
only one that is spelled as its kind asks and that the next byte cannot lengthen.
-/
namespace Lexis

def Kind.IsWord (k : Kind) : Prop := k = .identifier ∨ k.isKeyword = true

instance : DecidablePred Kind.IsWord := fun _ => inferInstanceAs (Decidable (_ ∨ _))

theorem Kind.isWord_ofWord (word : String) : (ofWord word).IsWord := by
  unfold ofWord
  cases h : ofKeyword? word with
  | none => exact .inl rfl
  | some k => exact .inr (List.mem_filter.1 (List.mem_of_find?_eq_some h)).2

theorem Kind.IsWord.ne {k l : Kind} (h : k.IsWord) (other : ¬ l.IsWord) : k ≠ l :=
  fun same => other (same ▸ h)

/-- The bytes that a token of a kind consists of. -/
inductive Spelling : Kind → List UInt8 → Prop where
  | word {w : List UInt8} : w ≠ [] → (∀ b ∈ w, IsLetter b) →
      Spelling (.ofWord (Latin1.decode w)) w
  | integer {w : List UInt8} : w ≠ [] → (∀ b ∈ w, IsDigit b) → Spelling .integer w
  | symbol {b : UInt8} {kind : Kind} : (Latin1.char b, kind) ∈ symbols → Spelling kind [b]
  | assign : Spelling .assign [equalSign]
  | equal : Spelling .equal [equalSign, equalSign]
  | bang : Spelling .bang [exclamationMark]
  | notEqual : Spelling .notEqual [exclamationMark, equalSign]
  | illegal {b : UInt8} : IsStray b → Spelling .illegal [b]

/-- A token of the kind would be longer with the byte after it. -/
def Extends (b : UInt8) (kind : Kind) : Prop :=
  (kind.IsWord ∧ IsLetter b) ∨ (kind = .integer ∧ IsDigit b) ∨
    ((kind = .assign ∨ kind = .bang) ∧ b = equalSign)

theorem extends_word {b : UInt8} {kind : Kind} (h : kind.IsWord) :
    Extends b kind ↔ IsLetter b := by
  have apart : kind ≠ .integer ∧ kind ≠ .assign ∧ kind ≠ .bang :=
    ⟨h.ne (by decide), h.ne (by decide), h.ne (by decide)⟩
  simp [Extends, h, apart]

@[simp] theorem extends_integer {b : UInt8} : Extends b .integer ↔ IsDigit b := by
  simp [Extends, Kind.IsWord, Kind.isKeyword]

@[simp] theorem extends_assign {b : UInt8} : Extends b .assign ↔ b = equalSign := by
  simp [Extends, Kind.IsWord, Kind.isKeyword]

@[simp] theorem extends_bang {b : UInt8} : Extends b .bang ↔ b = equalSign := by
  simp [Extends, Kind.IsWord, Kind.isKeyword]

def Kind.IsClosed (k : Kind) : Prop := ¬ k.IsWord ∧ k ≠ .integer ∧ k ≠ .assign ∧ k ≠ .bang

instance : DecidablePred Kind.IsClosed := fun _ => inferInstanceAs (Decidable (_ ∧ _))

theorem not_extends {b : UInt8} (kind : Kind) (h : kind.IsClosed) : ¬ Extends b kind := by
  simp_all [Kind.IsClosed, Extends]

theorem isClosed_of_symbol : ∀ x ∈ symbols, x.2.IsClosed := by decide

theorem IsBlank.not_extends {b : UInt8} (blank : IsBlank b) (kind : Kind) : ¬ Extends b kind := by
  intro longer
  obtain ⟨_, letter⟩ | ⟨_, digit⟩ | ⟨_, rfl⟩ := longer
  · exact blank.not_letter letter
  · exact blank.not_digit digit
  · exact absurd blank (by decide)

namespace Spelling

theorem ne_nil {kind : Kind} {w : List UInt8} (h : Spelling kind w) : w ≠ [] := by
  cases h <;> simp_all

theorem ne_eof_of_symbol : ∀ x ∈ symbols, x.2 ≠ .eof := by decide

theorem kind_ne_eof {kind : Kind} {w : List UInt8} (h : Spelling kind w) : kind ≠ .eof := by
  cases h with
  | word => exact (Kind.isWord_ofWord _).ne (by decide)
  | symbol h => exact ne_eof_of_symbol _ h
  | _ => decide

theorem symbols_not_blank : ∀ x ∈ symbols, ¬ IsBlank x.1.toUInt8 := by decide

theorem not_blank {kind : Kind} {w : List UInt8} (h : Spelling kind w) {b : UInt8} (hb : b ∈ w) :
    ¬ IsBlank b := by
  intro blank
  cases h with
  | word _ letters => exact blank.not_letter (letters b hb)
  | integer _ digits => exact blank.not_digit (digits b hb)
  | symbol h =>
    have apart := symbols_not_blank _ h
    rw [Latin1.toUInt8_char] at apart
    exact apart (List.mem_singleton.1 hb ▸ blank)
  | illegal h => exact h.1 (List.mem_singleton.1 hb ▸ blank)
  | _ => rcases blank.cases with rfl | rfl | rfl | rfl <;> revert hb <;> decide

end Spelling

section Runs

variable {p : UInt8 → Bool} {P : UInt8 → Prop} (test : ∀ b, p b = true ↔ P b)
  {w rest bytes : List UInt8} {b : UInt8}

include test

theorem takeWhile_run (inside : ∀ b ∈ w, P b) (stop : ∀ b ∈ rest.head?, ¬ P b) :
    (w ++ rest).takeWhile p = w := by
  rw [List.takeWhile_append_of_pos fun b hb => (test b).2 (inside b hb)]
  cases rest with
  | nil => simp
  | cons b rest =>
    have outside : ¬ p b = true := fun h => stop b rfl ((test b).1 h)
    simp [List.takeWhile_cons_of_neg outside]

theorem dropWhile_run (inside : ∀ b ∈ w, P b) (stop : ∀ b ∈ rest.head?, ¬ P b) :
    (w ++ rest).dropWhile p = rest := by
  rw [List.dropWhile_append_of_pos fun b hb => (test b).2 (inside b hb)]
  cases rest with
  | nil => rfl
  | cons b rest => exact List.dropWhile_cons_of_neg fun h => stop b rfl ((test b).1 h)

/-- A run that nothing extends is what the test takes behind its first byte. -/
theorem run_split {tail : List UInt8} (nonempty : w ≠ []) (inside : ∀ c ∈ w, P c)
    (stop : ∀ c ∈ rest.head?, ¬ P c) (split : w ++ rest = b :: tail) :
    P b ∧ b :: tail.takeWhile p = w ∧ tail.dropWhile p = rest := by
  obtain ⟨c, w, rfl⟩ := List.exists_cons_of_ne_nil nonempty
  rw [List.cons_append] at split
  obtain ⟨rfl, rfl⟩ := List.cons.inj split
  obtain ⟨first, inside⟩ := List.forall_mem_cons.1 inside
  exact ⟨first, by rw [takeWhile_run test inside stop], dropWhile_run test inside stop⟩

theorem of_mem_takeWhile (h : b ∈ bytes.takeWhile p) : P b :=
  (test b).1 (List.all_eq_true.1 List.all_takeWhile b h)

theorem not_of_mem_head?_dropWhile (h : b ∈ (bytes.dropWhile p).head?) : ¬ P b := by
  have stop := List.head?_dropWhile_not p bytes
  rw [Option.mem_def.1 h] at stop
  rw [← test]
  simpa using stop

end Runs

namespace Lexeme

/-- A lexeme with the bytes of its kind that does not stop too early. -/
structure IsMunch (x : Lexeme) : Prop where
  spelling : Spelling x.kind x.bytes
  maximal : ∀ b ∈ x.rest.head?, ¬ Extends b x.kind

variable {b : UInt8} {tail : List UInt8}

theorem first_of_letter (h : IsLetter b) :
    first b tail =
      ⟨.ofWord (Latin1.decode (b :: tail.takeWhile isLetter)), b :: tail.takeWhile isLetter,
        tail.dropWhile isLetter⟩ := by
  simp only [first, ByteClass.ofByte_eq_iff (c := .letter).2 h]

theorem first_of_digit (h : IsDigit b) :
    first b tail = ⟨.integer, b :: tail.takeWhile isDigit, tail.dropWhile isDigit⟩ := by
  simp only [first, ByteClass.ofByte_eq_iff (c := .digit).2 h]

theorem first_of_symbol {kind : Kind} (h : (Latin1.char b, kind) ∈ symbols) :
    first b tail = ⟨kind, [b], tail⟩ := by
  simp only [first, ByteClass.ofByte_eq_iff (c := .symbol kind).2 h]

theorem first_of_stray (h : IsStray b) : first b tail = ⟨.illegal, [b], tail⟩ := by
  simp only [first, ByteClass.ofByte_eq_iff (c := .illegal).2 h]

theorem first_joined {alone joined : Kind} (h : (ByteClass.joinable alone joined).Holds b) :
    first b (equalSign :: tail) = ⟨joined, [b, equalSign], tail⟩ := by
  simp [first, ByteClass.ofByte_eq_iff.2 h, isEqualSign_iff]

theorem first_alone {alone joined : Kind} (h : (ByteClass.joinable alone joined).Holds b)
    (stop : equalSign ∉ tail.head?) : first b tail = ⟨alone, [b], tail⟩ := by
  cases tail with
  | nil => simp [first, ByteClass.ofByte_eq_iff.2 h]
  | cons e tail =>
    have apart : e ≠ equalSign := by simpa using stop
    simp [first, ByteClass.ofByte_eq_iff.2 h, isEqualSign_iff, apart]

theorem isMunch_first (tail : List UInt8) (h : ¬ IsBlank b) : (first b tail).IsMunch := by
  have holds := ByteClass.holds_ofByte b
  cases class_b : ByteClass.ofByte b <;> rw [class_b] at holds
  case blank => exact absurd holds h
  case letter =>
    rw [first_of_letter holds]
    have letters : ∀ c ∈ b :: tail.takeWhile isLetter, IsLetter c :=
      List.forall_mem_cons.2 ⟨holds, fun c hc => of_mem_takeWhile @isLetter_iff hc⟩
    refine ⟨.word (List.cons_ne_nil _ _) letters, fun c hc => ?_⟩
    rw [extends_word (Kind.isWord_ofWord _)]
    exact not_of_mem_head?_dropWhile @isLetter_iff hc
  case digit =>
    rw [first_of_digit holds]
    have digits : ∀ c ∈ b :: tail.takeWhile isDigit, IsDigit c :=
      List.forall_mem_cons.2 ⟨holds, fun c hc => of_mem_takeWhile @isDigit_iff hc⟩
    refine ⟨.integer (List.cons_ne_nil _ _) digits, fun c hc => ?_⟩
    rw [extends_integer]
    exact not_of_mem_head?_dropWhile @isDigit_iff hc
  case symbol kind =>
    rw [first_of_symbol holds]
    exact ⟨.symbol holds, fun c _ => not_extends kind (isClosed_of_symbol _ holds)⟩
  case joinable alone joined =>
    by_cases stop : equalSign ∈ tail.head?
    · obtain ⟨rest, rfl⟩ := List.head?_eq_some_iff.1 stop
      rw [first_joined holds]
      obtain ⟨rfl, rfl, rfl⟩ | ⟨rfl, rfl, rfl⟩ := holds
      · exact ⟨.equal, fun c _ => not_extends .equal (by decide)⟩
      · exact ⟨.notEqual, fun c _ => not_extends .notEqual (by decide)⟩
    · rw [first_alone holds stop]
      obtain ⟨rfl, rfl, rfl⟩ | ⟨rfl, rfl, rfl⟩ := holds
      · exact ⟨.assign, fun c hc h => stop (extends_assign.1 h ▸ hc)⟩
      · exact ⟨.bang, fun c hc h => stop (extends_bang.1 h ▸ hc)⟩
  case illegal =>
    rw [first_of_stray holds]
    exact ⟨.illegal holds, fun c _ => not_extends .illegal (by decide)⟩

/-- No other lexeme can be taken at a byte. -/
theorem IsMunch.first_eq {x : Lexeme} (h : x.IsMunch)
    (split : x.bytes ++ x.rest = b :: tail) : first b tail = x := by
  obtain ⟨kind, bytes, rest⟩ := x
  obtain ⟨spelling, maximal⟩ := h
  simp only at *
  cases spelling with
  | word nonempty letters =>
    have stop : ∀ c ∈ rest.head?, ¬ IsLetter c := fun c hc letter =>
      maximal c hc ((extends_word (Kind.isWord_ofWord _)).2 letter)
    obtain ⟨letter, run, left⟩ := run_split @isLetter_iff nonempty letters stop split
    rw [first_of_letter letter, run, left]
  | integer nonempty digits =>
    have stop : ∀ c ∈ rest.head?, ¬ IsDigit c := fun c hc digit =>
      maximal c hc (extends_integer.2 digit)
    obtain ⟨digit, run, left⟩ := run_split @isDigit_iff nonempty digits stop split
    rw [first_of_digit digit, run, left]
  | symbol h =>
    obtain ⟨rfl, rfl⟩ := List.cons.inj split
    exact first_of_symbol h
  | assign =>
    obtain ⟨rfl, rfl⟩ := List.cons.inj split
    exact first_alone (.inl ⟨rfl, rfl, rfl⟩) fun h => maximal _ h (extends_assign.2 rfl)
  | equal =>
    obtain ⟨rfl, rfl⟩ := List.cons.inj split
    exact first_joined (.inl ⟨rfl, rfl, rfl⟩)
  | bang =>
    obtain ⟨rfl, rfl⟩ := List.cons.inj split
    exact first_alone (.inr ⟨rfl, rfl, rfl⟩) fun h => maximal _ h (extends_bang.2 rfl)
  | notEqual =>
    obtain ⟨rfl, rfl⟩ := List.cons.inj split
    exact first_joined (.inr ⟨rfl, rfl, rfl⟩)
  | illegal h =>
    obtain ⟨rfl, rfl⟩ := List.cons.inj split
    exact first_of_stray h

end Lexeme

end Lexis
