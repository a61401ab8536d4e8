set_option autoImplicit false

/-!
Texts and bytes. A text has bytes in UTF-8; bytes are read back as Latin-1, where each byte is the
character of the same number, so no byte string is malformed and distinct ones have distinct texts.
Whole texts, single bytes and values with parts each have a printed form with escapes.
-/
namespace Lexis

def utf8 (text : String) : List UInt8 := text.toUTF8.data.toList

def spaces (n : Nat) : String := String.ofList (List.replicate n ' ')

@[simp] theorem length_spaces (n : Nat) : (spaces n).length = n := by simp [spaces]

/-- The number of decimal digits, where zero has none. -/
def digitCount (n : Nat) : Nat := if n = 0 then 0 else digitCount (n / 10) + 1

theorem digitCount_zero : digitCount 0 = 0 := by rw [digitCount, if_pos rfl]

theorem digitCount_of_pos {n : Nat} (h : 0 < n) : digitCount n = digitCount (n / 10) + 1 := by
  rw [digitCount, if_neg (Nat.ne_of_gt h)]

theorem digitCount_mono {m n : Nat} (h : m ≤ n) : digitCount m ≤ digitCount n := by
  induction n using Nat.strongRecOn generalizing m with
  | ind n ih =>
    obtain rfl | positive := Nat.eq_zero_or_pos m
    · rw [digitCount_zero]
      exact Nat.zero_le _
    · have tens := ih (n / 10) (by omega) (Nat.div_le_div_right h)
      rw [digitCount_of_pos positive, digitCount_of_pos (Nat.lt_of_lt_of_le positive h)]
      omega

theorem length_toString {n : Nat} (h : 0 < n) : (toString n).length = digitCount n := by
  rw [Nat.toString_eq_ofList_toDigits, String.length_ofList]
  induction n using Nat.strongRecOn with
  | ind n ih =>
    rw [digitCount_of_pos h, Nat.toDigits_eq_if (by decide)]
    split
    · have last : n / 10 = 0 := by omega
      rw [last, digitCount_zero, List.length_singleton]
    · rw [List.length_append, ih (n / 10) (by omega) (by omega), List.length_singleton]

namespace Latin1

def char (b : UInt8) : Char := Char.ofUInt8 b

theorem char_inj {b c : UInt8} : char b = char c ↔ b = c :=
  ⟨fun h => UInt8.toNat_inj.1 (congrArg Char.toNat h), fun h => h ▸ rfl⟩

theorem char_eq_ofNat (b : UInt8) : char b = Char.ofNat b.toNat := by
  have valid : b.toNat.isValidChar := .inl (Nat.lt_trans b.toNat_lt (by decide))
  rw [Char.ofNat, dif_pos valid]
  rfl

def decode (bytes : List UInt8) : String := String.ofList (bytes.map char)

@[simp] theorem toList_decode (bytes : List UInt8) : (decode bytes).toList = bytes.map char := by
  simp [decode]

end Latin1

namespace ByteEscape

def encode (b : UInt8) : List Char :=
  match Latin1.char b with
  | '\t' => ['\\', 't']
  | '\n' => ['\\', 'n']
  | '\r' => ['\\', 'r']
  | '\x27' => ['\\', '\x27']
  | '"' => ['\\', '"']
  | '\\' => ['\\', '\\']
  | c =>
    if 0x20 ≤ c.toNat && c.toNat < 0x7f then [c]
    else ['\\', 'x', Nat.digitChar (b.toNat / 16), Nat.digitChar (b.toNat % 16)]

def text (b : UInt8) : String := String.ofList (encode b)

end ByteEscape

namespace Quoted

/-- Characters without a visible shape: the two control blocks, the no-break space and the soft
hyphen. -/
def isHidden (c : Char) : Bool :=
  c.toNat < 0x20 || (0x7f ≤ c.toNat && c.toNat ≤ 0xa0) || c.toNat == 0xad

def encodeChar (c : Char) : List Char :=
  match c with
  | '\x00' => ['\\', '0']
  | '\t' => ['\\', 't']
  | '\n' => ['\\', 'n']
  | '\r' => ['\\', 'r']
  | '"' => ['\\', '"']
  | '\\' => ['\\', '\\']
  | c =>
    if isHidden c then ['\\', 'u', '\x7b'] ++ Nat.toDigits 16 c.toNat ++ ['\x7d'] else [c]

def encode (cs : List Char) : List Char := cs.flatMap encodeChar

def quote (text : String) : String := String.ofList ('"' :: encode text.toList ++ ['"'])

end Quoted

namespace Record

def field (label value : String) : String := label ++ ": " ++ value

def record (name : String) (fields : List String) : String :=
  name ++ " \x7b " ++ ", ".intercalate fields ++ " \x7d"

def sequence (items : List String) : String := "[" ++ ", ".intercalate items ++ "]"

def wrapped (name value : String) : String := name ++ "(" ++ value ++ ")"

def optional : Option String → String
  | none => "None"
  | some value => wrapped "Some" value

def range (start stop : Nat) : String := toString start ++ ".." ++ toString stop

end Record

end Lexis
