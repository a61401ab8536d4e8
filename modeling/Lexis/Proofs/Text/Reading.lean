import Lexis.Text
set_option autoImplicit false

/-!
Reading text back: the text up to a mark, a number from its digits, the text between quotes. Main
statement: quoted text is read up to the quote that closes it, whatever comes after it.
-/
namespace Lexis

def readTo (mark : Char) : List Char → Option (List Char × List Char)
  | [] => none
  | c :: cs => if c = mark then some ([], cs) else (readTo mark cs).map (Prod.map (c :: ·) id)

theorem readTo_append {mark : Char} {w : List Char} (apart : mark ∉ w) (rest : List Char) :
    readTo mark (w ++ mark :: rest) = some (w, rest) := by
  induction w with
  | nil => rw [List.nil_append, readTo, if_pos rfl]
  | cons c w ih =>
    have other : c ≠ mark := fun same => apart (same ▸ List.mem_cons_self)
    rw [List.cons_append, readTo, if_neg other, ih fun h => apart (List.mem_cons_of_mem c h)]
    rfl

theorem readTo_length {mark : Char} {cs w rest : List Char} (h : readTo mark cs = some (w, rest)) :
    rest.length < cs.length := by
  induction cs generalizing w with
  | nil => simp [readTo] at h
  | cons c cs ih =>
    rw [readTo] at h
    split at h
    · obtain ⟨_, rfl⟩ := Prod.mk.inj (Option.some.inj h)
      exact Nat.lt_succ_self _
    · obtain ⟨⟨v, left⟩, found, same⟩ := Option.map_eq_some_iff.1 h
      obtain ⟨_, rfl⟩ := Prod.mk.inj same
      exact Nat.lt_succ_of_lt (ih found)

def digits : List Char := "0123456789abcdef".toList

/-- The number of a digit; of another character, one that no digit has. -/
def digitValue (c : Char) : Nat := digits.idxOf c

def readNumber (base : Nat) (cs : List Char) : Nat :=
  cs.foldl (fun value c => base * value + digitValue c) 0

theorem digitValue_digitChar : ∀ d < 16, digitValue (Nat.digitChar d) = d := by decide

theorem digitChar_mem_digits : ∀ d < 16, Nat.digitChar d ∈ digits := by decide

section Base

variable {base : Nat} (low : 1 < base) (high : base ≤ 16)

include low high

theorem readNumber_toDigits (n : Nat) : readNumber base (Nat.toDigits base n) = n := by
  induction n using Nat.strongRecOn with
  | ind n ih =>
    rw [Nat.toDigits_eq_if low]
    split
    · next single => simp [readNumber, digitValue_digitChar n (by omega)]
    · next more =>
      have fewer := ih (n / base) (Nat.div_lt_self (by omega) low)
      have small : n % base < 16 := Nat.lt_of_lt_of_le (Nat.mod_lt n (by omega)) high
      rw [readNumber, List.foldl_append, ← readNumber, fewer, List.foldl_cons,
        digitValue_digitChar _ small]
      exact Nat.div_add_mod n base

theorem mem_digits {n : Nat} {c : Char} (h : c ∈ Nat.toDigits base n) : c ∈ digits := by
  induction n using Nat.strongRecOn with
  | ind n ih =>
    rw [Nat.toDigits_eq_if low] at h
    split at h
    · next single => exact List.mem_singleton.1 h ▸ digitChar_mem_digits n (by omega)
    · next more =>
      obtain front | last := List.mem_append.1 h
      · exact ih (n / base) (Nat.div_lt_self (by omega) low) front
      · have small : n % base < 16 := Nat.lt_of_lt_of_le (Nat.mod_lt n (by omega)) high
        exact List.mem_singleton.1 last ▸ digitChar_mem_digits _ small

theorem not_mem_toDigits {c : Char} (other : c ∉ digits) (n : Nat) : c ∉ Nat.toDigits base n :=
  fun h => other (mem_digits low high h)

end Base

namespace Quoted

def readEscape : List Char → Option (Char × List Char)
  | 'u' :: '\x7b' :: cs =>
    (readTo '\x7d' cs).map (Prod.map (fun number => Char.ofNat (readNumber 16 number)) id)
  | '0' :: cs => some ('\x00', cs)
  | 't' :: cs => some ('\t', cs)
  | 'n' :: cs => some ('\n', cs)
  | 'r' :: cs => some ('\r', cs)
  | c :: cs => some (c, cs)
  | [] => none

def readChar : List Char → Option (Char × List Char)
  | [] => none
  | c :: cs => if c = '\\' then readEscape cs else some (c, cs)

theorem readChar_encodeChar (c : Char) (rest : List Char) :
    readChar (encodeChar c ++ rest) = some (c, rest) := by
  unfold encodeChar
  split
  case h_7 plain =>
    split
    · have apart : '\x7d' ∉ Nat.toDigits 16 c.toNat :=
        not_mem_toDigits (by decide) (by decide) (by decide) _
      have number := readTo_append apart rest
      simp [readChar, readEscape, number, readNumber_toDigits]
    · have plain : c ≠ '\\' := plain
      simp [readChar, plain]
  all_goals rfl

theorem readEscape_length {cs rest : List Char} {c : Char} (h : readEscape cs = some (c, rest)) :
    rest.length < cs.length := by
  unfold readEscape at h
  split at h
  case h_1 cs =>
    obtain ⟨⟨number, left⟩, found, same⟩ := Option.map_eq_some_iff.1 h
    obtain ⟨_, rfl⟩ := Prod.mk.inj same
    have shorter := readTo_length found
    simp only [id, List.length_cons]
    omega
  case h_7 => simp at h
  all_goals
    obtain ⟨_, rfl⟩ := Prod.mk.inj (Option.some.inj h)
    exact Nat.lt_succ_self _

theorem readChar_length {cs rest : List Char} {c : Char} (h : readChar cs = some (c, rest)) :
    rest.length < cs.length := by
  cases cs with
  | nil => simp [readChar] at h
  | cons d cs =>
    rw [readChar] at h
    split at h
    · exact Nat.lt_succ_of_lt (readEscape_length h)
    · obtain ⟨_, rfl⟩ := Prod.mk.inj (Option.some.inj h)
      exact Nat.lt_succ_self _

def IsVisible (cs : List Char) : Prop := ∀ c ∈ cs, isHidden c = false

instance : DecidablePred IsVisible := fun cs => List.decidableBAll _ cs

theorem IsVisible.append {v w : List Char} (hv : IsVisible v) (hw : IsVisible w) :
    IsVisible (v ++ w) := List.forall_mem_append.2 ⟨hv, hw⟩

theorem isVisible_toDigits {base : Nat} (low : 1 < base) (high : base ≤ 16) (n : Nat) :
    IsVisible (Nat.toDigits base n) := by
  have visible : IsVisible digits := by decide
  exact fun c h => visible c (mem_digits low high h)

theorem isVisible_encodeChar (c : Char) : IsVisible (encodeChar c) := by
  unfold encodeChar
  split
  case h_7 =>
    split
    · have number : IsVisible (Nat.toDigits 16 c.toNat) :=
        isVisible_toDigits (by decide) (by decide) _
      have opening : IsVisible ['\\', 'u', '\x7b'] := by decide
      exact (opening.append number).append (by decide)
    · next visible =>
      intro d same
      rw [List.mem_singleton.1 same]
      simpa using visible
  all_goals decide

theorem encodeChar_eq_cons (c : Char) : ∃ d cs, encodeChar c = d :: cs ∧ d ≠ '"' := by
  unfold encodeChar
  split
  case h_7 =>
    split
    · exact ⟨_, _, rfl, by decide⟩
    · exact ⟨c, [], rfl, by assumption⟩
  all_goals exact ⟨_, _, rfl, by decide⟩

def readBody (cs : List Char) : Option (List Char × List Char) :=
  if cs.head? = some '"' then some ([], cs.tail)
  else
    match _h : readChar cs with
    | none => none
    | some (c, rest) => (readBody rest).map (Prod.map (c :: ·) id)
termination_by cs.length
decreasing_by exact readChar_length _h

theorem readBody_encodeChar (c : Char) (rest : List Char) :
    readBody (encodeChar c ++ rest) = (readBody rest).map (Prod.map (c :: ·) id) := by
  obtain ⟨d, cs, spelled, other⟩ := encodeChar_eq_cons c
  have read := readChar_encodeChar c rest
  rw [readBody, if_neg (by simp [spelled, other])]
  split
  · next none_read => simp [read] at none_read
  · next e left found =>
    obtain ⟨rfl, rfl⟩ := Prod.mk.inj (Option.some.inj (read.symm.trans found))
    rfl

theorem readBody_encode (w rest : List Char) :
    readBody (encode w ++ '"' :: rest) = some (w, rest) := by
  induction w with
  | nil => rw [readBody, if_pos (by rfl)]; rfl
  | cons c w ih =>
    rw [encode, List.flatMap_cons, List.append_assoc, readBody_encodeChar, ← encode, ih]
    rfl

def readQuoted : List Char → Option (String × List Char)
  | '"' :: cs => (readBody cs).map (Prod.map String.ofList id)
  | _ => none

/-- Quoted text tells where it ends, so it can be read in front of any other text. -/
theorem readQuoted_quote (text : String) (rest : List Char) :
    readQuoted ((quote text).toList ++ rest) = some (text, rest) := by
  have body := readBody_encode text.toList rest
  simp [quote, readQuoted, body]

theorem isVisible_quote (text : String) : IsVisible (quote text).toList := by
  have body : IsVisible (encode text.toList) := by
    intro c h
    obtain ⟨d, _, written⟩ := List.mem_flatMap.1 h
    exact isVisible_encodeChar d c written
  have opening : IsVisible ['"'] := by decide
  rw [quote, String.toList_ofList]
  exact (opening.append body).append opening

end Quoted

end Lexis
