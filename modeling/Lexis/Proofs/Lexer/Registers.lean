import Lexis.Proofs.Lexer.Position
set_option autoImplicit false

/-!
A lexer that moves over its input byte by byte, with what it sees in registers. Main statement: it
hands out the tokens of the lexer that cuts them off at once, and its registers hold what that lexer
says of its position.
-/
namespace Lexis

/-- The position, the index after it and the byte under examination, none at the end. -/
structure Registers where
  input : List UInt8
  position : Nat
  readPosition : Nat
  current? : Option UInt8
  deriving DecidableEq, Repr

namespace Registers

/-- Past the last byte the read position stays where it is. -/
def readByte (r : Registers) : Registers :=
  match r.input[r.readPosition]? with
  | none => ⟨r.input, r.readPosition, r.readPosition, none⟩
  | some b => ⟨r.input, r.readPosition, r.readPosition + 1, some b⟩

def ofBytes (input : List UInt8) : Registers := readByte ⟨input, 0, 0, none⟩

/-- A bound on the bytes that can still be read, the one under examination among them. -/
def left (r : Registers) : Nat :=
  (r.input.length - r.readPosition) + if r.current?.isSome then 1 else 0

theorem left_readByte {r : Registers} (h : r.current?.isSome = true) :
    r.readByte.left < r.left := by
  unfold readByte
  split
  · simp [left, h]
  · next b found =>
    have inside := (List.getElem?_eq_some_iff.1 found).1
    simp only [left, h, Option.isSome_some]
    omega

def readWhile (p : UInt8 → Bool) (r : Registers) : Registers :=
  if _h : r.current?.any p = true then readWhile p r.readByte else r
termination_by r.left
decreasing_by
  refine left_readByte ?_
  cases current : r.current? with
  | none => simp [current] at _h
  | some b => rfl

def upTo (r : Registers) (kind : String → Kind) (r' : Registers) : SpannedToken × Registers :=
  let literal := Latin1.decode ((Span.mk r.position r'.position).bytesOf r.input)
  (⟨⟨kind literal, literal⟩, ⟨r.position, r'.position⟩⟩, r')

def readToken (r : Registers) (b : UInt8) : SpannedToken × Registers :=
  match ByteClass.ofByte b with
  | .letter => r.upTo Kind.ofWord (r.readWhile isLetter)
  | .digit => r.upTo (fun _ => .integer) (r.readWhile isDigit)
  | .symbol kind => r.upTo (fun _ => kind) r.readByte
  | .joinable alone joined =>
    if r.input[r.readPosition]?.any isEqualSign then
      r.upTo (fun _ => joined) r.readByte.readByte
    else r.upTo (fun _ => alone) r.readByte
  | .blank | .illegal => r.upTo (fun _ => .illegal) r.readByte

def nextSpanned (r : Registers) : SpannedToken × Registers :=
  let r := r.readWhile isBlank
  match r.current? with
  | none => (Scan.endToken r.position, r)
  | some b => r.readToken b

def ofPosition (s : List UInt8) (position : Nat) : Registers :=
  ⟨s, position, min (position + 1) s.length, s[position]?⟩

theorem ofBytes_eq (s : List UInt8) : ofBytes s = ofPosition s 0 := by
  cases s with
  | nil => rfl
  | cons b rest => simp [ofBytes, readByte, ofPosition]

section Reading

variable {s bytes w rest : List UInt8} {n : Nat} {b : UInt8}

theorem lt_length_of_drop (h : s.drop n = b :: rest) : n < s.length := by
  have size := congrArg List.length h
  rw [List.length_drop, List.length_cons] at size
  omega

theorem current?_ofPosition (h : s.drop n = bytes) :
    (ofPosition s n).current? = bytes.head? := by
  rw [← h, List.head?_drop]
  rfl

theorem readByte_ofPosition (inside : n < s.length) :
    (ofPosition s n).readByte = ofPosition s (n + 1) := by
  have next : min (n + 1) s.length = n + 1 := Nat.min_eq_left inside
  cases found : s[n + 1]? with
  | none =>
    have last := List.getElem?_eq_none_iff.1 found
    have stays : min (n + 1 + 1) s.length = n + 1 := by omega
    simp only [readByte, ofPosition, next, found, stays]
  | some b =>
    have more := (List.getElem?_eq_some_iff.1 found).1
    simp only [readByte, ofPosition, next, found, Nat.min_eq_left more]

theorem readWhile_ofPosition (p : UInt8 → Bool) (h : s.drop n = bytes) :
    (ofPosition s n).readWhile p = ofPosition s (n + (bytes.takeWhile p).length) := by
  induction bytes generalizing n with
  | nil =>
    rw [readWhile, dif_neg (by simp [current?_ofPosition h])]
    rfl
  | cons b rest ih =>
    have current := current?_ofPosition h
    by_cases passed : p b = true
    · have next : s.drop (n + 1) = rest := drop_of_drop_eq_append (a := [b]) h
      rw [readWhile, dif_pos (by simp [current, passed]),
        readByte_ofPosition (lt_length_of_drop h), ih next, List.takeWhile_cons_of_pos passed,
        List.length_cons, Nat.add_assoc, Nat.add_comm 1]
    · rw [readWhile, dif_neg (by simp [current, passed]), List.takeWhile_cons_of_neg passed]
      rfl

theorem upTo_ofPosition (kind : String → Kind) (h : s.drop n = w ++ rest) :
    (ofPosition s n).upTo kind (ofPosition s (n + w.length)) =
      ((Lexeme.mk (kind (Latin1.decode w)) w rest).token n, ofPosition s (n + w.length)) := by
  simp only [upTo, ofPosition, Span.bytesOf_of_drop h, Lexeme.token]

theorem readRun_ofPosition (kind : String → Kind) {p : UInt8 → Bool} (h : s.drop n = b :: rest)
    (passed : p b = true) :
    (ofPosition s n).upTo kind ((ofPosition s n).readWhile p) =
      ((Lexeme.mk (kind (Latin1.decode (b :: rest.takeWhile p))) (b :: rest.takeWhile p)
        (rest.dropWhile p)).token n, ofPosition s (n + (b :: rest.takeWhile p).length)) := by
  have split : s.drop n = (b :: rest.takeWhile p) ++ rest.dropWhile p := by
    rw [List.cons_append, List.takeWhile_append_dropWhile, h]
  rw [readWhile_ofPosition p h, List.takeWhile_cons_of_pos passed]
  exact upTo_ofPosition kind split

theorem readToken_ofPosition (h : s.drop n = b :: rest) :
    (ofPosition s n).readToken b = ((Lexeme.first b rest).token n,
      ofPosition s (n + (Lexeme.first b rest).bytes.length)) := by
  have inside := lt_length_of_drop h
  have next : s.drop (n + 1) = rest := drop_of_drop_eq_append (a := [b]) h
  have ahead : s[(ofPosition s n).readPosition]? = rest.head? := by
    rw [ofPosition, Nat.min_eq_left inside, ← List.head?_drop, next]
  have one (kind : Kind) : (ofPosition s n).upTo (fun _ => kind) (ofPosition s n).readByte =
      ((Lexeme.mk kind [b] rest).token n, ofPosition s (n + 1)) := by
    rw [readByte_ofPosition inside]
    exact upTo_ofPosition (w := [b]) _ h
  have holds := ByteClass.holds_ofByte b
  cases class_b : ByteClass.ofByte b <;> rw [class_b] at holds <;>
    simp only [readToken, Lexeme.first, class_b]
  case letter => exact readRun_ofPosition Kind.ofWord h (isLetter_iff.2 holds)
  case digit => exact readRun_ofPosition _ h (isDigit_iff.2 holds)
  case joinable alone joined =>
    rw [show (ofPosition s n).input = s from rfl, ahead]
    cases rest with
    | nil => exact one alone
    | cons e rest =>
      by_cases equal : isEqualSign e = true
      · have second := lt_length_of_drop next
        simp only [List.head?_cons, Option.any_some, equal, if_true]
        rw [readByte_ofPosition inside, readByte_ofPosition second]
        exact upTo_ofPosition (w := [b, e]) _ h
      · simp only [List.head?_cons, Option.any_some, equal]
        exact one alone
  all_goals exact one _

end Reading

end Registers

def Lexer.registers (l : Lexer) : Registers := ⟨l.input, l.position, l.readPosition, l.current?⟩

namespace Lexer.StandsIn

variable {l : Lexer} {s : List UInt8} (h : l.StandsIn s)

include h

theorem registers_eq : l.registers = .ofPosition s l.position := by
  rw [Lexer.registers, h.input, h.readPosition, h.current?, Registers.ofPosition]

/-- Reading byte by byte gives the same token and leaves the same state. -/
theorem nextSpanned_registers :
    l.registers.nextSpanned = (l.nextSpanned.1, l.nextSpanned.2.registers) := by
  have skipped := Registers.readWhile_ofPosition isBlank h.rest.symm
  have joined : l.rest.takeWhile isBlank ++ l.rest.dropWhile isBlank = l.rest :=
    List.takeWhile_append_dropWhile
  have after_gap : s.drop (l.position + (l.rest.takeWhile isBlank).length) =
      l.rest.dropWhile isBlank := drop_of_drop_eq_append (joined.trans h.rest).symm
  rw [h.nextSpanned.1.registers_eq, h.registers_eq, Registers.nextSpanned, skipped]
  simp only [Registers.current?_ofPosition after_gap]
  cases left : l.rest.dropWhile isBlank with
  | nil =>
    rw [left, List.append_nil] at joined
    simp only [Lexer.nextSpanned, Scan.next?, left, joined, List.head?_nil]
    rfl
  | cons b tail =>
    rw [left] at after_gap
    simp only [Lexer.nextSpanned, Scan.next?, left, List.head?_cons]
    exact Registers.readToken_ofPosition after_gap

end Lexer.StandsIn

end Lexis
