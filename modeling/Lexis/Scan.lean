import Lexis.Token
set_option autoImplicit false

/-!
Cutting bytes into tokens. Letters, digits and blanks are those of ASCII, the underscore counts as a
letter, and every byte outside these and the symbols is illegal. Blanks are skipped, and at each
other byte the longest token that its class allows is taken, so every step leaves fewer bytes and
the scan ends.
-/
namespace Lexis

def isBlank (b : UInt8) : Bool :=
  let c := Latin1.char b
  c == ' ' || c == '\t' || c == '\r' || c == '\n'

def isLetter (b : UInt8) : Bool :=
  let c := Latin1.char b
  c.isAlpha || c == '_'

def isDigit (b : UInt8) : Bool := (Latin1.char b).isDigit

def isEqualSign (b : UInt8) : Bool := Latin1.char b == '='

/-- A joinable byte is a symbol alone and another symbol together with an equal sign after it. -/
inductive ByteClass where
  | blank
  | letter
  | digit
  | symbol (kind : Kind)
  | joinable (alone joined : Kind)
  | illegal
  deriving DecidableEq, Repr

def ByteClass.ofSymbol (c : Char) : ByteClass :=
  match c with
  | '=' => .joinable .assign .equal
  | '!' => .joinable .bang .notEqual
  | '+' => .symbol .plus
  | '-' => .symbol .minus
  | '*' => .symbol .asterisk
  | '/' => .symbol .slash
  | '<' => .symbol .lessThan
  | '>' => .symbol .greaterThan
  | ',' => .symbol .comma
  | ';' => .symbol .semicolon
  | '(' => .symbol .leftParenthesis
  | ')' => .symbol .rightParenthesis
  | '\x7b' => .symbol .leftBrace
  | '\x7d' => .symbol .rightBrace
  | _ => .illegal

def ByteClass.ofByte (b : UInt8) : ByteClass :=
  if isBlank b then .blank
  else if isLetter b then .letter
  else if isDigit b then .digit
  else .ofSymbol (Latin1.char b)

structure Lexeme where
  kind : Kind
  bytes : List UInt8
  rest : List UInt8
  deriving DecidableEq, Repr

namespace Lexeme

/-- The token that starts at the first of the given bytes, which is no blank. -/
def first (b : UInt8) (tail : List UInt8) : Lexeme :=
  match ByteClass.ofByte b with
  | .letter =>
    let word := b :: tail.takeWhile isLetter
    ⟨.ofWord (Latin1.decode word), word, tail.dropWhile isLetter⟩
  | .digit => ⟨.integer, b :: tail.takeWhile isDigit, tail.dropWhile isDigit⟩
  | .symbol kind => ⟨kind, [b], tail⟩
  | .joinable alone joined =>
    match tail with
    | [] => ⟨alone, [b], []⟩
    | e :: rest => if isEqualSign e then ⟨joined, [b, e], rest⟩ else ⟨alone, [b], e :: rest⟩
  | .blank | .illegal => ⟨.illegal, [b], tail⟩

theorem first_bytes_append_rest (b : UInt8) (tail : List UInt8) :
    (first b tail).bytes ++ (first b tail).rest = b :: tail := by
  unfold first
  split <;> try simp [List.takeWhile_append_dropWhile]
  split
  · rfl
  · split <;> rfl

theorem first_bytes_ne_nil (b : UInt8) (tail : List UInt8) : (first b tail).bytes ≠ [] := by
  unfold first
  split <;> try simp
  split
  · simp
  · split <;> simp

theorem first_rest_length (b : UInt8) (tail : List UInt8) :
    (first b tail).rest.length ≤ tail.length := by
  have split := congrArg List.length (first_bytes_append_rest b tail)
  have some_byte := List.length_pos_iff.2 (first_bytes_ne_nil b tail)
  simp only [List.length_append, List.length_cons] at split
  omega

def token (x : Lexeme) (start : Nat) : SpannedToken :=
  ⟨⟨x.kind, Latin1.decode x.bytes⟩, ⟨start, start + x.bytes.length⟩⟩

end Lexeme

namespace Scan

/-- The first token of the bytes that begin at the given index, with the bytes after it; none if
only blanks are left. -/
def next? (position : Nat) (bytes : List UInt8) : Option (SpannedToken × List UInt8) :=
  match bytes.dropWhile isBlank with
  | [] => none
  | b :: tail =>
    let x := Lexeme.first b tail
    some (x.token (position + (bytes.takeWhile isBlank).length), x.rest)

theorem next?_length {position : Nat} {bytes rest : List UInt8} {t : SpannedToken}
    (h : next? position bytes = some (t, rest)) : rest.length < bytes.length := by
  unfold next? at h
  split at h
  · simp at h
  · next b tail nonblank =>
    have dropped := (List.dropWhile_suffix (l := bytes) isBlank).length_le
    have shorter := Lexeme.first_rest_length b tail
    simp only [Option.some.injEq, Prod.mk.injEq] at h
    rw [nonblank, List.length_cons] at dropped
    rw [← h.2]
    omega

def tokensOnto (found : List SpannedToken) (position : Nat) (bytes : List UInt8) :
    List SpannedToken :=
  match _h : next? position bytes with
  | none => found.reverse
  | some (t, rest) => tokensOnto (t :: found) t.span.stop rest
termination_by bytes.length
decreasing_by exact next?_length _h

def tokens (position : Nat) (bytes : List UInt8) : List SpannedToken := tokensOnto [] position bytes

theorem tokensOnto_of_none {found : List SpannedToken} {position : Nat} {bytes : List UInt8}
    (h : next? position bytes = none) : tokensOnto found position bytes = found.reverse := by
  rw [tokensOnto]
  split <;> simp_all

theorem tokensOnto_of_some {found : List SpannedToken} {position : Nat} {bytes rest : List UInt8}
    {t : SpannedToken} (h : next? position bytes = some (t, rest)) :
    tokensOnto found position bytes = tokensOnto (t :: found) t.span.stop rest := by
  rw [tokensOnto]
  split <;> simp_all

theorem tokensOnto_append (found older : List SpannedToken) (position : Nat) (bytes : List UInt8) :
    tokensOnto (found ++ older) position bytes =
      older.reverse ++ tokensOnto found position bytes := by
  fun_induction tokensOnto found position bytes with
  | case1 found position bytes h => simp [tokensOnto_of_none h]
  | case2 found position bytes t rest h ih => rw [tokensOnto_of_some h, ← ih, List.cons_append]

theorem tokens_of_none {position : Nat} {bytes : List UInt8} (h : next? position bytes = none) :
    tokens position bytes = [] := tokensOnto_of_none h

theorem tokens_of_some {position : Nat} {bytes rest : List UInt8} {t : SpannedToken}
    (h : next? position bytes = some (t, rest)) :
    tokens position bytes = t :: tokens t.span.stop rest := by
  rw [tokens, tokensOnto_of_some h]
  exact tokensOnto_append [] [t] t.span.stop rest

def endToken (length : Nat) : SpannedToken := ⟨.eof, ⟨length, length⟩⟩

end Scan

/-- All tokens of a text, and the end of the text as the last one. -/
def scan (bytes : List UInt8) : List SpannedToken :=
  Scan.tokens 0 bytes ++ [Scan.endToken bytes.length]

end Lexis
