import Lexis.Scan
set_option autoImplicit false

/-!
A lexer hands out the tokens of its input one by one. Its position is the index of the byte under
examination: the end of the last token, or the end of the input once that has been answered.
-/
namespace Lexis

structure Lexer where
  input : List UInt8
  position : Nat
  rest : List UInt8
  deriving DecidableEq, Repr

namespace Lexer

def ofBytes (input : List UInt8) : Lexer := ⟨input, 0, input⟩

def ofText (text : String) : Lexer := ofBytes (utf8 text)

def current? (l : Lexer) : Option UInt8 := l.rest.head?

def readPosition (l : Lexer) : Nat :=
  match l.rest with
  | [] => l.position
  | _ :: _ => l.position + 1

/-- No byte is left. Blanks count as left until they are skipped. -/
def isExhausted (l : Lexer) : Bool := l.rest.isEmpty

def atEnd (l : Lexer) : Lexer := ⟨l.input, l.position + l.rest.length, []⟩

/-- The next token with its place; at the end of the input the end token, again and again. -/
def nextSpanned (l : Lexer) : SpannedToken × Lexer :=
  match Scan.next? l.position l.rest with
  | none => (Scan.endToken l.atEnd.position, l.atEnd)
  | some (t, rest) => (t, ⟨l.input, t.span.stop, rest⟩)

def nextToken (l : Lexer) : Token × Lexer := (l.nextSpanned.1.token, l.nextSpanned.2)

def next? (l : Lexer) : Option Token × Lexer :=
  let (t, l) := l.nextToken
  (if t.isEof then none else some t, l)

def take : Nat → Lexer → List Token × Lexer
  | 0, l => ([], l)
  | n + 1, l =>
    match l.next? with
    | (none, l) => ([], l)
    | (some t, l) =>
      let (ts, l) := l.take n
      (t :: ts, l)

def nth? : Nat → Lexer → Option Token × Lexer
  | 0, l => l.next?
  | n + 1, l =>
    match l.next? with
    | (none, l) => (none, l)
    | (some _, l) => l.nth? n

theorem next?_length {l l' : Lexer} {t : Token} (h : l.next? = (some t, l')) :
    l'.rest.length < l.rest.length := by
  unfold next? nextToken nextSpanned at h
  cases found : Scan.next? l.position l.rest with
  | none => simp [found, Scan.endToken, Token.eof, Token.isEof] at h
  | some read =>
    obtain ⟨u, rest⟩ := read
    simp only [found, Prod.mk.injEq] at h
    rw [← h.2]
    exact Scan.next?_length found

def collectOnto (found : List Token) (l : Lexer) : List Token × Lexer :=
  match _h : l.next? with
  | (none, l) => (found.reverse, l)
  | (some t, l) => collectOnto (t :: found) l
termination_by l.rest.length
decreasing_by exact next?_length _h

theorem collectOnto_of_none {found : List Token} {l l' : Lexer} (h : l.next? = (none, l')) :
    collectOnto found l = (found.reverse, l') := by
  rw [collectOnto]
  split <;> simp_all

theorem collectOnto_of_some {found : List Token} {l l' : Lexer} {t : Token}
    (h : l.next? = (some t, l')) : collectOnto found l = collectOnto (t :: found) l' := by
  rw [collectOnto]
  split <;> simp_all

def collect (l : Lexer) : List Token × Lexer := collectOnto [] l

def count (l : Lexer) : Nat × Lexer :=
  let (ts, l) := l.collect
  (ts.length, l)

def last? (l : Lexer) : Option Token × Lexer :=
  let (ts, l) := l.collect
  (ts.getLast?, l)

/-- What is known without looking ahead of the number of tokens still to come: a least number, and
no greatest. -/
def bounds (_ : Lexer) : Nat × Option Nat := (0, none)

def inspect (l : Lexer) : String :=
  Record.record "Lexer"
    [Record.field "input" (Record.sequence (l.input.map toString)),
      Record.field "position" (toString l.position),
      Record.field "read_position" (toString l.readPosition),
      Record.field "character" (Record.optional (l.current?.map toString))]

end Lexer

def tokenize (text : String) : List Token := (Lexer.ofText text).collect.1

end Lexis
