import Lexis.Lexer
set_option autoImplicit false

/-!
A session drives one lexer by steps and answers each of them. A fork saves a copy of the lexer, and
a restore goes on from the saved copy, which stays saved.
-/
namespace Lexis

structure Session where
  lexer : Lexer
  saved? : Option Lexer
  deriving DecidableEq, Repr

namespace Session

inductive Step where
  | nextToken
  | nextSpanned
  | display
  | next
  | isExhausted
  | inspect
  | fork
  | restore
  | take (n : Nat)
  | nth (n : Nat)
  | collect
  | count
  | last
  | bounds
  deriving DecidableEq, Repr

inductive Answer where
  | done
  | truth (b : Bool)
  | number (n : Nat)
  | bounds (least : Nat) (greatest? : Option Nat)
  | text (s : String)
  | token (t : Token)
  | spanned (t : SpannedToken)
  | optional (t? : Option Token)
  | tokens (ts : List Token)
  deriving DecidableEq, Repr

def ofLexer (l : Lexer) : Session := ⟨l, none⟩

def move {α : Type} (s : Session) (answer : α → Answer) (result : α × Lexer) : Answer × Session :=
  (answer result.1, ⟨result.2, s.saved?⟩)

def step (s : Session) : Step → Answer × Session
  | .nextToken => s.move .token s.lexer.nextToken
  | .nextSpanned => s.move .spanned s.lexer.nextSpanned
  | .display => s.move (fun t => .text t.render) s.lexer.nextToken
  | .next => s.move .optional s.lexer.next?
  | .isExhausted => (.truth s.lexer.isExhausted, s)
  | .inspect => (.text s.lexer.inspect, s)
  | .fork => (.done, ⟨s.lexer, some s.lexer⟩)
  | .restore =>
    match s.saved? with
    | none => (.truth false, s)
    | some l => (.truth true, ⟨l, some l⟩)
  | .take n => s.move .tokens (s.lexer.take n)
  | .nth n => s.move .optional (s.lexer.nth? n)
  | .collect => s.move .tokens s.lexer.collect
  | .count => s.move .number s.lexer.count
  | .last => s.move .optional s.lexer.last?
  | .bounds => (.bounds s.lexer.bounds.1 s.lexer.bounds.2, s)

def run (s : Session) : List Step → List Answer
  | [] => []
  | x :: rest =>
    let (answer, s) := s.step x
    answer :: s.run rest

end Session

end Lexis
