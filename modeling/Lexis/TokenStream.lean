import Lexis.Message
import Lexis.Scan
import Lexis.Source.Excerpt
set_option autoImplicit false

/-!
The tokens of a source with their places. The stream ends with the end token, and each byte that
belongs to no token is reported while the stream is made. Handlers receive the reports one by one: a
storage keeps them in order, a counter keeps their number, and a dummy keeps nothing.
-/
namespace Lexis

class Handler (σ : Type) (α : Type) where
  receive : σ → α → σ

structure Storage (α : Type) where
  items : Array α
  deriving DecidableEq, Repr

def Storage.empty {α : Type} : Storage α := ⟨#[]⟩

def Storage.toList {α : Type} (s : Storage α) : List α := s.items.toList

instance (α : Type) : Handler (Storage α) α := ⟨fun s x => ⟨s.items.push x⟩⟩

structure Counter where
  count : Nat
  deriving DecidableEq, Repr

def Counter.zero : Counter := ⟨0⟩

instance (α : Type) : Handler Counter α := ⟨fun c _ => ⟨c.count + 1⟩⟩

structure Dummy where
  deriving DecidableEq, Repr

instance (α : Type) : Handler Dummy α := ⟨fun d _ => d⟩

def Handler.receiveAll {σ α : Type} [Handler σ α] (h : σ) (xs : List α) : σ := xs.foldl receive h

inductive Diagnostic where
  | illegalCharacter (span : Span) (byte : UInt8)
  deriving DecidableEq, Repr

namespace Diagnostic

/-- An illegal token is reported with the first of its bytes. -/
def ofToken? (s : Source) (t : SpannedToken) : Option Diagnostic :=
  if t.token.kind = .illegal then (s.slice t.span).head?.map (.illegalCharacter t.span) else none

def span : Diagnostic → Span
  | .illegalCharacter span _ => span

def byte : Diagnostic → UInt8
  | .illegalCharacter _ byte => byte

def message : Diagnostic → Message
  | .illegalCharacter _ byte =>
    ⟨.error, "found an illegal character `" ++ ByteEscape.text byte ++ "`"⟩

def help : Diagnostic → String
  | .illegalCharacter _ _ => "this character is not part of any token"

def excerpt (d : Diagnostic) (s : Source) : Excerpt := .ofSpan s d.span (some d.help)

def render (d : Diagnostic) (s : Source) : String :=
  d.message.render ++ "\n" ++ (d.excerpt s).render

def inspect (d : Diagnostic) (s : Source) : String :=
  match d with
  | .illegalCharacter span byte =>
    Record.wrapped "IllegalCharacter"
      (Record.record "IllegalCharacter"
        [Record.field "span" (s.inspectSpan span), Record.field "character" (toString byte)])

end Diagnostic

structure TokenStream where
  source : Source
  tokens : List SpannedToken

structure IndexError where
  length : Nat
  index : Nat
  deriving DecidableEq, Repr

def IndexError.message (e : IndexError) : String :=
  "index out of bounds: the len is " ++ toString e.length ++ " but the index is " ++
    toString e.index

namespace TokenStream

def ofSource (s : Source) : TokenStream := ⟨s, scan s.bytes⟩

def diagnostics (x : TokenStream) : List Diagnostic :=
  x.tokens.filterMap (Diagnostic.ofToken? x.source)

def tokenize {σ : Type} [Handler σ Diagnostic] (s : Source) (h : σ) : TokenStream × σ :=
  let x := ofSource s
  (x, Handler.receiveAll h x.diagnostics)

def significant (x : TokenStream) : List SpannedToken := x.tokens.dropLast

def get (x : TokenStream) (index : Nat) : Except IndexError SpannedToken :=
  match x.tokens[index]? with
  | some t => .ok t
  | none => .error ⟨x.tokens.length, index⟩

end TokenStream

end Lexis
