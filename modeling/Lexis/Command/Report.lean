import Lexis.Command.Arguments
import Lexis.TokenStream
set_option autoImplicit false

/-!
What a run of the command prints, and whether it succeeds. A file that cannot be loaded is one
error; otherwise every illegal character is printed, their number after them, and the tokens if they
are asked for.
-/
namespace Lexis

/-- The items printed to each stream; each of them ends its line. -/
structure Report where
  output : List String
  errors : List String
  success : Bool
  deriving DecidableEq, Repr

structure Printer where
  source : Source
  printed : Array String
  counter : Counter

namespace Printer

def ofSource (s : Source) : Printer := ⟨s, #[], .zero⟩

instance : Handler Printer Diagnostic :=
  ⟨fun p d => ⟨p.source, p.printed.push (d.render p.source), Handler.receive p.counter d⟩⟩

end Printer

namespace Report

def lines (items : List String) : String := String.join (items.map (· ++ "\n"))

def outputText (r : Report) : String := lines r.output

def errorText (r : Report) : String := lines r.errors

def exitCode (r : Report) : Nat := if r.success then 0 else 1

/-- The location of a token, or the word that stands for the end of the source, and the token. -/
def dumpLine (s : Source) (t : SpannedToken) : String :=
  ((s.location? t.span.start).map Location.render).getD "end" ++ "\t" ++ t.token.render

def loadFailure (file : String) (e : LoadError) : Message := ⟨.error, file ++ ": " ++ e.message⟩

def illegalCount (count : Nat) : Message :=
  ⟨.error, "found " ++ toString count ++ " illegal character(s)"⟩

def ofSource (a : Arguments) (s : Source) : Report :=
  let (stream, printer) := TokenStream.tokenize s (Printer.ofSource s)
  let count := printer.counter.count
  ⟨if a.dumpTokens then stream.tokens.map (dumpLine s) else [],
    printer.printed.toList ++ (if count = 0 then [] else [(illegalCount count).render]),
    count == 0 || a.allowIllegal⟩

def run (load : String → Except LoadError (Array UInt8)) (a : Arguments) : Report :=
  match load a.file with
  | .error e => ⟨[], [(loadFailure a.file e).render], false⟩
  | .ok content => ofSource a (Source.ofBytes a.file content)

def ofCommandLine {ε : Type} (parser : CommandLine.Parser ε)
    (load : String → Except LoadError (Array UInt8)) (arguments : List String) : Except ε Report :=
  match Arguments.read parser arguments with
  | .error e => .error e
  | .ok a => .ok (run load a)

end Report

end Lexis
