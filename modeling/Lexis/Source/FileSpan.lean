import Lexis.Source.Basic
set_option autoImplicit false

/-!
Spans of several files. Spans of different files are different, whatever their bytes, and have no
order among themselves.
-/
namespace Lexis

structure FileSpan where
  file : Nat
  span : Span
  deriving DecidableEq, Repr

namespace FileSpan

def compare? (a b : FileSpan) : Option Ordering :=
  if a.file = b.file then some (compare a.span b.span) else none

/-- The spans of a collection, each once, in the order of their first insertion. -/
def insert (members : List FileSpan) (s : FileSpan) : List FileSpan :=
  if s ∈ members then members else members ++ [s]

def insertions (members : List FileSpan) : List FileSpan → List Bool
  | [] => []
  | s :: rest => decide (s ∉ members) :: insertions (insert members s) rest

def ofFile (spans : List FileSpan) (file : Nat) : List Span :=
  Span.sort (((spans.foldl insert []).filter (·.file == file)).map (·.span))

end FileSpan

end Lexis
