import Lexis.Text
set_option autoImplicit false

/-!
A source is a named sequence of bytes with its table of lines. No encoding is assumed, so every
content can be loaded; the name is text only and need not be that of a file. A line ends after a
line feed, after a carriage return, or after the two in this order as one terminator; the last line
has no terminator and may be empty. Lines are counted from one, and so are the bytes of a line.
-/
namespace Lexis

structure Span where
  start : Nat
  stop : Nat
  deriving DecidableEq, Repr, Ord, Inhabited

namespace Span

def isEmpty (s : Span) : Bool := s.start == s.stop

/-- The span lies in a text of the given length and does not end before it starts. -/
def Within (s : Span) (length : Nat) : Prop := s.start ≤ s.stop ∧ s.stop ≤ length

instance (s : Span) (length : Nat) : Decidable (s.Within length) :=
  inferInstanceAs (Decidable (_ ∧ _))

def sort (spans : List Span) : List Span := spans.mergeSort fun a b => (compare a b).isLE

end Span

structure Location where
  line : Nat
  column : Nat
  deriving DecidableEq, Repr, Ord

namespace Location

def origin : Location := ⟨0, 0⟩

def render (l : Location) : String := toString l.line ++ ":" ++ toString l.column

def sort (locations : List Location) : List Location :=
  locations.mergeSort fun a b => (compare a b).isLE

end Location

@[match_pattern] def lineFeed : UInt8 := 0x0a

@[match_pattern] def carriageReturn : UInt8 := 0x0d

namespace LineTable

/-- The lines found so far, and then those of the given bytes, where a line has begun at `start`
and the bytes begin at `position`. -/
def linesOnto (found : Array Span) (start position : Nat) : List UInt8 → Array Span
  | [] => found.push ⟨start, position⟩
  | carriageReturn :: lineFeed :: rest =>
    linesOnto (found.push ⟨start, position + 2⟩) (position + 2) (position + 2) rest
  | b :: rest =>
    if b = lineFeed ∨ b = carriageReturn then
      linesOnto (found.push ⟨start, position + 1⟩) (position + 1) (position + 1) rest
    else linesOnto found start (position + 1) rest

/-- Finds the line that holds an index by halving the range from `low` up to `high`. -/
def find? (lines : Array Span) (index low high : Nat) (bounded : high ≤ lines.size) :
    Option (Fin lines.size) :=
  if open_range : low < high then
    let middle := low + (high - low) / 2
    have inside : middle < lines.size := by omega
    if index < lines[middle].start then find? lines index low middle (by omega)
    else if lines[middle].stop ≤ index then find? lines index (middle + 1) high bounded
    else some ⟨middle, inside⟩
  else none
termination_by high - low

end LineTable

def lineTable (content : List UInt8) : Array Span := LineTable.linesOnto #[] 0 0 content

inductive LoadError where
  | notFound
  | notADirectory
  | notMappable
  | nameTooLong
  | nulInName
  | other (text : String)
  deriving DecidableEq, Repr

def LoadError.message : LoadError → String
  | .notFound => "No such file or directory (os error 2)"
  | .notADirectory => "Not a directory (os error 20)"
  | .notMappable => "No such device (os error 19)"
  | .nameTooLong => "File name too long (os error 36)"
  | .nulInName => "file name contained an unexpected NUL byte"
  | .other text => text

structure Source where
  path : String
  content : Array UInt8
  lines : Array Span
  lines_eq : lines = lineTable content.toList

namespace Source

def ofBytes (path : String) (content : Array UInt8) : Source :=
  ⟨path, content, lineTable content.toList, rfl⟩

def temporary (unique text : String) : Source :=
  ofBytes ("monkey" ++ unique ++ ".mk") (utf8 text).toArray

def bytes (s : Source) : List UInt8 := s.content.toList

def lineCount (s : Source) : Nat := s.lines.size

def slice (s : Source) (x : Span) : List UInt8 := (s.content.extract x.start x.stop).toList

/-- The bytes of a line with its terminator; lines are counted from one. -/
def line? (s : Source) : Nat → Option (List UInt8)
  | 0 => none
  | n + 1 => s.lines[n]?.map s.slice

def location? (s : Source) (index : Nat) : Option Location :=
  if index < s.content.size then
    (LineTable.find? s.lines index 0 s.lines.size (Nat.le_refl _)).map fun n =>
      ⟨n.val + 1, index - s.lines[n].start + 1⟩
  else none

def span? (s : Source) (start stop : Nat) : Option Span :=
  let x : Span := ⟨start, stop⟩
  if x.Within s.content.size then some x else none

def toEnd? (s : Source) (start : Nat) : Option Span := s.span? start s.content.size

def text (s : Source) (x : Span) : String := Latin1.decode (s.slice x)

def inspect (s : Source) : String :=
  Record.record "SourceFile"
    [Record.field "full_path" (Quoted.quote s.path),
      Record.field "lines"
        (Record.sequence (s.lines.toList.map fun x => Record.range x.start x.stop))]

def inspectSpan (s : Source) (x : Span) : String :=
  Record.record "Span"
    [Record.field "start" (toString x.start), Record.field "end" (toString x.stop),
      Record.field "content" (Quoted.quote (s.text x))]

end Source

end Lexis
