import Lexis.Source.Basic
import Lexis.Message
set_option autoImplicit false

/-!
Excerpts show a span in its lines, between the line before and the line after it. Line numbers stand
in a gutter that has room for the last of them; a note stands under the start of a span of one line,
and at the foot of an excerpt of several lines.
-/
namespace Lexis

/-- The lines and columns of a span: its first byte or the place after the last byte of the source,
and the line and column of the first byte after it, if the source has such a byte. -/
structure Extent where
  start : Location
  lastLine : Nat
  stopColumn? : Option Nat
  deriving DecidableEq, Repr

namespace Extent

def pastEnd (s : Source) : Location :=
  ⟨s.lineCount, ((s.line? s.lineCount).getD []).length + 1⟩

def ofSpan (s : Source) (x : Span) : Extent :=
  let stop? := s.location? x.stop
  ⟨(s.location? x.start).getD (pastEnd s), (stop?.map (·.line)).getD s.lineCount,
    stop?.map (·.column)⟩

def isMultiline (e : Extent) : Bool := e.start.line != e.lastLine

def isBeforeStop (e : Extent) (column : Nat) : Bool := e.stopColumn?.all (column < ·)

def covers (e : Extent) (line column : Nat) : Bool :=
  if e.isMultiline then
    (line == e.start.line && e.start.column ≤ column) ||
      (line == e.lastLine && e.isBeforeStop column) ||
      (e.start.line < line && line < e.lastLine)
  else e.start.column ≤ column && e.isBeforeStop column

def lineNumbers (e : Extent) : List Nat := List.range' e.start.line (e.lastLine + 1 - e.start.line)

/-- The line after the last one has the longest number of an excerpt. -/
def width (e : Extent) : Nat := digitCount (e.lastLine + 1)

end Extent

structure Cell where
  byte : UInt8
  marked : Bool
  deriving DecidableEq, Repr

/-- A tab is shown as four spaces and a terminator as nothing, marked or not. -/
def Cell.pieces (c : Cell) : List Styled :=
  match Latin1.char c.byte with
  | '\t' => [.plain (spaces 4)]
  | '\n' | '\r' => []
  | shown => [⟨if c.marked then [.underline, .bold, .red] else [], shown.toString⟩]

namespace Excerpt

inductive Row where
  | heading (path : String) (start : Location)
  | blank
  | line (number : Nat) (cells : List Cell)
  | note (indent : Nat) (text : String)
  | footer (text : String)
  deriving DecidableEq, Repr

def label (text : String) : Styled := ⟨[.bold, .cyan], text⟩

def bar : Styled := label "┃"

def help (text : String) : List Styled := [⟨[.bold], "help"⟩, .plain (": " ++ text)]

def Row.pieces (width : Nat) : Row → List Styled
  | .heading path start =>
    [.plain (spaces width), label "-->", .plain (" " ++ path ++ ":" ++ start.render)]
  | .blank => [.plain (spaces (width + 1)), bar]
  | .line number cells =>
    [label (toString number), .plain (spaces (width - digitCount number + 1)), bar, .plain " "] ++
      cells.flatMap Cell.pieces
  | .note indent text =>
    [.plain (spaces (width + 1)), bar, .plain " ", .plain (spaces indent)] ++ help text
  | .footer text => [.plain (spaces (width + 1)), label "=", .plain " "] ++ help text

end Excerpt

structure Excerpt where
  width : Nat
  rows : List Excerpt.Row
  deriving DecidableEq, Repr

namespace Excerpt

def lineRow? (s : Source) (marks : Nat → Bool) (number : Nat) : Option Row :=
  (s.line? number).map fun bytes =>
    .line number ((bytes.zipIdx 1).map fun (b, column) => ⟨b, marks column⟩)

def contextRow? (s : Source) (number : Nat) : Option Row := lineRow? s (fun _ => false) number

/-- The columns that bytes in front of a note take: four for a tab and one for any other byte. -/
def columns : List UInt8 → Nat
  | [] => 0
  | b :: rest => (if Latin1.char b = '\t' then 4 else 1) + columns rest

def indent (s : Source) (start : Location) : Nat :=
  columns (((s.line? start.line).getD []).take (start.column - 1))

def noteRow? (s : Source) (e : Extent) (help? : Option String) : Option Row :=
  if e.isMultiline then none else help?.map (.note (indent s e.start))

def footerRow? (e : Extent) (help? : Option String) : Option Row :=
  if e.isMultiline then help?.map .footer else none

def ofSpan (s : Source) (x : Span) (help? : Option String) : Excerpt :=
  let e := Extent.ofSpan s x
  ⟨e.width,
    [.heading s.path e.start, .blank] ++
      (contextRow? s (e.start.line - 1)).toList ++
      e.lineNumbers.filterMap (fun n => lineRow? s (e.covers n) n) ++
      (noteRow? s e help?).toList ++
      (contextRow? s (e.lastLine + 1)).toList ++
      [.blank] ++
      (footerRow? e help?).toList⟩

def pieces (x : Excerpt) : List Styled :=
  x.rows.flatMap fun row => row.pieces x.width ++ [.plain "\n"]

def render (x : Excerpt) : String := Styled.renderAll x.pieces

end Excerpt

end Lexis
