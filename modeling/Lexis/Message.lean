set_option autoImplicit false

/-!
Text for a terminal, and messages to the user. A style is switched on by an escape code in front of
the text, and everything is switched off again after it, once for each style. A message is a
coloured label for its severity and a text; messages are ordered by severity, then by text.
-/
namespace Lexis

inductive Style where
  | bold
  | underline
  | red
  | green
  | yellow
  | cyan
  deriving DecidableEq, Repr

namespace Style

def number : Style → Nat
  | .bold => 1
  | .underline => 4
  | .red => 31
  | .green => 32
  | .yellow => 33
  | .cyan => 36

def escape (n : Nat) : String := "\x1b[" ++ toString n ++ "m"

def code (s : Style) : String := escape s.number

def reset : String := escape 0

end Style

/-- A text with its styles, the outermost first. -/
structure Styled where
  styles : List Style
  text : String
  deriving DecidableEq, Repr

namespace Styled

def plain (text : String) : Styled := ⟨[], text⟩

def within (style : Style) (x : Styled) : Styled := ⟨style :: x.styles, x.text⟩

def render (x : Styled) : String :=
  x.styles.foldr (fun style inner => style.code ++ inner ++ Style.reset) x.text

def renderAll (xs : List Styled) : String := String.join (xs.map render)

end Styled

inductive Severity where
  | error
  | info
  | warning
  deriving DecidableEq, Repr, Ord

namespace Severity

def label : Severity → String
  | .error => "[error]:"
  | .info => "[info]:"
  | .warning => "[warning]:"

def color : Severity → Style
  | .error => .red
  | .info => .green
  | .warning => .yellow

end Severity

structure Message where
  severity : Severity
  text : String
  deriving DecidableEq, Repr, Ord

namespace Message

def pieces (m : Message) : List Styled :=
  [⟨[.bold, m.severity.color], m.severity.label⟩, .plain " ", ⟨[.bold], m.text⟩]

def render (m : Message) : String := Styled.renderAll m.pieces

def sort (messages : List Message) : List Message :=
  messages.mergeSort fun a b => (compare a b).isLE

end Message

end Lexis
