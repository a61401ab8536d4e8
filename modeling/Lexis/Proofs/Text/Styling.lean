import Lexis.Message
set_option autoImplicit false

/-!
What is written to a terminal for styled text. Main statement: the codes of the styles in their
order, the text, and one reset for each style.
-/
namespace Lexis

def Style.opening : Style → List Char
  | .bold => "\x1b[1m".toList
  | .underline => "\x1b[4m".toList
  | .red => "\x1b[31m".toList
  | .green => "\x1b[32m".toList
  | .yellow => "\x1b[33m".toList
  | .cyan => "\x1b[36m".toList

def Style.closing : List Char := "\x1b[0m".toList

theorem Style.toList_code (s : Style) : s.code.toList = s.opening := by cases s <;> decide

theorem Style.toList_reset : reset.toList = closing := by decide

namespace Styled

def isUnderlined (x : Styled) : Bool := x.styles.contains .underline

/-- The characters of a text without the codes for its styles. -/
def characters (xs : List Styled) : List Char := xs.flatMap (·.text.toList)

def written (x : Styled) : List Char :=
  x.styles.flatMap Style.opening ++ x.text.toList ++ x.styles.flatMap fun _ => Style.closing

theorem characters_append (xs ys : List Styled) :
    characters (xs ++ ys) = characters xs ++ characters ys := List.flatMap_append

theorem length_characters_nil : (characters []).length = 0 := rfl

theorem length_characters_cons (x : Styled) (xs : List Styled) :
    (characters (x :: xs)).length = x.text.length + (characters xs).length := by
  rw [characters, List.flatMap_cons, List.length_append, String.length_toList]
  rfl

theorem closing_append (styles : List Style) :
    Style.closing ++ styles.flatMap (fun _ => Style.closing) =
      styles.flatMap (fun _ => Style.closing) ++ Style.closing := by
  induction styles with
  | nil => simp
  | cons _ styles ih => simp [List.append_assoc, ← ih]

theorem toList_render (x : Styled) : x.render.toList = x.written := by
  obtain ⟨styles, text⟩ := x
  induction styles with
  | nil => simp [render, written]
  | cons style styles ih =>
    simp only [render, written, List.foldr_cons, String.toList_append, Style.toList_code,
      Style.toList_reset, List.flatMap_cons] at ih ⊢
    simp [ih, closing_append]

theorem toList_renderAll (xs : List Styled) : (renderAll xs).toList = xs.flatMap written := by
  simp [renderAll, String.toList_join, List.flatMap_map, toList_render]

end Styled

def errorLine (text : String) : String :=
  "\x1b[1m" ++ "\x1b[31m" ++ "[error]:" ++ "\x1b[0m" ++ "\x1b[0m" ++ " " ++
    "\x1b[1m" ++ text ++ "\x1b[0m"

theorem Message.render_error (text : String) :
    (Message.mk .error text).render = errorLine text := by
  have bold : Style.bold.code = "\x1b[1m" := by decide
  have red : Style.red.code = "\x1b[31m" := by decide
  have reset : Style.reset = "\x1b[0m" := by decide
  simp only [render, pieces, Styled.renderAll, Styled.render, Styled.plain, Severity.label,
    Severity.color, List.map_cons, List.map_nil, String.join_cons, String.join_nil, List.foldr_cons,
    List.foldr_nil, bold, red, reset, errorLine, String.append_assoc, String.append_empty]

end Lexis
