import Lexis.Proofs.Command.Outcome
import Lexis.Proofs.Text.Reading
set_option autoImplicit false

/-!
The dump of the tokens and its reader. Main statement: the printed lines can be read back to the
kind, the literal and the location of every token, so two contents with one dump have the same
tokens at the same locations.
-/
namespace Lexis

open Quoted (IsVisible)

namespace Kind

def ofTag? (tag : List Char) : Option Kind := all.find? (·.tag.toList == tag)

theorem ofTag?_tag (k : Kind) : ofTag? k.tag.toList = some k := by cases k <;> decide

theorem isVisible_tag (k : Kind) : IsVisible k.tag.toList := by cases k <;> decide

theorem space_not_mem_tag (k : Kind) : ' ' ∉ k.tag.toList := by cases k <;> decide

end Kind

namespace Token

def read? (cs : List Char) : Option Token := do
  let (tag, cs) ← readTo ' ' cs
  let kind ← Kind.ofTag? tag
  let (literal, _) ← Quoted.readQuoted cs
  return ⟨kind, literal⟩

theorem toList_render (t : Token) :
    t.render.toList = t.kind.tag.toList ++ ' ' :: (Quoted.quote t.literal).toList := by
  simp [render]

theorem read?_render (t : Token) : read? t.render.toList = some t := by
  have literal := Quoted.readQuoted_quote t.literal []
  rw [List.append_nil] at literal
  rw [toList_render, read?, readTo_append t.kind.space_not_mem_tag]
  simp [Kind.ofTag?_tag, literal]

theorem render_injective {t u : Token} (h : t.render = u.render) : t = u := by
  have same := congrArg (fun text => read? text.toList) h
  simp only [read?_render] at same
  exact Option.some.inj same

theorem isVisible_render (t : Token) : IsVisible t.render.toList := by
  have space : IsVisible [' '] := by decide
  rw [toList_render]
  exact t.kind.isVisible_tag.append (space.append (Quoted.isVisible_quote t.literal))

end Token

namespace Location

/-- A location has a colon in it, and the word for the end of the source has none. -/
def read? (cs : List Char) : Option Location :=
  (readTo ':' cs).map fun (line, column) => ⟨readNumber 10 line, readNumber 10 column⟩

theorem toList_render (l : Location) :
    l.render.toList = Nat.toDigits 10 l.line ++ ':' :: Nat.toDigits 10 l.column := by
  simp [render]

theorem read?_render (l : Location) : read? l.render.toList = some l := by
  have apart : ':' ∉ Nat.toDigits 10 l.line :=
    not_mem_toDigits (by decide) (by decide) (by decide) _
  rw [toList_render, read?, readTo_append apart]
  simp [readNumber_toDigits]

theorem isVisible_render (l : Location) : IsVisible l.render.toList := by
  have digits (n : Nat) : IsVisible (Nat.toDigits 10 n) :=
    Quoted.isVisible_toDigits (by decide) (by decide) n
  have colon : IsVisible [':'] := by decide
  rw [toList_render]
  exact (digits _).append (colon.append (digits _))

end Location

namespace Report

abbrev Shown := Option Location × Token

def place (l? : Option Location) : String := (l?.map Location.render).getD "end"

theorem isVisible_place (l? : Option Location) : IsVisible (place l?).toList := by
  cases l? with
  | none => decide
  | some l => exact l.isVisible_render

theorem read?_place (l? : Option Location) : Location.read? (place l?).toList = l? := by
  cases l? with
  | none => rfl
  | some l => exact l.read?_render

def line (x : Shown) : String := place x.1 ++ "\t" ++ x.2.render

theorem toList_line (x : Shown) :
    (line x).toList = (place x.1).toList ++ '\t' :: x.2.render.toList := by
  simp [line]

def readLine (cs : List Char) : Option Shown := do
  let (place, cs) ← readTo '\t' cs
  let token ← Token.read? cs
  return (Location.read? place, token)

theorem readLine_line (x : Shown) : readLine (line x).toList = some x := by
  have apart : '\t' ∉ (place x.1).toList := fun h => absurd (isVisible_place _ _ h) (by decide)
  rw [toList_line, readLine, readTo_append apart]
  simp [Token.read?_render, read?_place]

/-- Only the tab after the place has no visible shape. -/
theorem isVisible_of_mem_line {x : Shown} {c : Char} (h : c ∈ (line x).toList) :
    c = '\t' ∨ Quoted.isHidden c = false := by
  rw [toList_line, List.mem_append, List.mem_cons] at h
  obtain in_place | tab | in_token := h
  · exact .inr (isVisible_place _ c in_place)
  · exact .inl tab
  · exact .inr (x.2.isVisible_render c in_token)

theorem return_not_mem_line (x : Shown) : '\r' ∉ (line x).toList := fun h =>
  absurd (isVisible_of_mem_line h) (by decide)

theorem lineFeed_not_mem_line (x : Shown) : '\n' ∉ (line x).toList := fun h =>
  absurd (isVisible_of_mem_line h) (by decide)

theorem splitOn_lines {items : List String} (h : ∀ x ∈ items, '\n' ∉ x.toList) :
    (lines items).toList.splitOn '\n' = items.map String.toList ++ [[]] := by
  induction items with
  | nil => rfl
  | cons x items ih =>
    obtain ⟨first, later⟩ := List.forall_mem_cons.1 h
    have joined : (lines (x :: items)).toList = x.toList ++ '\n' :: (lines items).toList := by
      simp [lines]
    rw [joined, List.splitOn_append_cons_self_of_not_mem first, ih later]
    rfl

def readDump (text : String) : Option (List Shown) :=
  (text.toList.splitOn '\n').dropLast.mapM readLine

theorem readDump_lines (xs : List Shown) : readDump (lines (xs.map line)) = some xs := by
  have separate : ∀ item ∈ xs.map line, '\n' ∉ item.toList := by
    intro item h
    obtain ⟨x, _, rfl⟩ := List.mem_map.1 h
    exact lineFeed_not_mem_line x
  have read : (readLine ∘ String.toList) ∘ line = some := funext readLine_line
  rw [readDump, splitOn_lines separate, List.dropLast_concat, List.mapM_map, List.mapM_map, read]
  exact (List.mapM_pure (f := id)).trans (congrArg some (List.map_id xs))

theorem lines_line_inj {xs ys : List Shown} :
    lines (xs.map line) = lines (ys.map line) ↔ xs = ys := by
  refine ⟨fun same => ?_, fun same => same ▸ rfl⟩
  have read := congrArg readDump same
  rw [readDump_lines, readDump_lines] at read
  exact Option.some.inj read

def shownTokens (s : Source) : List Shown :=
  (TokenStream.ofSource s).tokens.map fun t => (s.location? t.span.start, t.token)

theorem dumpLine_eq (s : Source) (t : SpannedToken) :
    dumpLine s t = line (s.location? t.span.start, t.token) := rfl

theorem outputText_run {load : String → Except LoadError (Array UInt8)} {a : Arguments}
    {content : Array UInt8} (loaded : load a.file = .ok content) (dump : a.dumpTokens = true) :
    (run load a).outputText = lines ((shownTokens (Source.ofBytes a.file content)).map line) := by
  have printed : run load a = ofSource a (Source.ofBytes a.file content) := by rw [run, loaded]
  rw [outputText, printed, ofSource_eq, if_pos dump, shownTokens, List.map_map]
  rfl

/-- No two tokens are printed alike and no printed token runs over into another line, so a dump can
be read, and contents with the same dump have the same tokens at the same locations. -/
theorem dump_reads_back :
    (∀ k k' w w', Token.render ⟨k, Latin1.decode w⟩ = Token.render ⟨k', Latin1.decode w'⟩ →
      k = k' ∧ w = w') ∧
    (∀ s t, '\r' ∉ (dumpLine s t).toList ∧ '\n' ∉ (dumpLine s t).toList) ∧
    (∀ load a content, load a.file = .ok content → a.dumpTokens = true →
      readDump (run load a).outputText = some (shownTokens (Source.ofBytes a.file content))) ∧
    ∀ load load' a a' content content', load a.file = .ok content → a.dumpTokens = true →
      load' a'.file = .ok content' → a'.dumpTokens = true →
      ((run load a).outputText = (run load' a').outputText ↔
        shownTokens (Source.ofBytes a.file content) =
          shownTokens (Source.ofBytes a'.file content')) := by
  refine ⟨fun k k' w w' same => ?_, fun s t => ?_, fun load a content loaded dump => ?_,
    fun load load' a a' content content' loaded dump loaded' dump' => ?_⟩
  · obtain ⟨rfl, literal⟩ := Token.mk.inj (Token.render_injective same)
    exact ⟨rfl, Latin1.decode_inj.1 literal⟩
  · rw [dumpLine_eq]
    exact ⟨return_not_mem_line _, lineFeed_not_mem_line _⟩
  · rw [outputText_run loaded dump, readDump_lines]
  · rw [outputText_run loaded dump, outputText_run loaded' dump', lines_line_inj]

theorem dump_reads_back_nul_quote :
    (run (fun _ => .ok #[0x00, 0x22]) ⟨"a.mk", true, false⟩).outputText =
        (run (fun _ => .ok #[0x00, 0x22, 0x20]) ⟨"b.mk", true, true⟩).outputText ∧
      shownTokens (Source.ofBytes "a.mk" #[0x00, 0x22]) =
        shownTokens (Source.ofBytes "b.mk" #[0x00, 0x22, 0x20]) := by
  have same : (run (fun _ => .ok #[0x00, 0x22]) ⟨"a.mk", true, false⟩).outputText =
      (run (fun _ => .ok #[0x00, 0x22, 0x20]) ⟨"b.mk", true, true⟩).outputText := by
    decide +kernel
  exact ⟨same, (dump_reads_back.2.2.2 _ _ _ _ _ _ rfl rfl rfl rfl).1 same⟩

end Report

end Lexis
