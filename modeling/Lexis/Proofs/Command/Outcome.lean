import Lexis.Command.Report
import Lexis.Proofs.Source.Indices
import Lexis.Proofs.Stream.Strays
import Lexis.Proofs.Text.Styling
set_option autoImplicit false

/-!
The report of a run by the content of the file. Main statement: the number of stray bytes decides
whether the run succeeds and what it prints to the errors, and each flag changes one thing only.
-/
namespace Lexis

def strayCount (bytes : List UInt8) : Nat := bytes.countP fun b => decide (IsStray b)

theorem length_strays (position : Nat) (bytes : List UInt8) :
    (strays position bytes).length = strayCount bytes := by
  induction bytes generalizing position with
  | nil => rfl
  | cons b rest ih =>
    rw [strays, strayCount, List.countP_cons, ← strayCount]
    split
    · next stray => rw [List.length_cons, ih, if_pos (decide_eq_true stray)]
    · next other => rw [ih, if_neg (by simpa using other), Nat.add_zero]

namespace Printer

theorem receiveAll_eq (p : Printer) (ds : List Diagnostic) :
    Handler.receiveAll p ds = ⟨p.source, p.printed ++ (ds.map (·.render p.source)).toArray,
      ⟨p.counter.count + ds.length⟩⟩ := by
  induction ds generalizing p with
  | nil => simp [Handler.receiveAll]
  | cons d ds ih =>
    rw [Handler.receiveAll_cons, ih]
    simp [Handler.receive, Nat.add_assoc, Nat.add_comm 1]

end Printer

namespace Report

def summary (count : Nat) : List String :=
  if count = 0 then [] else [errorLine ("found " ++ toString count ++ " illegal character(s)")]

/-- A visible character stands for itself, a quotation mark or a backslash has a backslash in front,
and any other byte is written with its two hexadecimal digits. -/
def strayName (b : UInt8) : String :=
  if b ∈ [0x22, 0x27, 0x5c] then String.ofList ['\\', Char.ofNat b.toNat]
  else if 0x21 ≤ b ∧ b ≤ 0x7e then String.ofList [Char.ofNat b.toNat]
  else String.ofList ['\\', 'x', Nat.digitChar (b.toNat / 16), Nat.digitChar (b.toNat % 16)]

def strayReport (s : Source) (span : Span) (byte : UInt8) : String :=
  errorLine ("found an illegal character `" ++ strayName byte ++ "`") ++ "\n" ++
    (Excerpt.ofSpan s span (some "this character is not part of any token")).render

def IsDumped (s : Source) (t : SpannedToken) (line : String) : Prop :=
  ∃ l, s.location? t.span.start = some l ∧
    line = toString l.line ++ ":" ++ toString l.column ++ "\t" ++ t.token.render

/-- The report shows the stray bytes of a source, one by one and in their order, and the tokens if
they are asked for. -/
structure Accounts (r : Report) (a : Arguments) (s : Source) : Prop where
  errors : ∃ ds : List Diagnostic, ds.length = strayCount s.bytes ∧
    (∀ d, d ∈ ds ↔ ∃ i b, s.bytes[i]? = some b ∧ IsStray b ∧ d = .illegalCharacter ⟨i, i + 1⟩ b) ∧
    ds.Pairwise (fun d e => d.span.start < e.span.start) ∧
    (∀ d ∈ ds, d.render s = strayReport s d.span d.byte) ∧
    r.errors = ds.map (·.render s) ++ summary (strayCount s.bytes)
  output : ∃ ts : List SpannedToken, (TokenStream.ofSource s).tokens =
      ts ++ [⟨⟨.eof, ""⟩, ⟨s.bytes.length, s.bytes.length⟩⟩] ∧
    (∀ t ∈ ts, IsDumped s t (dumpLine s t)) ∧
    r.output = if a.dumpTokens then ts.map (dumpLine s) ++ ["end\tEOF \"\""] else []

theorem render_loadFailure (file : String) (e : LoadError) :
    (loadFailure file e).render = errorLine (file ++ ": " ++ e.message) := by
  rw [loadFailure, Message.render_error]

theorem visible_of_ne_space {b : UInt8} (h : b ≠ 0x20) :
    (0x20 ≤ (Latin1.char b).toNat && (Latin1.char b).toNat < 0x7f) = true ↔
      0x21 ≤ b ∧ b ≤ 0x7e := by
  have number : (Latin1.char b).toNat = b.toNat := rfl
  have other : b.toNat ≠ 0x20 := fun same => h (UInt8.toNat_inj.1 same)
  rw [number, Bool.and_eq_true, decide_eq_true_eq, decide_eq_true_eq, UInt8.le_iff_toNat_le,
    UInt8.le_iff_toNat_le]
  simp only [UInt8.reduceToNat]
  omega

theorem text_of_stray {b : UInt8} (stray : IsStray b) : ByteEscape.text b = strayName b := by
  have not_space : b ≠ 0x20 := fun space => stray.1 (by simp [space]; decide)
  rw [ByteEscape.text, ByteEscape.encode, strayName, ← Latin1.char_eq_ofNat]
  split
  · next tab => exact absurd (by simp [IsBlank, tab]) stray.1
  · next feed => exact absurd (by simp [IsBlank, feed]) stray.1
  · next ret => exact absurd (by simp [IsBlank, ret]) stray.1
  · next single =>
    obtain rfl : b = 0x27 := Latin1.char_inj.1 single
    rfl
  · next double =>
    obtain rfl : b = 0x22 := Latin1.char_inj.1 double
    rfl
  · next slash =>
    obtain rfl : b = 0x5c := Latin1.char_inj.1 slash
    rfl
  · next single double slash =>
    have unquoted : b ∉ [0x22, 0x27, 0x5c] := by
      simp only [List.mem_cons, List.not_mem_nil, or_false]
      rintro (rfl | rfl | rfl)
      · exact double rfl
      · exact single rfl
      · exact slash rfl
    simp only [if_neg unquoted, visible_of_ne_space not_space]
    split <;> rfl

theorem render_diagnostic (s : Source) (span : Span) {byte : UInt8} (stray : IsStray byte) :
    (Diagnostic.illegalCharacter span byte).render s = strayReport s span byte := by
  rw [Diagnostic.render, Diagnostic.message, Message.render_error, text_of_stray stray, strayReport]
  rfl

theorem summary_eq (count : Nat) :
    (if count = 0 then [] else [(illegalCount count).render]) = summary count := by
  rw [summary, illegalCount, Message.render_error]

theorem isDumped_dumpLine {s : Source} {t : SpannedToken} (inside : t.span.start < s.bytes.length) :
    IsDumped s t (dumpLine s t) := by
  cases found : s.location? t.span.start with
  | none => exact absurd (Source.location?_eq_none_iff.1 found) (Nat.not_le.2 inside)
  | some l => exact ⟨l, found, by simp [dumpLine, found, Location.render]⟩

theorem toList_lines (items : List String) :
    (lines items).toList = items.flatMap fun item => item.toList ++ ['\n'] := by
  simp [lines, String.toList_join, List.flatMap_map]

theorem exitCode_eq_zero_iff (r : Report) : r.exitCode = 0 ↔ r.success = true := by
  cases success : r.success <;> simp [exitCode, success]

theorem dumpLine_endToken (s : Source) :
    dumpLine s (Scan.endToken s.bytes.length) = "end\tEOF \"\"" := by
  rw [dumpLine, Scan.endToken, Source.location?_eq_none (Nat.le_refl _)]
  rfl

theorem ofSource_eq (a : Arguments) (s : Source) :
    ofSource a s = ⟨if a.dumpTokens then (scan s.bytes).map (dumpLine s) else [],
      (strays 0 s.bytes).map (·.render s) ++ summary (strayCount s.bytes),
      strayCount s.bytes == 0 || a.allowIllegal⟩ := by
  simp only [ofSource, TokenStream.tokenize, Printer.receiveAll_eq, diagnostics_ofSource,
    Printer.ofSource, Counter.zero, length_strays, Nat.zero_add, summary_eq]
  simp [TokenStream.ofSource]

theorem accounts_ofSource (a : Arguments) (s : Source) : (ofSource a s).Accounts a s := by
  rw [ofSource_eq]
  refine ⟨⟨strays 0 s.bytes, length_strays 0 s.bytes, fun d => ?_, strays_sorted 0 s.bytes,
      fun d mem => ?_, rfl⟩, Scan.tokens 0 s.bytes, rfl, fun t ht => ?_, ?_⟩
  · simpa using @mem_strays d 0 s.bytes
  · obtain ⟨_, _, _, stray, rfl⟩ := mem_strays.1 mem
    exact render_diagnostic s _ stray
  · have bounds := within_of_mem_tokens ht
    exact isDumped_dumpLine (by omega)
  · rw [scan, List.map_append, List.map_singleton, dumpLine_endToken]

theorem exitCode_ofSource (a : Arguments) (s : Source) :
    (ofSource a s).exitCode = 0 ↔ strayCount s.bytes = 0 ∨ a.allowIllegal = true := by
  rw [exitCode_eq_zero_iff, ofSource_eq, Bool.or_eq_true, beq_iff_eq]

section Run

variable {load : String → Except LoadError (Array UInt8)} {a b : Arguments}

theorem run_of_error {e : LoadError} (loaded : load a.file = .error e) :
    run load a = ⟨[], [errorLine (a.file ++ ": " ++ e.message)], false⟩ := by
  rw [run, loaded, ← render_loadFailure]

theorem run_of_ok {content : Array UInt8} (loaded : load a.file = .ok content) :
    run load a = ofSource a (Source.ofBytes a.file content) := by
  rw [run, loaded]

theorem errors_run_eq (file : a.file = b.file) : (run load a).errors = (run load b).errors := by
  cases loaded : load a.file with
  | error e => rw [run_of_error loaded, run_of_error (file ▸ loaded), file]
  | ok content => rw [run_of_ok loaded, run_of_ok (file ▸ loaded), ofSource_eq, ofSource_eq, file]

theorem output_run_eq (file : a.file = b.file) (dump : a.dumpTokens = b.dumpTokens) :
    (run load a).output = (run load b).output := by
  cases loaded : load a.file with
  | error e => rw [run_of_error loaded, run_of_error (file ▸ loaded)]
  | ok content =>
    rw [run_of_ok loaded, run_of_ok (file ▸ loaded), ofSource_eq, ofSource_eq, file, dump]

theorem exitCode_run_eq (file : a.file = b.file) (allow : a.allowIllegal = b.allowIllegal) :
    (run load a).exitCode = (run load b).exitCode := by
  cases loaded : load a.file with
  | error e => rw [run_of_error loaded, run_of_error (file ▸ loaded), file]
  | ok content =>
    rw [run_of_ok loaded, run_of_ok (file ▸ loaded), exitCode, exitCode, ofSource_eq, ofSource_eq,
      file, allow]

end Run

/-- A run succeeds if the file was loaded and has no stray bytes or may have them. Asking for the
tokens changes the output alone, and allowing stray bytes the exit code alone. -/
theorem run_accounts (load : String → Except LoadError (Array UInt8)) (a : Arguments) :
    ((run load a).exitCode = 0 ↔ ∃ content, load a.file = .ok content ∧
      (strayCount content.toList = 0 ∨ a.allowIllegal = true)) ∧
    (∀ e, load a.file = .error e →
      run load a = ⟨[], [errorLine (a.file ++ ": " ++ e.message)], false⟩) ∧
    (∀ content, load a.file = .ok content →
      (run load a).Accounts a (Source.ofBytes a.file content)) ∧
    (∀ dump, (run load { a with dumpTokens := dump }).errors = (run load a).errors ∧
      (run load { a with dumpTokens := dump }).exitCode = (run load a).exitCode) ∧
    (∀ allow, (run load { a with allowIllegal := allow }).output = (run load a).output ∧
      (run load { a with allowIllegal := allow }).errors = (run load a).errors) ∧
    (run load a).outputText.toList =
      (run load a).output.flatMap (fun item => item.toList ++ ['\n']) ∧
    (run load a).errorText.toList =
      (run load a).errors.flatMap fun item => item.toList ++ ['\n'] := by
  refine ⟨?_, fun e => run_of_error, fun content loaded => ?_,
    fun dump => ⟨errors_run_eq rfl, exitCode_run_eq rfl rfl⟩,
    fun allow => ⟨output_run_eq rfl rfl, errors_run_eq rfl⟩, toList_lines _, toList_lines _⟩
  · cases loaded : load a.file with
    | error e => simp [run_of_error loaded, exitCode]
    | ok content => simp [run_of_ok loaded, exitCode_ofSource, Source.bytes, Source.ofBytes]
  · rw [run_of_ok loaded]
    exact accounts_ofSource a _

theorem run_accounts_not_found_and_stray :
    (run (fun _ => .error .notFound) ⟨"a.mk", true, true⟩).output = [] ∧
      (run (fun _ => .ok #[0x61, 0x40]) ⟨"a.mk", false, true⟩).exitCode = 0 ∧
      (run (fun _ => .ok #[0x61, 0x40]) ⟨"a.mk", false, true⟩).Accounts ⟨"a.mk", false, true⟩
        (Source.ofBytes "a.mk" #[0x61, 0x40]) := by
  have not_found := (run_accounts (fun _ => .error .notFound) ⟨"a.mk", true, true⟩).2.1 _ rfl
  have stray := run_accounts (fun _ => .ok #[0x61, 0x40]) ⟨"a.mk", false, true⟩
  exact ⟨congrArg output not_found, stray.1.2 ⟨_, rfl, .inr rfl⟩, stray.2.2.1 _ rfl⟩

end Report

end Lexis
