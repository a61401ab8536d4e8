import Lexis.Proofs.Command.Outcome
import Lexis.Proofs.Source.SameText
import Lexis.Proofs.Stream.ByLine
set_option autoImplicit false

/-!
What a run prints and the terminators of the file. Main statement: files with the same lines without
terminators have the same report.
-/
namespace Lexis

theorem map_eq_of_map_eq {α β γ : Type} {f f' : α → β} {g g' : α → γ} {xs ys : List α}
    (same : xs.map f = ys.map f')
    (determined : ∀ x ∈ xs, ∀ y ∈ ys, f x = f' y → g x = g' y) : xs.map g = ys.map g' := by
  induction xs generalizing ys with
  | nil =>
    have none : ys = [] := List.map_eq_nil_iff.1 same.symm
    rw [none]
    rfl
  | cons x xs ih =>
    cases ys with
    | nil => simp at same
    | cons y ys =>
      obtain ⟨first, rest⟩ := List.cons.inj same
      rw [List.map_cons, List.map_cons, determined x (by simp) y (by simp) first,
        ih rest fun x hx y hy => determined x (by simp [hx]) y (by simp [hy])]

namespace Report

variable {s s' : Source}

theorem ofSource_congr (a : Arguments)
    (dumped : (scan s.bytes).map (dumpLine s) = (scan s'.bytes).map (dumpLine s'))
    (printed : (TokenStream.ofSource s).diagnostics.map (·.render s) =
      (TokenStream.ofSource s').diagnostics.map (·.render s')) : ofSource a s = ofSource a s' := by
  rw [diagnostics_ofSource, diagnostics_ofSource] at printed
  have count := congrArg List.length printed
  rw [List.length_map, List.length_map, length_strays, length_strays] at count
  rw [ofSource_eq, ofSource_eq, dumped, printed, count]

theorem placed_eq (same : s.SameText s') :
    (Scan.tokens 0 s.bytes).map (PlacedToken.ofSource s) =
      (Scan.tokens 0 s'.bytes).map (PlacedToken.ofSource s') := by
  rw [map_ofSource_tokens, map_ofSource_tokens, Source.sameText_iff.1 same]

theorem dumped_eq (same : s.SameText s') :
    (scan s.bytes).map (dumpLine s) = (scan s'.bytes).map (dumpLine s') := by
  have tokens : (Scan.tokens 0 s.bytes).map (dumpLine s) =
      (Scan.tokens 0 s'.bytes).map (dumpLine s') := by
    refine map_eq_of_map_eq (placed_eq same) fun t _ t' _ placed => ?_
    obtain ⟨token, start, _⟩ := PlacedToken.mk.inj placed
    rw [dumpLine, dumpLine, token, start]
  rw [scan, scan, List.map_append, List.map_append, tokens, List.map_singleton, List.map_singleton,
    dumpLine_endToken, dumpLine_endToken]

theorem report_eq (same : s.SameText s') (path : s.path = s'.path) {t t' : SpannedToken}
    (ht : t ∈ Scan.tokens 0 s.bytes) (ht' : t' ∈ Scan.tokens 0 s'.bytes)
    (placed : PlacedToken.ofSource s t = PlacedToken.ofSource s' t') :
    (Diagnostic.ofToken? s t).map (·.render s) = (Diagnostic.ofToken? s' t').map (·.render s') := by
  obtain ⟨token, _, extent⟩ := PlacedToken.mk.inj placed
  have slices : s.slice t.span = s'.slice t'.span := by
    have literal := (IsTokenization.of_tokens (Nat.zero_le s.bytes.length)).literal_eq ht
    have literal' := (IsTokenization.of_tokens (Nat.zero_le s'.bytes.length)).literal_eq ht'
    rw [slice_eq_bytesOf, slice_eq_bytesOf, ← Latin1.decode_inj, ← literal, ← literal', token]
  obtain ⟨n, text, found, line, column⟩ := PlacedToken.exists_line_of_mem
    (map_ofSource_tokens s ▸ List.mem_map_of_mem (f := PlacedToken.ofSource s) ht)
  have text_eq : (s.line? (Extent.ofSpan s t.span).start.line).map chomp = some text := by
    have number : (Extent.ofSpan s t.span).start.line = n + 1 := by
      rw [Nat.add_comm n]
      exact line
    rw [number, Source.line?_eq, ← List.getElem?_map, found]
  have excerpt := Excerpt.render_ofSpan same path extent text_eq (Nat.le_succ_of_le column)
  rw [Diagnostic.ofToken?, Diagnostic.ofToken?, token, slices]
  split
  · cases (s'.slice t'.span).head? with
    | none => simp only [Option.map_none]
    | some b =>
      simp only [Option.map_some, Diagnostic.render, Diagnostic.message, Diagnostic.excerpt,
        Diagnostic.span, Diagnostic.help, excerpt]
  · simp only [Option.map_none]

theorem printed_eq (same : s.SameText s') (path : s.path = s'.path) :
    (TokenStream.ofSource s).diagnostics.map (·.render s) =
      (TokenStream.ofSource s').diagnostics.map (·.render s') := by
  have reports := map_eq_of_map_eq (placed_eq same) fun t ht t' ht' => report_eq same path ht ht'
  have printed : ∀ s : Source, (TokenStream.ofSource s).diagnostics.map (·.render s) =
      ((Scan.tokens 0 s.bytes).map fun t =>
        (Diagnostic.ofToken? s t).map (·.render s)).filterMap id := by
    intro s
    rw [diagnostics_ofSource, ← filterMap_ofToken? s 0 List.drop_zero, List.map_filterMap,
      List.filterMap_map]
    rfl
  rw [printed, printed, reports]

/-- Files with the same lines without terminators have the same report, and so have a file and the
file with all terminators replaced by one of the three. -/
theorem run_eq_of_sameText {load load' : String → Except LoadError (Array UInt8)} {a : Arguments}
    {content content' : Array UInt8} (loaded : load a.file = .ok content)
    (loaded' : load' a.file = .ok content') :
    ((Source.ofBytes a.file content).SameText (Source.ofBytes a.file content') →
      run load a = run load' a) ∧
    ∀ e : Ending, content' = (e.convert content.toList).toArray → run load a = run load' a := by
  have of_same : (Source.ofBytes a.file content).SameText (Source.ofBytes a.file content') →
      run load a = run load' a := by
    intro same
    rw [run, run, loaded, loaded']
    exact ofSource_congr a (dumped_eq same) (printed_eq same rfl)
  refine ⟨of_same, fun e converted => of_same ?_⟩
  rw [converted]
  exact Source.sameText_convert e a.file a.file content

theorem run_lf_eq_run_cr_and_crlf :
    run (fun _ => .ok #[0x61, 0x0a, 0x40]) ⟨"a.mk", true, false⟩ =
        run (fun _ => .ok #[0x61, 0x0d, 0x40]) ⟨"a.mk", true, false⟩ ∧
      run (fun _ => .ok #[0x61, 0x0a, 0x40]) ⟨"a.mk", true, false⟩ =
        run (fun _ => .ok #[0x61, 0x0d, 0x0a, 0x40]) ⟨"a.mk", true, false⟩ :=
  ⟨(run_eq_of_sameText rfl rfl).1 (Source.sameText_iff.2 (by decide)),
    (run_eq_of_sameText rfl rfl).2 .crlf (by decide)⟩

end Report

end Lexis
