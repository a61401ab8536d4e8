import Lexis.Command.Report
import Lexis.Proofs.Command.Reading
set_option autoImplicit false

/-!
Which command lines are run, and with which arguments, by any parser that keeps to the conventions
of command lines. Main statement: they are those with known flags, none of them twice, and one named
file; their order says nothing. On any other command line nothing is run.
-/
namespace Lexis

open Arguments (IsFlag flags files beforeEnd)

namespace CommandLine

variable {ε : Type} {c : CommandLine} {argument name : String} {m : Matches}
  {before after arguments : List String}

/-- How a parser treats the arguments of a command line. A declared flag stands anywhere before `--`
and not twice, a call for help is never a reading, and neither is any other flag, be it shortened or
with a value. Without flags, one file is named, and whatever stands after `--` is no flag. -/
structure Conventions (parser : Parser ε) : Prop where
  flag (c : CommandLine) {name : String} (before after : List String) (m : Matches) :
    name ∈ c.flagNames → "--" ∉ before →
    (parser c (before ++ ("--" ++ name) :: after) = .ok m ↔
      ∃ m', parser c (before ++ after) = .ok m' ∧ m'.given name = false ∧
        m = ⟨m'.file, Function.update m'.given name true⟩)
  help (c : CommandLine) {argument : String} (before after : List String) (m : Matches) :
    argument ∈ ["--help", "-h"] → "--" ∉ before → parser c (before ++ argument :: after) ≠ .ok m
  unknown (c : CommandLine) {argument : String} (before after : List String) (m : Matches) :
    c.IsForeign argument → argument ∉ ["--help", "-h"] → "--" ∉ before →
    parser c (before ++ argument :: after) ≠ .ok m
  one_file (c : CommandLine) (names : List String) (m : Matches) : (∀ name ∈ names, ¬ IsFlag name) →
    (parser c names = .ok m ↔ ∃ file, names = [file] ∧ file ≠ "" ∧ m = ⟨file, fun _ => false⟩)
  end_of_flags (c : CommandLine) (names after : List String) (m : Matches) :
    (∀ name ∈ names, ¬ IsFlag name) →
    (parser c (names ++ "--" :: after) = .ok m ↔
      ∃ file, names ++ after = [file] ∧ file ≠ "" ∧ m = ⟨file, fun _ => false⟩)

theorem flags_middle (clear : "--" ∉ before) (flag : IsFlag argument) (ne_end : argument ≠ "--")
    (after : List String) :
    (flags (before ++ argument :: after)).Perm (argument :: flags (before ++ after)) := by
  rw [Arguments.flags_append clear, Arguments.flags_append clear,
    Arguments.flags_cons_of_flag flag ne_end]
  exact List.perm_middle

theorem files_middle (clear : "--" ∉ before) (flag : IsFlag argument) (ne_end : argument ≠ "--")
    (after : List String) :
    files (before ++ argument :: after) = files (before ++ after) := by
  rw [Arguments.files_append clear, Arguments.files_append clear,
    Arguments.files_cons_of_flag flag ne_end]

theorem end_not_mem (named : ∀ name ∈ before, ¬ IsFlag name) : "--" ∉ before := fun mem =>
  Arguments.ne_end_of_not_flag (named _ mem) rfl

theorem flags_of_names (named : ∀ name ∈ before, ¬ IsFlag name) (rest : List String) :
    flags (before ++ rest) = flags rest := by
  have none_flagged : before.filter (fun argument => decide (IsFlag argument)) = [] :=
    List.filter_eq_nil_iff.2 fun name mem => by simpa using named name mem
  rw [Arguments.flags_append (end_not_mem named), none_flagged, List.nil_append]

theorem files_of_names (named : ∀ name ∈ before, ¬ IsFlag name) (rest : List String) :
    files (before ++ rest) = before ++ files rest := by
  have all_named : before.filter (fun argument => !decide (IsFlag argument)) = before :=
    List.filter_eq_self.2 fun name mem => by simpa using named name mem
  rw [Arguments.files_append (end_not_mem named), all_named]

namespace Says

theorem flag_iff (known : name ∈ c.flagNames) (clear : "--" ∉ before) :
    c.Says (before ++ ("--" ++ name) :: after) m ↔
      ∃ m', c.Says (before ++ after) m' ∧ m'.given name = false ∧
        m = ⟨m'.file, Function.update m'.given name true⟩ := by
  obtain ⟨flag, ne_end⟩ := isFlag_text (c.proper name known).1
  have flagged := flags_middle clear flag ne_end after
  have filed := files_middle clear flag ne_end after
  constructor
  · rintro ⟨all_known, once, file, named, given⟩
    obtain ⟨not_again, once⟩ := List.nodup_cons.1 (flagged.nodup_iff.1 once)
    simp only [flagged.mem_iff, List.mem_cons, String.append_right_inj] at given
    refine ⟨⟨m.file, Function.update m.given name false⟩,
      ⟨fun flag mem => all_known flag (flagged.mem_iff.2 (List.mem_cons_of_mem _ mem)), once,
        filed ▸ file, named, fun other => ?_⟩, by simp, ?_⟩
    · by_cases same : other = name
      · simp [same, not_again]
      · simp [same, given]
    · have here : m.given name = true := (given name).2 (.inl rfl)
      simp [← here]
  · rintro ⟨m', ⟨all_known, once, file, named, given⟩, not_again, rfl⟩
    refine ⟨fun flag mem => ?_, flagged.nodup_iff.2 (List.nodup_cons.2 ⟨?_, once⟩), filed ▸ file,
      named, fun other => ?_⟩
    · obtain rfl | mem := List.mem_cons.1 (flagged.mem_iff.1 mem)
      · exact ⟨name, known, rfl⟩
      · exact all_known flag mem
    · simp [← given, not_again]
    · by_cases same : other = name <;> simp [same, flagged.mem_iff, given]

theorem not_foreign (foreign : c.IsForeign argument) (clear : "--" ∉ before) :
    ¬ c.Says (before ++ argument :: after) m := by
  intro said
  have mem := (flags_middle clear foreign.isFlag foreign.ne_end after).mem_iff.2
    List.mem_cons_self
  obtain ⟨name, known, same⟩ := said.known argument mem
  exact foreign.ne_text name known same

theorem files_iff (flagless : flags arguments = []) : c.Says arguments m ↔
    ∃ file, files arguments = [file] ∧ file ≠ "" ∧ m = ⟨file, fun _ => false⟩ := by
  obtain ⟨file, given⟩ := m
  constructor
  · rintro ⟨-, -, filed, named, given⟩
    refine ⟨file, filed, named, ?_⟩
    simpa [flagless, funext_iff] using given
  · rintro ⟨_, filed, named, ⟨⟩⟩
    exact ⟨by simp [flagless], by simp [flagless], filed, named, by simp [flagless]⟩

theorem names_iff (named : ∀ name ∈ before, ¬ IsFlag name) : c.Says before m ↔
    ∃ file, before = [file] ∧ file ≠ "" ∧ m = ⟨file, fun _ => false⟩ := by
  have flagless := flags_of_names named []
  have filed := files_of_names named []
  rw [Arguments.files_nil, List.append_nil] at filed
  rw [List.append_nil] at flagless
  rw [files_iff flagless, filed]

theorem end_iff (named : ∀ name ∈ before, ¬ IsFlag name) : c.Says (before ++ "--" :: after) m ↔
    ∃ file, before ++ after = [file] ∧ file ≠ "" ∧ m = ⟨file, fun _ => false⟩ := by
  have flagless := (flags_of_names named _).trans (Arguments.flags_end after)
  rw [files_iff flagless, files_of_names named, Arguments.files_end]

end Says

theorem isForeign_of_help (h : argument ∈ ["--help", "-h"]) : c.IsForeign argument := by
  have other (name : String) (known : name ∈ c.flagNames) : name ≠ "help" :=
    (c.proper name known).2.1
  simp only [List.mem_cons, List.not_mem_nil, or_false] at h
  obtain rfl | rfl := h
  · exact ⟨by decide, by decide, fun name known same => other name known
      ((String.append_right_inj "--").1 same.symm)⟩
  · refine ⟨by decide, by decide, fun name known same => ?_⟩
    have letters := congrArg String.toList same
    simp at letters

/-- A parser with these conventions reads what the arguments say. -/
theorem Conventions.ok_iff {parser : Parser ε} (conventions : Conventions parser) :
    parser c arguments = .ok m ↔ c.Says arguments m := by
  -- The first flag is taken out, wherever it stands, until only names are left.
  induction size : arguments.length using Nat.strong_induction_on generalizing arguments m with
  | _ n ih =>
    cases found : arguments.find? (fun argument => decide (IsFlag argument)) with
    | none =>
      have named : ∀ name ∈ arguments, ¬ IsFlag name := by
        simpa using List.find?_eq_none.1 found
      rw [conventions.one_file c arguments m named, Says.names_iff named]
    | some argument =>
      obtain ⟨flag, before, after, rfl, front⟩ := List.find?_eq_some_iff_append.1 found
      have flag : IsFlag argument := of_decide_eq_true flag
      have named : ∀ name ∈ before, ¬ IsFlag name := by simpa using front
      have clear := end_not_mem named
      by_cases last : argument = "--"
      · subst last
        rw [conventions.end_of_flags c before after m named,
          Says.end_iff named]
      · by_cases text : ∃ name ∈ c.flagNames, argument = "--" ++ name
        · obtain ⟨name, known, rfl⟩ := text
          have shorter : (before ++ after).length < n := by simp [← size]
          rw [conventions.flag c before after m known clear, Says.flag_iff known clear]
          simp only [ih _ shorter rfl]
        · have foreign : c.IsForeign argument :=
            ⟨flag, last, fun name known same => text ⟨name, known, same⟩⟩
          refine iff_of_false ?_ (Says.not_foreign foreign clear)
          by_cases help : argument ∈ ["--help", "-h"]
          · exact conventions.help c before after m help clear
          · exact conventions.unknown c before after m foreign help clear

theorem conventions_parse : Conventions parse where
  flag c _ before after m known clear := by
    simp only [parse_eq_ok_iff]
    exact Says.flag_iff known clear
  help c _ before after m help clear := by
    rw [Ne, parse_eq_ok_iff]
    exact Says.not_foreign (isForeign_of_help help) clear
  unknown c _ before after m foreign _ clear := by
    rw [Ne, parse_eq_ok_iff]
    exact Says.not_foreign foreign clear
  one_file c names m named := by
    rw [parse_eq_ok_iff, Says.names_iff named]
  end_of_flags c names after m named := by
    rw [parse_eq_ok_iff, Says.end_iff named]

end CommandLine

namespace Arguments

open CommandLine (Conventions)

/-- The flags are known and not repeated, and one file is named. -/
structure Acceptable (arguments : List String) : Prop where
  known : ∀ flag ∈ flags arguments, flag = "--dump-tokens" ∨ flag = "--allow-illegal"
  once : (flags arguments).Nodup
  file : ∃ name, name ≠ "" ∧ files arguments = [name]

variable {ε : Type} {parser : CommandLine.Parser ε} {arguments : List String} {a : Arguments}

theorem known_iff {flag : String} : (∃ name ∈ commandLine.flagNames, flag = "--" ++ name) ↔
    flag = "--dump-tokens" ∨ flag = "--allow-illegal" := by
  simp [commandLine]

theorem read_eq_ok_iff (conventions : Conventions parser) : read parser arguments = .ok a ↔
    Acceptable arguments ∧ files arguments = [a.file] ∧
      (a.dumpTokens = true ↔ "--dump-tokens" ∈ flags arguments) ∧
      (a.allowIllegal = true ↔ "--allow-illegal" ∈ flags arguments) := by
  constructor
  · intro accepted
    cases parsed : parser commandLine arguments with
    | error e => simp [read, parsed, Except.map] at accepted
    | ok m =>
      obtain rfl : ofMatches m = a := by simpa [read, parsed, Except.map] using accepted
      obtain ⟨known, once, file, named, given⟩ := conventions.ok_iff.1 parsed
      exact ⟨⟨fun flag mem => known_iff.1 (known flag mem), once, m.file, named, file⟩, file,
        given "dump-tokens", given "allow-illegal"⟩
  · rintro ⟨⟨known, once, name, named, single⟩, file, dump, allow⟩
    obtain rfl : name = a.file := List.singleton_inj.1 (single.symm.trans file)
    have parsed : parser commandLine arguments =
        .ok ⟨a.file, fun name => decide ("--" ++ name ∈ flags arguments)⟩ :=
      conventions.ok_iff.2 ⟨fun flag mem => known_iff.2 (known flag mem), once, file, named,
        fun name => decide_eq_true_iff⟩
    have dumped : decide ("--dump-tokens" ∈ flags arguments) = a.dumpTokens := by
      rw [Bool.eq_iff_iff, decide_eq_true_iff, dump]
    have allowed : decide ("--allow-illegal" ∈ flags arguments) = a.allowIllegal := by
      rw [Bool.eq_iff_iff, decide_eq_true_iff, allow]
    obtain ⟨name, dumpTokens, allowIllegal⟩ := a
    rw [read, parsed]
    exact congrArg Except.ok (congrArg₂ (Arguments.mk name) dumped allowed)

theorem mem_flags {flag : String} (h : IsFlag flag) :
    flag ∈ flags arguments ↔ flag ∈ beforeEnd arguments := by
  simp [flags, h]

theorem read_of_perm (conventions : Conventions parser) {other : List String}
    (flagged : (flags other).Perm (flags arguments))
    (filed : (files other).Perm (files arguments)) :
    read parser other = .ok a → read parser arguments = .ok a := by
  rw [read_eq_ok_iff conventions, read_eq_ok_iff conventions]
  rintro ⟨⟨known, once, name, named, single⟩, file, dump, allow⟩
  simp only [flagged.mem_iff] at known dump allow
  rw [single] at file filed
  have same := (List.singleton_perm.1 filed).symm
  exact ⟨⟨known, flagged.nodup_iff.1 once, name, named, same⟩, same.trans file, dump, allow⟩

/-- A command line is run only if every flag is known, none is given twice, and there is one file,
which has a name. What it is run with depends on the arguments but not on their order. -/
theorem read_acceptable (conventions : Conventions parser) (arguments : List String) :
    ((∃ a, read parser arguments = .ok a) ↔ Acceptable arguments) ∧
    (∀ a, read parser arguments = .ok a → files arguments = [a.file] ∧
      (a.dumpTokens = true ↔ "--dump-tokens" ∈ beforeEnd arguments) ∧
      (a.allowIllegal = true ↔ "--allow-illegal" ∈ beforeEnd arguments) ∧
      ∀ load, Report.ofCommandLine parser load arguments = .ok (Report.run load a)) ∧
    (∀ other, (flags other).Perm (flags arguments) → (files other).Perm (files arguments) →
      ∀ a, read parser other = .ok a ↔ read parser arguments = .ok a) ∧
    (¬ Acceptable arguments → ∃ e, read parser arguments = .error e ∧
      ∀ load, Report.ofCommandLine parser load arguments = .error e) := by
  have accepted : (∃ a, read parser arguments = .ok a) ↔ Acceptable arguments := by
    constructor
    · rintro ⟨a, accepted⟩
      exact ((read_eq_ok_iff conventions).1 accepted).1
    · intro acceptable
      obtain ⟨name, -, single⟩ := acceptable.file
      exact ⟨⟨name, decide ("--dump-tokens" ∈ flags arguments),
        decide ("--allow-illegal" ∈ flags arguments)⟩, (read_eq_ok_iff conventions).2
          ⟨acceptable, single, decide_eq_true_iff, decide_eq_true_iff⟩⟩
  refine ⟨accepted, fun a read_as => ?_, fun other flagged filed a =>
    ⟨read_of_perm conventions flagged filed,
      read_of_perm conventions flagged.symm filed.symm⟩, fun unacceptable => ?_⟩
  · obtain ⟨-, file, dump, allow⟩ := (read_eq_ok_iff conventions).1 read_as
    rw [mem_flags (by decide)] at dump allow
    exact ⟨file, dump, allow, fun load => by rw [Report.ofCommandLine, read_as]⟩
  · cases refused : read parser arguments with
    | ok a => exact absurd (accepted.1 ⟨a, refused⟩) unacceptable
    | error e => exact ⟨e, rfl, fun load => by rw [Report.ofCommandLine, refused]⟩

/-- A file with the name of a flag, and a call for help after a file. -/
theorem read_acceptable_parse :
    Conventions CommandLine.parse ∧
      (∃ a, read CommandLine.parse ["--dump-tokens", "--", "--dump-tokens"] = .ok a) ∧
      ∃ e, read CommandLine.parse ["a.mk", "--help"] = .error e := by
  have conventions := CommandLine.conventions_parse
  have flagged := read_acceptable conventions ["--dump-tokens", "--", "--dump-tokens"]
  have help := read_acceptable conventions ["a.mk", "--help"]
  have acceptable : Acceptable ["--dump-tokens", "--", "--dump-tokens"] :=
    ⟨by decide, by decide, "--dump-tokens", by decide, by decide⟩
  refine ⟨conventions, flagged.1.2 acceptable, ?_⟩
  obtain ⟨e, refused, _⟩ := help.2.2.2 fun acceptable =>
    absurd (acceptable.known "--help" (by decide)) (by decide)
  exact ⟨e, refused⟩

end Arguments

end Lexis
