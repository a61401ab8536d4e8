import Lexis.Command.Arguments
import Mathlib.Data.List.Nodup
import Mathlib.Data.List.TakeWhile
set_option autoImplicit false

/-!
What a command line says, told without the order in which it is read. Main statement: reading from
left to right finds what it says, if its flags are known, none of them is given twice, and one file
is named.
-/
namespace Lexis

namespace Arguments

/-- A lone hyphen is not a flag but a file. -/
def IsFlag (argument : String) : Prop := argument.toList.head? = some '-' ∧ argument ≠ "-"

instance : DecidablePred IsFlag := fun _ => inferInstanceAs (Decidable (_ ∧ _))

/-- The arguments before the first `--`; those after it are never flags. -/
def beforeEnd (arguments : List String) : List String := arguments.takeWhile (· ≠ "--")

def afterEnd (arguments : List String) : List String := (arguments.dropWhile (· ≠ "--")).tail

def flags (arguments : List String) : List String :=
  (beforeEnd arguments).filter fun argument => decide (IsFlag argument)

def files (arguments : List String) : List String :=
  ((beforeEnd arguments).filter fun argument => !decide (IsFlag argument)) ++ afterEnd arguments

variable {argument : String} {before : List String}

theorem isFlag_iff : IsFlag argument ↔ ∃ c tail, argument.toList = '-' :: c :: tail := by
  have lone : argument = "-" ↔ argument.toList = ['-'] := String.toList_inj.symm
  rw [IsFlag, Ne, lone]
  rcases argument.toList with _ | ⟨c, _ | ⟨d, tail⟩⟩ <;> simp

theorem ne_end_of_not_flag (file : ¬ IsFlag argument) : argument ≠ "--" := by
  rintro rfl
  exact file (by decide)

theorem ne_end_of_clear (clear : "--" ∉ before) :
    ∀ argument ∈ before, decide (argument ≠ "--") = true := fun _ mem =>
  decide_eq_true fun same => clear (same ▸ mem)

theorem flags_append (clear : "--" ∉ before) (rest : List String) :
    flags (before ++ rest) = before.filter (fun argument => decide (IsFlag argument)) ++
      flags rest := by
  rw [flags, beforeEnd, List.takeWhile_append_of_pos (ne_end_of_clear clear), List.filter_append]
  rfl

theorem files_append (clear : "--" ∉ before) (rest : List String) :
    files (before ++ rest) = before.filter (fun argument => !decide (IsFlag argument)) ++
      files rest := by
  rw [files, beforeEnd, afterEnd, List.takeWhile_append_of_pos (ne_end_of_clear clear),
    List.dropWhile_append_of_pos (ne_end_of_clear clear), List.filter_append, List.append_assoc]
  rfl

theorem flags_cons_of_flag (flag : IsFlag argument) (h : argument ≠ "--") (rest : List String) :
    flags (argument :: rest) = argument :: flags rest := by
  have alone : "--" ∉ [argument] := by simpa using h.symm
  simpa [flag] using flags_append alone rest

theorem files_cons_of_flag (flag : IsFlag argument) (h : argument ≠ "--") (rest : List String) :
    files (argument :: rest) = files rest := by
  have alone : "--" ∉ [argument] := by simpa using h.symm
  simpa [flag] using files_append alone rest

theorem flags_cons_of_not_flag (file : ¬ IsFlag argument) (rest : List String) :
    flags (argument :: rest) = flags rest := by
  have alone : "--" ∉ [argument] := by simpa using (ne_end_of_not_flag file).symm
  simpa [file] using flags_append alone rest

theorem files_cons_of_not_flag (file : ¬ IsFlag argument) (rest : List String) :
    files (argument :: rest) = argument :: files rest := by
  have alone : "--" ∉ [argument] := by simpa using (ne_end_of_not_flag file).symm
  simpa [file] using files_append alone rest

theorem files_nil : files [] = [] := rfl

theorem flags_end (rest : List String) : flags ("--" :: rest) = [] := rfl

theorem files_end (rest : List String) : files ("--" :: rest) = rest := rfl

end Arguments

namespace CommandLine

open Arguments

variable {c : CommandLine} {argument name : String} {rest : List String} {m : Matches}

theorem isFlag_text (nonempty : name ≠ "") : IsFlag ("--" ++ name) ∧ "--" ++ name ≠ "--" := by
  refine ⟨isFlag_iff.2 ⟨'-', name.toList, by simp⟩, ?_⟩
  simpa using nonempty

/-- A flag that is not one of the command line, or is not spelled out in full. -/
structure IsForeign (c : CommandLine) (argument : String) : Prop where
  isFlag : IsFlag argument
  ne_end : argument ≠ "--"
  ne_text : ∀ name ∈ c.flagNames, argument ≠ "--" ++ name

theorem form_text (known : name ∈ c.flagNames) : c.form ("--" ++ name) = .flag name := by
  obtain ⟨nonempty, other, -, plain⟩ := c.proper name known
  have whole : name.toList.takeWhile (· != '=') = name.toList :=
    List.takeWhile_eq_self_iff.2 fun d mem => bne_iff_ne.2 fun sign => plain (sign ▸ mem)
  have spelled : ("--" ++ name).toList = '-' :: '-' :: name.toList := by simp
  rw [form, spelled]
  split
  · next same => exact absurd (String.toList_eq_nil_iff.1 (by simpa using same)) nonempty
  · next long _ same =>
    obtain rfl : name.toList = long := by simpa using same
    simp [whole, known, other, plain]
  · next same => exact absurd (List.cons.inj (List.cons.inj same).2).1 (by decide)
  · next hyphen _ same => exact (hyphen (List.cons.inj (List.cons.inj same).2).1.symm).elim
  · next short => exact (short '-' name.toList rfl).elim

theorem form_of_not_flag (file : ¬ IsFlag argument) : c.form argument = .file := by
  have short (d : Char) (tail : List Char) : argument.toList ≠ '-' :: d :: tail := fun same =>
    file (isFlag_iff.2 ⟨d, tail, same⟩)
  rw [form]
  split
  · next same => exact absurd same (short _ _)
  · next same => exact absurd same (short _ _)
  · next same => exact absurd same (short _ _)
  · next same => exact absurd same (short _ _)
  · rfl

theorem form_of_foreign (foreign : c.IsForeign argument) :
    c.form argument = .unknown ∨ c.form argument = .flagWithValue ∨ c.form argument = .help := by
  rw [form]
  split
  · next same => exact absurd (String.toList_inj.1 (same.trans (by decide))) foreign.ne_end
  · next long _ same =>
    by_cases sign : '=' ∈ long
    · simp only [sign, if_true]
      split <;> simp
    · -- Without an equals sign the whole argument is the flag's text.
      have whole : long.takeWhile (· != '=') = long :=
        List.takeWhile_eq_self_iff.2 fun d mem => bne_iff_ne.2 fun same => sign (same ▸ mem)
      have unknown : String.ofList long ∉ c.flagNames := fun known =>
        foreign.ne_text _ known (by simp [← String.toList_inj, same])
      by_cases help : String.ofList long = "help" <;> simp [whole, sign, unknown, help]
  · exact .inr (.inr rfl)
  · exact .inl rfl
  · next short =>
    obtain ⟨d, tail, same⟩ := isFlag_iff.1 foreign.isFlag
    exact absurd same (short d tail)

/-- What the arguments say. They only count by what is among them, so this relation does not know an
order. -/
structure Says (c : CommandLine) (arguments : List String) (m : Matches) : Prop where
  known : ∀ flag ∈ flags arguments, ∃ name ∈ c.flagNames, flag = "--" ++ name
  once : (flags arguments).Nodup
  file : files arguments = [m.file]
  named : m.file ≠ ""
  given : ∀ name, m.given name = true ↔ "--" ++ name ∈ flags arguments

namespace Reading

variable {r r' : Reading}

def complete (c : CommandLine) (r : Reading) (arguments : List String) :
    Except ArgumentError Matches :=
  match r.takeAll c arguments with
  | .error e => .error e
  | .ok r => r.finish

structure Completes (c : CommandLine) (r : Reading) (arguments : List String) (m : Matches) :
    Prop where
  known : ∀ flag ∈ flags arguments, ∃ name ∈ c.flagNames, flag = "--" ++ name
  once : (flags arguments).Nodup
  fresh : ∀ name ∈ r.given, "--" ++ name ∉ flags arguments
  file : r.file?.toList ++ files arguments = [m.file]
  named : m.file ≠ ""
  given : ∀ name, m.given name = true ↔ name ∈ r.given ∨ "--" ++ name ∈ flags arguments

theorem completes_start_iff {arguments : List String} :
    Completes c start arguments m ↔ c.Says arguments m := by
  constructor
  · rintro ⟨known, once, -, file, named, given⟩
    exact ⟨known, once, file, named, by simpa [start] using given⟩
  · rintro ⟨known, once, file, named, given⟩
    exact ⟨known, once, by simp [start], file, named, by simpa [start] using given⟩

theorem finish_eq_ok_iff : r.finish = .ok m ↔
    r.file? = some m.file ∧ m.file ≠ "" ∧ ∀ name, m.given name = true ↔ name ∈ r.given := by
  obtain ⟨_ | name, given⟩ := r
  · simp [finish]
  · obtain ⟨file, flag⟩ := m
    by_cases empty : name = ""
    · simp only [finish, if_pos empty, reduceCtorEq, Option.some.injEq, false_iff]
      rintro ⟨rfl, named, -⟩
      exact named empty
    · have same : (fun other => decide (other ∈ given)) = flag ↔
          ∀ name, flag name = true ↔ name ∈ given := by
        refine funext_iff.trans (forall_congr' fun other => ?_)
        rw [Bool.eq_iff_iff, decide_eq_true_iff]
        exact iff_comm
      simp only [finish, if_neg empty, Except.ok.injEq, Matches.mk.injEq, Option.some.injEq, same]
      constructor
      · rintro ⟨rfl, given⟩
        exact ⟨rfl, empty, given⟩
      · rintro ⟨rfl, -, given⟩
        exact ⟨rfl, given⟩

theorem takeFiles_eq_ok_iff {names : List String} : r.takeFiles names = .ok r' ↔
    r'.file?.toList = r.file?.toList ++ names ∧ r'.given = r.given := by
  induction names generalizing r with
  | nil =>
    obtain ⟨file?, given⟩ := r
    obtain ⟨file?', given'⟩ := r'
    cases file? <;> cases file?' <;> simp [takeFiles, eq_comm]
  | cons name rest ih =>
    rw [takeFiles, takeFile]
    cases h : r.file? with
    | none => exact ih
    | some other =>
      have long : r'.file?.toList.length ≤ 1 := by cases r'.file? <;> simp
      simp only [reduceCtorEq, false_iff]
      rintro ⟨same, -⟩
      simp [same] at long

theorem complete_eq_ok_iff_exists {arguments : List String} : complete c r arguments = .ok m ↔
    ∃ r', r.takeAll c arguments = .ok r' ∧ r'.finish = .ok m := by
  rw [complete]
  cases r.takeAll c arguments <;> simp

theorem complete_of_files {arguments : List String}
    (taken : r.takeAll c arguments = r.takeFiles (files arguments))
    (flagless : flags arguments = []) :
    complete c r arguments = .ok m ↔ Completes c r arguments m := by
  rw [complete_eq_ok_iff_exists, taken]
  constructor
  · rintro ⟨last, taken, finished⟩
    obtain ⟨file, same⟩ := takeFiles_eq_ok_iff.1 taken
    obtain ⟨found, named, given⟩ := finish_eq_ok_iff.1 finished
    exact ⟨by simp [flagless], by simp [flagless], by simp [flagless], by simp [← file, found],
      named, by simpa [flagless, same] using given⟩
  · rintro ⟨-, -, -, file, named, given⟩
    exact ⟨⟨some m.file, r.given⟩, takeFiles_eq_ok_iff.2 ⟨file.symm, rfl⟩,
      finish_eq_ok_iff.2 ⟨rfl, named, by simpa [flagless] using given⟩⟩

theorem complete_cons_of_foreign (foreign : c.IsForeign argument) :
    complete c r (argument :: rest) = .ok m ↔ Completes c r (argument :: rest) m := by
  constructor
  · intro accepted
    obtain form | form | form := form_of_foreign foreign <;>
      simp [complete, takeAll, form] at accepted
  · intro completes
    have mem : argument ∈ flags (argument :: rest) := by
      simp [flags_cons_of_flag foreign.isFlag foreign.ne_end]
    obtain ⟨name, known, same⟩ := completes.known argument mem
    exact absurd same (foreign.ne_text name known)

theorem complete_cons_of_file (file : ¬ IsFlag argument)
    (ih : ∀ {r : Reading}, complete c r rest = .ok m ↔ Completes c r rest m) :
    complete c r (argument :: rest) = .ok m ↔ Completes c r (argument :: rest) m := by
  have flagged := flags_cons_of_not_flag file rest
  have filed := files_cons_of_not_flag file rest
  simp only [complete, takeAll, form_of_not_flag file, takeFile]
  cases h : r.file? with
  | none =>
    refine ih.trans ⟨fun completes => ?_, fun completes => ?_⟩
    · exact ⟨flagged ▸ completes.known, flagged ▸ completes.once, flagged ▸ completes.fresh,
        by simpa [h, filed] using completes.file, completes.named, flagged ▸ completes.given⟩
    · exact ⟨flagged ▸ completes.known, flagged ▸ completes.once, flagged ▸ completes.fresh,
        by simpa [h, filed] using completes.file, completes.named, flagged ▸ completes.given⟩
  | some other =>
    simp only [reduceCtorEq, false_iff]
    intro completes
    simpa [h, filed] using congrArg List.length completes.file

theorem completes_cons_of_flag (known : name ∈ c.flagNames) :
    Completes c r (("--" ++ name) :: rest) m ↔
      name ∉ r.given ∧ Completes c ⟨r.file?, name :: r.given⟩ rest m := by
  obtain ⟨isFlag, ne_end⟩ := isFlag_text (c.proper name known).1
  have flagged := flags_cons_of_flag isFlag ne_end rest
  have filed := files_cons_of_flag isFlag ne_end rest
  constructor
  · rintro ⟨all_known, once, fresh, file, named, given⟩
    rw [flagged] at all_known once
    simp only [flagged, List.mem_cons, String.append_right_inj, not_or] at fresh given
    obtain ⟨unread, once⟩ := List.nodup_cons.1 once
    exact ⟨fun mem => (fresh name mem).1 rfl, (List.forall_mem_cons.1 all_known).2, once,
      List.forall_mem_cons.2 ⟨unread, fun other mem => (fresh other mem).2⟩, filed ▸ file, named,
      fun other => by rw [given, List.mem_cons, or_assoc, or_left_comm]⟩
  · rintro ⟨unread, all_known, once, fresh, file, named, given⟩
    have fresh := List.forall_mem_cons.1 fresh
    refine ⟨?_, ?_, fun other mem => ?_, filed ▸ file, named, fun other => ?_⟩
    · rw [flagged]
      exact List.forall_mem_cons.2 ⟨⟨name, known, rfl⟩, all_known⟩
    · rw [flagged]
      exact List.nodup_cons.2 ⟨fresh.1, once⟩
    · simp only [flagged, List.mem_cons, String.append_right_inj, not_or]
      exact ⟨fun same => unread (same ▸ mem), fresh.2 other mem⟩
    · simp only [flagged, List.mem_cons, String.append_right_inj, given, or_assoc, or_left_comm]

theorem complete_cons_of_flag (known : name ∈ c.flagNames)
    (ih : ∀ {r : Reading}, complete c r rest = .ok m ↔ Completes c r rest m) :
    complete c r (("--" ++ name) :: rest) = .ok m ↔ Completes c r (("--" ++ name) :: rest) m := by
  rw [completes_cons_of_flag known]
  by_cases empty : r.file? = some ""
  · -- The empty name is refused here, and would be at the end.
    have refused : ¬ Completes c ⟨some "", name :: r.given⟩ rest m := fun completes =>
      completes.named (List.cons.inj completes.file).1.symm
    simp [complete, takeAll, form_text known, empty, refused]
  · by_cases given : name ∈ r.given
    · simp [complete, takeAll, form_text known, takeFlag, empty, given]
    · rw [← ih]
      simp [complete, takeAll, form_text known, takeFlag, empty, given]

/-- What is read from left to right does not depend on the order. -/
theorem complete_eq_ok_iff {arguments : List String} :
    complete c r arguments = .ok m ↔ Completes c r arguments m := by
  induction arguments generalizing r with
  | nil => exact complete_of_files rfl rfl
  | cons argument rest ih =>
    by_cases flag : IsFlag argument
    · by_cases last : argument = "--"
      · subst last
        exact complete_of_files rfl rfl
      · by_cases text : ∃ name ∈ c.flagNames, argument = "--" ++ name
        · obtain ⟨name, known, rfl⟩ := text
          exact complete_cons_of_flag known ih
        · exact complete_cons_of_foreign
            ⟨flag, last, fun name known same => text ⟨name, known, same⟩⟩
    · exact complete_cons_of_file flag ih

end Reading

theorem parse_eq_ok_iff {arguments : List String} :
    parse c arguments = .ok m ↔ c.Says arguments m :=
  Reading.complete_eq_ok_iff.trans Reading.completes_start_iff

example : Arguments.parse ["--dump-tokens", "--", "--dump-tokens"] =
    .ok ⟨"--dump-tokens", true, false⟩ := rfl

end CommandLine

end Lexis
