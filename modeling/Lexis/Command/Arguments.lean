set_option autoImplicit false

/-!
The command line: one file and two flags. What a command line may hold is declared, and reading it
is left to a parser of declared command lines. The parser given here reads the arguments from left
to right and answers the first fault; after `--` every argument is a file.
-/
namespace Lexis

/-- A command line with one required file, and with the flags of these names. A flag has two hyphens
in front of its name and takes no value. -/
structure CommandLine where
  flagNames : List String
  distinct : flagNames.Nodup
  proper : ∀ name ∈ flagNames,
    name ≠ "" ∧ name ≠ "help" ∧ name.toList.head? ≠ some '-' ∧ '=' ∉ name.toList

/-- The file of a command line, and for each name whether its flag is given. -/
structure Matches where
  file : String
  given : String → Bool

abbrev CommandLine.Parser (ε : Type) := CommandLine → List String → Except ε Matches

structure Arguments where
  file : String
  dumpTokens : Bool
  allowIllegal : Bool
  deriving DecidableEq, Repr

namespace Arguments

def commandLine : CommandLine := ⟨["dump-tokens", "allow-illegal"], by decide, by decide⟩

def ofMatches (m : Matches) : Arguments := ⟨m.file, m.given "dump-tokens", m.given "allow-illegal"⟩

def read {ε : Type} (parser : CommandLine.Parser ε) (arguments : List String) :
    Except ε Arguments :=
  (parser commandLine arguments).map ofMatches

end Arguments

/-- Why a command line is not run. A request for help is among these, and is no failure. -/
inductive ArgumentError where
  | missingFile
  | emptyFile
  | unknownArgument
  | repeatedFlag
  | unexpectedValue
  | helpRequested
  deriving DecidableEq, Repr

def ArgumentError.exitCode : ArgumentError → Nat
  | .helpRequested => 0
  | _ => 2

namespace CommandLine

inductive Form where
  | endOfFlags
  | flag (name : String)
  | flagWithValue
  | help
  | unknown
  | file
  deriving DecidableEq, Repr

/-- A lone hyphen is a file, and `-h` asks for help whatever follows in the same argument. -/
def form (c : CommandLine) (argument : String) : Form :=
  match argument.toList with
  | ['-', '-'] => .endOfFlags
  | '-' :: '-' :: long =>
    let name := String.ofList (long.takeWhile (· != '='))
    if name ∉ "help" :: c.flagNames then .unknown
    else if '=' ∈ long then .flagWithValue
    else if name = "help" then .help
    else .flag name
  | '-' :: 'h' :: _ => .help
  | '-' :: _ :: _ => .unknown
  | _ => .file

structure Reading where
  file? : Option String
  given : List String
  deriving DecidableEq, Repr

namespace Reading

def start : Reading := ⟨none, []⟩

def takeFile (r : Reading) (name : String) : Except ArgumentError Reading :=
  match r.file? with
  | none => .ok { r with file? := some name }
  | some _ => .error .unknownArgument

def takeFlag (r : Reading) (name : String) : Except ArgumentError Reading :=
  if name ∈ r.given then .error .repeatedFlag else .ok { r with given := name :: r.given }

def takeFiles (r : Reading) : List String → Except ArgumentError Reading
  | [] => .ok r
  | name :: rest =>
    match r.takeFile name with
    | .error e => .error e
    | .ok r => r.takeFiles rest

/-- A file name is looked at when the next flag comes, or at the end: an empty one is refused. -/
def takeAll (c : CommandLine) (r : Reading) : List String → Except ArgumentError Reading
  | [] => .ok r
  | argument :: rest =>
    match c.form argument with
    | .endOfFlags => r.takeFiles rest
    | .unknown => .error .unknownArgument
    | .flagWithValue => .error .unexpectedValue
    | .help => .error (if r.file? = some "" then .emptyFile else .helpRequested)
    | .flag name =>
      if r.file? = some "" then .error .emptyFile
      else
        match r.takeFlag name with
        | .error e => .error e
        | .ok r => r.takeAll c rest
    | .file =>
      match r.takeFile argument with
      | .error e => .error e
      | .ok r => r.takeAll c rest

def finish (r : Reading) : Except ArgumentError Matches :=
  match r.file? with
  | none => .error .missingFile
  | some name => if name = "" then .error .emptyFile else .ok ⟨name, fun flag => flag ∈ r.given⟩

end Reading

def parse : Parser ArgumentError := fun c arguments =>
  match Reading.start.takeAll c arguments with
  | .error e => .error e
  | .ok r => r.finish

end CommandLine

def Arguments.parse (arguments : List String) : Except ArgumentError Arguments :=
  read CommandLine.parse arguments

end Lexis
