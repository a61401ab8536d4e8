import Lexis.Command.Report
set_option autoImplicit false

/-! The command line: reads the arguments and the file, and prints the report. -/
namespace Lexis.Main

def usage : String :=
  "Usage: lexis [--dump-tokens] [--allow-illegal] <FILE>\n\n" ++
    "  --dump-tokens    prints every token of the file with its location\n" ++
    "  --allow-illegal  succeeds even if the file contains illegal characters\n" ++
    "  -h, --help       prints this text\n"

def complaint : ArgumentError → String
  | .missingFile => "a file is required"
  | .emptyFile => "the name of the file is empty"
  | .unknownArgument => "unexpected argument"
  | .repeatedFlag => "a flag can be given only once"
  | .unexpectedValue => "a flag takes no value"
  | .helpRequested => "help was asked for"

/-- Opening a directory fails only when its bytes are asked for. -/
def loadError : IO.Error → LoadError
  | .noFileOrDirectory .. => .notFound
  | .inappropriateType _ 21 _ => .notMappable
  | .inappropriateType .. => .notADirectory
  | e => .other (toString e)

def load (path : String) : IO (Except LoadError (Array UInt8)) := do
  match ← (IO.FS.readBinFile path).toBaseIO with
  | .ok content => return .ok content.data
  | .error e => return .error (loadError e)

end Lexis.Main

def main (arguments : List String) : IO UInt32 := do
  match Lexis.Arguments.parse arguments with
  | .error .helpRequested =>
    IO.print Lexis.Main.usage
    return 0
  | .error e =>
    IO.eprintln (Lexis.Main.complaint e)
    IO.eprint Lexis.Main.usage
    return e.exitCode.toUInt32
  | .ok a =>
    let loaded ← Lexis.Main.load a.file
    let report := Lexis.Report.run (fun _ => loaded) a
    IO.print report.outputText
    IO.eprint report.errorText
    return report.exitCode.toUInt32
