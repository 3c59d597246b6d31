/-
The command-line program: reads the named files, assembles them, and prints
diagnostics and listings.
-/
import MipsImage.CommandLine.Run

namespace MipsImage
namespace CommandLine

def usageLines : List String :=
  ["Usage: mips-image [OPTIONS] <FILE>...",
   "",
   "Assemble MIPS source files into an emulated memory",
   "",
   "Arguments:",
   "  <FILE>...              Source files, assembled in order",
   "",
   "Options:",
   "  --max-errors <N>       Errors before assembly halts, 0 for unlimited [default: 200]",
   "  --warnings-are-errors  Treat warnings as errors",
   "  --self-modifying-code  Allow writes to the text segment and code outside it",
   "  --big-endian           Use big-endian byte order",
   "  --layout <LAYOUT>      default, compact-data or compact-text [default: default]",
   "  --dump-symbols         Print the symbol tables",
   "  --dump-text            Print the assembled text segments",
   "  --dump-data            Print the written part of the static data segment",
   "  -v, --verbose          More output",
   "  -h, --help             Print help",
   "  -V, --version          Print version"]

def usage : String :=
  String.join (usageLines.map (· ++ "\n"))

def OptionsError.message : OptionsError → String
  | .unknownArgument => "unexpected argument"
  | .invalidValue => "missing or invalid value"
  | .malformedValue => "malformed value"
  | .repeated => "an option cannot be used multiple times"
  | .unexpectedValue => "unexpected value for a flag"
  | .missingFile => "no source file given"
  | .helpRequested => "help requested"
  | .versionRequested => "version requested"

def readFile (name : String) : IO (Except ReadError String) := do
  try
    return decodeFile (← IO.FS.readBinFile name)
  catch
    | .noFileOrDirectory .. => return .error .notFound
    | e => return .error (.other (toString e))

end CommandLine
end MipsImage

open MipsImage CommandLine in
def main (arguments : List String) : IO UInt32 := do
  match Options.parse arguments with
  | .error .helpRequested =>
    IO.print usage
    return 0
  | .error .versionRequested =>
    IO.println "mips-image 0.1.0"
    return 0
  | .error e =>
    IO.eprint ("error: " ++ e.message ++ "\n\n" ++ usage)
    return 2
  | .ok options =>
    let contents ← options.files.mapM fun name => return (name, ← readFile name)
    let outcome := run options fun name => (contents.lookup name).getD (.error .notFound)
    IO.eprint outcome.stderr
    IO.print outcome.stdout
    return outcome.exit
