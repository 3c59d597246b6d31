/-
A run of the command line: from options and file contents to what is printed.
-/
import MipsImage.Assembler.Passes
import MipsImage.CommandLine.Files
import MipsImage.CommandLine.Options
import MipsImage.Diagnostic.Context
import MipsImage.Listing

namespace MipsImage
namespace CommandLine

/-- What a run prints, and the code it exits with. -/
structure Outcome where
  exit : UInt32
  stdout : String
  stderr : String
  deriving DecidableEq, Repr

/-- Read files in order, up to the first that cannot be read. -/
def readSources (read : String → Except ReadError String) :
    List String → Except (String × ReadError) (List (String × String))
  | [] => .ok []
  | name :: rest =>
    match read name with
    | .error e => .error (name, e)
    | .ok text =>
      match readSources read rest with
      | .error e => .error e
      | .ok sources => .ok ((name, text) :: sources)

def Options.assemblerSettings (o : Options) : AssemblerSettings :=
  { errorLimit := o.errorLimit, warningsAreErrors := o.warningsAreErrors }

def Options.memorySettings (o : Options) : MemorySettings :=
  { layout := o.layout.layout, order := if o.bigEndian then .big else .little,
    selfModifying := o.selfModifyingCode }

/-- A diagnostic as it is printed: an error shows the source around it. -/
def showDiagnostic (files : List SourceFile) (d : Diagnostic) : String :=
  let source := d.location.bind fun l => files.find? (·.name == l.file)
  match d.level, source with
  | .error, some source => d.withContext source ++ "\n"
  | _, _ => d.render ++ "\n"

/-- The last line of a run: nothing unless there is something to say. -/
def summary (failure : Option AssemblyError) (log : Log) : String :=
  match failure with
  | some e =>
    "Error: " ++ e.message ++ " (" ++ Text.decimal (e.count .error) ++ " error(s), "
      ++ Text.decimal (e.count .warning) ++ " warning(s))\n"
  | none =>
    if log.hasWarnings then
      "Assembly completed with " ++ Text.decimal log.warnings ++ " warning(s)\n"
    else ""

/-- The data listing, or the error that it ran into. -/
def dataListing (m : Memory) : String × String :=
  match Listing.data m m.layout.staticData with
  | .ok listing => (listing, "")
  | .error e => ("", "Error: " ++ e.message ++ "\n")

/-- Assemble texts and list what was asked for.  Symbols are listed even if the
run failed. -/
def assembleAndList (o : Options) (sources : List (String × String)) : Outcome :=
  let (files, a) :=
    (Assembler.start o.assemblerSettings (.ofSettings o.memorySettings)).readSources sources
  let (failure, a) := a.assemble files
  let (listing, listingError) :=
    if o.dumpData && failure.isNone then dataListing a.memory else ("", "")
  { exit := if failure.isNone then 0 else 1
    stdout :=
      (if o.dumpSymbols then Listing.symbols a else "")
        ++ (if o.dumpText && failure.isNone then Listing.text a else "") ++ listing
    stderr :=
      String.join (a.log.messages.toList.map (showDiagnostic files)) ++ listingError
        ++ summary failure a.log }

/-- Run with the files that `read` gives. -/
def run (o : Options) (read : String → Except ReadError String) : Outcome :=
  match readSources read o.files with
  | .ok sources => assembleAndList o sources
  | .error (name, e) =>
    { exit := 2, stdout := "", stderr := "Error: cannot read " ++ name ++ ": " ++ e.message ++ "\n" }

end CommandLine
end MipsImage
