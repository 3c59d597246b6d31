/-
Command-line options.

Arguments are read from left to right.  An option's value that stands in an
argument of its own is only looked at when the next option or file is reached,
or at the end; until then it is pending, and so are the files of one run of
files.  A value attached by an equals sign is looked at right away.
-/
import MipsImage.Layout

namespace MipsImage
namespace CommandLine

structure Options where
  /-- Source files in the order to assemble them. -/
  files : List String
  /-- Errors before a run is cut short; zero stands for no limit. -/
  maxErrors : Nat
  warningsAreErrors : Bool
  selfModifyingCode : Bool
  bigEndian : Bool
  layout : LayoutPreset
  dumpSymbols : Bool
  dumpText : Bool
  dumpData : Bool
  verbosity : Nat
  deriving DecidableEq, Repr

/-- Why arguments give no options. -/
inductive OptionsError where
  | unknownArgument
  /-- A value is missing, or is none of those allowed. -/
  | invalidValue
  /-- A value does not have the right form. -/
  | malformedValue
  /-- An option is given twice. -/
  | repeated
  /-- A flag is given a value. -/
  | unexpectedValue
  | missingFile
  | helpRequested
  | versionRequested
  deriving DecidableEq, Repr

/-- Options that take no value. -/
inductive Flag where
  | warningsAreErrors
  | selfModifyingCode
  | bigEndian
  | dumpSymbols
  | dumpText
  | dumpData
  | verbose
  | help
  | version
  deriving DecidableEq, Repr

/-- Options that take a value. -/
inductive Setting where
  | maxErrors
  | layout
  deriving DecidableEq, Repr

inductive LongName where
  | flag (f : Flag)
  | setting (s : Setting)
  deriving DecidableEq, Repr

def longNames : List (String × LongName) :=
  [("max-errors", .setting .maxErrors), ("layout", .setting .layout),
   ("warnings-are-errors", .flag .warningsAreErrors),
   ("self-modifying-code", .flag .selfModifyingCode), ("big-endian", .flag .bigEndian),
   ("dump-symbols", .flag .dumpSymbols), ("dump-text", .flag .dumpText),
   ("dump-data", .flag .dumpData), ("verbose", .flag .verbose), ("help", .flag .help),
   ("version", .flag .version)]

def shortFlag? : Char → Option Flag
  | 'v' => some .verbose
  | 'h' => some .help
  | 'V' => some .version
  | _ => none

/-- What has been read and not been looked at yet. -/
inductive Pending where
  | nothing
  | setting (s : Setting) (value : Option String)
  | files (names : List String)
  deriving DecidableEq, Repr

/-- How far the arguments have been read. -/
structure Reader where
  files : List String
  maxErrors : Option Nat
  layout : Option LayoutPreset
  flags : List Flag
  verbosity : Nat
  pending : Pending
  /-- Whether a bare `--` has been read, after which everything is a file. -/
  onlyFiles : Bool
  deriving DecidableEq, Repr

namespace Reader

def start : Reader where
  files := []
  maxErrors := none
  layout := none
  flags := []
  verbosity := 0
  pending := .nothing
  onlyFiles := false

/-- Enter the value of an option.  That it is given twice is found before its
second value is looked at. -/
def setValue (r : Reader) (s : Setting) (value : String) : Except OptionsError Reader :=
  match s with
  | .maxErrors =>
    if r.maxErrors.isSome then .error .repeated
    else
      match Text.unsigned? 0x10000000000000000 value with
      | some n => .ok { r with maxErrors := some n }
      | none => .error .malformedValue
  | .layout =>
    if r.layout.isSome then .error .repeated
    else
      match LayoutPreset.ofName? value with
      | some preset => .ok { r with layout := some preset }
      | none => .error .invalidValue

/-- Look at what is pending.  A file name must not be empty. -/
def settle (r : Reader) : Except OptionsError Reader :=
  let settled := { r with pending := .nothing }
  match r.pending with
  | .nothing => .ok r
  | .setting _ none => .error .invalidValue
  | .setting s (some value) => settled.setValue s value
  | .files names =>
    if names.contains "" then .error .invalidValue
    else .ok { settled with files := r.files ++ names }

def setFlag (r : Reader) (f : Flag) : Except OptionsError Reader :=
  match r.settle with
  | .error e => .error e
  | .ok r =>
    match f with
    | .help => .error .helpRequested
    | .version => .error .versionRequested
    | .verbose => .ok { r with verbosity := r.verbosity + 1 }
    | f => if r.flags.contains f then .error .repeated else .ok { r with flags := f :: r.flags }

/-- A long option, with the value attached to it if there is one. -/
def readLong (r : Reader) (name : String) (attached : Option String) :
    Except OptionsError Reader :=
  match longNames.lookup name, attached with
  | none, _ => .error .unknownArgument
  | some (.flag f), none => r.setFlag f
  | some (.flag _), some _ => .error .unexpectedValue
  | some (.setting s), value =>
    match r.settle with
    | .error e => .error e
    | .ok r =>
      match value with
      | some value => r.setValue s value
      | none => .ok { r with pending := .setting s none }

/-- A cluster of one-letter flags. -/
def readShort (r : Reader) : List Char → Except OptionsError Reader
  | [] => .ok r
  | c :: rest =>
    match shortFlag? c with
    | none => .error .unknownArgument
    | some f =>
      match r.setFlag f with
      | .error e => .error e
      | .ok r => r.readShort rest

/-- A file name. -/
def readFile (r : Reader) (name : String) : Except OptionsError Reader :=
  match r.pending with
  | .files names => .ok { r with pending := .files (names ++ [name]) }
  | _ =>
    match r.settle with
    | .error e => .error e
    | .ok r => .ok { r with pending := .files [name] }

/-- An argument that is no option: the value an option waits for, or a file. -/
def readPlain (r : Reader) (argument : String) : Except OptionsError Reader :=
  match r.pending with
  | .setting s none => .ok { r with pending := .setting s (some argument) }
  | _ => r.readFile argument

/-- Split a long option at its first equals sign. -/
def splitAttached (cs : List Char) : String × Option String :=
  match cs.dropWhile (· != '=') with
  | [] => (String.ofList cs, none)
  | _ :: value => (String.ofList (cs.takeWhile (· != '=')), some (String.ofList value))

def read (r : Reader) (argument : String) : Except OptionsError Reader :=
  if r.onlyFiles then r.readFile argument
  else
    match argument.toList with
    | ['-', '-'] => .ok { r with onlyFiles := true }
    | '-' :: '-' :: rest =>
      let (name, attached) := splitAttached rest
      r.readLong name attached
    | '-' :: c :: rest => r.readShort (c :: rest)
    | _ => r.readPlain argument

def readAll (r : Reader) : List String → Except OptionsError Reader
  | [] => r.settle
  | argument :: rest =>
    match r.read argument with
    | .error e => .error e
    | .ok r => r.readAll rest

/-- Errors logged in one run unless an option says otherwise. -/
def defaultMaxErrors : Nat := 200

def toOptions (r : Reader) : Options where
  files := r.files
  maxErrors := r.maxErrors.getD defaultMaxErrors
  warningsAreErrors := r.flags.contains .warningsAreErrors
  selfModifyingCode := r.flags.contains .selfModifyingCode
  bigEndian := r.flags.contains .bigEndian
  layout := r.layout.getD .standard
  dumpSymbols := r.flags.contains .dumpSymbols
  dumpText := r.flags.contains .dumpText
  dumpData := r.flags.contains .dumpData
  verbosity := r.verbosity

end Reader

namespace Options

/-- The options that arguments give.  At least one file has to be named. -/
def parse (arguments : List String) : Except OptionsError Options :=
  match Reader.start.readAll arguments with
  | .error e => .error e
  | .ok r => if r.files.isEmpty then .error .missingFile else .ok r.toOptions

/-- The limit on logged errors. -/
def errorLimit (o : Options) : Option Nat :=
  if o.maxErrors = 0 then none else some o.maxErrors

/-- How much is told about a run, by name. -/
def logFilter (o : Options) : String :=
  match o.verbosity with
  | 0 => "warn"
  | 1 => "info"
  | 2 => "debug"
  | _ => "trace"

end Options
end CommandLine
end MipsImage
