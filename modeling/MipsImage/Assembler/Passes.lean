/-
The three passes.

The first reads every file, defines labels, runs directives and records
statements at the segment cursors.  The second replaces operands by values.  The
third encodes the statements and puts them into memory.  After each pass a gate
turns logged errors into one failure.
-/
import MipsImage.Assembler.Directives

namespace MipsImage

inductive Pass where
  | parse
  | resolve
  | place
  deriving DecidableEq, Repr

namespace Pass

def render : Pass → String
  | parse => "parsing"
  | resolve => "operand resolution"
  | place => "placement"

end Pass

/-- A failed run: the pass it failed in, and all that was logged until then. -/
structure AssemblyError where
  pass : Pass
  messages : Array Diagnostic
  deriving DecidableEq, Repr

namespace AssemblyError

def message (e : AssemblyError) : String :=
  "assembly failed during " ++ e.pass.render

def count (e : AssemblyError) (level : Level) : Nat :=
  e.messages.toList.countP (·.level == level)

end AssemblyError

namespace Assembler

/-! ## First pass -/

def process (a : Assembler) : Item → Assembler
  | .label token => a.defineLabel token
  | .directive d token content => a.runDirective d token content
  | .statement s => a.addStatement s

/-- Go through the items of a file and the reports between them.  Says whether
the run was cut short, which is looked at after each item. -/
def processAll : List Item.Outcome → Assembler → Bool × Assembler
  | [], a => (false, a)
  | .problem d :: rest, a => processAll rest { a with log := a.log.add d }
  | .item i :: rest, a =>
    let a := a.process i
    if a.log.exceeded then (true, a) else processAll rest a

/-- Begin a file: its table is empty, even if a file of that name was read
before, and text is active. -/
def openFile (a : Assembler) (name : String) : Assembler :=
  { a with
    currentFile := name
    locals := a.locals.insert name (.empty name)
    pendingGlobals := []
    segments := a.segments.switchTo .text
    fixups := a.fixups.startFile }

/-- Read one file.  A run that is cut short leaves its globals and fix-ups
undone. -/
def readFile (a : Assembler) (f : SourceFile) : Bool × Assembler :=
  match processAll (Item.ofFile f) (a.openFile f.name) with
  | (true, a) => (true, a)
  | (false, a) => (false, a.promoteGlobals.finishFile)

def readFiles : List SourceFile → Assembler → Assembler
  | [], a => a
  | f :: rest, a =>
    match a.readFile f with
    | (true, a) => a
    | (false, a) => readFiles rest a

def parsePass (a : Assembler) (files : List SourceFile) : Assembler :=
  (readFiles files a).finishAll

/-! ## Second pass -/

/-- The value of an operand.  A label that is not defined is reported and counts
as zero. -/
def resolveOperand (scope : SymbolScope) (log : Log) : Operand → Word × Log
  | .register _ number | .parenRegister _ number => (UInt32.ofNat number.val, log)
  | .integer _ value => (value, log)
  | .label token offset =>
    match scope.lookup? token.literal with
    | some symbol => (symbol.address + offset, log)
    | none => (0, log.error (some token.location) (Issue.symbolNotFound token.literal).message)

def resolveOperands (scope : SymbolScope) (log : Log) : List Operand → List Word × Log
  | [] => ([], log)
  | op :: rest =>
    let (value, log) := resolveOperand scope log op
    let (values, log) := resolveOperands scope log rest
    (value :: values, log)

/-- Resolve a statement in the scope of the file it came from. -/
def resolveStatement (a : Assembler) (s : ParsedStatement) : ResolvedStatement × Log :=
  let (operands, log) := resolveOperands (a.scopeOf s.location.file) a.log s.operands
  ({ source := s, operands, parts := s.instruction.expand operands }, log)

def resolveAll : List (Address × ParsedStatement) → Assembler → Assembler
  | [], a => a
  | (address, s) :: rest, a =>
    let (statement, log) := a.resolveStatement s
    let a := { a with log, resolved := a.resolved.insert address statement }
    if a.log.exceeded then a else resolveAll rest a

def resolvePass (a : Assembler) : Assembler :=
  resolveAll a.parsed.toList a

/-! ## Third pass -/

/-- Put an encoded statement into memory.  An address that holds one keeps it. -/
def placeStatement (a : Assembler) (address : Address) (s : EncodedStatement) : Assembler :=
  match a.assembled[address]? with
  | some existing =>
    let occupant :=
      match existing.location with
      | some l => statementAt l
      | none => "'" ++ existing.render ++ "'"
    a.report s.location (.occupied address occupant)
  | none =>
    match a.memory.storeStatement address s true with
    | (.ok (), memory) => { a with memory, assembled := a.assembled.insert address s }
    | (.error e, memory) => { a with memory }.report s.location (.access e)

/-- Encode the parts of a statement and put them at consecutive words.  A part
without an encoding is reported and its word left out. -/
def placeParts (source : ParsedStatement) :
    Address → List (BasicInstruction × List Word) → Assembler → Assembler
  | _, [], a => a
  | address, (instruction, operands) :: rest, a =>
    placeParts source (address + 4) rest <|
      match instruction.encode operands address with
      | .ok binary =>
        a.placeStatement address { instruction, operands, binary, source := some source }
      | .error e => a.report (some source.location) (.encode e)

def placeAll : List (Address × ResolvedStatement) → Assembler → Assembler
  | [], a => a
  | (address, s) :: rest, a =>
    let a := placeParts s.source address s.parts a
    if a.log.exceeded then a else placeAll rest a

def placePass (a : Assembler) : Assembler :=
  placeAll a.resolved.toList a

/-! ## A whole run -/

def failure (a : Assembler) (pass : Pass) : Option AssemblyError :=
  some { pass, messages := a.log.messages }

/-- The failure of a pass that has left errors in the log. -/
def gate (a : Assembler) (pass : Pass) : Option AssemblyError :=
  if a.log.hasErrors then a.failure pass else none

/-- The first pass, and what it reports once all files are read. -/
def parseFiles (a : Assembler) (files : List SourceFile) : Assembler :=
  let a := a.parsePass files
  if a.parsed.isEmpty && !a.log.hasErrors then a.report none .noStatements else a

/-- Assemble files in order.  What is in the log already counts against the
first pass. -/
def assemble (a : Assembler) (files : List SourceFile) : Option AssemblyError × Assembler :=
  if files.isEmpty then
    let a := a.report none .noFiles
    (a.gate .parse, a)
  else
    let a := a.parseFiles files
    match a.gate .parse with
    | some e => (some e, a)
    | none =>
      let a := a.resolvePass
      match a.gate .resolve with
      | some e => (some e, a)
      | none =>
        let a := a.placePass
        match a.gate .place with
        | some e => (some e, a)
        | none =>
          if a.settings.warningsAreErrors && a.log.hasWarnings then (a.failure .place, a)
          else (none, a)

/-- Cut texts into lines and tokens, logging malformed lines. -/
def readSources (a : Assembler) : List (String × String) → List SourceFile × Assembler
  | [] => ([], a)
  | (name, text) :: rest =>
    let (file, problems) := SourceFile.ofText name text
    let (files, a) := readSources { a with log := a.log.addAll problems } rest
    (file :: files, a)

/-- Start over and assemble named texts in order. -/
def assembleSources (a : Assembler) (sources : List (String × String)) :
    Option AssemblyError × Assembler :=
  let (files, a) := a.reset.readSources sources
  a.assemble files

end Assembler
end MipsImage
