/-
The state of an assembler: its memory, its log, the symbol tables, the segment
cursors, and the statements in each of their three forms by address.
-/
import MipsImage.Assembler.Issue
import MipsImage.Fixup
import MipsImage.Source.Item

namespace MipsImage

structure AssemblerSettings where
  /-- How many errors are logged before a run is cut short; nothing means all. -/
  errorLimit : Option Nat
  /-- Whether a run that drew any warning fails in the end. -/
  warningsAreErrors : Bool
  deriving DecidableEq, Repr

structure Assembler where
  settings : AssemblerSettings
  memory : Memory
  log : Log
  parsed : Std.TreeMap Address ParsedStatement
  resolved : Std.TreeMap Address ResolvedStatement
  assembled : Std.TreeMap Address EncodedStatement
  globals : SymbolTable
  /-- The table of each file by the file's name. -/
  locals : Std.TreeMap String SymbolTable
  currentFile : String
  /-- Labels of the current file to be moved to the global table when it ends. -/
  pendingGlobals : List Token
  fixups : FixupQueue
  segments : Segments

namespace Assembler

def globalTableName : String := "(global)"

def start (settings : AssemblerSettings) (memory : Memory) : Assembler where
  settings := settings
  memory := memory
  log := .empty settings.errorLimit
  parsed := ∅
  resolved := ∅
  assembled := ∅
  globals := .empty globalTableName
  locals := ∅
  currentFile := ""
  pendingGlobals := []
  fixups := .empty
  segments := .ofLayout memory.layout

/-- Discard everything from earlier runs, the contents of memory included. -/
def reset (a : Assembler) : Assembler :=
  start a.settings a.memory.reset

def report (a : Assembler) (location : Option Location) (issue : Issue) : Assembler :=
  { a with log := a.log.add { level := issue.level, location, text := issue.message } }

/-- Report at a token. -/
def reportAt (a : Assembler) (token : Token) (issue : Issue) : Assembler :=
  a.report (some token.location) issue

/-- The table of the file being read. -/
def currentTable? (a : Assembler) : Option SymbolTable :=
  a.locals[a.currentFile]?

def setCurrentTable (a : Assembler) (t : SymbolTable) : Assembler :=
  { a with locals := a.locals.insert a.currentFile t }

/-- What a file's statements can refer to. -/
def scopeOf (a : Assembler) (file : String) : SymbolScope :=
  { localTable := a.locals[file]?, globalTable := a.globals }

def lookup? (a : Assembler) (file identifier : String) : Option Symbol :=
  (a.scopeOf file).lookup? identifier

/-! ## Labels and statements -/

/-- Define a label at the active cursor. -/
def defineLabel (a : Assembler) (token : Token) : Assembler :=
  match a.currentTable? with
  | none => a
  | some t =>
    let symbol : Symbol :=
      { identifier := token.literal, address := a.segments.cursor,
        isData := a.segments.active.isData }
    match t.define symbol with
    | .ok t => a.setCurrentTable t
    | .error d => a.reportAt token (.duplicate d)

/-- How a statement that holds an address is referred to. -/
def statementAt (l : Location) : String :=
  "the statement at " ++ l.render

/-- Record a statement at the active cursor.  The cursor moves past it even if it
cannot stay there. -/
def addStatement (a : Assembler) (s : ParsedStatement) : Assembler :=
  let address := a.segments.cursor
  let recorded :=
    if a.segments.active.isData then
      a.reportAt s.mnemonic (.codeInData s.mnemonic.literal a.segments.active)
    else
      match a.parsed[address]? with
      | some existing =>
        a.reportAt s.mnemonic (.occupied address (statementAt existing.location))
      | none => { a with parsed := a.parsed.insert address s }
  { recorded with segments := recorded.segments.advance (UInt32.ofNat s.size) }

/-- Align the active cursor and take the labels in the skipped padding along. -/
def alignCursor (a : Assembler) (alignment : Word) : Assembler :=
  let segments := a.segments.alignTo alignment
  match a.currentTable? with
  | none => { a with segments }
  | some t => { a.setCurrentTable (t.realign a.segments.cursor segments.cursor) with segments }

/-- Move the cursor of the active segment past `bytes`. -/
def skip (a : Assembler) (bytes : Word) : Assembler :=
  { a with segments := a.segments.advance bytes }

/-! ## Data

Each of these says whether the data could be stored.  If not, the fault has been
reported and the directive is given up. -/

/-- Store `length` bytes at the active cursor and move past them. -/
def writeData (location : Location) (value : Word) (length : Nat) (a : Assembler) :
    Bool × Assembler :=
  match a.memory.store a.segments.cursor value length true with
  | (.ok _, memory) => (true, { a with memory }.skip (UInt32.ofNat length))
  | (.error e, memory) => (false, { a with memory }.report (some location) (.access e))

/-- Store a doubleword at the active cursor and move past it. -/
def writeDoubleword (location : Location) (value : UInt64) (a : Assembler) : Bool × Assembler :=
  match a.memory.storeDoubleword a.segments.cursor value true with
  | (.ok _, memory) => (true, { a with memory }.skip 8)
  | (.error e, memory) => (false, { a with memory }.report (some location) (.access e))

/-- Store a placeholder for a label that is not defined yet, to be filled in
later. -/
def writeForward (token : Token) (length : Nat) (a : Assembler) : Bool × Assembler :=
  let address := a.segments.cursor
  match a.writeData token.location Fixup.placeholder length with
  | (false, a) => (false, a)
  | (true, a) => (true, { a with fixups := a.fixups.push { address, length, token } })

/-- Write `count` times, or until a write fails. -/
def writeRepeatedly (write : Assembler → Bool × Assembler) : Nat → Assembler → Bool × Assembler
  | 0, a => (true, a)
  | count + 1, a =>
    match write a with
    | (true, a) => writeRepeatedly write count a
    | (false, a) => (false, a)

/-- Write bytes one after the other, or until a write fails. -/
def writeBytes (location : Location) : List UInt8 → Assembler → Bool × Assembler
  | [], a => (true, a)
  | b :: rest, a =>
    match a.writeData location (UInt32.ofNat b.toNat) 1 with
    | (true, a) => writeBytes location rest a
    | (false, a) => (false, a)

/-! ## Global symbols -/

/-- Reserve `size` bytes of external data under a global name.  A name that is
taken is left alone. -/
def defineExternal (a : Assembler) (token : Token) (size : Word) : Assembler :=
  if a.globals.contains token.literal then a
  else
    let address := a.segments.external.cursor
    let reserved := { a with segments := a.segments.modify .external (·.advance size) }
    match a.globals.define { identifier := token.literal, address, isData := true } with
    | .ok globals => { reserved with globals }
    | .error d => reserved.reportAt token (.duplicate d)

/-- Note that a label of this file is global. -/
def declareGlobal (a : Assembler) (token : Token) : Assembler :=
  if a.pendingGlobals.any (·.literal == token.literal) then
    a.reportAt token (.globalRepeated token.literal)
  else { a with pendingGlobals := a.pendingGlobals ++ [token] }

/-- Move one label from the table of the current file to the global one. -/
def promote (a : Assembler) (token : Token) : Assembler :=
  match a.currentTable? with
  | none => a
  | some t =>
    if a.globals.contains token.literal then a.reportAt token (.alreadyGlobal token.literal)
    else
      match t.remove? token.literal with
      | none => a.reportAt token (.globalNotDefined token.literal)
      | some (symbol, t) =>
        let removed := a.setCurrentTable t
        match a.globals.define symbol with
        | .ok globals => { removed with globals }
        | .error d => removed.reportAt token (.duplicate d)

/-- Make the labels global that the current file declared so. -/
def promoteGlobals (a : Assembler) : Assembler :=
  a.pendingGlobals.foldl promote { a with pendingGlobals := [] }

/-! ## Fix-ups -/

def withFixups (a : Assembler) (f : FixupState → FixupState) : Assembler :=
  let s := f { queue := a.fixups, memory := a.memory, log := a.log }
  { a with fixups := s.queue, memory := s.memory, log := s.log }

/-- Fill in what the current file left open and now knows. -/
def finishFile (a : Assembler) : Assembler :=
  a.withFixups (FixupQueue.finishFile (a.scopeOf a.currentFile))

/-- Fill in what is open after the last file. -/
def finishAll (a : Assembler) : Assembler :=
  a.withFixups (FixupQueue.finishAll a.globals)

end Assembler
end MipsImage
