/-
Fix-ups: data that refers to a label before the label is defined.

Such a place is filled with a placeholder and left for later.  At the end of a
file its fix-ups are tried against the file's own table and the global one; what
remains waits for the last file and is then tried against the global table
alone.
-/
import MipsImage.Diagnostic.Log
import MipsImage.Memory
import MipsImage.Symbol

namespace MipsImage

/-- A place in memory that waits for the address of a label. -/
structure Fixup where
  address : Address
  length : Nat
  token : Token
  deriving DecidableEq, Repr

structure FixupQueue where
  /-- From the file being read, in source order. -/
  current : Array Fixup
  /-- Left over from earlier files, in source order. -/
  waiting : Array Fixup
  deriving DecidableEq, Repr

/-- What working off fix-ups changes. -/
structure FixupState where
  queue : FixupQueue
  memory : Memory
  log : Log

namespace Fixup

/-- Stands in memory until the label is known. -/
def placeholder : Word := 0xdeadbeef

/-- Why a label never became known. -/
def undefinedMessage (identifier : String) : String :=
  "Undefined symbol '" ++ identifier ++ "'"

/-- Write the address of the label. -/
def apply (f : Fixup) (value : Address) (s : FixupState) : FixupState :=
  match s.memory.store f.address value f.length true with
  | (.ok _, memory) => { s with memory }
  | (.error e, memory) =>
    { s with memory, log := s.log.error (some f.token.location) e.message }

end Fixup

namespace FixupQueue

def empty : FixupQueue := { current := #[], waiting := #[] }

def startFile (q : FixupQueue) : FixupQueue :=
  { q with current := #[] }

def push (q : FixupQueue) (f : Fixup) : FixupQueue :=
  { q with current := q.current.push f }

def isEmpty (q : FixupQueue) : Bool :=
  q.current.isEmpty && q.waiting.isEmpty

/-- Work off one fix-up at the end of its file, or let it wait. -/
def finishOne (scope : SymbolScope) (s : FixupState) (f : Fixup) : FixupState :=
  match scope.lookup? f.token.literal with
  | some symbol => f.apply symbol.address s
  | none => { s with queue := { s.queue with waiting := s.queue.waiting.push f } }

/-- End of a file. -/
def finishFile (scope : SymbolScope) (s : FixupState) : FixupState :=
  s.queue.current.toList.foldl (finishOne scope) { s with queue := s.queue.startFile }

/-- Work off what has waited, in order.  Reporting stops when the log has had
enough, and so does the work. -/
def finishWaiting (globals : SymbolTable) : List Fixup → FixupState → FixupState
  | [], s => s
  | f :: rest, s =>
    match globals.lookup? f.token.literal with
    | some symbol => finishWaiting globals rest (f.apply symbol.address s)
    | none =>
      if s.log.exceeded then s
      else
        finishWaiting globals rest
          { s with
            log := s.log.error (some f.token.location) (Fixup.undefinedMessage f.token.literal) }

/-- After the last file. -/
def finishAll (globals : SymbolTable) (s : FixupState) : FixupState :=
  finishWaiting globals s.queue.waiting.toList
    { s with queue := { s.queue with waiting := #[] } }

end FixupQueue
end MipsImage
