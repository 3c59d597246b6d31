/-
The emulated memory: text, kernel text, data, kernel data and devices, each a
sparse region.

Text regions hold decoded statements and the others plain words.  A word of text
reads as the encoding of its statement, and storing one into text decodes it
again.
-/
import MipsImage.Memory.Fault
import MipsImage.Memory.Lane
import MipsImage.Memory.Listener
import MipsImage.Memory.Region
import MipsImage.Statement

namespace MipsImage

/-- What is fixed when a memory is made.  Byte order and self-modification may be
changed later. -/
structure MemorySettings where
  layout : Layout
  order : ByteOrder
  /-- Whether text may be written and code may lie outside it. -/
  selfModifying : Bool
  deriving DecidableEq, Repr

structure Memory where
  layout : Layout
  text : Region (Option EncodedStatement)
  kernelText : Region (Option EncodedStatement)
  data : Region Word
  kernelData : Region Word
  mmio : Region Word
  order : ByteOrder
  selfModifying : Bool
  /-- First address not yet given out as heap. -/
  heap : Address
  watches : List Watch
  /-- The known listeners.  The place of one in the list is its number. -/
  listeners : Array Listener
  /-- The calls to listeners so far, in order.  A call that is made while another one is
  going on is part of what that one does. -/
  journal : Array Delivery

/-- The regions of plain words. -/
inductive DataArea where
  | user
  | kernel
  | mmio
  deriving DecidableEq, Repr

/-- The regions of statements. -/
inductive TextArea where
  | user
  | kernel
  deriving DecidableEq, Repr

inductive Area where
  | data (which : DataArea)
  | text (which : TextArea)
  deriving DecidableEq, Repr

namespace Memory

def ofSettings (s : MemorySettings) : Memory where
  layout := s.layout
  text := .empty s.layout.text none
  kernelText := .empty s.layout.kernelText none
  data := .empty s.layout.data 0
  kernelData := .empty s.layout.kernelData 0
  mmio := .empty s.layout.mmio 0
  order := s.order
  selfModifying := s.selfModifying
  heap := s.layout.heapBase
  watches := []
  listeners := #[]
  journal := #[]

/-- The same memory without any stored value, in some layout. -/
def cleared (m : Memory) (layout : Layout) : Memory :=
  { ofSettings { layout, order := m.order, selfModifying := m.selfModifying } with
    watches := m.watches, listeners := m.listeners, journal := m.journal }

def dataRegion (m : Memory) : DataArea → Region Word
  | .user => m.data
  | .kernel => m.kernelData
  | .mmio => m.mmio

def setDataRegion (m : Memory) (which : DataArea) (r : Region Word) : Memory :=
  match which with
  | .user => { m with data := r }
  | .kernel => { m with kernelData := r }
  | .mmio => { m with mmio := r }

def textRegion (m : Memory) : TextArea → Region (Option EncodedStatement)
  | .user => m.text
  | .kernel => m.kernelText

def setTextRegion (m : Memory) (which : TextArea) (r : Region (Option EncodedStatement)) :
    Memory :=
  match which with
  | .user => { m with text := r }
  | .kernel => { m with kernelText := r }

/-- The region an address falls into.  Where ranges overlap, data comes first. -/
def areaOf? (m : Memory) (address : Address) : Option Area :=
  if m.data.contains address then some (.data .user)
  else if m.kernelData.contains address then some (.data .kernel)
  else if m.mmio.contains address then some (.data .mmio)
  else if m.text.contains address then some (.text .user)
  else if m.kernelText.contains address then some (.text .kernel)
  else none

/-- The encoding of a place in text; no statement reads as zero. -/
def encoding (s : Option EncodedStatement) : Word :=
  match s with
  | some s => s.binary
  | none => 0

/-- The word at an aligned address of a region. -/
def wordIn (m : Memory) (area : Area) (wordAddress : Address) : Word :=
  match area with
  | .data which => (m.dataRegion which).fetch wordAddress
  | .text which => encoding ((m.textRegion which).fetch wordAddress)

/-! ## Single accesses

Halfwords have to be aligned on two bytes, words and doublewords on four, and
any other length may stand anywhere. -/

def alignment (length : Nat) : Nat :=
  match length with
  | 2 => 2
  | 4 | 8 => 4
  | _ => 1

/-- The fault of an access that is not aligned. -/
def misalignment? (address : Address) (length : Nat) : Option AddressFault :=
  if address.toNat % alignment length = 0 then none else some (.misaligned (alignment length))

/-- Read `length` bytes without telling any listener. -/
def peek (m : Memory) (address : Address) (length : Nat) : Except AddressError Access :=
  match misalignment? address length with
  | some fault => .error (.load address fault)
  | none =>
    let wordAddress := Word.containing address
    match m.areaOf? wordAddress with
    | none => .error (.load address .outOfRange)
    | some area =>
      let word := m.wordIn area wordAddress
      .ok { address, length, value := m.order.extract word address length, wordAddress,
            wordValue := word }

/-- A word as it is kept in text, where it has to be the encoding of some
statement. -/
def recode (wordAddress : Address) (word : Word) :
    Except AddressFault (Option EncodedStatement) :=
  match EncodedStatement.decode? word wordAddress with
  | none => .error (.undecodable word)
  | some s => .ok (some s)

/-- Replace the word at an aligned address of a region by what `f` makes of it, and
answer with the word that was there. -/
def updateWord (m : Memory) (area : Area) (wordAddress : Address) (f : Word → Word) :
    Except AddressFault (Word × Memory) :=
  match area with
  | .data which =>
    let (old, r) := (m.dataRegion which).update wordAddress fun old => .ok (f old)
    old.map fun old => (old, m.setDataRegion which r)
  | .text which =>
    if m.selfModifying then
      let (old, r) := (m.textRegion which).update wordAddress fun old =>
        recode wordAddress (f (encoding old))
      old.map fun old => (encoding old, m.setTextRegion which r)
    else .error .textWriteProtected

/-- The outcome of a store: the memory after it, what was done, and the bytes
that were there before. -/
structure Stored where
  memory : Memory
  access : Access
  replaced : Word

/-- Write the low `length` bytes of a value without telling any listener. -/
def poke (m : Memory) (address : Address) (value : Word) (length : Nat) :
    Except AddressError Stored :=
  match misalignment? address length with
  | some fault => .error (.store address fault)
  | none =>
    let wordAddress := Word.containing address
    match m.areaOf? wordAddress with
    | none => .error (.store address .outOfRange)
    | some area =>
      let spliced (old : Word) : Word := m.order.splice old value address length
      match m.updateWord area wordAddress spliced with
      | .error fault => .error (.store address fault)
      | .ok (old, memory) =>
        .ok { memory, replaced := m.order.extract old address length,
              access := { address, length, value := ByteOrder.truncate value length, wordAddress,
                          wordValue := spliced old } }

/-- The statement at an address, if there is one, without telling any listener.
Outside text the word there is decoded, which takes self-modifying code. -/
def peekStatement (m : Memory) (address : Address) :
    Except AddressError (Option EncodedStatement) :=
  match misalignment? address 4 with
  | some fault => .error (.load address fault)
  | none =>
    match m.areaOf? address with
    | none => .error (.load address .outOfRange)
    | some (.text which) => .ok ((m.textRegion which).fetch address)
    | some (.data which) =>
      if m.selfModifying then
        .ok (EncodedStatement.decode? ((m.dataRegion which).fetch address) address)
      else .error (.load address .codeOutsideText)

/-- Put a statement at an address without telling any listener.  Outside text it is
stored as its encoding, which takes self-modifying code. -/
def pokeStatement (m : Memory) (address : Address) (s : EncodedStatement) :
    Except AddressError Memory :=
  match misalignment? address 4 with
  | some fault => .error (.store address fault)
  | none =>
    match m.areaOf? address with
    | none => .error (.store address .outOfRange)
    | some (.text which) =>
      .ok (m.setTextRegion which ((m.textRegion which).exchange address (some s)).2)
    | some (.data which) =>
      if m.selfModifying then
        .ok (m.setDataRegion which ((m.dataRegion which).exchange address s.binary).2)
      else .error (.store address .codeOutsideText)

/-! ## Heap -/

/-- Give out `bytes` of heap, rounded up to whole words.  The first address past
them must not wrap, and the last of them must be dynamic data. -/
def allocateHeap (m : Memory) (bytes : Word) : Except AddressError Address × Memory :=
  let size := (bytes.toNat + 3) / 4 * 4
  let next := m.heap.toNat + size
  if bytes.toNat + 3 < 0x100000000 ∧ next < 0x100000000 ∧
      UInt32.ofNat next - 1 ≤ m.layout.dynamicData.last then
    (.ok m.heap, { m with heap := UInt32.ofNat next })
  else (.error (.store m.heap .outOfRange), m)

/-! ## Listeners -/

/-- Make a listener known, without any watch yet.  It takes over its name. -/
def addListener (m : Memory) (listener : Listener) : Memory :=
  { m with listeners := m.listeners.push listener }

/-- The listener that a name means: the last to have taken it. -/
def listenerNamed? (m : Memory) (name : ListenerName) : Option ListenerId :=
  ((m.listeners.toList.zipIdx.reverse).find? (·.1.name == name)).map (·.2)

def watch (m : Memory) (listener : ListenerId) (first last : Address) :
    Except InvalidWatch Memory :=
  match Watch.add m.watches listener first last with
  | .error e => .error e
  | .ok watches => .ok { m with watches }

/-- Watch the whole address space. -/
def watchEverywhere (m : Memory) (listener : ListenerId) : Memory :=
  { m with watches := Watch.merge listener 0 (-1) m.watches }

def unwatch (m : Memory) (listener : ListenerId) : Memory :=
  { m with watches := Watch.remove m.watches listener }

/-- Carry out an act.  One that is refused, or whose name means no listener, has no
effect. -/
def act (m : Memory) : Act → Memory
  | .store address value length =>
    match m.poke address value length with
    | .ok stored => stored.memory
    | .error _ => m
  | .storeStatement address s =>
    match m.pokeStatement address s with
    | .ok left => left
    | .error _ => m
  | .setOrder order => { m with order }
  | .setSelfModifying allowed => { m with selfModifying := allowed }
  | .clear layout => m.cleared layout
  | .allocateHeap bytes => (m.allocateHeap bytes).2
  | .watch name first last =>
    match m.listenerNamed? name with
    | some listener =>
      match m.watch listener first last with
      | .ok m => m
      | .error _ => m
    | none => m
  | .unwatch name =>
    match m.listenerNamed? name with
    | some listener => m.unwatch listener
    | none => m

/-- Call one listener. -/
def deliver (m : Memory) (notice : Notice) (listener : ListenerId) : Memory :=
  let noted := { m with journal := m.journal.push { listener, notice } }
  match m.listeners[listener]? with
  | some l => (l.acts m.journal.size).foldl act noted
  | none => noted

/-- Call the listeners that a notice concerns, as the watches stand before the
first of them is called. -/
def announce (m : Memory) (notice : Notice) : Memory :=
  (notice.recipients m.watches).foldl (fun m listener => m.deliver notice listener) m

/-- Call the listeners unless the access is a quiet one. -/
def announceIf (m : Memory) (notify : Bool) (notice : Notice) : Memory :=
  if notify then m.announce notice else m

/-! ## Reading and writing values -/

/-- Read `length` bytes. -/
def fetch (m : Memory) (address : Address) (length : Nat) (notify : Bool) :
    Except AddressError Word × Memory :=
  match m.peek address length with
  | .error e => (.error e, m)
  | .ok access => (.ok access.value, m.announceIf notify (.read access))

/-- Write `length` bytes, giving back those that were there before. -/
def store (m : Memory) (address : Address) (value : Word) (length : Nat) (notify : Bool) :
    Except AddressError Word × Memory :=
  match m.poke address value length with
  | .error e => (.error e, m)
  | .ok stored => (.ok stored.replaced, stored.memory.announceIf notify (.write stored.access))

/-- Read two consecutive words. -/
def fetchDoubleword (m : Memory) (address : Address) (notify : Bool) :
    Except AddressError UInt64 × Memory :=
  match misalignment? address 8 with
  | some fault => (.error (.load address fault), m)
  | none =>
    match m.fetch address 4 notify with
    | (.error e, m) => (.error e, m)
    | (.ok first, m) =>
      match m.fetch (address + 4) 4 notify with
      | (.error e, m) => (.error e, m)
      | (.ok second, m) => (.ok (m.order.join first second), m)

/-- Write two consecutive words, one after the other: the first stays written if
the second is refused. -/
def storeDoubleword (m : Memory) (address : Address) (value : UInt64) (notify : Bool) :
    Except AddressError UInt64 × Memory :=
  match misalignment? address 8 with
  | some fault => (.error (.store address fault), m)
  | none =>
    let (first, second) := m.order.split value
    match m.store address first 4 notify with
    | (.error e, m) => (.error e, m)
    | (.ok oldFirst, m) =>
      match m.store (address + 4) second 4 notify with
      | (.error e, m) => (.error e, m)
      | (.ok oldSecond, m) => (.ok (m.order.join oldFirst oldSecond), m)

/-! ## Reading and writing statements -/

/-- The access to the whole word at an aligned address. -/
def wordAccess (address : Address) (word : Word) : Access :=
  { address, length := 4, value := word, wordAddress := address, wordValue := word }

/-- Put a statement at an address. -/
def storeStatement (m : Memory) (address : Address) (s : EncodedStatement) (notify : Bool) :
    Except AddressError Unit × Memory :=
  match m.pokeStatement address s with
  | .error e => (.error e, m)
  | .ok left => (.ok (), left.announceIf notify (.write (wordAccess address s.binary)))

/-- The statement at an address, if there is one. -/
def fetchStatement (m : Memory) (address : Address) (notify : Bool) :
    Except AddressError (Option EncodedStatement) × Memory :=
  match m.peekStatement address with
  | .error e => (.error e, m)
  | .ok s => (.ok s, m.announceIf notify (.read (wordAccess address (encoding s))))

/-! ## Starting over -/

/-- Discard every stored value, switch to a layout, and tell every listener. -/
def resetWith (m : Memory) (layout : Layout) : Memory :=
  (m.cleared layout).announce .reset

def reset (m : Memory) : Memory :=
  m.resetWith m.layout

end Memory
end MipsImage
