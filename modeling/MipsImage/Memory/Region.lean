/-
Sparse storage for one contiguous range of addresses.

A region is a directory of tables of blocks of words: a block holds 1024 words
and a table 1024 blocks.  Blocks and tables come into being with the first store
into them, so a range of gigabytes costs next to nothing until it is used.
Directory entries are counted from the last table boundary at or below the first
address.
-/
import MipsImage.Layout

namespace MipsImage

/-- 4 KiB of words. -/
abbrev Block (α : Type) := Vector α 1024

/-- 4 MiB of blocks, those never stored into left out. -/
abbrev BlockTable (α : Type) := Vector (Option (Block α)) 1024

namespace Region

def bytesPerTable : Nat := 4 * 1024 * 1024

/-- The table boundary at or below the first address. -/
def base (range : AddressRange) : Nat :=
  bytesPerTable * (range.first.toNat / bytesPerTable)

/-- As many tables as reach from the boundary to the last address. -/
def directorySize (range : AddressRange) : Nat :=
  (range.last.toNat - base range) / bytesPerTable + 1

end Region

structure Region (α : Type) where
  range : AddressRange
  /-- What a word reads as before it is stored. -/
  blank : α
  tables : Array (Option (BlockTable α))
  covered : tables.size = Region.directorySize range

namespace Region

variable {α : Type}

def empty (range : AddressRange) (blank : α) : Region α :=
  { range, blank, tables := Array.replicate (directorySize range) none,
    covered := Array.size_replicate }

def contains (r : Region α) (address : Address) : Bool :=
  r.range.contains address

/-! ## Where a word is kept -/

/-- Number of the word that holds `address`, counted from the table boundary. -/
def wordIndex (r : Region α) (address : Address) : Nat :=
  (address.toNat - base r.range) / 4

def tableIndex (r : Region α) (address : Address) : Nat :=
  r.wordIndex address / (1024 * 1024)

def blockIndex (r : Region α) (address : Address) : Fin 1024 :=
  ⟨r.wordIndex address / 1024 % 1024, Nat.mod_lt _ (by decide)⟩

def cellIndex (r : Region α) (address : Address) : Fin 1024 :=
  ⟨r.wordIndex address % 1024, Nat.mod_lt _ (by decide)⟩

/-! ## Access -/

/-- The block of an address, if it was ever stored into. -/
def block? (r : Region α) (address : Address) : Option (Block α) :=
  r.tables[r.tableIndex address]?.join.bind fun table => table[r.blockIndex address]

/-- The word at an address, or nothing if its block was never stored into. -/
def fetchOrAbsent (r : Region α) (address : Address) : Option α :=
  (r.block? address).map fun block => block[r.cellIndex address]

def fetch (r : Region α) (address : Address) : α :=
  (r.fetchOrAbsent address).getD r.blank

/-- A block with one word replaced. -/
def storeBlock (r : Region α) (address : Address) (value : α) (block : Option (Block α)) :
    Block α :=
  (block.getD (Vector.replicate 1024 r.blank)).set (r.cellIndex address) value

/-- A table with one word of one block replaced. -/
def storeTable (r : Region α) (address : Address) (value : α) (table : Option (BlockTable α)) :
    BlockTable α :=
  let blocks := table.getD (Vector.replicate 1024 none)
  let i := r.blockIndex address
  blocks.set i (some (r.storeBlock address value blocks[i]))

def store (r : Region α) (address : Address) (value : α) : Region α :=
  { r with
    tables := r.tables.modify (r.tableIndex address) fun t => some (r.storeTable address value t)
    covered := Array.size_modify.trans r.covered }

/-- Replace a word by what `f` makes of it, and answer with the word that was there.  If
`f` refuses it, nothing changes and no block comes into being.  Beyond the directory
there is nothing to replace, and `f` is not asked. -/
def update {ε : Type} (r : Region α) (address : Address) (f : α → Except ε α) :
    Except ε α × Region α :=
  if r.tableIndex address < r.tables.size then
    match f (r.fetch address) with
    | .error e => (.error e, r)
    | .ok value => (.ok (r.fetch address), r.store address value)
  else (.ok r.blank, r)

/-- Store a word and give back the one it replaces. -/
def exchange (r : Region α) (address : Address) (value : α) : α × Region α :=
  (r.fetch address, r.store address value)

/-- How many blocks have been stored into. -/
def allocatedBlocks (r : Region α) : Nat :=
  r.tables.toList.foldl
    (fun count table => count + (table.elim 0 fun blocks => blocks.toList.countP (·.isSome))) 0

end Region
end MipsImage
