/-
Symbol tables: one for each source file, and a global one.

Besides the symbols by name, a table keeps the names at each address.  Alignment
needs it to find the labels that sit in the padding it skips, and listings take
their order from it.
-/
import MipsImage.Text.Numeral
import Std.Data.TreeMap
import Std.Data.TreeSet

namespace MipsImage

/-- A named address. -/
structure Symbol where
  identifier : String
  address : Address
  /-- Whether it was defined in a data segment. -/
  isData : Bool
  deriving DecidableEq, Repr

/-- An identifier was defined a second time; the address is that of the first. -/
structure DuplicateSymbol where
  identifier : String
  address : Address
  deriving DecidableEq, Repr

namespace DuplicateSymbol

def message (d : DuplicateSymbol) : String :=
  "Symbol '" ++ d.identifier ++ "' is already defined at " ++ Text.hexWord d.address

end DuplicateSymbol

structure SymbolTable where
  /-- The file that owns the table, or what stands for one. -/
  name : String
  symbols : Std.TreeMap String Symbol
  /-- The identifiers at each address that has any. -/
  byAddress : Std.TreeMap Address (Std.TreeSet String)

namespace SymbolTable

def empty (name : String) : SymbolTable :=
  { name, symbols := ∅, byAddress := ∅ }

def lookup? (t : SymbolTable) (identifier : String) : Option Symbol :=
  t.symbols[identifier]?

def contains (t : SymbolTable) (identifier : String) : Bool :=
  t.symbols.contains identifier

def size (t : SymbolTable) : Nat :=
  t.symbols.size

def isEmpty (t : SymbolTable) : Bool :=
  t.symbols.isEmpty

/-- The identifiers at an address. -/
def identifiersAt (t : SymbolTable) (address : Address) : Std.TreeSet String :=
  (t.byAddress[address]?).getD ∅

/-- Enter an identifier under an address. -/
def index (t : SymbolTable) (identifier : String) (address : Address) : SymbolTable :=
  { t with byAddress := t.byAddress.insert address ((t.identifiersAt address).insert identifier) }

/-- Take an identifier out from under an address, and the address with it if no
other identifier is left there. -/
def unindex (t : SymbolTable) (identifier : String) (address : Address) : SymbolTable :=
  let rest := (t.identifiersAt address).erase identifier
  { t with
    byAddress :=
      if rest.isEmpty then t.byAddress.erase address else t.byAddress.insert address rest }

/-- Add a symbol.  One that is there already stays as it is. -/
def define (t : SymbolTable) (s : Symbol) : Except DuplicateSymbol SymbolTable :=
  match t.lookup? s.identifier with
  | some existing => .error { identifier := s.identifier, address := existing.address }
  | none => .ok { t.index s.identifier s.address with symbols := t.symbols.insert s.identifier s }

/-- Take a symbol out, if it is there. -/
def remove? (t : SymbolTable) (identifier : String) : Option (Symbol × SymbolTable) :=
  (t.lookup? identifier).map fun s =>
    (s, { t.unindex identifier s.address with symbols := t.symbols.erase identifier })

/-- All symbols by address, those at one address by identifier. -/
def all (t : SymbolTable) : List Symbol :=
  t.byAddress.toList.flatMap fun entry => entry.2.toList.filterMap t.lookup?

def dataOnly (t : SymbolTable) : List Symbol :=
  t.all.filter (·.isData)

def textOnly (t : SymbolTable) : List Symbol :=
  t.all.filter (!·.isData)

/-- Give a symbol another address. -/
def move (t : SymbolTable) (identifier : String) (address : Address) : SymbolTable :=
  match t.lookup? identifier with
  | none => t
  | some s =>
    { (t.unindex identifier s.address).index identifier address with
      symbols := t.symbols.insert identifier { s with address } }

/-- The identifiers at the addresses from `first` up to, and not with, `limit`. -/
def identifiersIn (t : SymbolTable) (first limit : Address) : List String :=
  (t.byAddress.toList.filter fun entry => first ≤ entry.1 && entry.1 < limit).flatMap
    fun entry => entry.2.toList

/-- Move every symbol from `old` up to `new` to the address `new`. -/
def realign (t : SymbolTable) (old new : Address) : SymbolTable :=
  (t.identifiersIn old new).foldl (fun t identifier => t.move identifier new) t

/-- Realign, and say how many symbols have moved. -/
def realignCounted (t : SymbolTable) (old new : Address) : Nat × SymbolTable :=
  ((t.identifiersIn old new).length, t.realign old new)

/-- Forget every symbol and keep the name. -/
def clear (t : SymbolTable) : SymbolTable :=
  empty t.name

end SymbolTable

/-- The tables in view of a statement: its file's own, then the global one. -/
structure SymbolScope where
  localTable : Option SymbolTable
  globalTable : SymbolTable

namespace SymbolScope

def lookup? (scope : SymbolScope) (identifier : String) : Option Symbol :=
  match scope.localTable.bind (·.lookup? identifier) with
  | some s => some s
  | none => scope.globalTable.lookup? identifier

end SymbolScope
end MipsImage
