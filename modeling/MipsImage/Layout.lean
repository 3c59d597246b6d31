/-
Address layouts: where text, data, kernel memory and devices live, and the
initial pointers that go with them.
-/
import MipsImage.Text.Numeral

namespace MipsImage

/-- Addresses from `first` to `last`, both included. -/
structure AddressRange where
  first : Address
  last : Address
  deriving DecidableEq, Repr

namespace AddressRange

def contains (r : AddressRange) (address : Address) : Bool :=
  r.first ≤ address && address ≤ r.last

/-- Whether each of `length` bytes from `address` on is in range.  The end is
computed without wrapping. -/
def containsSpan (r : AddressRange) (address : Address) (length : Nat) : Bool :=
  r.first ≤ address && address.toNat + length - 1 ≤ r.last.toNat

def intersects (r : AddressRange) (first last : Address) : Bool :=
  r.first ≤ last && first ≤ r.last

def render (r : AddressRange) : String :=
  Text.hexWord r.first ++ "-" ++ Text.hexWord r.last

end AddressRange

/-- Every range and initial pointer of a machine. -/
structure Layout where
  mapped : AddressRange
  user : AddressRange
  text : AddressRange
  /-- All user data: external, static and dynamic. -/
  data : AddressRange
  externalData : AddressRange
  staticData : AddressRange
  /-- The heap grows up through it and the stack down. -/
  dynamicData : AddressRange
  kernelText : AddressRange
  kernelData : AddressRange
  mmio : AddressRange
  exceptionHandler : Address
  globalPointer : Address
  stackPointer : Address
  deriving DecidableEq, Repr

namespace Layout

/-- Highest word of the stack. -/
def stackBase (l : Layout) : Address :=
  Word.containing l.dynamicData.last

/-- Where heap allocation starts. -/
def heapBase (l : Layout) : Address :=
  l.dynamicData.first

/-- Text at `0x00400000`, static data at `0x10010000`, kernel from `0x80000000` on. -/
def standard : Layout where
  mapped := ⟨0x00400000, 0xffffffff⟩
  user := ⟨0x00400000, 0x7fffffff⟩
  text := ⟨0x00400000, 0x0fffffff⟩
  data := ⟨0x10000000, 0x7fffffff⟩
  externalData := ⟨0x10000000, 0x1000ffff⟩
  staticData := ⟨0x10010000, 0x1003ffff⟩
  dynamicData := ⟨0x10040000, 0x7fffffff⟩
  kernelText := ⟨0x80000000, 0x8fffffff⟩
  kernelData := ⟨0x90000000, 0xfffeffff⟩
  mmio := ⟨0xffff0000, 0xffffffff⟩
  exceptionHandler := 0x80000180
  globalPointer := 0x10008000
  stackPointer := 0x7fffeffc

/-- 32 KiB in all, with static data at address 0. -/
def compactData : Layout where
  mapped := ⟨0x0000, 0x7fff⟩
  user := ⟨0x0000, 0x3fff⟩
  text := ⟨0x3000, 0x3fff⟩
  data := ⟨0x0000, 0x2fff⟩
  externalData := ⟨0x1000, 0x1fff⟩
  staticData := ⟨0x0000, 0x0fff⟩
  dynamicData := ⟨0x2000, 0x2fff⟩
  kernelText := ⟨0x4000, 0x4fff⟩
  kernelData := ⟨0x5000, 0x7eff⟩
  mmio := ⟨0x7f00, 0x7fff⟩
  exceptionHandler := 0x4180
  globalPointer := 0x1800
  stackPointer := 0x2ffc

/-- 32 KiB in all, with text at address 0. -/
def compactText : Layout where
  mapped := ⟨0x0000, 0x7fff⟩
  user := ⟨0x0000, 0x3fff⟩
  text := ⟨0x0000, 0x0fff⟩
  data := ⟨0x1000, 0x3fff⟩
  externalData := ⟨0x1000, 0x1fff⟩
  staticData := ⟨0x2000, 0x2fff⟩
  dynamicData := ⟨0x3000, 0x3fff⟩
  kernelText := ⟨0x4000, 0x4fff⟩
  kernelData := ⟨0x5000, 0x7eff⟩
  mmio := ⟨0x7f00, 0x7fff⟩
  exceptionHandler := 0x4180
  globalPointer := 0x1800
  stackPointer := 0x3ffc

end Layout

/-- The layouts that have a name. -/
inductive LayoutPreset where
  | standard
  | compactData
  | compactText
  deriving DecidableEq, Repr

namespace LayoutPreset

def layout : LayoutPreset → Layout
  | standard => Layout.standard
  | compactData => Layout.compactData
  | compactText => Layout.compactText

/-- The name by which an option selects a layout. -/
def name : LayoutPreset → String
  | standard => "default"
  | compactData => "compact-data"
  | compactText => "compact-text"

def ofName? (s : String) : Option LayoutPreset :=
  [standard, compactData, compactText].find? (·.name == s)

def render : LayoutPreset → String
  | standard => "Default"
  | compactData => "Compact (static data at address 0)"
  | compactText => "Compact (text at address 0)"

end LayoutPreset
end MipsImage
