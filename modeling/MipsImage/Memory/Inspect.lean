/-
Looking at memory without any listener hearing of it: written and unwritten
words, and strings.
-/
import MipsImage.Memory
import MipsImage.Text.Utf8

namespace MipsImage
namespace Memory

/-- The word at an address, or nothing if it was never written.  Data counts as
written by whole blocks, text by single words. -/
def fetchWordOrAbsent (m : Memory) (address : Address) : Except AddressError (Option Word) :=
  match misalignment? address 4 with
  | some fault => .error (.load address fault)
  | none =>
    match m.areaOf? address with
    | none => .error (.load address .outOfRange)
    | some (.data which) => .ok ((m.dataRegion which).fetchOrAbsent address)
    | some (.text which) =>
      .ok (((m.textRegion which).fetchOrAbsent address).join.map (·.binary))

/-- The first word from `address` on, and below `limit`, that was never written. -/
def firstUnwritten (m : Memory) (address limit : Address) : Except AddressError (Option Address) :=
  if address < limit then
    match m.fetchWordOrAbsent address with
    | .error e => .error e
    | .ok none => .ok (some address)
    | .ok (some _) =>
      if _h : address.toNat + 4 < 0x100000000 then m.firstUnwritten (address + 4) limit
      else .ok none
  else .ok none
termination_by 0x100000000 - address.toNat
decreasing_by
  have : (address + 4).toNat = address.toNat + 4 := by
    rw [UInt32.toNat_add]
    exact Nat.mod_eq_of_lt _h
  omega

/-- The bytes from `address` up to the first that is zero. -/
def fetchBytes (m : Memory) (address : Address) : Except AddressError (List UInt8) :=
  match m.peek address 1 with
  | .error e => .error e
  | .ok access =>
    if access.value = 0 then .ok []
    else if _h : address.toNat + 1 < 0x100000000 then
      match m.fetchBytes (address + 1) with
      | .error e => .error e
      | .ok bytes => .ok (UInt8.ofNat access.value.toNat :: bytes)
    else .error (.load address .outOfRange)
termination_by 0x100000000 - address.toNat
decreasing_by
  have : (address + 1).toNat = address.toNat + 1 := by
    rw [UInt32.toNat_add]
    exact Nat.mod_eq_of_lt _h
  omega

/-- The text of the bytes from `address` up to the first that is zero. -/
def fetchString (m : Memory) (address : Address) : Except AddressError String :=
  match m.fetchBytes address with
  | .error e => .error e
  | .ok bytes => .ok (String.ofList (Text.Utf8.decodeLossy bytes))

end Memory
end MipsImage
