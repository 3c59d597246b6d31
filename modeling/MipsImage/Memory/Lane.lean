/-
Parts of a word.  Everything narrower than a word is read and written through the
aligned word around it; byte order only decides which bits an address stands for.
-/
import MipsImage.Word

namespace MipsImage

inductive ByteOrder where
  | little
  | big
  deriving DecidableEq, Repr

namespace ByteOrder

/-- Lowest bit of the `length` bytes at `address` within the word around them. -/
def shift (order : ByteOrder) (address : Address) (length : Nat) : Nat :=
  match order with
  | little => address.toNat % 4 * 8
  | big => (4 - length - address.toNat % 4) * 8

/-- Bits in `length` bytes of a word. -/
def bits (length : Nat) : Nat :=
  8 * min length 4

/-- The low `length` bytes of a value. -/
def truncate (value : Word) (length : Nat) : Word :=
  UInt32.ofNat (value.toNat % (1 <<< bits length))

/-- The `length` bytes at `address` out of the word around them. -/
def extract (order : ByteOrder) (word : Word) (address : Address) (length : Nat) : Word :=
  UInt32.ofNat (word.toNat >>> order.shift address length % (1 <<< bits length))

/-- A word with the `length` bytes at `address` replaced: the bits below, the new
bits, the bits above. -/
def splice (order : ByteOrder) (word value : Word) (address : Address) (length : Nat) : Word :=
  let low := order.shift address length
  let high := low + bits length
  UInt32.ofNat
    (word.toNat % (1 <<< low) + (value.toNat % (1 <<< bits length)) <<< low
      + (word.toNat >>> high) <<< high)

/-- The two words of a doubleword in address order. -/
def split (order : ByteOrder) (value : UInt64) : Word × Word :=
  let low := UInt32.ofNat value.toNat
  let high := UInt32.ofNat (value.toNat / 0x100000000)
  match order with
  | little => (low, high)
  | big => (high, low)

/-- The doubleword of two words in address order. -/
def join (order : ByteOrder) (first second : Word) : UInt64 :=
  match order with
  | little => UInt64.ofNat (first.toNat + second.toNat * 0x100000000)
  | big => UInt64.ofNat (second.toNat + first.toNat * 0x100000000)

/-- The bytes of a word in address order. -/
def bytes (order : ByteOrder) (word : Word) : List UInt8 :=
  let little := [0, 8, 16, 24].map fun low => UInt8.ofNat (word.toNat >>> low)
  match order with
  | .little => little
  | .big => little.reverse

end ByteOrder
end MipsImage
