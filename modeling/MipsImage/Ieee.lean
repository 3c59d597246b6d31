/-
Floating-point data.  A real number is kept as the bits of its binary64
encoding, so that comparing, storing and rounding it are operations on natural
numbers.  Rounding is to nearest, ties to even, in exact arithmetic.
-/
import MipsImage.Word

namespace MipsImage
namespace Ieee

/-- A binary interchange format.  The smallest positive value is `2 ^ -scale`. -/
structure Format where
  /-- Bits of the significand, the leading one included. -/
  precision : Nat
  scale : Nat
  /-- Encoding of positive infinity. -/
  infinity : Nat
  /-- Encoding of negative zero. -/
  signBit : Nat

def binary64 : Format :=
  { precision := 53, scale := 1074, infinity := 0x7ff0000000000000, signBit := 0x8000000000000000 }

def binary32 : Format :=
  { precision := 24, scale := 149, infinity := 0x7f800000, signBit := 0x80000000 }

/-- The natural number nearest to `n / d`, the even one of two equally near. -/
def roundQuotient (n d : Nat) : Nat :=
  let q := n / d
  let r := n % d
  if 2 * r < d then q
  else if d < 2 * r then q + 1
  else q + q % 2

/-- Encoding of the value of format `f` nearest to `num / den`.

In units of the smallest positive value the quotient is `num * 2 ^ scale / den`;
`k` is the number of low bits that do not fit the significand.  Counting `k`
steps of the exponent and adding the rounded significand gives the encoding,
because a significand that rounds up to the next power of two carries into the
exponent.  Anything past the largest finite value is infinite. -/
def Format.encode (f : Format) (num den : Nat) : Nat :=
  let units := num <<< f.scale / den
  let k := if units < 1 <<< f.precision then 0 else units.log2 + 1 - f.precision
  let significand := roundQuotient (num <<< f.scale) (den <<< k)
  min f.infinity (k <<< (f.precision - 1) + significand)

/-- Encoding of the value nearest to `digits * 10 ^ exponent`.  Values beyond
`10 ^ 400` are infinite and values below `10 ^ -400` are zero in every format,
which keeps the exact arithmetic small. -/
def Format.encodeDecimal (f : Format) (digits : Nat) (exponent : Int) : Nat :=
  if digits = 0 then 0
  else
    let top : Int := (Nat.toDigits 10 digits).length + exponent
    if 400 < top then f.infinity
    else if top < -400 then 0
    else if 0 ≤ exponent then f.encode (digits * Nat.pow 10 exponent.toNat) 1
    else f.encode digits (Nat.pow 10 (-exponent).toNat)

def Format.withSign (f : Format) (negative : Bool) (magnitude : Nat) : Nat :=
  if negative then f.signBit + magnitude else magnitude

/-- The bits of the binary64 value nearest to a signed decimal. -/
def ofDecimal (negative : Bool) (digits : Nat) (exponent : Int) : UInt64 :=
  UInt64.ofNat (binary64.withSign negative (binary64.encodeDecimal digits exponent))

/-- The bits of an integer, which binary64 holds exactly below `2 ^ 53`. -/
def ofInt (i : Int) : UInt64 :=
  UInt64.ofNat (binary64.withSign (i < 0) (binary64.encode i.natAbs 1))

/-- The encoding without its sign. -/
def magnitude (bits : UInt64) : Nat :=
  bits.toNat % binary64.signBit

/-- Neither infinite nor a quiet or signalling non-number. -/
def isFinite (bits : UInt64) : Bool :=
  magnitude bits < binary64.infinity

/-- The binary32 value nearest to a binary64 value.  The significand of the
wider format stands `exponent` places above the smallest value. -/
def toSingle (bits : UInt64) : Word :=
  let m := magnitude bits
  let leadingBit := 1 <<< 52
  let exponent := m / leadingBit
  let fraction := m % leadingBit
  let significand := if exponent = 0 then fraction else leadingBit + fraction
  let narrow :=
    if isFinite bits then
      binary32.encode (significand <<< (exponent - 1)) (1 <<< binary64.scale)
    else binary32.infinity
  UInt32.ofNat (binary32.withSign (binary64.signBit ≤ bits.toNat) narrow)

/-- An infinite binary32 value, of either sign. -/
def isInfiniteSingle (w : Word) : Bool :=
  w.toNat % binary32.signBit == binary32.infinity

end Ieee
end MipsImage
