/-
How numbers are written in diagnostics and listings, and how the plain unsigned
numbers of register names and command-line options are read.
-/
import MipsImage.Word

namespace MipsImage
namespace Text

def decimal (n : Nat) : String :=
  String.ofList (Nat.toDigits 10 n)

/-- Decimal with a leading minus sign below zero. -/
def integer (i : Int) : String :=
  if i < 0 then "-" ++ decimal i.natAbs else decimal i.natAbs

/-- Lower-case hexadecimal without leading zeros. -/
def hex (n : Nat) : String :=
  String.ofList (Nat.toDigits 16 n)

/-- Pad on the left with `fill` to at least `width` characters. -/
def padLeft (width : Nat) (fill : Char) (s : String) : String :=
  String.ofList (List.replicate (width - s.length) fill) ++ s

/-- Pad on the right with blanks to at least `width` characters. -/
def padRight (width : Nat) (s : String) : String :=
  s ++ String.ofList (List.replicate (width - s.length) ' ')

/-- A word as an address is written: `0x` and eight hexadecimal digits. -/
def hexWord (w : Word) : String :=
  "0x" ++ padLeft 8 '0' (hex w.toNat)

/-- The value of a digit of a base up to sixteen, in either case. -/
def digitValue (c : Char) : Nat :=
  if c.isDigit then c.toNat - 48
  else if 'a' ≤ c ∧ c ≤ 'f' then c.toNat - 87
  else if 'A' ≤ c ∧ c ≤ 'F' then c.toNat - 55
  else 0

/-- The number that a run of digits spells in `base`, most significant first. -/
def ofDigits (base : Nat) (digits : List Char) : Nat :=
  digits.foldl (fun n c => base * n + digitValue c) 0

/-- The digits that spell an unsigned number: one leading plus sign may be left out. -/
def unsignedDigits : List Char → List Char
  | '+' :: rest => rest
  | cs => cs

/-- An unsigned decimal number below `bound`: digits after at most one plus
sign, leading zeros allowed. -/
def unsigned? (bound : Nat) (s : String) : Option Nat :=
  let digits := unsignedDigits s.toList
  if digits.isEmpty || !digits.all Char.isDigit then none
  else if ofDigits 10 digits < bound then some (ofDigits 10 digits) else none

end Text
end MipsImage
