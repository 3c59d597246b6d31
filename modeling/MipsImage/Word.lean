/-
Machine words.  Every quantity the assembled program can see is a 32-bit word;
signedness is a way of reading one, not a different type.
-/
namespace MipsImage

/-- A 32-bit machine word.  Arithmetic on it wraps. -/
abbrev Word := UInt32

/-- A byte address. -/
abbrev Address := UInt32

namespace Word

/-- The two's complement reading of a word. -/
def signed (w : Word) : Int :=
  if w.toNat < 0x80000000 then (w.toNat : Int) else (w.toNat : Int) - 0x100000000

/-- The word an integer wraps to. -/
def ofInt (i : Int) : Word :=
  UInt32.ofNat (i % 0x100000000).toNat

/-- The first address of the aligned word that holds `address`. -/
def containing (address : Address) : Address :=
  UInt32.ofNat (address.toNat / 4 * 4)

theorem ofInt_signed (w : Word) : ofInt (signed w) = w := by
  have hw := w.toNat_lt
  apply UInt32.toNat_inj.mp
  unfold ofInt signed
  rw [UInt32.toNat_ofNat']
  split <;> omega

end Word
end MipsImage
