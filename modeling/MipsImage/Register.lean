/-
The thirty-two general registers and their names.
-/
import MipsImage.Text.Numeral

namespace MipsImage

/-- A general register by its number. -/
abbrev Register := Fin 32

namespace Register

/-- Conventional names, in number order. -/
def names : Vector String 32 :=
  #v["zero", "at", "v0", "v1", "a0", "a1", "a2", "a3", "t0", "t1", "t2", "t3", "t4", "t5", "t6",
     "t7", "s0", "s1", "s2", "s3", "s4", "s5", "s6", "s7", "t8", "t9", "k0", "k1", "gp", "sp",
     "fp", "ra"]

/-- A reference without one leading dollar sign. -/
def bareName (s : String) : String :=
  match s.toList with
  | '$' :: rest => String.ofList rest
  | _ => s

/-- The register that `s` refers to: a number or a name, with or without the
dollar sign.  A number is settled by its value alone, and `s8` is another name
of the frame pointer. -/
def ofString? (s : String) : Option Register :=
  let name := bareName s
  match Text.unsigned? 256 name with
  | some n => if h : n < 32 then some ⟨n, h⟩ else none
  | none => if name = "s8" then some 30 else names.finIdxOf? name

/-- How register number `n` is written.  An operand value outside the register
file is written as the plain number of its low byte. -/
def render (n : Nat) : String :=
  "$" ++ (names[n % 256]?).getD (Text.decimal (n % 256))

end Register
end MipsImage
