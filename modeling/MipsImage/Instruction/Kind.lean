/-
Operand kinds: what may stand in each place of an instruction.
-/
import MipsImage.Source.Operand

namespace MipsImage

inductive OperandKind where
  /-- A register, `$t0` -/
  | register
  /-- A register in parentheses, `($t0)` -/
  | parenRegister
  /-- A shift amount: five bits, unsigned -/
  | unsigned5
  /-- Sixteen bits, signed -/
  | signed16
  /-- Sixteen bits, unsigned -/
  | unsigned16
  /-- Any integer -/
  | integer32
  /-- A label, possibly with a constant offset -/
  | label
  deriving DecidableEq, Repr

namespace OperandKind

/-- Whether an integer of this value may stand in such a place. -/
def acceptsValue (kind : OperandKind) (value : Word) : Bool :=
  let v := Word.signed value
  match kind with
  | unsigned5 => 0 ≤ v && v < 32
  | signed16 => -0x8000 ≤ v && v < 0x8000
  | unsigned16 => 0 ≤ v && v < 0x10000
  | integer32 => true
  | _ => false

def accepts : OperandKind → Operand → Bool
  | register, .register _ _ => true
  | parenRegister, .parenRegister _ _ => true
  | label, .label _ _ => true
  | kind, .integer _ value => kind.acceptsValue value
  | _, _ => false

/-- Whether operands have the given kinds, one for one. -/
def acceptsAll : List OperandKind → List Operand → Bool
  | [], [] => true
  | kind :: kinds, op :: ops => kind.accepts op && acceptsAll kinds ops
  | _, _ => false

end OperandKind
end MipsImage
