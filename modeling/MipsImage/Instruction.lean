/-
The instruction set: everything a mnemonic can stand for.
-/
import MipsImage.Instruction.Pseudo
import MipsImage.Text.Caseless

namespace MipsImage

inductive Instruction where
  | basic (i : BasicInstruction)
  | pseudo (i : PseudoInstruction)
  deriving DecidableEq, Repr

namespace Instruction

/-- What the instruction set is called. -/
def setName : String := "MIPS32"

def mnemonic : Instruction → String
  | basic i => i.mnemonic
  | pseudo i => i.mnemonic

def operandKinds : Instruction → List OperandKind
  | basic i => i.operandKinds
  | pseudo i => i.operandKinds

def description : Instruction → String
  | basic i => i.description
  | pseudo i => i.description

/-- Bytes taken up once assembled. -/
def size : Instruction → Nat
  | basic _ => 4
  | pseudo i => 4 * i.templates.length

def accepts (i : Instruction) (operands : List Operand) : Bool :=
  OperandKind.acceptsAll i.operandKinds operands

/-- The basic instructions that operand values turn into. -/
def expand (i : Instruction) (operands : List Word) : List (BasicInstruction × List Word) :=
  match i with
  | basic i => [(i, operands)]
  | pseudo i => i.expand operands

/-- Every instruction, basic before pseudo. -/
def all : List Instruction :=
  BasicInstruction.table.map basic ++ PseudoInstruction.table.map pseudo

/-- The instructions a mnemonic can stand for, basic before pseudo.  Case does
not matter. -/
def candidates (mnemonic : String) : List Instruction :=
  all.filter fun i => Text.sameIgnoringCase i.mnemonic mnemonic

def isMnemonic (s : String) : Bool :=
  !(candidates s).isEmpty

/-- The first candidate that takes these operands. -/
def select? (mnemonic : String) (operands : List Operand) : Option Instruction :=
  (candidates mnemonic).find? (·.accepts operands)

end Instruction
end MipsImage
