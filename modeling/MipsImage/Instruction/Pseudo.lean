/-
Pseudo-instructions: shorthand that stands for a fixed sequence of basic
instructions.  Each is a list of templates, filled in from the operand values of
the statement.
-/
import MipsImage.Instruction.Basic

namespace MipsImage

/-- One operand of a template. -/
inductive Slot where
  /-- The statement's own operand of this number. -/
  | operand (index : Nat)
  | register (number : Register)
  /-- The high half of an operand. -/
  | upper (index : Nat)
  /-- The low half of an operand. -/
  | lower (index : Nat)
  /-- The high half to use with a low half that will be sign extended. -/
  | upperAdjusted (index : Nat)
  /-- The low half of an operand, sign extended. -/
  | lowerSigned (index : Nat)
  deriving DecidableEq, Repr

namespace Slot

/-- The value of a slot.  A missing operand counts as zero. -/
def fill (operands : List Word) : Slot → Word
  | operand i => operands.getD i 0
  | register number => UInt32.ofNat number.val
  | upper i => UInt32.ofNat ((operands.getD i 0).toNat / 0x10000)
  | lower i => UInt32.ofNat ((operands.getD i 0).toNat % 0x10000)
  | upperAdjusted i => UInt32.ofNat ((operands.getD i 0 + 0x8000).toNat / 0x10000)
  | lowerSigned i => Format.signExtend (operands.getD i 0).toNat

/-- The register that always holds zero. -/
def zero : Slot := register ⟨0, by decide⟩

/-- The register set aside for expansions. -/
def scratch : Slot := register ⟨1, by decide⟩

end Slot

structure PseudoInstruction where
  mnemonic : String
  operandKinds : List OperandKind
  templates : List (BasicInstruction × List Slot)
  description : String
  deriving DecidableEq, Repr

namespace PseudoInstruction

open BasicInstruction (addiu ori lui addu beq bne lw sw)
open Slot

/-- The basic instructions that these operand values expand to. -/
def expand (i : PseudoInstruction) (operands : List Word) : List (BasicInstruction × List Word) :=
  i.templates.map fun (basic, slots) => (basic, slots.map (Slot.fill operands))

/-- Build the 32-bit value of operand `index` in register slot `into`. -/
def loadTemplates (into : Slot) (index : Nat) : List (BasicInstruction × List Slot) :=
  [(lui, [scratch, upper index]), (ori, [into, scratch, lower index])]

/-- Access the word at the address in operand 1 through the scratch register. -/
def accessTemplates (access : BasicInstruction) : List (BasicInstruction × List Slot) :=
  [(lui, [scratch, upperAdjusted 1]), (access, [operand 0, lowerSigned 1, scratch])]

def liSigned : PseudoInstruction :=
  { mnemonic := "li", operandKinds := [.register, .signed16],
    templates := [(addiu, [operand 0, zero, operand 1])],
    description := "Load immediate: rt = 16-bit signed value" }

def liUnsigned : PseudoInstruction :=
  { mnemonic := "li", operandKinds := [.register, .unsigned16],
    templates := [(ori, [operand 0, zero, operand 1])],
    description := "Load immediate: rt = 16-bit unsigned value" }

def liWide : PseudoInstruction :=
  { mnemonic := "li", operandKinds := [.register, .integer32],
    templates := loadTemplates (operand 0) 1,
    description := "Load immediate: rt = 32-bit value" }

def la : PseudoInstruction :=
  { mnemonic := "la", operandKinds := [.register, .label],
    templates := loadTemplates (operand 0) 1,
    description := "Load address: rt = address of label" }

def move : PseudoInstruction :=
  { mnemonic := "move", operandKinds := [.register, .register],
    templates := [(addu, [operand 0, zero, operand 1])],
    description := "Move: rd = rs" }

def b : PseudoInstruction :=
  { mnemonic := "b", operandKinds := [.label],
    templates := [(beq, [zero, zero, operand 0])],
    description := "Branch unconditionally to label" }

def beqz : PseudoInstruction :=
  { mnemonic := "beqz", operandKinds := [.register, .label],
    templates := [(beq, [operand 0, zero, operand 1])],
    description := "Branch if equal to zero" }

def bnez : PseudoInstruction :=
  { mnemonic := "bnez", operandKinds := [.register, .label],
    templates := [(bne, [operand 0, zero, operand 1])],
    description := "Branch if not equal to zero" }

def lwLabel : PseudoInstruction :=
  { mnemonic := "lw", operandKinds := [.register, .label],
    templates := accessTemplates lw,
    description := "Load word: rt = word at label" }

def swLabel : PseudoInstruction :=
  { mnemonic := "sw", operandKinds := [.register, .label],
    templates := accessTemplates sw,
    description := "Store word: rt to word at label" }

def addiWide : PseudoInstruction :=
  { mnemonic := "addi", operandKinds := [.register, .register, .integer32],
    templates := loadTemplates scratch 2 ++ [(BasicInstruction.add, [operand 0, operand 1, scratch])],
    description := "Addition immediate with overflow: rt = rs + 32-bit value" }

def table : List PseudoInstruction :=
  [liSigned, liUnsigned, liWide, la, move, b, beqz, bnez, lwLabel, swLabel, addiWide]

end PseudoInstruction
end MipsImage
