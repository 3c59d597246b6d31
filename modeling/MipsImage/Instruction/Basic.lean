/-
Basic instructions: those that are one machine word each.

Order in the table matters.  A statement takes the first instruction whose
operand kinds fit, and a word is read as the first instruction whose fixed
fields it has; so `nop` stands before `sll`, and the forms with an offset stand
before those without.
-/
import MipsImage.Instruction.Format
import MipsImage.Instruction.Kind

namespace MipsImage

structure BasicInstruction where
  mnemonic : String
  operandKinds : List OperandKind
  format : Format
  description : String
  deriving DecidableEq, Repr

namespace BasicInstruction

def encode (i : BasicInstruction) (operands : List Word) (address : Address) :
    Except EncodeError Word :=
  i.format.encode operands address

/-- Operand values read back from a word.  An immediate is signed if the source
form takes a signed one. -/
def decodeOperands (i : BasicInstruction) (w : Word) (address : Address) : List Word :=
  i.format.decode w address (i.operandKinds.contains .signed16)

/-! ## Shapes of entries -/

def plain (mnemonic : String) (word : Word) (description : String) : BasicInstruction :=
  { mnemonic, operandKinds := [], format := .fixed word, description }

def threeRegister (mnemonic : String) (funct : Nat) (description : String) : BasicInstruction :=
  { mnemonic, operandKinds := [.register, .register, .register], format := .register funct,
    description }

def shift (mnemonic : String) (funct : Nat) (description : String) : BasicInstruction :=
  { mnemonic, operandKinds := [.register, .register, .unsigned5], format := .shift funct,
    description }

def immediate (mnemonic : String) (kind : OperandKind) (opcode : Nat) (description : String) :
    BasicInstruction :=
  { mnemonic, operandKinds := [.register, .register, kind], format := .immediate opcode,
    description }

/-- A load or store with an offset. -/
def offsetAccess (mnemonic : String) (opcode : Nat) (what : String) : BasicInstruction :=
  { mnemonic, operandKinds := [.register, .signed16, .parenRegister], format := .memory opcode,
    description := what ++ " offset(base)" }

/-- A load or store without an offset. -/
def baseAccess (mnemonic : String) (opcode : Nat) (what : String) : BasicInstruction :=
  { mnemonic, operandKinds := [.register, .parenRegister], format := .memory opcode,
    description := what ++ " (base)" }

def branch (mnemonic : String) (opcode : Nat) (description : String) : BasicInstruction :=
  { mnemonic, operandKinds := [.register, .register, .label], format := .branch opcode,
    description }

def jump (mnemonic : String) (opcode : Nat) (description : String) : BasicInstruction :=
  { mnemonic, operandKinds := [.label], format := .jump opcode, description }

/-! ## Entries -/

def nop := plain "nop" 0 "Null operation: machine code is all zeroes"
def syscall := plain "syscall" 0xc "Issue a system call"
def breakpoint := plain "break" 0xd "Break execution"

def add := threeRegister "add" 0x20 "Addition with overflow: rd = rs + rt"
def addu := threeRegister "addu" 0x21 "Addition unsigned without overflow: rd = rs + rt"
def sub := threeRegister "sub" 0x22 "Subtraction with overflow: rd = rs - rt"
def subu := threeRegister "subu" 0x23 "Subtraction unsigned without overflow: rd = rs - rt"
def and := threeRegister "and" 0x24 "Bitwise AND: rd = rs & rt"
def or := threeRegister "or" 0x25 "Bitwise OR: rd = rs | rt"
def xor := threeRegister "xor" 0x26 "Bitwise XOR: rd = rs ^ rt"
def nor := threeRegister "nor" 0x27 "Bitwise NOR: rd = !(rs | rt)"
def slt := threeRegister "slt" 0x2a "Set less than: rd = (rs < rt) ? 1 : 0"
def sltu := threeRegister "sltu" 0x2b "Set less than unsigned: rd = (rs < rt) ? 1 : 0"

def sll := shift "sll" 0x00 "Shift left logical: rd = rt << shamt"
def srl := shift "srl" 0x02 "Shift right logical: rd = rt >>> shamt"
def sra := shift "sra" 0x03 "Shift right arithmetic: rd = rt >> shamt"

def jr : BasicInstruction :=
  { mnemonic := "jr", operandKinds := [.register], format := .jumpRegister 0x08,
    description := "Jump register unconditionally: pc = rs" }

def addi := immediate "addi" .signed16 0x08 "Addition immediate with overflow: rt = rs + imm"
def addiu := immediate "addiu" .signed16 0x09 "Addition immediate without overflow: rt = rs + imm"
def slti := immediate "slti" .signed16 0x0a "Set less than immediate: rt = (rs < imm) ? 1 : 0"
def sltiu :=
  immediate "sltiu" .signed16 0x0b "Set less than immediate unsigned: rt = (rs < imm) ? 1 : 0"
def andi := immediate "andi" .unsigned16 0x0c "Bitwise AND immediate: rt = rs & imm"
def ori := immediate "ori" .unsigned16 0x0d "Bitwise OR immediate: rt = rs | imm"
def xori := immediate "xori" .unsigned16 0x0e "Bitwise XOR immediate: rt = rs ^ imm"

def lui : BasicInstruction :=
  { mnemonic := "lui", operandKinds := [.register, .unsigned16], format := .upperImmediate 0x0f,
    description := "Load upper immediate: rt = imm << 16" }

def lb := offsetAccess "lb" 0x20 "Load byte: rt = sign-extended byte at"
def lbBase := baseAccess "lb" 0x20 "Load byte: rt = sign-extended byte at"
def lh := offsetAccess "lh" 0x21 "Load halfword: rt = sign-extended halfword at"
def lhBase := baseAccess "lh" 0x21 "Load halfword: rt = sign-extended halfword at"
def lw := offsetAccess "lw" 0x23 "Load word: rt = word at"
def lwBase := baseAccess "lw" 0x23 "Load word: rt = word at"
def lbu := offsetAccess "lbu" 0x24 "Load byte unsigned: rt = zero-extended byte at"
def lbuBase := baseAccess "lbu" 0x24 "Load byte unsigned: rt = zero-extended byte at"
def lhu := offsetAccess "lhu" 0x25 "Load halfword unsigned: rt = zero-extended halfword at"
def lhuBase := baseAccess "lhu" 0x25 "Load halfword unsigned: rt = zero-extended halfword at"
def sb := offsetAccess "sb" 0x28 "Store byte: low byte of rt to"
def sbBase := baseAccess "sb" 0x28 "Store byte: low byte of rt to"
def sh := offsetAccess "sh" 0x29 "Store halfword: low halfword of rt to"
def shBase := baseAccess "sh" 0x29 "Store halfword: low halfword of rt to"
def sw := offsetAccess "sw" 0x2b "Store word: rt to"
def swBase := baseAccess "sw" 0x2b "Store word: rt to"

def beq := branch "beq" 0x04 "Branch if equal: if rs == rt goto label"
def bne := branch "bne" 0x05 "Branch if not equal: if rs != rt goto label"
def j := jump "j" 0x02 "Jump unconditionally to label"
def jal := jump "jal" 0x03 "Jump and link: $ra = pc + 4, goto label"

def table : List BasicInstruction :=
  [nop, syscall, breakpoint, add, addu, sub, subu, and, or, xor, nor, slt, sltu, sll, srl, sra, jr,
   addi, addiu, slti, sltiu, andi, ori, xori, lui, lb, lbBase, lh, lhBase, lw, lwBase, lbu, lbuBase,
   lhu, lhuBase, sb, sbBase, sh, shBase, sw, swBase, beq, bne, j, jal]

/-- The instruction a word encodes. -/
def ofWord? (w : Word) : Option BasicInstruction :=
  table.find? fun i => i.format.accepts w

end BasicInstruction
end MipsImage
