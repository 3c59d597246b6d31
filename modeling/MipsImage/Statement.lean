/-
The three forms of an instruction line: as parsed, with operands as written; as
resolved, with every operand a value; and as encoded, one machine word each.
-/
import MipsImage.Instruction

namespace MipsImage

/-! ## Parsed -/

structure ParsedStatement where
  mnemonic : Token
  instruction : Instruction
  operands : List Operand
  /-- The line it stands on, without the blanks around it. -/
  sourceText : String
  deriving DecidableEq, Repr

namespace ParsedStatement

def location (s : ParsedStatement) : Location :=
  s.mnemonic.location

def size (s : ParsedStatement) : Nat :=
  s.instruction.size

/-- The operands after the first, each with what separates it from the one
before. -/
def renderMore (previous : Operand) : List Operand → String
  | [] => ""
  | op :: rest =>
    (if op.isParenRegister && previous.isInteger then "" else ", ") ++ op.render ++ renderMore op rest

def render (s : ParsedStatement) : String :=
  match s.operands with
  | [] => s.mnemonic.literal
  | op :: rest => s.mnemonic.literal ++ " " ++ op.render ++ renderMore op rest

end ParsedStatement

/-! ## Resolved -/

/-- A statement whose operands are all values, split into basic instructions. -/
structure ResolvedStatement where
  source : ParsedStatement
  operands : List Word
  parts : List (BasicInstruction × List Word)
  deriving DecidableEq, Repr

namespace ResolvedStatement

def size (s : ResolvedStatement) : Nat :=
  4 * s.parts.length

end ResolvedStatement

/-! ## Encoded -/

/-- One machine word.  A word that was decoded rather than assembled has no
source. -/
structure EncodedStatement where
  instruction : BasicInstruction
  operands : List Word
  binary : Word
  source : Option ParsedStatement
  deriving DecidableEq, Repr

namespace EncodedStatement

def location (s : EncodedStatement) : Option Location :=
  s.source.map (·.location)

/-- The same instruction on the same operands with the same encoding, wherever
they came from. -/
def sameCode (a b : EncodedStatement) : Bool :=
  a.instruction == b.instruction && a.operands == b.operands && a.binary == b.binary

/-- The statement a word encodes at `address`. -/
def decode? (w : Word) (address : Address) : Option EncodedStatement :=
  (BasicInstruction.ofWord? w).map fun i =>
    { instruction := i, operands := i.decodeOperands w address, binary := w, source := none }

def renderOperand (kind : OperandKind) (value : Word) : String :=
  match kind with
  | .register => Register.render value.toNat
  | .parenRegister => "(" ++ Register.render value.toNat ++ ")"
  | .label => Text.hexWord value
  | _ => Text.integer (Word.signed value)

/-- The operands after the first, each with what separates it from the one
before.  A value without a kind, or a kind without a value, is left out. -/
def renderMore (previous : OperandKind) : List OperandKind → List Word → String
  | kind :: kinds, value :: values =>
    (if kind = .parenRegister ∧ previous = .signed16 then "" else ", ")
      ++ renderOperand kind value ++ renderMore kind kinds values
  | _, _ => ""

def render (s : EncodedStatement) : String :=
  match s.instruction.operandKinds, s.operands with
  | kind :: kinds, value :: values =>
    s.instruction.mnemonic ++ " " ++ renderOperand kind value ++ renderMore kind kinds values
  | _, _ => s.instruction.mnemonic

end EncodedStatement
end MipsImage
