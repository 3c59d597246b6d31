/-
Instruction words as bit fields.

A format says which fields of a word are fixed and which hold operands.  Fields
are read and written by shifts and remainders of natural numbers, so a word is
the sum of its disjoint fields.
-/
import MipsImage.Text.Numeral

namespace MipsImage

/-- A run of bits of a word: `width` bits from bit `low` on. -/
structure BitField where
  low : Nat
  width : Nat
  deriving DecidableEq, Repr

namespace BitField

def get (f : BitField) (w : Word) : Nat :=
  w.toNat >>> f.low % (1 <<< f.width)

/-- What the field contributes to a word when it holds the low bits of `value`. -/
def put (f : BitField) (value : Nat) : Nat :=
  (value % (1 <<< f.width)) <<< f.low

/-- The bits of the field, all set. -/
def mask (f : BitField) : Nat :=
  (1 <<< f.width - 1) <<< f.low

def opcode : BitField := { low := 26, width := 6 }
def rs : BitField := { low := 21, width := 5 }
def rt : BitField := { low := 16, width := 5 }
def rd : BitField := { low := 11, width := 5 }
def shamt : BitField := { low := 6, width := 5 }
def funct : BitField := { low := 0, width := 6 }
def immediate : BitField := { low := 0, width := 16 }
def target : BitField := { low := 0, width := 26 }
def whole : BitField := { low := 0, width := 32 }

/-- The word that holds the given values in the given fields and zeros elsewhere. -/
def compose (fields : List (BitField × Nat)) : Word :=
  UInt32.ofNat (fields.foldr (fun (f, value) total => f.put value + total) 0)

end BitField

/-- Why operand values have no encoding at some address. -/
inductive EncodeError where
  | branchMisaligned (target : Address)
  | branchOutOfRange (target : Address)
  | jumpOutsideRegion (target : Address)
  | jumpMisaligned (target : Address)
  deriving DecidableEq, Repr

namespace EncodeError

def message : EncodeError → String
  | branchMisaligned t => "Branch target " ++ Text.hexWord t ++ " is not word aligned"
  | branchOutOfRange t => "Branch target " ++ Text.hexWord t ++ " is out of range"
  | jumpOutsideRegion t =>
    "Jump target " ++ Text.hexWord t ++ " is outside the current 256 MiB region"
  | jumpMisaligned t => "Jump target " ++ Text.hexWord t ++ " is not word aligned"

end EncodeError

/-- The bit layout of an instruction.  Operands are numbered in source order. -/
inductive Format where
  /-- `rd, rs, rt` -/
  | register (funct : Nat)
  /-- `rd, rt, shamt` -/
  | shift (funct : Nat)
  /-- `rs` -/
  | jumpRegister (funct : Nat)
  /-- `rt, rs, immediate` -/
  | immediate (opcode : Nat)
  /-- `rt, immediate` -/
  | upperImmediate (opcode : Nat)
  /-- `rt, offset(base)`, or `rt, (base)` for no offset -/
  | memory (opcode : Nat)
  /-- `rs, rt, target`, relative to the next instruction -/
  | branch (opcode : Nat)
  /-- `target`, within the 256 MiB region of the next instruction -/
  | jump (opcode : Nat)
  /-- No operands -/
  | fixed (word : Word)
  deriving DecidableEq, Repr

namespace Format

open BitField

/-- The fields that tell an instruction of this format from others, with their
values. -/
def fixedFields : Format → List (BitField × Nat)
  | register n => [(opcode, 0), (shamt, 0), (funct, n)]
  | shift n => [(opcode, 0), (rs, 0), (funct, n)]
  | jumpRegister n => [(opcode, 0), (rt, 0), (rd, 0), (shamt, 0), (funct, n)]
  | immediate n | memory n | branch n | jump n => [(opcode, n)]
  | upperImmediate n => [(opcode, n), (rs, 0)]
  | fixed w => [(whole, w.toNat)]

/-- The bits of the fixed fields, all set. -/
def fixedMask (f : Format) : Word :=
  UInt32.ofNat (f.fixedFields.foldr (fun (field, _) total => field.mask + total) 0)

/-- The word that has the fixed fields set and all operands zero. -/
def fixedPattern (f : Format) : Word :=
  compose f.fixedFields

/-- Whether every fixed field of `w` has its value. -/
def accepts (f : Format) (w : Word) : Bool :=
  f.fixedFields.all fun (field, value) => field.get w == value

/-- The word whose low half is `n` and whose high half repeats its sign bit. -/
def signExtend (n : Nat) : Word :=
  if n % 0x10000 < 0x8000 then UInt32.ofNat (n % 0x10000)
  else UInt32.ofNat (n % 0x10000 + 0xffff0000)

/-- The offset field of a branch at `address`: whole words from the next
instruction on, if they fit sixteen signed bits. -/
def branchOffset (address target : Address) : Except EncodeError Nat :=
  let delta := target - (address + 4)
  if delta.toNat % 4 ≠ 0 then .error (.branchMisaligned target)
  else if Word.signed delta / 4 < -0x8000 ∨ 0x8000 ≤ Word.signed delta / 4 then
    .error (.branchOutOfRange target)
  else .ok (delta.toNat / 4)

/-- The target field of a jump at `address`. -/
def jumpTarget (address target : Address) : Except EncodeError Nat :=
  if target.toNat / 0x10000000 ≠ (address + 4).toNat / 0x10000000 then
    .error (.jumpOutsideRegion target)
  else if target.toNat % 4 ≠ 0 then .error (.jumpMisaligned target)
  else .ok (target.toNat / 4)

/-- The fields that hold the operands at `address`.  A missing operand counts as
zero; with exactly two operands a memory access has no offset. -/
def operandFields (f : Format) (operands : List Word) (address : Address) :
    Except EncodeError (List (BitField × Nat)) :=
  let op (i : Nat) : Nat := (operands.getD i 0).toNat
  match f with
  | register _ => .ok [(rs, op 1), (rt, op 2), (rd, op 0)]
  | shift _ => .ok [(rt, op 1), (rd, op 0), (shamt, op 2)]
  | jumpRegister _ => .ok [(rs, op 0)]
  | immediate _ => .ok [(rs, op 1), (rt, op 0), (BitField.immediate, op 2)]
  | upperImmediate _ => .ok [(rt, op 0), (BitField.immediate, op 1)]
  | memory _ =>
    if operands.length = 2 then .ok [(rs, op 1), (rt, op 0)]
    else .ok [(rs, op 2), (rt, op 0), (BitField.immediate, op 1)]
  | branch _ =>
    match branchOffset address (operands.getD 2 0) with
    | .error e => .error e
    | .ok offset => .ok [(rs, op 0), (rt, op 1), (BitField.immediate, offset)]
  | jump _ =>
    match jumpTarget address (operands.getD 0 0) with
    | .error e => .error e
    | .ok field => .ok [(target, field)]
  | fixed _ => .ok []

/-- The word for these operand values at `address`. -/
def encode (f : Format) (operands : List Word) (address : Address) : Except EncodeError Word :=
  match f.operandFields operands address with
  | .error e => .error e
  | .ok fields => .ok (compose (f.fixedFields ++ fields))

/-- Operand values in source order, read back from a word at `address`.
`signed` says how a plain immediate is read. -/
def decode (f : Format) (w : Word) (address : Address) (signed : Bool) : List Word :=
  let reg (field : BitField) : Word := UInt32.ofNat (field.get w)
  let low := BitField.immediate.get w
  match f with
  | register _ => [reg rd, reg rs, reg rt]
  | shift _ => [reg rd, reg rt, reg shamt]
  | jumpRegister _ => [reg rs]
  | immediate _ => [reg rt, reg rs, if signed then signExtend low else UInt32.ofNat low]
  | upperImmediate _ => [reg rt, UInt32.ofNat low]
  | memory _ => [reg rt, signExtend low, reg rs]
  | branch _ => [reg rs, reg rt, address + 4 + signExtend low * 4]
  | jump _ => [UInt32.ofNat ((address + 4).toNat / 0x10000000 * 0x10000000 + target.get w * 4)]
  | fixed _ => []

end Format
end MipsImage
