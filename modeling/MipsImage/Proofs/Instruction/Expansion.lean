/-
Pseudo-instructions mean what they stand for.

The instructions that expansions are made of are given the effects that the table
describes, on a machine of thirty-two registers, a program counter and a memory.  A
pseudo-instruction is given the effect of its own description, in one step.  The two
agree on everything but the scratch register, which an expansion may use on its way.

A value of 32 bits is put together from its halves in two ways.  `ori` fills in the low
half and takes the high half as it is.  A load or a store adds the low half with its
sign, so the high half has to be one more whenever the low half counts as negative.
-/
import Mathlib
import MipsImage.Memory
import MipsImage.Proofs.Instruction.RoundTrip

namespace MipsImage

/-! ## Halves of a word -/

namespace Word

/-- The word whose low half is that of `w` and whose high half is zero. -/
def zeroExtend (w : Word) : Word :=
  UInt32.ofNat (w.toNat % 0x10000)

theorem zeroExtend_of_lt {w : Word} (h : w.toNat < 0x10000) : zeroExtend w = w := by
  rw [zeroExtend, Nat.mod_eq_of_lt h, UInt32.ofNat_toNat]

end Word

/-- Extending a value of sixteen signed bits changes nothing. -/
theorem Format.signExtend_toNat {value : Word} (h : OperandKind.signed16.InRange value) :
    signExtend value.toNat = value := by
  have hmod : signExtend (value.toNat % 2 ^ 16) = signExtend value.toNat := by
    simp only [signExtend, Nat.reducePow, Nat.mod_mod]
  rw [← hmod]
  exact signExtend_of_inRange h

namespace Slot

theorem toNat_upper (operands : List Word) (index : Nat) :
    (fill operands (upper index)).toNat = (operands.getD index 0).toNat / 0x10000 := by
  have hvalue := (operands.getD index 0).toNat_lt
  rw [fill, UInt32.toNat_ofNat']
  omega

theorem toNat_lower (operands : List Word) (index : Nat) :
    (fill operands (lower index)).toNat = (operands.getD index 0).toNat % 0x10000 := by
  rw [fill, UInt32.toNat_ofNat']
  omega

theorem toNat_upperAdjusted (operands : List Word) (index : Nat) :
    (fill operands (upperAdjusted index)).toNat =
      (operands.getD index 0 + 0x8000).toNat / 0x10000 := by
  have hvalue := (operands.getD index 0 + 0x8000).toNat_lt
  rw [fill, UInt32.toNat_ofNat']
  omega

/-- The high half and the low half put side by side. -/
theorem upper_or_lower (operands : List Word) (index : Nat) :
    fill operands (upper index) <<< 16 ||| Word.zeroExtend (fill operands (lower index)) =
      operands.getD index 0 := by
  have hvalue := (operands.getD index 0).toNat_lt
  have hlow : (operands.getD index 0).toNat % 0x10000 < 2 ^ 16 := by omega
  rw [Word.zeroExtend_of_lt (by rw [toNat_lower]; omega)]
  apply UInt32.toNat_inj.mp
  rw [UInt32.toNat_or, UInt32.toNat_shiftLeft, toNat_upper, toNat_lower, Nat.shiftLeft_eq,
    show (16 : UInt32).toNat % 32 = 16 from rfl, Nat.mod_eq_of_lt (by omega), Nat.mul_comm,
    ← Nat.two_pow_add_eq_or_of_lt hlow]
  omega

/-- The adjusted high half makes up for the sign of the low half, also where the sum
comes round. -/
theorem upperAdjusted_add_lowerSigned (operands : List Word) (index : Nat) :
    fill operands (upperAdjusted index) <<< 16 +
        Format.signExtend (fill operands (lowerSigned index)).toNat =
      operands.getD index 0 := by
  have hvalue := (operands.getD index 0).toNat_lt
  have hadjusted : (operands.getD index 0 + 0x8000).toNat =
      ((operands.getD index 0).toNat + 0x8000) % 2 ^ 32 := UInt32.toNat_add _ _
  have hlow := Format.toNat_signExtend (operands.getD index 0).toNat
  rw [show fill operands (lowerSigned index) =
    Format.signExtend (operands.getD index 0).toNat from rfl,
    Format.signExtend_toNat (Format.inRange_signExtend _)]
  apply UInt32.toNat_inj.mp
  rw [UInt32.toNat_add, UInt32.toNat_shiftLeft, toNat_upperAdjusted, hadjusted, hlow,
    Nat.shiftLeft_eq, show (16 : UInt32).toNat % 32 = 16 from rfl]
  split_ifs <;> omega

end Slot

/-! ## The machine -/

/-- What instructions work on. -/
structure Machine where
  registers : Register → Word
  pc : Address
  memory : Memory
  /-- Whether an addition that looks for overflow has met any. -/
  overflowed : Bool

/-- Why a machine does not go on. -/
inductive Stop where
  /-- A memory access was refused. -/
  | refused (e : AddressError)
  /-- The instruction is given no effect here. -/
  | unknown (mnemonic : String)
  deriving DecidableEq, Repr

namespace Machine

open Register (ofWord)

/-- The register set aside for expansions. -/
def scratch : Register := ofWord 1

/-- Register 0 reads as zero. -/
def read (s : Machine) (r : Register) : Word :=
  if r.val = 0 then 0 else s.registers r

def write (s : Machine) (r : Register) (value : Word) : Machine :=
  { s with registers := Function.update s.registers r value }

def goto (s : Machine) (address : Address) : Machine :=
  { s with pc := address }

/-- Go on to the next instruction. -/
def next (s : Machine) : Machine :=
  s.goto (s.pc + 4)

/-- Load the word at an address into a register. -/
def load (s : Machine) (r : Register) (address : Address) : Except Stop Machine :=
  match s.memory.fetch address 4 true with
  | (.ok value, memory) => .ok { s.write r value with memory }
  | (.error e, _) => .error (.refused e)

/-- Store a register into the word at an address. -/
def store (s : Machine) (r : Register) (address : Address) : Except Stop Machine :=
  match s.memory.store address (s.read r) 4 true with
  | (.ok _, memory) => .ok { s with memory }
  | (.error e, _) => .error (.refused e)

/-- Whether a sum leaves the signed range. -/
def overflows (a b : Word) : Bool :=
  Word.signed (a + b) != Word.signed a + Word.signed b

/-- Put a sum into a register and look for overflow. -/
def addChecked (s : Machine) (r : Register) (a b : Word) : Machine :=
  { s.write r (a + b) with overflowed := s.overflowed || overflows a b }

theorem read_write (s : Machine) (r x : Register) (value : Word) :
    (s.write r value).read x = if x.val = 0 then 0 else if x = r then value else s.read x := by
  simp only [read, write, Function.update_apply]
  split_ifs <;> rfl

theorem read_write_of_ne (s : Machine) {r x : Register} (h : x ≠ r) (value : Word) :
    (s.write r value).read x = s.read x := by
  rw [read_write, if_neg h]
  split_ifs with hzero
  · rw [read, if_pos hzero]
  · rfl

/-! ## Effects -/

/-- The effect of an instruction on its operand values, as the table describes it.
Immediates are the sixteen bits of an encoding, extended by zeros or by their sign. -/
def execute (i : BasicInstruction) (operands : List Word) (s : Machine) : Except Stop Machine :=
  let r := fun w => s.read (ofWord w)
  match i.mnemonic, operands with
  | "lui", [rt, n] => .ok (s.write (ofWord rt) (Word.zeroExtend n <<< 16)).next
  | "ori", [rt, rs, n] => .ok (s.write (ofWord rt) (r rs ||| Word.zeroExtend n)).next
  | "addiu", [rt, rs, n] =>
    .ok (s.write (ofWord rt) (r rs + Format.signExtend n.toNat)).next
  | "add", [rd, rs, rt] => .ok (s.addChecked (ofWord rd) (r rs) (r rt)).next
  | "addu", [rd, rs, rt] => .ok (s.write (ofWord rd) (r rs + r rt)).next
  | "lw", [rt, n, base] =>
    (s.load (ofWord rt) (r base + Format.signExtend n.toNat)).map next
  | "sw", [rt, n, base] =>
    (s.store (ofWord rt) (r base + Format.signExtend n.toNat)).map next
  | "beq", [rs, rt, target] => .ok (if r rs = r rt then s.goto target else s.next)
  | "bne", [rs, rt, target] => .ok (if r rs ≠ r rt then s.goto target else s.next)
  | mnemonic, _ => .error (.unknown mnemonic)

/-- Execute instructions in order. -/
def executeAll (parts : List (BasicInstruction × List Word)) (s : Machine) :
    Except Stop Machine :=
  parts.foldlM (fun s part => execute part.1 part.2 s) s

@[simp] theorem executeAll_nil (s : Machine) : executeAll [] s = .ok s := rfl

theorem executeAll_cons (i : BasicInstruction) (operands : List Word)
    (rest : List (BasicInstruction × List Word)) (s : Machine) :
    executeAll ((i, operands) :: rest) s = (execute i operands s).bind (executeAll rest) := rfl

theorem executeAll_singleton (i : BasicInstruction) (operands : List Word) (s : Machine) :
    executeAll [(i, operands)] s = execute i operands s := by
  rw [executeAll_cons]
  cases execute i operands s with
  | error e => rfl
  | ok t => rfl

/-- The effect of a pseudo-instruction by its own description, after which the machine is
past all of its words. -/
def perform (i : PseudoInstruction) (operands : List Word) (s : Machine) : Except Stop Machine :=
  let r := fun w => s.read (ofWord w)
  let past := s.pc + UInt32.ofNat (4 * i.templates.length)
  match i.mnemonic, operands with
  | "li", [rt, value] | "la", [rt, value] => .ok ((s.write (ofWord rt) value).goto past)
  | "move", [rd, rs] => .ok ((s.write (ofWord rd) (r rs)).goto past)
  | "b", [target] => .ok (s.goto target)
  | "beqz", [rs, target] => .ok (s.goto (if r rs = 0 then target else past))
  | "bnez", [rs, target] => .ok (s.goto (if r rs ≠ 0 then target else past))
  | "lw", [rt, address] => (s.load (ofWord rt) address).map (·.goto past)
  | "sw", [rt, address] => (s.store (ofWord rt) address).map (·.goto past)
  | "addi", [rt, rs, value] => .ok ((s.addChecked (ofWord rt) (r rs) value).goto past)
  | mnemonic, _ => .error (.unknown mnemonic)

/-- The register that a pseudo-instruction sets, if it sets one. -/
def destination? (i : PseudoInstruction) (operands : List Word) : Option Register :=
  match i.mnemonic, operands with
  | "li", rt :: _ | "la", rt :: _ | "move", rt :: _ | "lw", rt :: _ | "addi", rt :: _ =>
    some (ofWord rt)
  | _, _ => none

/-- From `s` an expansion has led to `t` and the description to `u`.  They differ at most
in the scratch register, unless that is the destination, and leave other registers alone. -/
structure Agrees (destination : Option Register) (s t u : Machine) : Prop where
  registers : ∀ r, r ≠ scratch ∨ destination = some r → t.read r = u.read r
  others : ∀ r, r ≠ scratch → destination ≠ some r → t.read r = s.read r
  pc : t.pc = u.pc
  memory : t.memory = u.memory
  overflowed : t.overflowed = u.overflowed

/-- Both go through and agree, or both stop at the same refused access. -/
inductive SameOutcome (destination : Option Register) (s : Machine) :
    Except Stop Machine → Except Stop Machine → Prop
  | done {t u : Machine} (agrees : Agrees destination s t u) :
      SameOutcome destination s (.ok t) (.ok u)
  | stopped (e : AddressError) :
      SameOutcome destination s (.error (.refused e)) (.error (.refused e))

/-! ## Sequences

What the two sequences that take apart a value of 32 bits leave behind.  The value is
operand `index` of those that are filled in. -/

section

variable (s : Machine)

theorem execute_lui_upper {n : Word} (hn : n.toNat < 0x10000) :
    execute BasicInstruction.lui [1, n] s = .ok (s.write scratch (n <<< 16)).next := by
  show Except.ok (s.write scratch (Word.zeroExtend n <<< 16)).next = _
  rw [Word.zeroExtend_of_lt hn]

theorem read_scratch (value : Word) : (s.write scratch value).next.read scratch = value := by
  show (s.write scratch value).read scratch = value
  rw [read_write, if_neg (by decide), if_pos rfl]

variable (operands : List Word) (index : Nat)

/-- Two instructions put the value into a register, by way of the scratch register. -/
theorem executeAll_load (into : Word) (rest : List (BasicInstruction × List Word)) :
    executeAll ((BasicInstruction.lui, [1, Slot.fill operands (.upper index)]) ::
        (BasicInstruction.ori, [into, 1, Slot.fill operands (.lower index)]) :: rest) s =
      executeAll rest ((s.write scratch (Slot.fill operands (.upper index) <<< 16)).next.write
        (ofWord into) (operands.getD index 0)).next := by
  have hupper : (Slot.fill operands (.upper index)).toNat < 0x10000 := by
    have hvalue := (operands.getD index 0).toNat_lt
    rw [Slot.toNat_upper]
    omega
  rw [executeAll_cons, execute_lui_upper s hupper]
  show executeAll rest (Machine.next (Machine.write _ (ofWord into)
    (Machine.read _ scratch ||| _))) = _
  rw [read_scratch, Slot.upper_or_lower]

/-- The access that follows the adjusted high half is to the address itself. -/
theorem executeAll_access (access : BasicInstruction) (r : Word) :
    executeAll [(BasicInstruction.lui, [1, Slot.fill operands (.upperAdjusted index)]),
        (access, [r, Slot.fill operands (.lowerSigned index), 1])] s =
      execute access [r, Slot.fill operands (.lowerSigned index), 1]
        (s.write scratch (Slot.fill operands (.upperAdjusted index) <<< 16)).next := by
  have hupper : (Slot.fill operands (.upperAdjusted index)).toNat < 0x10000 := by
    have hvalue := (operands.getD index 0 + 0x8000).toNat_lt
    rw [Slot.toNat_upperAdjusted]
    omega
  rw [executeAll_cons, execute_lui_upper s hupper]
  exact executeAll_singleton access _ _

theorem read_scratch_add :
    (s.write scratch (Slot.fill operands (.upperAdjusted index) <<< 16)).next.read scratch +
        Format.signExtend (Slot.fill operands (.lowerSigned index)).toNat =
      operands.getD index 0 := by
  rw [read_scratch, Slot.upperAdjusted_add_lowerSigned]

end

/-! ## Agreement -/

section

variable {s t : Machine} (hreads : ∀ r, r ≠ scratch → t.read r = s.read r) (past : Address)
  (memory : Memory) (overflowed : Bool)

include hreads

theorem agrees_none : Agrees none s { t with pc := past, memory, overflowed }
    { s with pc := past, memory, overflowed } where
  registers r hr := by
    rcases hr with hr | hr
    · exact hreads r hr
    · cases hr
  others r hr _ := hreads r hr
  pc := rfl
  memory := rfl
  overflowed := rfl

/-- A destination that gets the same value hides what its register held before. -/
theorem agrees_write (d : Register) (value : Word) :
    Agrees (some d) s { t.write d value with pc := past, memory, overflowed }
      { s.write d value with pc := past, memory, overflowed } where
  registers r hr := by
    show (t.write d value).read r = (s.write d value).read r
    by_cases hd : r = d
    · rw [read_write, read_write, if_pos hd, if_pos hd]
    · rcases hr with hr | hr
      · rw [read_write_of_ne t hd, read_write_of_ne s hd, hreads r hr]
      · exact absurd (Option.some.inj hr).symm hd
  others r hr hd := by
    have hne : r ≠ d := fun heq => hd (congrArg some heq.symm)
    exact (read_write_of_ne t hne value).trans (hreads r hr)
  pc := rfl
  memory := rfl
  overflowed := rfl

end

section

variable (s : Machine) (high : Word)

theorem read_of_ne_scratch {r : Register} (hr : r ≠ scratch) :
    (s.write scratch high).next.read r = s.read r :=
  read_write_of_ne s hr high

/-- Two instructions on. -/
theorem pc_add_eight : s.pc + 4 + 4 = s.pc + 8 := by
  rw [UInt32.add_assoc]
  rfl

theorem sameOutcome_load (d : Register) (address : Address) :
    SameOutcome (some d) s (((s.write scratch high).next.load d address).map next)
      ((s.load d address).map (·.goto (s.pc + 8))) := by
  have hsame : (s.write scratch high).next.memory = s.memory := rfl
  rw [load, load, hsame]
  rcases s.memory.fetch address 4 true with ⟨_ | value, memory⟩
  · exact .stopped _
  · refine .done ?_
    rw [← pc_add_eight]
    exact agrees_write (fun r => read_of_ne_scratch s high) _ memory s.overflowed d value

theorem sameOutcome_store {r : Register} (hr : r ≠ scratch) (address : Address) :
    SameOutcome none s (((s.write scratch high).next.store r address).map next)
      ((s.store r address).map (·.goto (s.pc + 8))) := by
  have hsame : (s.write scratch high).next.memory = s.memory := rfl
  rw [store, store, hsame, read_of_ne_scratch s high hr]
  rcases s.memory.store address (s.read r) 4 true with ⟨_ | old, memory⟩
  · exact .stopped _
  · refine .done ?_
    rw [← pc_add_eight]
    exact agrees_none (fun r => read_of_ne_scratch s high) _ memory s.overflowed

end

/-! ## Each pseudo-instruction -/

section

open PseudoInstruction OperandKind

variable (s : Machine) {rd rs rt value target : Word}

/-- A single instruction that sets the destination. -/
theorem sameOutcome_write (d : Register) (value : Word) :
    SameOutcome (some d) s (.ok (s.write d value).next)
      (.ok ((s.write d value).goto (s.pc + 4))) :=
  .done (agrees_write (fun _ _ => rfl) _ s.memory s.overflowed d value)

theorem sameOutcome_liSigned (hvalue : signed16.InRange value) :
    SameOutcome (destination? liSigned [rt, value]) s
      (executeAll (liSigned.expand [rt, value]) s) (perform liSigned [rt, value] s) := by
  show SameOutcome (some (ofWord rt)) s
    (executeAll [(BasicInstruction.addiu, [rt, 0, value])] s) _
  rw [executeAll_singleton]
  show SameOutcome _ s (.ok (s.write (ofWord rt) (0 + Format.signExtend value.toNat)).next) _
  rw [Format.signExtend_toNat hvalue, UInt32.zero_add]
  exact sameOutcome_write s (ofWord rt) value

theorem sameOutcome_liUnsigned (hvalue : unsigned16.InRange value) :
    SameOutcome (destination? liUnsigned [rt, value]) s
      (executeAll (liUnsigned.expand [rt, value]) s) (perform liUnsigned [rt, value] s) := by
  show SameOutcome (some (ofWord rt)) s
    (executeAll [(BasicInstruction.ori, [rt, 0, value])] s) _
  rw [executeAll_singleton]
  show SameOutcome _ s (.ok (s.write (ofWord rt) (0 ||| Word.zeroExtend value)).next) _
  rw [Word.zeroExtend_of_lt (inRange_unsigned16.mp hvalue), UInt32.zero_or]
  exact sameOutcome_write s (ofWord rt) value

theorem sameOutcome_move : SameOutcome (destination? move [rd, rs]) s
    (executeAll (move.expand [rd, rs]) s) (perform move [rd, rs] s) := by
  show SameOutcome (some (ofWord rd)) s
    (executeAll [(BasicInstruction.addu, [rd, 0, rs])] s) _
  rw [executeAll_singleton]
  show SameOutcome _ s (.ok (s.write (ofWord rd) (0 + s.read (ofWord rs))).next) _
  rw [UInt32.zero_add]
  exact sameOutcome_write s (ofWord rd) _

/-- `li` with a value of 32 bits and `la` are one sequence. -/
theorem sameOutcome_wide {i : PseudoInstruction} (hi : i = liWide ∨ i = la) :
    SameOutcome (destination? i [rt, value]) s (executeAll (i.expand [rt, value]) s)
      (perform i [rt, value] s) := by
  have hexpand : i.expand [rt, value] =
      [(BasicInstruction.lui, [1, Slot.fill [rt, value] (.upper 1)]),
        (BasicInstruction.ori, [rt, 1, Slot.fill [rt, value] (.lower 1)])] := by
    rcases hi with rfl | rfl <;> rfl
  have hperform : perform i [rt, value] s = .ok ((s.write (ofWord rt) value).goto (s.pc + 8)) := by
    rcases hi with rfl | rfl <;> rfl
  have hdestination : destination? i [rt, value] = some (ofWord rt) := by
    rcases hi with rfl | rfl <;> rfl
  rw [hexpand, hperform, hdestination, executeAll_load, executeAll_nil, ← pc_add_eight]
  exact .done (agrees_write (fun r => read_of_ne_scratch s _) _ s.memory s.overflowed _ value)

/-- Branches have no destination and no other effect than on the program counter. -/
theorem sameOutcome_goto (address : Address) :
    SameOutcome none s (.ok (s.goto address)) (.ok (s.goto address)) :=
  .done (agrees_none (fun _ _ => rfl) address s.memory s.overflowed)

theorem sameOutcome_b : SameOutcome (destination? b [target]) s
    (executeAll (b.expand [target]) s) (perform b [target] s) := by
  show SameOutcome none s (executeAll [(BasicInstruction.beq, [0, 0, target])] s) _
  rw [executeAll_singleton]
  show SameOutcome none s (.ok (if (0 : Word) = 0 then s.goto target else s.next)) _
  rw [if_pos rfl]
  exact sameOutcome_goto s target

theorem sameOutcome_beqz : SameOutcome (destination? beqz [rs, target]) s
    (executeAll (beqz.expand [rs, target]) s) (perform beqz [rs, target] s) := by
  show SameOutcome none s (executeAll [(BasicInstruction.beq, [rs, 0, target])] s)
    (.ok (s.goto (if s.read (ofWord rs) = 0 then target else s.pc + 4)))
  rw [executeAll_singleton]
  show SameOutcome none s
    (.ok (if s.read (ofWord rs) = 0 then s.goto target else s.next)) _
  split_ifs
  · exact sameOutcome_goto s target
  · exact sameOutcome_goto s (s.pc + 4)

theorem sameOutcome_bnez : SameOutcome (destination? bnez [rs, target]) s
    (executeAll (bnez.expand [rs, target]) s) (perform bnez [rs, target] s) := by
  show SameOutcome none s (executeAll [(BasicInstruction.bne, [rs, 0, target])] s)
    (.ok (s.goto (if s.read (ofWord rs) ≠ 0 then target else s.pc + 4)))
  rw [executeAll_singleton]
  show SameOutcome none s
    (.ok (if s.read (ofWord rs) ≠ 0 then s.goto target else s.next)) _
  split_ifs
  · exact sameOutcome_goto s target
  · exact sameOutcome_goto s (s.pc + 4)

theorem sameOutcome_lwLabel : SameOutcome (destination? lwLabel [rt, target]) s
    (executeAll (lwLabel.expand [rt, target]) s) (perform lwLabel [rt, target] s) := by
  show SameOutcome (some (ofWord rt)) s
    (executeAll [(BasicInstruction.lui, [1, Slot.fill [rt, target] (.upperAdjusted 1)]),
      (BasicInstruction.lw, [rt, Slot.fill [rt, target] (.lowerSigned 1), 1])] s) _
  rw [executeAll_access]
  show SameOutcome _ s ((Machine.load _ (ofWord rt) (Machine.read _ scratch + _)).map next) _
  rw [read_scratch_add]
  exact sameOutcome_load s _ (ofWord rt) target

theorem sameOutcome_swLabel (hrt : ofWord rt ≠ scratch) :
    SameOutcome (destination? swLabel [rt, target]) s
      (executeAll (swLabel.expand [rt, target]) s) (perform swLabel [rt, target] s) := by
  show SameOutcome none s
    (executeAll [(BasicInstruction.lui, [1, Slot.fill [rt, target] (.upperAdjusted 1)]),
      (BasicInstruction.sw, [rt, Slot.fill [rt, target] (.lowerSigned 1), 1])] s) _
  rw [executeAll_access]
  show SameOutcome none s
    ((Machine.store _ (ofWord rt) (Machine.read _ scratch + _)).map next) _
  rw [read_scratch_add]
  exact sameOutcome_store s _ hrt target

/-- The scratch register holds the value when it is added, so the source has to be another. -/
theorem sameOutcome_addiWide (hrs : ofWord rs ≠ scratch) :
    SameOutcome (destination? addiWide [rt, rs, value]) s
      (executeAll (addiWide.expand [rt, rs, value]) s) (perform addiWide [rt, rs, value] s) := by
  have hpast : s.pc + 4 + 4 + 4 = s.pc + 12 := by
    rw [pc_add_eight, UInt32.add_assoc]
    rfl
  show SameOutcome (some (ofWord rt)) s
    (executeAll ((BasicInstruction.lui, [1, Slot.fill [rt, rs, value] (.upper 2)]) ::
      (BasicInstruction.ori, [1, 1, Slot.fill [rt, rs, value] (.lower 2)]) ::
      [(BasicInstruction.add, [rt, rs, 1])]) s)
    (.ok ((s.addChecked (ofWord rt) (s.read (ofWord rs)) value).goto (s.pc + 12)))
  rw [executeAll_load, executeAll_singleton]
  let high := (s.write scratch (Slot.fill [rt, rs, value] (.upper 2) <<< 16)).next
  let loaded := (high.write scratch value).next
  have hreads : ∀ r, r ≠ scratch → loaded.read r = s.read r := fun r hr =>
    (read_of_ne_scratch high value hr).trans (read_of_ne_scratch s _ hr)
  show SameOutcome _ s (.ok (loaded.addChecked (ofWord rt) (loaded.read (ofWord rs))
    (loaded.read scratch)).next) _
  rw [hreads _ hrs, read_scratch, ← hpast]
  exact .done (agrees_write hreads _ s.memory _ (ofWord rt) _)

end

end Machine

/-! ## Ranges -/

namespace Slot

open OperandKind

/-- Whether a slot always gets a value of a kind, given the kinds of the operands that it
is filled from. -/
def suits (kinds : List OperandKind) (kind : OperandKind) : Slot → Bool
  | operand index => kinds[index]? == some kind
  | register _ => kind == .register || kind == .parenRegister
  | upper _ | lower _ | upperAdjusted _ => kind == .unsigned16
  | lowerSigned _ => kind == .signed16

theorem inRange_getD {kinds : List OperandKind} {operands : List Word}
    (hrange : List.Forall₂ InRange kinds operands) {index : Nat} {kind : OperandKind}
    (hkind : kinds[index]? = some kind) : kind.InRange (operands.getD index 0) := by
  induction hrange generalizing index with
  | nil => simp at hkind
  | cons hfirst _ ih =>
    cases index with
    | zero =>
      cases hkind
      exact hfirst
    | succ index => exact ih hkind

theorem inRange_fill {kinds : List OperandKind} {operands : List Word}
    (hrange : List.Forall₂ InRange kinds operands) {kind : OperandKind} {slot : Slot}
    (h : slot.suits kinds kind = true) : kind.InRange (slot.fill operands) := by
  cases slot with
  | operand index => exact inRange_getD hrange (beq_iff_eq.mp h)
  | register number =>
    have hnumber : (fill operands (register number)).toNat < 32 := by
      have := number.isLt
      rw [fill, UInt32.toNat_ofNat']
      omega
    rcases Bool.or_eq_true_iff.mp h with hkind | hkind
    · rw [beq_iff_eq.mp hkind]
      exact hnumber
    · rw [beq_iff_eq.mp hkind]
      exact hnumber
  | upper index =>
    have hvalue := (operands.getD index 0).toNat_lt
    rw [beq_iff_eq.mp h, inRange_unsigned16, toNat_upper]
    omega
  | lower index =>
    rw [beq_iff_eq.mp h, inRange_unsigned16, toNat_lower]
    omega
  | upperAdjusted index =>
    have hvalue := (operands.getD index 0 + 0x8000).toNat_lt
    rw [beq_iff_eq.mp h, inRange_unsigned16, toNat_upperAdjusted]
    omega
  | lowerSigned index =>
    rw [beq_iff_eq.mp h]
    exact Format.inRange_signExtend _

end Slot

namespace PseudoInstruction

open OperandKind

theorem suits_of_mem : ∀ i ∈ table, ∀ template ∈ i.templates,
    template.1 ∈ BasicInstruction.table ∧
    template.1.operandKinds ≠ [.register, .parenRegister] ∧
    List.Forall₂ (fun kind slot => Slot.suits i.operandKinds kind slot = true)
      template.1.operandKinds template.2 := by
  decide

/-- Every part of an expansion has operands that its encoding keeps whole. -/
theorem inRange_expand {i : PseudoInstruction} (hi : i ∈ table) {operands : List Word}
    (hrange : List.Forall₂ InRange i.operandKinds operands)
    {part : BasicInstruction × List Word} (hpart : part ∈ i.expand operands) :
    List.Forall₂ InRange part.1.operandKinds part.2 ∧
      ∀ address w, part.1.encode part.2 address = .ok w →
        part.1.decodeOperands w address = part.2 := by
  obtain ⟨template, htemplate, rfl⟩ := List.mem_map.mp hpart
  obtain ⟨hmem, hkinds, hsuits⟩ := suits_of_mem i hi template htemplate
  have hfilled : List.Forall₂ InRange template.1.operandKinds
      (template.2.map (Slot.fill operands)) :=
    List.forall₂_map_right_iff.mpr (hsuits.imp fun _ _ => Slot.inRange_fill hrange)
  exact ⟨hfilled, fun address w h =>
    BasicInstruction.decodeOperands_of_encode hmem hkinds hfilled h⟩

end PseudoInstruction

/-! ## The whole table -/

namespace Machine

open OperandKind PseudoInstruction
open Register (ofWord)

/-- Executing what a pseudo-instruction expands to has the effect of its description, and
nothing of an operand is lost when the parts are encoded.  Two of them read a source after
the scratch register is set, so theirs has to be another register. -/
theorem executeAll_expand {i : PseudoInstruction} (hi : i ∈ PseudoInstruction.table)
    {operands : List Word} (hrange : List.Forall₂ InRange i.operandKinds operands)
    (hstore : i = swLabel → ofWord (operands.getD 0 0) ≠ scratch)
    (hadd : i = addiWide → ofWord (operands.getD 1 0) ≠ scratch) (s : Machine) :
    SameOutcome (destination? i operands) s (executeAll (i.expand operands) s)
      (perform i operands s) ∧
    ∀ part ∈ i.expand operands, List.Forall₂ InRange part.1.operandKinds part.2 ∧
      ∀ address w, part.1.encode part.2 address = .ok w →
        part.1.decodeOperands w address = part.2 := by
  refine ⟨?_, fun part hpart => inRange_expand hi hrange hpart⟩
  simp only [PseudoInstruction.table, List.mem_cons, List.not_mem_nil, or_false] at hi
  rcases hi with rfl | rfl | rfl | rfl | rfl | rfl | rfl | rfl | rfl | rfl | rfl
  · obtain _ | ⟨-, _ | ⟨hvalue, _ | _⟩⟩ := hrange
    exact sameOutcome_liSigned s hvalue
  · obtain _ | ⟨-, _ | ⟨hvalue, _ | _⟩⟩ := hrange
    exact sameOutcome_liUnsigned s hvalue
  · obtain _ | ⟨-, _ | ⟨-, _ | _⟩⟩ := hrange
    exact sameOutcome_wide s (.inl rfl)
  · obtain _ | ⟨-, _ | ⟨-, _ | _⟩⟩ := hrange
    exact sameOutcome_wide s (.inr rfl)
  · obtain _ | ⟨-, _ | ⟨-, _ | _⟩⟩ := hrange
    exact sameOutcome_move s
  · obtain _ | ⟨-, _ | _⟩ := hrange
    exact sameOutcome_b s
  · obtain _ | ⟨-, _ | ⟨-, _ | _⟩⟩ := hrange
    exact sameOutcome_beqz s
  · obtain _ | ⟨-, _ | ⟨-, _ | _⟩⟩ := hrange
    exact sameOutcome_bnez s
  · obtain _ | ⟨-, _ | ⟨-, _ | _⟩⟩ := hrange
    exact sameOutcome_lwLabel s
  · obtain _ | ⟨-, _ | ⟨-, _ | _⟩⟩ := hrange
    exact sameOutcome_swLabel s (hstore rfl)
  · obtain _ | ⟨-, _ | ⟨-, _ | ⟨-, _ | _⟩⟩⟩ := hrange
    exact sameOutcome_addiWide s (hadd rfl)

/-- An address whose low half counts as negative, and a sum that goes into the scratch
register itself. -/
theorem executeAll_expand_negative_half :
    let s : Machine :=
      ⟨fun _ => 7, 0x00400000, .ofSettings ⟨Layout.standard, .little, false⟩, false⟩
    (swLabel.expand [8, 0x1000fffc] =
        [(BasicInstruction.lui, [1, 0x1001]), (BasicInstruction.sw, [8, 0xfffffffc, 1])] ∧
      SameOutcome none s (executeAll (swLabel.expand [8, 0x1000fffc]) s)
        ((s.store 8 0x1000fffc).map (·.goto 0x00400008))) ∧
    ∃ t, executeAll (addiWide.expand [1, 8, 0x8000ffff]) s = .ok t ∧
      t.read scratch = 0x80010006 ∧ t.pc = 0x0040000c := by
  intro s
  have hlabel : List.Forall₂ InRange swLabel.operandKinds [8, 0x1000fffc] := by decide
  have hvalue : List.Forall₂ InRange addiWide.operandKinds [1, 8, 0x8000ffff] := by decide
  obtain ⟨hstored, -⟩ := executeAll_expand (by decide) hlabel (by decide) (by decide) s
  obtain ⟨hsum, -⟩ := executeAll_expand (by decide) hvalue (by decide) (by decide) s
  refine ⟨⟨by decide, hstored⟩, ?_⟩
  have hperform : perform addiWide [1, 8, 0x8000ffff] s =
    .ok ((s.addChecked scratch 7 0x8000ffff).goto 0x0040000c) := rfl
  rw [hperform] at hsum
  generalize executeAll (addiWide.expand [1, 8, 0x8000ffff]) s = outcome at hsum
  cases hsum with
  | done hagrees => exact ⟨_, rfl, hagrees.registers scratch (.inr rfl), hagrees.pc⟩

end Machine
end MipsImage
