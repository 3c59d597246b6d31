/-
Instructions and words stand for each other.

Within a format this is a matter of fields.  The fields of an instruction do not
overlap, so a word gives back the operands it was made from, and together they fill
the word, so the operands give back the word.  Which instruction a word is read as
depends on the table: an entry is passed over for an earlier one only if the fixed
fields do not tell the two apart, and that happens for two kinds of pairs only.
-/
import MipsImage.Proofs.Instruction.Field
import MipsImage.Statement

namespace MipsImage

/-! ## Registers -/

namespace Register

/-- The register that an operand value names: its low five bits, as in an encoding. -/
def ofWord (w : Word) : Register :=
  ⟨w.toNat % 32, Nat.mod_lt _ (by decide)⟩

theorem val_ofWord {w : Word} (h : w.toNat < 32) : (ofWord w).val = w.toNat :=
  Nat.mod_eq_of_lt h

theorem ofNat_ofWord {w : Word} (h : w.toNat < 32) : UInt32.ofNat (ofWord w).val = w := by
  rw [val_ofWord h, UInt32.ofNat_toNat]

end Register

/-! ## Operand values -/

namespace OperandKind

/-- The values an operand of a kind can have. -/
def InRange : OperandKind → Word → Prop
  | register, value | parenRegister, value => value.toNat < 32
  | label, _ => True
  | kind, value => kind.acceptsValue value = true

instance (kind : OperandKind) (value : Word) : Decidable (kind.InRange value) := by
  cases kind <;> unfold InRange <;> infer_instance

theorem inRange_unsigned5 {value : Word} : unsigned5.InRange value ↔ value.toNat < 32 := by
  have hvalue := value.toNat_lt
  simp only [InRange, acceptsValue, Bool.and_eq_true, decide_eq_true_eq]
  unfold Word.signed
  split <;> omega

theorem inRange_unsigned16 {value : Word} : unsigned16.InRange value ↔ value.toNat < 0x10000 := by
  have hvalue := value.toNat_lt
  simp only [InRange, acceptsValue, Bool.and_eq_true, decide_eq_true_eq]
  unfold Word.signed
  split <;> omega

theorem inRange_signed16 {value : Word} :
    signed16.InRange value ↔ value.toNat < 0x8000 ∨ 0xffff8000 ≤ value.toNat := by
  have hvalue := value.toNat_lt
  simp only [InRange, acceptsValue, Bool.and_eq_true, decide_eq_true_eq]
  unfold Word.signed
  split <;> omega

end OperandKind

namespace Format

open BitField OperandKind

/-! ## Sign extension and targets -/

theorem toNat_signExtend (n : Nat) :
    (signExtend n).toNat =
      if n % 0x10000 < 0x8000 then n % 0x10000 else n % 0x10000 + 0xffff0000 := by
  rw [signExtend]
  split_ifs
  · rw [UInt32.toNat_ofNat']
    omega
  · rw [UInt32.toNat_ofNat']
    omega

theorem inRange_signExtend (n : Nat) : signed16.InRange (signExtend n) := by
  rw [inRange_signed16, toNat_signExtend]
  split_ifs <;> omega

theorem signExtend_of_inRange {value : Word} (h : signed16.InRange value) :
    signExtend (value.toNat % 2 ^ 16) = value := by
  have hvalue := value.toNat_lt
  rw [inRange_signed16] at h
  rw [← UInt32.toNat_inj, toNat_signExtend]
  split_ifs <;> omega

theorem toNat_signExtend_mod (n : Nat) : (signExtend n).toNat % 2 ^ 16 = n % 2 ^ 16 := by
  rw [toNat_signExtend]
  split_ifs <;> omega

theorem signExtend_mul_four {delta : Word} (haligned : delta.toNat % 4 = 0)
    (hlow : -0x8000 ≤ Word.signed delta / 4) (hhigh : Word.signed delta / 4 < 0x8000) :
    signExtend (delta.toNat / 4 % 2 ^ 16) * 4 = delta := by
  have hdelta := delta.toNat_lt
  have hextend := toNat_signExtend (delta.toNat / 4 % 2 ^ 16)
  have hproduct := UInt32.toNat_mul (signExtend (delta.toNat / 4 % 2 ^ 16)) 4
  have hfour : UInt32.toNat 4 = 4 := rfl
  rw [← UInt32.toNat_inj, hproduct, hfour, hextend]
  unfold Word.signed at hlow hhigh
  split_ifs at hlow hhigh ⊢ <;> omega

theorem target_of_branchOffset {address target : Address} {offset : Nat}
    (h : branchOffset address target = .ok offset) :
    address + 4 + signExtend (offset % 2 ^ 16) * 4 = target := by
  rw [branchOffset] at h
  split_ifs at h with haligned hrange
  cases h
  rw [not_or, Int.not_lt, Int.not_le] at hrange
  rw [signExtend_mul_four (not_not.mp haligned) hrange.1 hrange.2, UInt32.add_comm,
    UInt32.sub_add_cancel]

theorem branchOffset_target (address : Address) (n : Nat) :
    ∃ offset, branchOffset address (address + 4 + signExtend n * 4) = .ok offset ∧
      offset % 2 ^ 16 = n % 2 ^ 16 := by
  have hdelta : address + 4 + signExtend n * 4 - (address + 4) = signExtend n * 4 := by
    rw [UInt32.add_comm, UInt32.add_sub_cancel]
  have hvalue : (signExtend n * 4).toNat = (signExtend n).toNat * 4 % 2 ^ 32 :=
    UInt32.toNat_mul _ _
  have hextend := toNat_signExtend n
  refine ⟨(signExtend n * 4).toNat / 4, ?_, ?_⟩
  · rw [branchOffset, hdelta, if_neg (by omega), if_neg]
    unfold Word.signed
    split_ifs at hextend ⊢ <;> omega
  · split_ifs at hextend <;> omega

theorem target_of_jumpTarget {address target : Address} {field : Nat}
    (h : jumpTarget address target = .ok field) :
    UInt32.ofNat ((address + 4).toNat / 0x10000000 * 0x10000000 + field % 2 ^ 26 * 4) = target := by
  rw [jumpTarget] at h
  split_ifs at h with hregion haligned
  cases h
  have htarget := target.toNat_lt
  rw [← UInt32.toNat_inj, UInt32.toNat_ofNat']
  omega

theorem jumpTarget_target (address : Address) {n : Nat} (hn : n < 2 ^ 26) :
    ∃ field, jumpTarget address
      (UInt32.ofNat ((address + 4).toNat / 0x10000000 * 0x10000000 + n * 4)) = .ok field ∧
        field % 2 ^ 26 = n := by
  have hnext := (address + 4).toNat_lt
  refine ⟨(address + 4).toNat / 0x10000000 * 0x4000000 + n, ?_, by omega⟩
  rw [jumpTarget, UInt32.toNat_ofNat', if_neg (by omega), if_neg (by omega)]
  congr 1
  omega

/-! ## Fields of a format -/

/-- The fields for `count` operands. -/
def slots (count : Nat) : Format → List BitField
  | register _ => [rs, rt, rd]
  | shift _ => [rt, rd, shamt]
  | jumpRegister _ => [rs]
  | memory _ => if count = 2 then [rs, rt] else [rs, rt, BitField.immediate]
  | immediate _ | branch _ => [rs, rt, BitField.immediate]
  | upperImmediate _ => [rt, BitField.immediate]
  | jump _ => [target]
  | fixed _ => []

theorem operandFields_branch {n : Nat} {operands : List Word} {address : Address} {offset : Nat}
    (h : branchOffset address (operands.getD 2 0) = .ok offset) :
    (branch n).operandFields operands address =
      .ok [(rs, (operands.getD 0 0).toNat), (rt, (operands.getD 1 0).toNat),
        (BitField.immediate, offset)] := by
  simp only [operandFields, h]

theorem operandFields_jump {n : Nat} {operands : List Word} {address : Address} {field : Nat}
    (h : jumpTarget address (operands.getD 0 0) = .ok field) :
    (jump n).operandFields operands address = .ok [(target, field)] := by
  simp only [operandFields, h]

theorem map_fst_operandFields {f : Format} {operands : List Word} {address : Address}
    {fields : List (BitField × Nat)} (h : f.operandFields operands address = .ok fields) :
    fields.map Prod.fst = f.slots operands.length := by
  cases f with
  | memory n =>
    simp only [operandFields] at h
    simp only [slots]
    split_ifs at h ⊢ <;> cases h <;> rfl
  | branch n =>
    simp only [operandFields] at h
    split at h <;> cases h
    rfl
  | jump n =>
    simp only [operandFields] at h
    split at h <;> cases h
    rfl
  | _ =>
    cases h
    rfl

theorem apart_fields (f : Format) (count : Nat) :
    (f.fixedFields.map Prod.fst ++ f.slots count).Pairwise Apart := by
  cases f with
  | memory n =>
    by_cases hcount : count = 2 <;>
      simp [fixedFields, slots, hcount, Apart, opcode, rs, rt, BitField.immediate]
  | _ =>
    simp [fixedFields, slots, Apart, opcode, rs, rt, rd, shamt, funct, BitField.immediate, target]

theorem fields_fit (f : Format) (count : Nat) :
    ∀ field ∈ f.fixedFields.map Prod.fst ++ f.slots count, field.low + field.width ≤ 32 := by
  cases f with
  | memory n =>
    by_cases hcount : count = 2 <;>
      simp [fixedFields, slots, hcount, opcode, rs, rt, BitField.immediate]
  | _ =>
    simp [fixedFields, slots, opcode, rs, rt, rd, shamt, funct, BitField.immediate, target, whole]

/-- The fields of a word with an operand in each place leave no gap. -/
theorem fields_fill (f : Format) {count : Nat} (hcount : count ≠ 2 ∨ ∀ n, f ≠ memory n) :
    ∀ k < 32, ∃ field ∈ f.fixedFields.map Prod.fst ++ f.slots count, field.covers k = true := by
  cases f with
  | register n =>
    show ∀ k < 32, ∃ field ∈ [opcode, shamt, funct, rs, rt, rd], field.covers k = true
    decide
  | shift n =>
    show ∀ k < 32, ∃ field ∈ [opcode, rs, funct, rt, rd, shamt], field.covers k = true
    decide
  | jumpRegister n =>
    show ∀ k < 32, ∃ field ∈ [opcode, rt, rd, shamt, funct, rs], field.covers k = true
    decide
  | immediate n =>
    show ∀ k < 32, ∃ field ∈ [opcode, rs, rt, BitField.immediate], field.covers k = true
    decide
  | upperImmediate n =>
    show ∀ k < 32, ∃ field ∈ [opcode, rs, rt, BitField.immediate], field.covers k = true
    decide
  | memory n =>
    have hother : count ≠ 2 := hcount.resolve_right fun h => h n rfl
    simp only [slots, if_neg hother]
    show ∀ k < 32, ∃ field ∈ [opcode, rs, rt, BitField.immediate], field.covers k = true
    decide
  | branch n =>
    show ∀ k < 32, ∃ field ∈ [opcode, rs, rt, BitField.immediate], field.covers k = true
    decide
  | jump n =>
    show ∀ k < 32, ∃ field ∈ [opcode, target], field.covers k = true
    decide
  | fixed w =>
    show ∀ k < 32, ∃ field ∈ [whole], field.covers k = true
    decide

theorem encode_eq_ok_iff {f : Format} {operands : List Word} {address : Address} {w : Word} :
    f.encode operands address = .ok w ↔
      ∃ fields, f.operandFields operands address = .ok fields ∧
        compose (f.fixedFields ++ fields) = w := by
  rw [encode]
  cases f.operandFields operands address with
  | error e => simp
  | ok fields => simp

/-- An encoding holds each value in its field. -/
theorem get_of_encode {f : Format} {operands : List Word} {address : Address} {w : Word}
    (h : f.encode operands address = .ok w) :
    ∃ fields, f.operandFields operands address = .ok fields ∧
      ∀ x ∈ f.fixedFields ++ fields, x.1.get w = x.2 % 2 ^ x.1.width := by
  obtain ⟨fields, hfields, rfl⟩ := encode_eq_ok_iff.mp h
  refine ⟨fields, hfields, fun x hx => ?_⟩
  have hslots := map_fst_operandFields hfields
  have hapart := f.apart_fields operands.length
  have hfit := f.fields_fit operands.length
  rw [← hslots, ← List.map_append] at hapart hfit
  exact get_compose hapart hx (hfit _ (List.mem_map_of_mem hx))

/-- A word is the encoding that holds its own fields. -/
theorem encode_of_get {f : Format} {operands : List Word} {address : Address} {w : Word}
    {fields : List (BitField × Nat)} (haccepts : f.accepts w = true)
    (hcount : operands.length ≠ 2 ∨ ∀ n, f ≠ memory n)
    (hfields : f.operandFields operands address = .ok fields)
    (hvalues : ∀ x ∈ fields, x.2 % 2 ^ x.1.width = x.1.get w) :
    f.encode operands address = .ok w := by
  refine encode_eq_ok_iff.mpr ⟨fields, hfields, ?_⟩
  have hslots := map_fst_operandFields hfields
  have hapart := f.apart_fields operands.length
  have hfill := f.fields_fill hcount
  rw [← hslots, ← List.map_append] at hapart hfill
  refine compose_eq hapart hfill (List.forall_mem_append.mpr ⟨?_, hvalues⟩)
  intro x hx
  have hfixed : x.1.get w = x.2 := by
    simpa using List.all_eq_true.mp haccepts x hx
  rw [← hfixed]
  exact Nat.mod_eq_of_lt (x.1.get_lt w)

/-! ## Within a format -/

/-- The operand kinds that go with each format. -/
inductive Takes : Format → List OperandKind → Prop
  | threeRegister (n : Nat) : Takes (.register n) [.register, .register, .register]
  | shift (n : Nat) : Takes (.shift n) [.register, .register, .unsigned5]
  | jumpRegister (n : Nat) : Takes (.jumpRegister n) [.register]
  | signedImmediate (n : Nat) : Takes (.immediate n) [.register, .register, .signed16]
  | unsignedImmediate (n : Nat) : Takes (.immediate n) [.register, .register, .unsigned16]
  | upperImmediate (n : Nat) : Takes (.upperImmediate n) [.register, .unsigned16]
  | offsetAccess (n : Nat) : Takes (.memory n) [.register, .signed16, .parenRegister]
  | baseAccess (n : Nat) : Takes (.memory n) [.register, .parenRegister]
  | branch (n : Nat) : Takes (.branch n) [.register, .register, .label]
  | jump (n : Nat) : Takes (.jump n) [.label]
  | fixed (w : Word) : Takes (.fixed w) []

theorem ofNat_get {f : BitField} {w value : Word} {n : Nat} (hget : f.get w = value.toNat % n)
    (hvalue : value.toNat < n) : UInt32.ofNat (f.get w) = value := by
  rw [hget, Nat.mod_eq_of_lt hvalue, UInt32.ofNat_toNat]

theorem toNat_ofNat_get {f : BitField} (hwidth : f.width ≤ 32) (w : Word) :
    (UInt32.ofNat (f.get w)).toNat = f.get w := by
  have hlt := f.get_lt w
  have hle : 2 ^ f.width ≤ 2 ^ 32 := Nat.pow_le_pow_right (by decide) hwidth
  rw [UInt32.toNat_ofNat']
  exact Nat.mod_eq_of_lt (by omega)

theorem toNat_ofNat_get_mod {f : BitField} (hwidth : f.width ≤ 32) (w : Word) :
    (UInt32.ofNat (f.get w)).toNat % 2 ^ f.width = f.get w := by
  rw [toNat_ofNat_get hwidth]
  exact Nat.mod_eq_of_lt (f.get_lt w)

/-- Leaving the offset out is the same as writing none. -/
theorem encode_memory_base (n : Nat) (rt base : Word) (address : Address) :
    (memory n).encode [rt, base] address = (memory n).encode [rt, 0, base] address := by
  have hnone : BitField.immediate.put 0 = 0 := by decide
  simp [encode, operandFields, fixedFields, compose, hnone]

/-- The operands that a word was made from are read back from it. -/
theorem decode_of_encode {f : Format} {kinds : List OperandKind} (htakes : f.Takes kinds)
    (hkinds : kinds ≠ [.register, .parenRegister]) {operands : List Word}
    (hrange : List.Forall₂ InRange kinds operands) {address : Address} {w : Word}
    (h : f.encode operands address = .ok w) :
    f.decode w address (kinds.contains .signed16) = operands := by
  obtain ⟨fields, hfields, hget⟩ := get_of_encode h
  have hfield : ∀ {field value}, (field, value) ∈ fields →
      field.get w = value % 2 ^ field.width :=
    fun hmem => hget _ (List.mem_append_right _ hmem)
  cases htakes with
  | threeRegister n =>
    obtain _ | ⟨ha, _ | ⟨hb, _ | ⟨hc, _ | _⟩⟩⟩ := hrange
    rename_i a b c
    cases hfields
    have hrs : UInt32.ofNat (rs.get w) = b := ofNat_get (hfield (by simp)) hb
    have hrt : UInt32.ofNat (rt.get w) = c := ofNat_get (hfield (by simp)) hc
    have hrd : UInt32.ofNat (rd.get w) = a := ofNat_get (hfield (by simp)) ha
    simp only [decode, hrs, hrt, hrd]
  | shift n =>
    obtain _ | ⟨ha, _ | ⟨hb, _ | ⟨hc, _ | _⟩⟩⟩ := hrange
    rename_i a b c
    cases hfields
    rw [inRange_unsigned5] at hc
    have hrt : UInt32.ofNat (rt.get w) = b := ofNat_get (hfield (by simp)) hb
    have hrd : UInt32.ofNat (rd.get w) = a := ofNat_get (hfield (by simp)) ha
    have hshamt : UInt32.ofNat (shamt.get w) = c := ofNat_get (hfield (by simp)) hc
    simp only [decode, hrt, hrd, hshamt]
  | jumpRegister n =>
    obtain _ | ⟨ha, _ | _⟩ := hrange
    rename_i a
    cases hfields
    have hrs : UInt32.ofNat (rs.get w) = a := ofNat_get (hfield (by simp)) ha
    simp only [decode, hrs]
  | signedImmediate n =>
    obtain _ | ⟨ha, _ | ⟨hb, _ | ⟨hc, _ | _⟩⟩⟩ := hrange
    rename_i a b c
    cases hfields
    have hrs : UInt32.ofNat (rs.get w) = b := ofNat_get (hfield (by simp)) hb
    have hrt : UInt32.ofNat (rt.get w) = a := ofNat_get (hfield (by simp)) ha
    have hlow : BitField.immediate.get w = c.toNat % 2 ^ 16 := hfield (by simp)
    simp only [decode, hrs, hrt, hlow]
    rw [if_pos (by decide), signExtend_of_inRange hc]
  | unsignedImmediate n =>
    obtain _ | ⟨ha, _ | ⟨hb, _ | ⟨hc, _ | _⟩⟩⟩ := hrange
    rename_i a b c
    cases hfields
    rw [inRange_unsigned16] at hc
    have hrs : UInt32.ofNat (rs.get w) = b := ofNat_get (hfield (by simp)) hb
    have hrt : UInt32.ofNat (rt.get w) = a := ofNat_get (hfield (by simp)) ha
    have hlow : UInt32.ofNat (BitField.immediate.get w) = c := ofNat_get (hfield (by simp)) hc
    simp only [decode, hrs, hrt, hlow]
    rw [if_neg (by decide)]
  | upperImmediate n =>
    obtain _ | ⟨ha, _ | ⟨hb, _ | _⟩⟩ := hrange
    rename_i a b
    cases hfields
    rw [inRange_unsigned16] at hb
    have hrt : UInt32.ofNat (rt.get w) = a := ofNat_get (hfield (by simp)) ha
    have hlow : UInt32.ofNat (BitField.immediate.get w) = b := ofNat_get (hfield (by simp)) hb
    simp only [decode, hrt, hlow]
  | offsetAccess n =>
    obtain _ | ⟨ha, _ | ⟨hb, _ | ⟨hc, _ | _⟩⟩⟩ := hrange
    rename_i a b c
    cases hfields
    have hrs : UInt32.ofNat (rs.get w) = c := ofNat_get (hfield (by simp)) hc
    have hrt : UInt32.ofNat (rt.get w) = a := ofNat_get (hfield (by simp)) ha
    have hlow : BitField.immediate.get w = b.toNat % 2 ^ 16 := hfield (by simp)
    simp only [decode, hrs, hrt, hlow]
    rw [signExtend_of_inRange hb]
  | baseAccess n => exact absurd rfl hkinds
  | branch n =>
    obtain _ | ⟨ha, _ | ⟨hb, _ | ⟨-, _ | _⟩⟩⟩ := hrange
    rename_i a b c
    simp only [operandFields] at hfields
    split at hfields
    · cases hfields
    · rename_i offset hoffset
      cases hfields
      have hrs : UInt32.ofNat (rs.get w) = a := ofNat_get (hfield (by simp)) ha
      have hrt : UInt32.ofNat (rt.get w) = b := ofNat_get (hfield (by simp)) hb
      have hlow : BitField.immediate.get w = offset % 2 ^ 16 := hfield (by simp)
      simp only [decode, hrs, hrt, hlow]
      rw [target_of_branchOffset hoffset]
      rfl
  | jump n =>
    obtain _ | ⟨-, _ | _⟩ := hrange
    rename_i a
    simp only [operandFields] at hfields
    split at hfields
    · cases hfields
    · rename_i field hjump
      cases hfields
      have htarget : target.get w = field % 2 ^ 26 := hfield (by simp)
      simp only [decode, htarget]
      rw [target_of_jumpTarget hjump]
      rfl
  | fixed v =>
    cases hrange
    rfl

theorem inRange_decode {f : Format} {kinds : List OperandKind} (htakes : f.Takes kinds)
    (hkinds : kinds ≠ [.register, .parenRegister]) (w : Word) (address : Address) :
    List.Forall₂ InRange kinds (f.decode w address (kinds.contains .signed16)) := by
  have hregister : ∀ {f : BitField}, f.width = 5 → (UInt32.ofNat (f.get w)).toNat < 32 := by
    intro f hwidth
    have hlt := f.get_lt w
    rw [toNat_ofNat_get (by omega)]
    rwa [hwidth] at hlt
  have hlow : (UInt32.ofNat (BitField.immediate.get w)).toNat < 0x10000 := by
    rw [toNat_ofNat_get (by decide)]
    exact BitField.immediate.get_lt w
  have hrs : OperandKind.register.InRange (UInt32.ofNat (rs.get w)) := hregister rfl
  have hrt : OperandKind.register.InRange (UInt32.ofNat (rt.get w)) := hregister rfl
  have hrd : OperandKind.register.InRange (UInt32.ofNat (rd.get w)) := hregister rfl
  have hshamt : unsigned5.InRange (UInt32.ofNat (shamt.get w)) :=
    inRange_unsigned5.mpr (hregister rfl)
  have hunsigned := inRange_unsigned16.mpr hlow
  have hsigned := inRange_signExtend (BitField.immediate.get w)
  cases htakes with
  | threeRegister n => exact .cons hrd (.cons hrs (.cons hrt .nil))
  | shift n => exact .cons hrd (.cons hrt (.cons hshamt .nil))
  | jumpRegister n => exact .cons hrs .nil
  | signedImmediate n =>
    simp only [decode]
    rw [if_pos (by decide)]
    exact .cons hrt (.cons hrs (.cons hsigned .nil))
  | unsignedImmediate n =>
    simp only [decode]
    rw [if_neg (by decide)]
    exact .cons hrt (.cons hrs (.cons hunsigned .nil))
  | upperImmediate n => exact .cons hrt (.cons hunsigned .nil)
  | offsetAccess n => exact .cons hrt (.cons hsigned (.cons hrs .nil))
  | baseAccess n => exact absurd rfl hkinds
  | branch n => exact .cons hrs (.cons hrt (.cons trivial .nil))
  | jump n => exact .cons trivial .nil
  | fixed v => exact .nil

/-- What is read from a word of the format encodes to that word. -/
theorem encode_decode {f : Format} {kinds : List OperandKind} (htakes : f.Takes kinds)
    (hkinds : kinds ≠ [.register, .parenRegister]) {w : Word} (haccepts : f.accepts w = true)
    (address : Address) :
    f.encode (f.decode w address (kinds.contains .signed16)) address = .ok w := by
  have hrs := toNat_ofNat_get_mod (f := rs) (by decide) w
  have hrt := toNat_ofNat_get_mod (f := rt) (by decide) w
  have hrd := toNat_ofNat_get_mod (f := rd) (by decide) w
  have hshamt := toNat_ofNat_get_mod (f := shamt) (by decide) w
  have hunsigned := toNat_ofNat_get_mod (f := BitField.immediate) (by decide) w
  have hlow : BitField.immediate.get w < 2 ^ 16 := BitField.immediate.get_lt w
  have hsigned : (signExtend (BitField.immediate.get w)).toNat % 2 ^ BitField.immediate.width =
      BitField.immediate.get w :=
    (toNat_signExtend_mod _).trans (Nat.mod_eq_of_lt hlow)
  cases htakes with
  | threeRegister n =>
    refine encode_of_get haccepts (.inl (by simp [decode])) rfl ?_
    simp only [decode, List.forall_mem_cons, List.getD_cons_zero, List.getD_cons_succ]
    exact ⟨hrs, hrt, hrd, List.forall_mem_nil _⟩
  | shift n =>
    refine encode_of_get haccepts (.inl (by simp [decode])) rfl ?_
    simp only [decode, List.forall_mem_cons, List.getD_cons_zero, List.getD_cons_succ]
    exact ⟨hrt, hrd, hshamt, List.forall_mem_nil _⟩
  | jumpRegister n =>
    refine encode_of_get haccepts (.inl (by simp [decode])) rfl ?_
    simp only [decode, List.forall_mem_cons, List.getD_cons_zero]
    exact ⟨hrs, List.forall_mem_nil _⟩
  | signedImmediate n =>
    refine encode_of_get haccepts (.inl (by simp [decode])) rfl ?_
    simp only [decode, List.forall_mem_cons, List.getD_cons_zero, List.getD_cons_succ]
    rw [if_pos (by decide)]
    exact ⟨hrs, hrt, hsigned, List.forall_mem_nil _⟩
  | unsignedImmediate n =>
    refine encode_of_get haccepts (.inl (by simp [decode])) rfl ?_
    simp only [decode, List.forall_mem_cons, List.getD_cons_zero, List.getD_cons_succ]
    rw [if_neg (by decide)]
    exact ⟨hrs, hrt, hunsigned, List.forall_mem_nil _⟩
  | upperImmediate n =>
    refine encode_of_get haccepts (.inr (by simp)) rfl ?_
    simp only [decode, List.forall_mem_cons, List.getD_cons_zero, List.getD_cons_succ]
    exact ⟨hrt, hunsigned, List.forall_mem_nil _⟩
  | offsetAccess n =>
    refine encode_of_get haccepts (.inl (by simp [decode])) rfl ?_
    simp only [decode, List.forall_mem_cons, List.getD_cons_zero, List.getD_cons_succ]
    exact ⟨hrs, hrt, hsigned, List.forall_mem_nil _⟩
  | baseAccess n => exact absurd rfl hkinds
  | branch n =>
    obtain ⟨offset, hoffset, hmod⟩ := branchOffset_target address (BitField.immediate.get w)
    have hfield : offset % 2 ^ BitField.immediate.width = BitField.immediate.get w :=
      hmod.trans (Nat.mod_eq_of_lt hlow)
    simp only [decode]
    refine encode_of_get haccepts (.inl (by simp)) (operandFields_branch hoffset) ?_
    simp only [List.forall_mem_cons, List.getD_cons_zero, List.getD_cons_succ]
    exact ⟨hrs, hrt, hfield, List.forall_mem_nil _⟩
  | jump n =>
    obtain ⟨field, hjump, hfield⟩ := jumpTarget_target address (target.get_lt w)
    simp only [decode]
    refine encode_of_get haccepts (.inl (by simp)) (operandFields_jump hjump) ?_
    simp only [List.forall_mem_cons]
    exact ⟨hfield, List.forall_mem_nil _⟩
  | fixed v => exact encode_of_get haccepts (.inl (by simp [decode])) rfl (List.forall_mem_nil _)

/-! ## Words of several formats -/

theorem accepts_iff {f : Format} {w : Word} :
    f.accepts w = true ↔ ∀ x ∈ f.fixedFields, x.1.get w = x.2 := by
  simp [accepts]

theorem accepts_fixed {v w : Word} : (fixed v).accepts w = true ↔ w = v := by
  have hwhole : whole.get w = w.toNat := by
    have hw := w.toNat_lt
    show w.toNat >>> 0 % 2 ^ 32 = w.toNat
    omega
  rw [accepts_iff, fixedFields, List.forall_mem_singleton, hwhole]
  exact UInt32.toNat_inj

/-- The fixed fields of a format can hold their values. -/
def Valid (f : Format) : Prop :=
  ∀ x ∈ f.fixedFields, x.2 < 2 ^ x.1.width

instance (f : Format) : Decidable f.Valid :=
  inferInstanceAs (Decidable (∀ x ∈ f.fixedFields, x.2 < 2 ^ x.1.width))

theorem accepts_of_encode {f : Format} (hvalid : f.Valid) {operands : List Word}
    {address : Address} {w : Word} (h : f.encode operands address = .ok w) :
    f.accepts w = true := by
  obtain ⟨fields, -, hget⟩ := get_of_encode h
  rw [accepts_iff]
  intro x hx
  rw [hget x (List.mem_append_left _ hx)]
  exact Nat.mod_eq_of_lt (hvalid x hx)

/-- Some field that both fix has different values. -/
def excludes (f g : Format) : Bool :=
  match f, g with
  | fixed v, g => !g.accepts v
  | f, fixed v => !f.accepts v
  | f, g => f.fixedFields.any fun x => g.fixedFields.any fun y => x.1 == y.1 && x.2 != y.2

theorem not_accepts_of_excludes {f g : Format} (h : f.excludes g = true) {w : Word}
    (hg : g.accepts w = true) : f.accepts w = false := by
  rw [← Bool.not_eq_true]
  intro hf
  rw [excludes.eq_def] at h
  split at h
  · rw [accepts_fixed] at hf
    rw [← hf, hg] at h
    cases h
  · rw [accepts_fixed] at hg
    rw [← hg, hf] at h
    cases h
  · simp only [List.any_eq_true, Bool.and_eq_true, beq_iff_eq, bne_iff_ne] at h
    obtain ⟨x, hx, y, hy, hfield, hvalue⟩ := h
    apply hvalue
    rw [← accepts_iff.mp hf x hx, ← accepts_iff.mp hg y hy, hfield]

end Format

/-! ## The table -/

namespace BasicInstruction

open OperandKind Format

/-- The accesses with an offset, and those without. -/
def accessForms : List (BasicInstruction × BasicInstruction) :=
  [(lb, lbBase), (lh, lhBase), (lw, lwBase), (lbu, lbuBase), (lhu, lhuBase), (sb, sbBase),
   (sh, shBase), (sw, swBase)]

/-- The entries that some word could also be read as. -/
def rivals (i : BasicInstruction) : List BasicInstruction :=
  table.filter fun j => !j.format.excludes i.format

theorem takes_of_mem : ∀ i ∈ table, i.format.Takes i.operandKinds := by
  simp only [table, List.forall_mem_cons]
  repeat' constructor
  simp

theorem valid_of_mem : ∀ i ∈ table, i.format.Valid := by
  decide +kernel

theorem rivals_of_mem : ∀ i ∈ table,
    (rivals i = [i] ∧ i ≠ sll ∧ i.operandKinds ≠ [.register, .parenRegister]) ∨
    (rivals i = [nop, sll] ∧ (i = nop ∨ i = sll)) ∨
    ∃ forms ∈ accessForms, rivals i = [forms.1, forms.2] ∧ (i = forms.1 ∨ i = forms.2) := by
  decide +kernel

theorem forms_of_mem : ∀ forms ∈ accessForms,
    forms.1 ∈ table ∧ forms.1 ≠ sll ∧ forms.1.mnemonic = forms.2.mnemonic ∧
    forms.1.format = forms.2.format ∧
    forms.1.operandKinds = [.register, .signed16, .parenRegister] ∧
    forms.2.operandKinds = [.register, .parenRegister] := by
  decide +kernel

theorem ofWord?_eq_find? {i : BasicInstruction} {w : Word} (h : i.format.accepts w = true) :
    ofWord? w = (rivals i).find? fun j => j.format.accepts w := by
  rw [rivals, List.find?_filter, ofWord?]
  congr 1
  funext j
  cases haccepts : j.format.accepts w with
  | false => simp
  | true =>
    have hopen : j.format.excludes i.format = false := by
      rw [← Bool.not_eq_true]
      intro hexcludes
      rw [not_accepts_of_excludes hexcludes h] at haccepts
      cases haccepts
    simp [hopen]

/-- An instruction that a word has the fixed fields of is the one it is read as, but for
the word zero and for accesses without an offset. -/
theorem ofWord?_of_accepts {i : BasicInstruction} (hi : i ∈ table) {w : Word}
    (h : i.format.accepts w = true) :
    (ofWord? w = some i ∧ ¬ (i = sll ∧ w = 0) ∧
      i.operandKinds ≠ [.register, .parenRegister]) ∨
    (ofWord? w = some nop ∧ i = sll ∧ w = 0) ∨
    ∃ j ∈ table, ofWord? w = some j ∧ j.mnemonic = i.mnemonic ∧ j.format = i.format ∧
      j.operandKinds = [.register, .signed16, .parenRegister] ∧
      i.operandKinds = [.register, .parenRegister] := by
  have hfind := ofWord?_eq_find? h
  rcases rivals_of_mem i hi with ⟨hrivals, hshift, hkinds⟩ | ⟨hrivals, rfl | rfl⟩ |
    ⟨forms, hforms, hrivals, hform⟩
  · refine .inl ⟨?_, fun hzero => hshift hzero.1, hkinds⟩
    simp [hfind, hrivals, h]
  · refine .inl ⟨?_, fun hzero => absurd hzero.1 (by decide), by decide⟩
    simp [hfind, hrivals, h]
  · by_cases hzero : w = 0
    · subst hzero
      exact .inr (.inl ⟨by decide, rfl, rfl⟩)
    · have hnop : nop.format.accepts w = false := by
        rw [← Bool.not_eq_true]
        exact fun haccepts => hzero (accepts_fixed.mp haccepts)
      refine .inl ⟨?_, fun hsame => hzero hsame.2, by decide⟩
      simp [hfind, hrivals, hnop, h]
  · obtain ⟨hmem, hshift, hmnemonic, hformat, hoffset, hbase⟩ := forms_of_mem forms hforms
    rcases hform with rfl | rfl
    · refine .inl ⟨?_, fun hzero => hshift hzero.1, ?_⟩
      · simp [hfind, hrivals, h]
      · rw [hoffset]
        decide
    · refine .inr (.inr ⟨forms.1, hmem, ?_, hmnemonic, hformat, hoffset, hbase⟩)
      rw [← hformat] at h
      simp [hfind, hrivals, h]

/-- How an instruction comes out of its own encoding.  A shift that does nothing is read
as `nop`, and an access without an offset as one with the offset zero. -/
inductive ReadsAs : BasicInstruction → List Word → BasicInstruction → List Word → Prop
  | noOperation : ReadsAs sll [0, 0, 0] nop []
  | zeroOffset {i j : BasicInstruction} {rt base : Word}
      (kinds : i.operandKinds = [.register, .parenRegister]) (mem : j ∈ table)
      (mnemonic : j.mnemonic = i.mnemonic)
      (offset : j.operandKinds = [.register, .signed16, .parenRegister]) :
      ReadsAs i [rt, base] j [rt, 0, base]
  | itself {i : BasicInstruction} {operands : List Word}
      (shift : ¬ (i = sll ∧ operands = [0, 0, 0]))
      (kinds : i.operandKinds ≠ [.register, .parenRegister]) :
      ReadsAs i operands i operands

theorem decodeOperands_of_encode {i : BasicInstruction} (hi : i ∈ table)
    (hkinds : i.operandKinds ≠ [.register, .parenRegister]) {operands : List Word}
    (hrange : List.Forall₂ InRange i.operandKinds operands) {address : Address} {w : Word}
    (h : i.encode operands address = .ok w) : i.decodeOperands w address = operands :=
  decode_of_encode (takes_of_mem i hi) hkinds hrange h

theorem encode_offset_of_base {i j : BasicInstruction} (hj : j ∈ table)
    (hformat : j.format = i.format)
    (hoffset : j.operandKinds = [.register, .signed16, .parenRegister]) (rt base : Word)
    (address : Address) : j.encode [rt, 0, base] address = i.encode [rt, base] address := by
  have htakes := takes_of_mem j hj
  rw [hoffset] at htakes
  show j.format.encode _ _ = i.format.encode _ _
  rw [← hformat]
  generalize j.format = f at htakes
  cases htakes with
  | offsetAccess n => exact (encode_memory_base n rt base address).symm

theorem readsAs_of_encode {i : BasicInstruction} (hi : i ∈ table) {operands : List Word}
    (hrange : List.Forall₂ InRange i.operandKinds operands) {address : Address} {w : Word}
    (h : i.encode operands address = .ok w) :
    ∃ j, ofWord? w = some j ∧ ReadsAs i operands j (j.decodeOperands w address) := by
  have haccepts : i.format.accepts w = true := accepts_of_encode (valid_of_mem i hi) h
  rcases ofWord?_of_accepts hi haccepts with ⟨hread, hshift, hkinds⟩ | ⟨hread, rfl, rfl⟩ |
    ⟨j, hj, hread, hmnemonic, hformat, hoffset, hbase⟩
  · refine ⟨i, hread, ?_⟩
    rw [decodeOperands_of_encode hi hkinds hrange h]
    refine .itself ?_ hkinds
    rintro ⟨rfl, rfl⟩
    exact hshift ⟨rfl, (Except.ok.inj h).symm⟩
  · have hoperands := decodeOperands_of_encode hi (by decide) hrange h
    refine ⟨nop, hread, ?_⟩
    rw [← hoperands]
    exact .noOperation
  · refine ⟨j, hread, ?_⟩
    rw [hbase] at hrange
    obtain _ | ⟨hrt, _ | ⟨hrs, _ | _⟩⟩ := hrange
    rename_i rt base
    have hrange' : List.Forall₂ InRange j.operandKinds [rt, 0, base] := by
      rw [hoffset]
      exact .cons hrt (.cons (by decide) (.cons hrs .nil))
    have h' := (encode_offset_of_base hj hformat hoffset rt base address).trans h
    rw [decodeOperands_of_encode hj (by rw [hoffset]; decide) hrange' h']
    exact .zeroOffset hbase hj hmnemonic hoffset

theorem encode_of_ofWord? {i : BasicInstruction} {w : Word} (h : ofWord? w = some i)
    (address : Address) :
    i ∈ table ∧ List.Forall₂ InRange i.operandKinds (i.decodeOperands w address) ∧
      i.encode (i.decodeOperands w address) address = .ok w := by
  have hi : i ∈ table := List.mem_of_find?_eq_some h
  have haccepts : i.format.accepts w = true :=
    List.find?_some (p := fun j : BasicInstruction => j.format.accepts w) h
  have hkinds : i.operandKinds ≠ [.register, .parenRegister] := by
    rcases ofWord?_of_accepts hi haccepts with ⟨-, -, hkinds⟩ | ⟨-, rfl, -⟩ |
      ⟨j, -, hread, -, -, hoffset, hbase⟩
    · exact hkinds
    · decide
    · rw [h] at hread
      cases hread
      rw [hoffset] at hbase
      cases hbase
  have htakes := takes_of_mem i hi
  exact ⟨hi, inRange_decode htakes hkinds w address, encode_decode htakes hkinds haccepts address⟩

end BasicInstruction

namespace EncodedStatement

open BasicInstruction OperandKind

/-- Decoding an encoding gives the instruction and the operands back, up to the two
aliases. -/
theorem decode?_of_encode {i : BasicInstruction} (hi : i ∈ table) {operands : List Word}
    (hrange : List.Forall₂ InRange i.operandKinds operands) {address : Address} {w : Word}
    (h : i.encode operands address = .ok w) :
    ∃ st, decode? w address = some st ∧ st.binary = w ∧
      ReadsAs i operands st.instruction st.operands := by
  obtain ⟨j, hj, hreads⟩ := readsAs_of_encode hi hrange h
  refine ⟨⟨j, j.decodeOperands w address, w, none⟩, ?_, rfl, hreads⟩
  rw [decode?, hj]
  rfl

/-- A branch back across address zero, and a store without an offset. -/
theorem decode?_of_encode_wrapped :
    (bne.encode [8, 0, 0xfffffff8] 4 = .ok 0x1500fffc ∧
      ∃ st, decode? 0x1500fffc 4 = some st ∧ st.binary = 0x1500fffc ∧
        ReadsAs bne [8, 0, 0xfffffff8] st.instruction st.operands) ∧
    (swBase.encode [8, 29] 0 = .ok 0xafa80000 ∧
      ∃ st, decode? 0xafa80000 0 = some st ∧ st.binary = 0xafa80000 ∧
        ReadsAs swBase [8, 29] st.instruction st.operands) :=
  ⟨⟨by decide, decode?_of_encode (by decide) (by decide) (by decide)⟩,
    ⟨by decide, decode?_of_encode (by decide) (by decide) (by decide)⟩⟩

/-- Encoding what a word decodes to gives the word back, at any address. -/
theorem encode_of_decode? {w : Word} {address : Address} {st : EncodedStatement}
    (h : decode? w address = some st) :
    st.instruction ∈ table ∧ st.binary = w ∧
      List.Forall₂ InRange st.instruction.operandKinds st.operands ∧
      st.instruction.encode st.operands address = .ok w := by
  obtain ⟨i, hi, rfl⟩ := Option.map_eq_some_iff.mp h
  obtain ⟨hmem, hrange, hencode⟩ := encode_of_ofWord? hi address
  exact ⟨hmem, rfl, hrange, hencode⟩

/-- The longest branch back, from an address that is neither aligned nor four below the
end. -/
theorem encode_of_decode?_misaligned :
    ∃ st, decode? 0x11098000 0xfffffffe = some st ∧ st.operands = [8, 9, 0xfffe0002] ∧
      st.instruction.encode st.operands 0xfffffffe = .ok 0x11098000 := by
  have hdecode : decode? 0x11098000 0xfffffffe =
      some ⟨beq, [8, 9, 0xfffe0002], 0x11098000, none⟩ := by decide
  obtain ⟨-, -, -, hencode⟩ := encode_of_decode? hdecode
  exact ⟨_, hdecode, rfl, hencode⟩

end EncodedStatement
end MipsImage
