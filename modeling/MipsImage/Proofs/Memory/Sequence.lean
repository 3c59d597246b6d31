/-
Values stored one after the other.

`Stores` is a run of stores of one size at consecutive addresses, none of which is refused.
`FlatBytes.lay` is what such a run puts into a flat array of bytes.  Where listeners are
passive, the two agree.

Bytes that were laid down with a zero after them are read back up to it.
-/
import MipsImage.Memory.Inspect
import MipsImage.Proofs.Memory.Bytes

namespace MipsImage
namespace FlatBytes

/-- Values of `size` bytes each, from `a` on.  Where they go once around the address space, the
later ones stay. -/
def lay (order : ByteOrder) (size : Nat) (b : FlatBytes) (a : Address) : List Word → FlatBytes
  | [] => b
  | v :: vs =>
    lay order size (b.write a (order.toBytes size v.toNat)) (a + UInt32.ofNat size) vs

/-- Values that do not go around are written as one run of bytes. -/
theorem lay_eq_write {order : ByteOrder} {size : Nat} {b : FlatBytes} {a : Address}
    {vs : List Word} (h : size * vs.length ≤ 4294967296) :
    lay order size b a vs = b.write a (vs.flatMap fun v => order.toBytes size v.toNat) := by
  induction vs generalizing b a with
  | nil => rw [lay, List.flatMap_nil, write_nil]
  | cons v vs ih =>
    rw [List.length_cons, Nat.mul_add_one] at h
    have hlength : (order.toBytes size v.toNat).length = size := ByteOrder.length_toBytes _ _ _
    have hrest : (vs.flatMap fun v => order.toBytes size v.toNat).length = size * vs.length := by
      simp [List.length_flatMap, ByteOrder.length_toBytes, Nat.mul_comm]
    rw [lay, ih (by omega), List.flatMap_cons, ← write_write b a (by omega), hlength]

theorem read_cons (b : FlatBytes) (a : Address) (n : Nat) :
    b.read a (n + 1) = b a :: b.read (a + 1) n := by
  rw [Nat.add_comm, read_add]
  show (b (a + 0) :: []) ++ b.read (a + 1) n = _
  rw [UInt32.add_zero, List.singleton_append]

end FlatBytes

namespace Memory

/-! ## Stores in a row -/

/-- Storing `values` of `size` bytes each, from an address on, takes one memory to the other. -/
inductive Stores (size : Nat) : Memory → Address → List Word → Memory → Prop where
  | nil (m : Memory) (address : Address) : Stores size m address [] m
  | cons {m m₁ m' : Memory} {address : Address} {value old : Word} {values : List Word}
      (first : m.store address value size true = (.ok old, m₁))
      (rest : Stores size m₁ (address + UInt32.ofNat size) values m') :
      Stores size m address (value :: values) m'

namespace Stores

variable {size : Nat} {m m₁ m' : Memory} {a : Address} {us vs : List Word}

theorem append (h : Stores size m a us m₁)
    (k : Stores size m₁ (a + UInt32.ofNat (size * us.length)) vs m') :
    Stores size m a (us ++ vs) m' := by
  induction h with
  | nil m a =>
    rw [List.length_nil, Nat.mul_zero, show UInt32.ofNat 0 = 0 from rfl, UInt32.add_zero] at k
    exact k
  | cons first rest ih =>
    refine .cons first (ih ?_)
    rwa [List.length_cons, Nat.mul_add_one, Nat.add_comm, UInt32.ofNat_add,
      ← UInt32.add_assoc] at k

/-- A run of stores lays its values down in order and touches no other byte. -/
theorem lays (h : Stores size m a vs m') (hsize : size = 1 ∨ size = 2 ∨ size = 4)
    (hm : m.Passive) : Frame m m' ∧ m'.byteAt = FlatBytes.lay m.order size m.byteAt a vs := by
  induction h with
  | nil m a => exact ⟨.refl m, rfl⟩
  | cons first rest ih =>
    obtain ⟨hwrote, -⟩ := store_bytes hm hsize first
    obtain ⟨hframe, hbytes⟩ := ih (hwrote.within hm)
    refine ⟨hwrote.toFrame.trans hframe, ?_⟩
    rw [hbytes, hwrote.order, hwrote.bytes]
    rfl

end Stores

/-! ## Bytes up to a zero -/

theorem peek_byte {m : Memory} {x : Address} (h : (m.wordAt (Word.containing x)).isSome) :
    ∃ access, m.peek x 1 = .ok access ∧ access.value.toNat = (m.byteAt x).toNat := by
  obtain ⟨word, hword⟩ := Option.isSome_iff_exists.mp h
  obtain ⟨area, harea, hin⟩ := Option.map_eq_some_iff.mp hword
  have halign : misalignment? x 1 = none := if_pos (Nat.mod_one _)
  have hfits : ByteOrder.Fits x 1 := fits_of_misalignment? (.inl rfl) halign
  have hsmall := toNat_extract_lt m.order hfits word
  refine ⟨⟨x, 1, m.order.extract word x 1, Word.containing x, word⟩, ?_, ?_⟩
  · simp only [peek, halign, harea, hin]
  · rw [byteAt, hword, Option.getD_some, UInt8.toNat_ofNat']
    exact (Nat.mod_eq_of_lt hsmall).symm

/-- Bytes with a zero after them are read up to it. -/
theorem fetchBytes_of_read {m : Memory} {c : Address} {bytes : List UInt8} (hzero : 0 ∉ bytes)
    (hread : FlatBytes.read m.byteAt c (bytes.length + 1) = bytes ++ [0])
    (hwords : ∀ i ≤ bytes.length, (m.wordAt (Word.containing (c + UInt32.ofNat i))).isSome)
    (hend : c.toNat + bytes.length < 4294967296) : m.fetchBytes c = .ok bytes := by
  induction bytes generalizing c with
  | nil =>
    obtain ⟨access, hpeek, hvalue⟩ := peek_byte (UInt32.add_zero c ▸ hwords 0 (Nat.zero_le _))
    have hbyte : m.byteAt c = 0 := by
      rw [FlatBytes.read_cons] at hread
      exact (List.cons.inj hread).1
    have hvalue : access.value = 0 := by
      rw [← UInt32.toNat_inj, hvalue, hbyte]
      rfl
    rw [fetchBytes, hpeek]
    simp only [hvalue, if_true]
  | cons byte bytes ih =>
    rw [List.length_cons] at hread hwords hend
    obtain ⟨access, hpeek, hvalue⟩ := peek_byte (UInt32.add_zero c ▸ hwords 0 (Nat.zero_le _))
    rw [FlatBytes.read_cons, List.cons_append] at hread
    obtain ⟨hbyte, hrest⟩ := List.cons.inj hread
    have hnext : (c + 1).toNat = c.toNat + 1 := by
      rw [UInt32.toNat_add, show (1 : UInt32).toNat = 1 from rfl]
      omega
    have hne : access.value ≠ 0 := by
      intro h
      rw [h, hbyte] at hvalue
      refine List.ne_of_not_mem_cons hzero (UInt8.toNat_inj.mp ?_)
      exact hvalue
    have hsmall : UInt8.ofNat access.value.toNat = byte := by
      rw [hvalue, hbyte, UInt8.ofNat_toNat]
    rw [fetchBytes, hpeek]
    simp only [if_neg hne]
    rw [dif_pos (by omega), ih (List.not_mem_of_not_mem_cons hzero) hrest ?_ (by omega)]
    · simp only [hsmall]
    · intro i hi
      have hword := hwords (i + 1) (by omega)
      rwa [Nat.add_comm i, UInt32.ofNat_add, ← UInt32.add_assoc] at hword

end Memory
end MipsImage
