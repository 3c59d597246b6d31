/-
Bit fields of a word.

A word is composed by adding its fields up.  As long as no two of them share a bit
there are no carries, so the bits of the sum can be told one at a time, and the rest
is read off the bits: a field gives back what was put into it, and fields that leave
no gap determine the word.
-/
import Mathlib
import MipsImage.Instruction.Format

namespace MipsImage
namespace BitField

def covers (f : BitField) (k : Nat) : Bool :=
  f.low ≤ k && k < f.low + f.width

/-- No bit belongs to both. -/
def Apart (f g : BitField) : Prop :=
  f.low + f.width ≤ g.low ∨ g.low + g.width ≤ f.low

instance (f g : BitField) : Decidable (f.Apart g) :=
  inferInstanceAs (Decidable (_ ∨ _))

theorem covers_eq_true_iff {f : BitField} {k : Nat} :
    f.covers k = true ↔ f.low ≤ k ∧ k < f.low + f.width := by
  simp [covers]

theorem Apart.not_covers {f g : BitField} (h : f.Apart g) {k : Nat} (hk : f.covers k = true) :
    g.covers k = false := by
  rw [covers_eq_true_iff] at hk
  rw [← Bool.not_eq_true, covers_eq_true_iff]
  unfold Apart at h
  omega

theorem testBit_get (f : BitField) (w : Word) (k : Nat) :
    (f.get w).testBit k = (decide (k < f.width) && w.toNat.testBit (f.low + k)) := by
  rw [get, Nat.one_shiftLeft, Nat.testBit_mod_two_pow, Nat.testBit_shiftRight]

theorem testBit_put (f : BitField) (value k : Nat) :
    (f.put value).testBit k = (f.covers k && value.testBit (k - f.low)) := by
  rw [put, Nat.one_shiftLeft, Nat.testBit_shiftLeft, Nat.testBit_mod_two_pow, covers]
  by_cases hlow : f.low ≤ k
  · have hwidth : k - f.low < f.width ↔ k < f.low + f.width := by omega
    simp [hlow, hwidth]
  · simp [hlow]

theorem get_lt (f : BitField) (w : Word) : f.get w < 2 ^ f.width := by
  rw [get, Nat.one_shiftLeft]
  exact Nat.mod_lt _ (Nat.two_pow_pos _)

/-! ## Composed words -/

/-- Whether bit `k` is set by one of the fields. -/
def sets (fields : List (BitField × Nat)) (k : Nat) : Bool :=
  fields.any fun x => x.1.covers k && x.2.testBit (k - x.1.low)

theorem sets_eq_false {fields : List (BitField × Nat)} {k : Nat}
    (h : ∀ x ∈ fields, x.1.covers k = false) : sets fields k = false := by
  rw [sets, List.any_eq_false]
  intro x hx
  simp [h x hx]

theorem compose_cons (f : BitField) (value : Nat) (rest : List (BitField × Nat)) :
    compose ((f, value) :: rest) = UInt32.ofNat (f.put value) + compose rest :=
  UInt32.ofNat_add _ _

/-- Fields that share no bit add up without carries. -/
theorem testBit_compose {fields : List (BitField × Nat)}
    (hapart : (fields.map Prod.fst).Pairwise Apart) {k : Nat} (hk : k < 32) :
    (compose fields).toNat.testBit k = sets fields k := by
  induction fields generalizing k with
  | nil => simp [compose, sets]
  | cons x rest ih =>
    obtain ⟨f, value⟩ := x
    rw [List.map_cons, List.pairwise_cons] at hapart
    obtain ⟨hfirst, hrest⟩ := hapart
    have hput : ∀ k < 32, (UInt32.ofNat (f.put value)).toBitVec.getLsbD k =
        (f.covers k && value.testBit (k - f.low)) := by
      intro k hk
      rw [UInt32.toBitVec_ofNat', BitVec.getLsbD_ofNat, testBit_put]
      simp [hk]
    have hcompose : ∀ k < 32, (compose rest).toBitVec.getLsbD k = sets rest k :=
      fun k hk => ih hrest hk
    have hnone : ∀ k, f.covers k = true → sets rest k = false := by
      intro k hcovers
      refine sets_eq_false fun y hy => ?_
      exact (hfirst y.1 (List.mem_map_of_mem hy)).not_covers hcovers
    have hdisjoint :
        (UInt32.ofNat (f.put value)).toBitVec &&& (compose rest).toBitVec = 0#32 := by
      refine BitVec.eq_of_getLsbD_eq fun k hk => ?_
      rw [BitVec.getLsbD_and, hput k hk, hcompose k hk, BitVec.getLsbD_zero]
      cases hcovers : f.covers k with
      | false => simp
      | true => simp [hnone k hcovers]
    have hsum : (compose ((f, value) :: rest)).toBitVec =
        (UInt32.ofNat (f.put value)).toBitVec ||| (compose rest).toBitVec := by
      rw [compose_cons, UInt32.toBitVec_add]
      exact BitVec.add_eq_or_of_and_eq_zero _ _ hdisjoint
    show (compose ((f, value) :: rest)).toBitVec.getLsbD k = _
    rw [hsum, BitVec.getLsbD_or, hput k hk, hcompose k hk]
    rfl

/-- A bit of one of the fields is set by that one or not at all. -/
theorem sets_of_mem {fields : List (BitField × Nat)}
    (hapart : (fields.map Prod.fst).Pairwise Apart) {f : BitField} {value : Nat}
    (hmem : (f, value) ∈ fields) {k : Nat} (hcovers : f.covers k = true) :
    sets fields k = value.testBit (k - f.low) := by
  induction fields with
  | nil => cases hmem
  | cons x rest ih =>
    rw [List.map_cons, List.pairwise_cons] at hapart
    obtain ⟨hfirst, hrest⟩ := hapart
    rcases List.mem_cons.mp hmem with rfl | hlater
    · have hothers : sets rest k = false := by
        refine sets_eq_false fun y hy => ?_
        exact (hfirst y.1 (List.mem_map_of_mem hy)).not_covers hcovers
      rw [sets, List.any_cons, ← sets, hothers, hcovers]
      simp
    · have hnot : x.1.covers k = false := by
        have hsep : f.Apart x.1 := (hfirst f (List.mem_map_of_mem hlater)).symm
        exact hsep.not_covers hcovers
      rw [sets, List.any_cons, ← sets, hnot, ih hrest hlater]
      simp

/-- A field gives back what was put into it. -/
theorem get_compose {fields : List (BitField × Nat)}
    (hapart : (fields.map Prod.fst).Pairwise Apart) {f : BitField} {value : Nat}
    (hmem : (f, value) ∈ fields) (hfits : f.low + f.width ≤ 32) :
    f.get (compose fields) = value % 2 ^ f.width := by
  refine Nat.eq_of_testBit_eq fun k => ?_
  rw [testBit_get, Nat.testBit_mod_two_pow]
  by_cases hk : k < f.width
  · have hcovers : f.covers (f.low + k) = true := covers_eq_true_iff.mpr (by omega)
    have hbit : f.low + k - f.low = k := by omega
    rw [testBit_compose hapart (by omega), sets_of_mem hapart hmem hcovers, hbit]
  · simp [hk]

/-- Fields that leave no gap determine the word. -/
theorem compose_eq {fields : List (BitField × Nat)}
    (hapart : (fields.map Prod.fst).Pairwise Apart)
    (hfill : ∀ k < 32, ∃ f ∈ fields.map Prod.fst, f.covers k = true) {w : Word}
    (hvalues : ∀ x ∈ fields, x.2 % 2 ^ x.1.width = x.1.get w) : compose fields = w := by
  refine UInt32.toBitVec_inj.mp (BitVec.eq_of_getLsbD_eq fun k hk => ?_)
  show (compose fields).toNat.testBit k = w.toNat.testBit k
  obtain ⟨f, hf, hcovers⟩ := hfill k hk
  obtain ⟨⟨f, value⟩, hmem, rfl⟩ := List.mem_map.mp hf
  have hvalue : value % 2 ^ f.width = f.get w := hvalues _ hmem
  rw [testBit_compose hapart hk, sets_of_mem hapart hmem hcovers]
  obtain ⟨hlow, hhigh⟩ : f.low ≤ k ∧ k < f.low + f.width := covers_eq_true_iff.mp hcovers
  have hinside : k - f.low < f.width := by omega
  have hbit := congrArg (Nat.testBit · (k - f.low)) hvalue
  simpa [testBit_get, hinside, Nat.add_sub_cancel' hlow] using hbit

end BitField
end MipsImage
