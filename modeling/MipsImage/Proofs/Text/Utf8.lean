/-
Text that is encoded is decoded again.

Each character is read back off the front of its bytes, whatever comes after them.  So the
bytes of a text decode to the text, with no replacement character but those it has itself.
-/
import Mathlib
import MipsImage.Text.Utf8

namespace MipsImage
namespace Text
namespace Utf8

/-! ## Bytes by their numbers -/

theorem sequenceLength_eq (lead : UInt8) :
    sequenceLength lead =
      if lead.toNat < 128 then 1
      else if 194 ≤ lead.toNat ∧ lead.toNat ≤ 223 then 2
      else if 224 ≤ lead.toNat ∧ lead.toNat ≤ 239 then 3
      else if 240 ≤ lead.toNat ∧ lead.toNat ≤ 244 then 4
      else 0 := by
  simp only [sequenceLength, UInt8.lt_iff_toNat_lt, UInt8.le_iff_toNat_le, Bool.and_eq_true,
    decide_eq_true_eq]
  rfl

theorem isContinuation_of_toNat {b : UInt8} (hlow : 128 ≤ b.toNat) (hhigh : b.toNat ≤ 191) :
    isContinuation b = true := by
  simp only [isContinuation, UInt8.le_iff_toNat_le, Bool.and_eq_true, decide_eq_true_eq]
  exact ⟨hlow, hhigh⟩

/-- A continuation byte may follow unless the sequence would be overlong, a surrogate or past
the last code point. -/
theorem mayFollow_of_toNat {lead second : UInt8} (hlow : 128 ≤ second.toNat)
    (hhigh : second.toNat ≤ 191) (hoverlong : lead.toNat = 224 → 160 ≤ second.toNat)
    (hsurrogate : lead.toNat = 237 → second.toNat ≤ 159)
    (hshort : lead.toNat = 240 → 144 ≤ second.toNat)
    (hpast : lead.toNat = 244 → second.toNat ≤ 143) : mayFollow lead second = true := by
  simp only [mayFollow, ← UInt8.toNat_inj]
  split_ifs with h₁ h₂ h₃ h₄
  all_goals simp only [isContinuation, UInt8.le_iff_toNat_le, Bool.and_eq_true, decide_eq_true_eq]
  · exact ⟨hoverlong h₁, hhigh⟩
  · exact ⟨hlow, hsurrogate h₂⟩
  · exact ⟨hshort h₃, hhigh⟩
  · exact ⟨hlow, hpast h₄⟩
  · exact ⟨hlow, hhigh⟩

theorem toNat_ofNat_add {n base : Nat} (h : n + base < 256) :
    (UInt8.ofNat (n + base)).toNat = n + base := by
  rw [UInt8.toNat_ofNat']
  exact Nat.mod_eq_of_lt h

/-- The six bits of `n` from below, as a continuation byte keeps them. -/
def continuation (n : Nat) : UInt8 :=
  UInt8.ofNat (n % 64 + 128)

theorem toNat_continuation (n : Nat) : (continuation n).toNat = n % 64 + 128 :=
  toNat_ofNat_add (by omega)

theorem payload_continuation (n : Nat) : payload (continuation n) = n % 64 := by
  rw [payload, toNat_continuation]
  omega

theorem isContinuation_continuation (n : Nat) : isContinuation (continuation n) = true := by
  have h := toNat_continuation n
  exact isContinuation_of_toNat (by omega) (by omega)

/-! ## One character -/

/-- Code points are no surrogates and end at `0x10ffff`. -/
theorem toNat_valid (c : Char) :
    c.toNat < 0xd800 ∨ 0xdfff < c.toNat ∧ c.toNat < 0x110000 :=
  c.valid

theorem step_one {lead : UInt8} {c : Char} (hlead : lead.toNat = c.toNat) (hc : c.toNat < 128)
    (rest : List UInt8) : step lead rest = (some c, rest) := by
  have hlength : sequenceLength lead = 1 := by
    rw [sequenceLength_eq, if_pos (by omega)]
  simp only [step, hlength, hlead, Char.ofNat_toNat]

theorem step_two {lead : UInt8} {c : Char} (hlow : 128 ≤ c.toNat) (hhigh : c.toNat ≤ 2047)
    (hlead : lead.toNat = c.toNat / 64 % 32 + 192) (rest : List UInt8) :
    step lead (continuation c.toNat :: rest) = (some c, rest) := by
  have hlength : sequenceLength lead = 2 := by
    rw [sequenceLength_eq, if_neg (by omega), if_pos (by omega)]
  have hsecond := toNat_continuation c.toNat
  have hfollow : mayFollow lead (continuation c.toNat) = true :=
    mayFollow_of_toNat (by omega) (by omega) (by omega) (by omega) (by omega) (by omega)
  have hvalue : lead.toNat % 32 * 64 + c.toNat % 64 = c.toNat := by omega
  simp only [step, hlength, hfollow, payload_continuation, hvalue, Char.ofNat_toNat, if_true]

theorem step_three {lead : UInt8} {c : Char} (hlow : 2048 ≤ c.toNat) (hhigh : c.toNat ≤ 65535)
    (hlead : lead.toNat = c.toNat / 4096 % 16 + 224) (rest : List UInt8) :
    step lead (continuation (c.toNat / 64) :: continuation c.toNat :: rest) = (some c, rest) := by
  have hvalid := toNat_valid c
  have hlength : sequenceLength lead = 3 := by
    rw [sequenceLength_eq, if_neg (by omega), if_neg (by omega), if_pos (by omega)]
  have hsecond := toNat_continuation (c.toNat / 64)
  have hfollow : mayFollow lead (continuation (c.toNat / 64)) = true :=
    mayFollow_of_toNat (by omega) (by omega) (by omega) (by omega) (by omega) (by omega)
  have hvalue : (lead.toNat % 16 * 64 + c.toNat / 64 % 64) * 64 + c.toNat % 64 = c.toNat := by
    omega
  simp only [step, hlength, hfollow, isContinuation_continuation, payload_continuation, hvalue,
    Char.ofNat_toNat, if_true]

theorem step_four {lead : UInt8} {c : Char} (hlow : 65536 ≤ c.toNat)
    (hlead : lead.toNat = c.toNat / 262144 % 8 + 240) (rest : List UInt8) :
    step lead (continuation (c.toNat / 4096) :: continuation (c.toNat / 64) ::
      continuation c.toNat :: rest) = (some c, rest) := by
  have hvalid := toNat_valid c
  have hlength : sequenceLength lead = 4 := by
    rw [sequenceLength_eq, if_neg (by omega), if_neg (by omega), if_neg (by omega),
      if_pos (by omega)]
  have hsecond := toNat_continuation (c.toNat / 4096)
  have hfollow : mayFollow lead (continuation (c.toNat / 4096)) = true :=
    mayFollow_of_toNat (by omega) (by omega) (by omega) (by omega) (by omega) (by omega)
  have hvalue : ((lead.toNat % 8 * 64 + c.toNat / 4096 % 64) * 64 + c.toNat / 64 % 64) * 64 +
      c.toNat % 64 = c.toNat := by
    omega
  simp only [step, hlength, hfollow, isContinuation_continuation, payload_continuation, hvalue,
    Char.ofNat_toNat, if_true]

/-- A character is read off the front of its bytes, whatever follows them. -/
theorem step_utf8EncodeChar (c : Char) :
    ∃ lead tail, String.utf8EncodeChar c = lead :: tail ∧
      ∀ rest, step lead (tail ++ rest) = (some c, rest) := by
  have hvalid := toNat_valid c
  unfold String.utf8EncodeChar
  simp only [Char.toNat_val]
  split_ifs with h₁ h₂ h₃
  · refine ⟨_, _, rfl, step_one ?_ (by omega)⟩
    rw [UInt8.toNat_ofNat']
    omega
  · exact ⟨_, _, rfl, step_two (by omega) h₂ (toNat_ofNat_add (by omega))⟩
  · exact ⟨_, _, rfl, step_three (by omega) h₃ (toNat_ofNat_add (by omega))⟩
  · exact ⟨_, _, rfl, step_four (by omega) (toNat_ofNat_add (by omega))⟩

/-- Only the character NUL has a zero byte. -/
theorem zero_notMem_utf8EncodeChar {c : Char} (hc : c ≠ '\x00') :
    0 ∉ String.utf8EncodeChar c := by
  have hvalid := toNat_valid c
  have hpos : c.toNat ≠ 0 := by
    intro h
    apply hc
    rw [← Char.ofNat_toNat c, h]
  -- Each byte is compared with zero as a number: all but the single byte have a mark above.
  unfold String.utf8EncodeChar
  simp only [Char.toNat_val]
  split_ifs <;> simp only [List.mem_cons, List.not_mem_nil, or_false, ← UInt8.toNat_inj,
    UInt8.toNat_ofNat', UInt8.toNat_zero] <;> omega

/-! ## A text -/

theorem decodeLossy_flatMap (cs : List Char) :
    decodeLossy (cs.flatMap String.utf8EncodeChar) = cs := by
  induction cs with
  | nil => rw [List.flatMap_nil, decodeLossy]
  | cons c cs ih =>
    obtain ⟨lead, tail, hbytes, hstep⟩ := step_utf8EncodeChar c
    rw [List.flatMap_cons, hbytes, List.cons_append, decodeLossy, hstep, ih]
    rfl

/-- Decoding gives back what was encoded. -/
theorem decodeLossy_encode (s : String) : decodeLossy (encode s) = s.toList :=
  decodeLossy_flatMap s.toList

theorem zero_notMem_encode {s : String} (hs : '\x00' ∉ s.toList) : 0 ∉ encode s := by
  intro h
  obtain ⟨c, hc, hzero⟩ := List.mem_flatMap.mp h
  exact zero_notMem_utf8EncodeChar (fun hnul => hs (hnul ▸ hc)) hzero

end Utf8
end Text
end MipsImage
