/-
Parts of a word, byte by byte.

`ByteOrder.extract` and `ByteOrder.splice` work on runs of bits.  Here they are
read as operations on bytes: a splice replaces the bytes of its span by those of
the value and keeps the other bytes of the word, and an extract is what the bytes
of its span spell.  The arguments go one bit at a time, so that no case is split
over widths and offsets together.
-/
import Mathlib
import MipsImage.Memory.Lane

namespace MipsImage

/-! ## Numbers as bytes -/

/-- The low `n` bytes of a number, least significant first. -/
def lowBytes : Nat → Nat → List UInt8
  | 0, _ => []
  | n + 1, v => UInt8.ofNat v :: lowBytes n (v / 256)

/-- The number that bytes spell, least significant first. -/
def ofLowBytes : List UInt8 → Nat
  | [] => 0
  | b :: rest => b.toNat + 256 * ofLowBytes rest

theorem length_lowBytes (n v : Nat) : (lowBytes n v).length = n := by
  induction n generalizing v with
  | zero => rfl
  | succ n ih => rw [lowBytes, List.length_cons, ih]

theorem ofLowBytes_lowBytes (n v : Nat) : ofLowBytes (lowBytes n v) = v % 256 ^ n := by
  induction n generalizing v with
  | zero => rw [lowBytes, ofLowBytes, Nat.pow_zero, Nat.mod_one]
  | succ n ih =>
    rw [lowBytes, ofLowBytes, ih, UInt8.toNat_ofNat', Nat.pow_succ' (m := 256), Nat.mod_mul]

theorem lowBytes_getElem? (n v i : Nat) :
    (lowBytes n v)[i]? = if i < n then some (UInt8.ofNat (v >>> (8 * i))) else none := by
  induction n generalizing v i with
  | zero => rfl
  | succ n ih =>
    cases i with
    | zero => rfl
    | succ i =>
      rw [lowBytes, List.getElem?_cons_succ, ih, Nat.shiftRight_eq_div_pow,
        Nat.shiftRight_eq_div_pow, Nat.div_div_eq_div_mul, Nat.mul_succ 8 i, Nat.add_comm (8 * i) 8,
        Nat.pow_add]
      simp only [Nat.succ_lt_succ_iff, Nat.reducePow]

/-- The bytes of a doubleword are those of its low word and then of its high one. -/
theorem lowBytes_add (n k v : Nat) :
    lowBytes (n + k) v = lowBytes n v ++ lowBytes k (v / 256 ^ n) := by
  induction n generalizing v with
  | zero => rw [Nat.zero_add, Nat.pow_zero, Nat.div_one, lowBytes, List.nil_append]
  | succ n ih =>
    rw [Nat.succ_add, lowBytes, lowBytes, ih, List.cons_append, Nat.div_div_eq_div_mul,
      Nat.pow_succ']

theorem lowBytes_mod (n v : Nat) : lowBytes n (v % 256 ^ n) = lowBytes n v := by
  induction n generalizing v with
  | zero => rfl
  | succ n ih =>
    have hhead : UInt8.ofNat (v % 256 ^ (n + 1)) = UInt8.ofNat v := by
      apply UInt8.toNat_inj.mp
      rw [UInt8.toNat_ofNat', UInt8.toNat_ofNat', Nat.pow_succ']
      exact Nat.mod_mul_right_mod v 256 (256 ^ n)
    rw [lowBytes, lowBytes, hhead, Nat.pow_succ', Nat.mod_mul_right_div_self, ih]

theorem ofLowBytes_append (xs ys : List UInt8) :
    ofLowBytes (xs ++ ys) = ofLowBytes xs + 256 ^ xs.length * ofLowBytes ys := by
  induction xs with
  | nil =>
    rw [List.nil_append, ofLowBytes, List.length_nil, Nat.pow_zero, Nat.one_mul, Nat.zero_add]
  | cons b rest ih =>
    rw [List.cons_append, ofLowBytes, ofLowBytes, ih, List.length_cons, Nat.pow_succ']
    ring

theorem ofNat_eq_of_testBit {m n : Nat} (h : ∀ i, i < 8 → m.testBit i = n.testBit i) :
    UInt8.ofNat m = UInt8.ofNat n := by
  apply UInt8.toNat_inj.mp
  rw [UInt8.toNat_ofNat', UInt8.toNat_ofNat']
  refine Nat.eq_of_testBit_eq (fun i => ?_)
  rw [Nat.testBit_mod_two_pow, Nat.testBit_mod_two_pow]
  by_cases hi : i < 8
  · rw [h i hi]
  · rw [decide_eq_false hi, Bool.false_and, Bool.false_and]

namespace ByteOrder

/-- The `n` low bytes of a number in address order. -/
def toBytes (order : ByteOrder) (n v : Nat) : List UInt8 :=
  match order with
  | little => lowBytes n v
  | big => (lowBytes n v).reverse

/-- The number that bytes in address order spell. -/
def ofBytes (order : ByteOrder) (bytes : List UInt8) : Nat :=
  match order with
  | little => ofLowBytes bytes
  | big => ofLowBytes bytes.reverse

/-- Lowest bit of byte `i`, counted in address order, of a value of `n` bytes. -/
def lane (order : ByteOrder) (n i : Nat) : Nat :=
  match order with
  | little => 8 * i
  | big => 8 * (n - 1 - i)

theorem length_toBytes (order : ByteOrder) (n v : Nat) : (order.toBytes n v).length = n := by
  cases order with
  | little => exact length_lowBytes n v
  | big => rw [toBytes, List.length_reverse, length_lowBytes]

theorem ofBytes_toBytes (order : ByteOrder) (n v : Nat) :
    order.ofBytes (order.toBytes n v) = v % 256 ^ n := by
  cases order with
  | little => exact ofLowBytes_lowBytes n v
  | big => rw [toBytes, ofBytes, List.reverse_reverse, ofLowBytes_lowBytes]

theorem toBytes_getElem? {order : ByteOrder} {n i : Nat} (v : Nat) (hi : i < n) :
    (order.toBytes n v)[i]? = some (UInt8.ofNat (v >>> order.lane n i)) := by
  cases order with
  | little => rw [toBytes, lowBytes_getElem?, if_pos hi, lane]
  | big =>
    rw [toBytes, List.getElem?_reverse (by rw [length_lowBytes]; exact hi), length_lowBytes,
      lowBytes_getElem?, if_pos (by omega), lane]

/-! ## Bits of parts -/

theorem testBit_extract (order : ByteOrder) (w : Word) (a : Address) (n i : Nat) :
    (order.extract w a n).toNat.testBit i =
      (decide (i < bits n) && w.toNat.testBit (order.shift a n + i)) := by
  have hbits : bits n ≤ 32 := by
    rw [bits]
    omega
  rw [extract, UInt32.toNat_ofNat', Nat.testBit_mod_two_pow, Nat.one_shiftLeft,
    Nat.testBit_mod_two_pow, Nat.testBit_shiftRight]
  by_cases hi : i < bits n
  · rw [decide_eq_true hi, decide_eq_true (Nat.lt_of_lt_of_le hi hbits), Bool.true_and]
  · rw [decide_eq_false hi, Bool.false_and, Bool.and_false]

/-- A splice takes the bits of its span from the value and the rest from the
word. -/
theorem testBit_splice {order : ByteOrder} {a : Address} {n : Nat}
    (hspan : order.shift a n + bits n ≤ 32) (w v : Word) (i : Nat) :
    (order.splice w v a n).toNat.testBit i =
      if order.shift a n ≤ i ∧ i < order.shift a n + bits n then
        v.toNat.testBit (i - order.shift a n)
      else w.toNat.testBit i := by
  have hw : i ≥ 32 → w.toNat.testBit i = false := fun hi =>
    Nat.testBit_lt_two_pow (Nat.lt_of_lt_of_le w.toNat_lt (Nat.pow_le_pow_right (by omega) hi))
  generalize hlow : order.shift a n = low at hspan ⊢
  -- The three summands occupy disjoint runs of bits, so the sums are unions.
  have hinner : w.toNat % (1 <<< low) + (v.toNat % (1 <<< bits n)) <<< low =
      (v.toNat % 2 ^ bits n) <<< low ||| w.toNat % 2 ^ low := by
    rw [Nat.one_shiftLeft, Nat.one_shiftLeft, Nat.add_comm]
    exact Nat.shiftLeft_add_eq_or_of_lt (Nat.mod_lt _ (Nat.two_pow_pos low)) _
  have hsmall : (v.toNat % 2 ^ bits n) <<< low ||| w.toNat % 2 ^ low < 2 ^ (low + bits n) := by
    refine Nat.or_lt_two_pow ?_ ?_
    · rw [Nat.shiftLeft_eq, Nat.pow_add, Nat.mul_comm]
      exact Nat.mul_lt_mul_of_pos_left (Nat.mod_lt _ (Nat.two_pow_pos _)) (Nat.two_pow_pos low)
    · exact Nat.lt_of_lt_of_le (Nat.mod_lt _ (Nat.two_pow_pos low))
        (Nat.pow_le_pow_right (by omega) (by omega))
  rw [splice, hlow, UInt32.toNat_ofNat']
  simp only [hinner]
  rw [Nat.add_comm, Nat.shiftLeft_add_eq_or_of_lt hsmall]
  simp only [Nat.testBit_mod_two_pow, Nat.testBit_or, Nat.testBit_shiftLeft,
    Nat.testBit_shiftRight]
  by_cases h32 : i < 32
  · by_cases h1 : low ≤ i
    · by_cases h2 : i < low + bits n
      · simp [h32, h1, h2, show ¬ low + bits n ≤ i by omega, show ¬ i < low by omega,
          show i - low < bits n by omega]
      · simp [h32, h1, h2, show low + bits n ≤ i by omega, show ¬ i < low by omega,
          show ¬ i - low < bits n by omega]
    · simp [h32, h1, show ¬ low + bits n ≤ i by omega, show i < low by omega]
  · rw [decide_eq_false h32, Bool.false_and, if_neg (by omega), hw (by omega)]

/-! ## Bytes of parts

An access fits if its bytes lie in one word.  Aligned accesses of one, two and
four bytes all do. -/

/-- The `n` bytes at `a` lie in one word. -/
def Fits (a : Address) (n : Nat) : Prop :=
  0 < n ∧ a.toNat % 4 + n ≤ 4

theorem bits_eq_of_fits {a : Address} {n : Nat} (h : Fits a n) : bits n = 8 * n := by
  have := h.2
  rw [bits]
  omega

theorem shift_add_bits_le (order : ByteOrder) {a : Address} {n : Nat} (h : Fits a n) :
    order.shift a n + bits n ≤ 32 := by
  have hn := h.2
  rw [bits_eq_of_fits h]
  cases order <;> simp only [shift] <;> omega

theorem fits_one (a : Address) : Fits a 1 := by
  constructor <;> omega

/-- Byte `i` of an access is byte `i` of the value, wherever the access is. -/
theorem shift_byte (order : ByteOrder) {a x : Address} {n i : Nat} (h : Fits a n) (hi : i < n)
    (hx : x.toNat % 4 = a.toNat % 4 + i) :
    order.shift x 1 = order.shift a n + order.lane n i := by
  have hn := h.2
  cases order <;> simp only [shift, lane] <;> omega

/-- A byte of the word that is not among those of an access lies below or above
all of them. -/
theorem shift_byte_outside (order : ByteOrder) {a x : Address} {n : Nat} (h : Fits a n)
    (hx : x.toNat % 4 < a.toNat % 4 ∨ a.toNat % 4 + n ≤ x.toNat % 4) :
    order.shift x 1 + 8 ≤ order.shift a n ∨ order.shift a n + bits n ≤ order.shift x 1 := by
  have hn := h.2
  rw [bits_eq_of_fits h]
  cases order <;> simp only [shift] <;> omega

theorem lane_add_lt (order : ByteOrder) {n i j : Nat} (hi : i < n) (hj : j < 8) :
    order.lane n i + j < 8 * n := by
  cases order <;> simp only [lane] <;> omega

theorem extract_byte (order : ByteOrder) {a x : Address} {n i : Nat} (h : Fits a n) (hi : i < n)
    (hx : x.toNat % 4 = a.toNat % 4 + i) (w : Word) :
    UInt8.ofNat (order.extract w x 1).toNat =
      UInt8.ofNat ((order.extract w a n).toNat >>> order.lane n i) := by
  refine ofNat_eq_of_testBit (fun j hj => ?_)
  rw [Nat.testBit_shiftRight, testBit_extract, testBit_extract, shift_byte order h hi hx,
    bits_eq_of_fits h, bits_eq_of_fits (fits_one x), decide_eq_true (lane_add_lt order hi hj),
    decide_eq_true (by omega), Nat.add_assoc]

theorem splice_byte_inside (order : ByteOrder) {a x : Address} {n i : Nat} (h : Fits a n)
    (hi : i < n) (hx : x.toNat % 4 = a.toNat % 4 + i) (w v : Word) :
    UInt8.ofNat (order.extract (order.splice w v a n) x 1).toNat =
      UInt8.ofNat (v.toNat >>> order.lane n i) := by
  refine ofNat_eq_of_testBit (fun j hj => ?_)
  have hlane := lane_add_lt order hi hj
  rw [Nat.testBit_shiftRight, testBit_extract, bits_eq_of_fits (fits_one x),
    decide_eq_true (by omega), Bool.true_and, testBit_splice (shift_add_bits_le order h),
    shift_byte order h hi hx, bits_eq_of_fits h, if_pos (by omega)]
  congr 1
  omega

theorem splice_byte_outside (order : ByteOrder) {a x : Address} {n : Nat} (h : Fits a n)
    (hx : x.toNat % 4 < a.toNat % 4 ∨ a.toNat % 4 + n ≤ x.toNat % 4) (w v : Word) :
    UInt8.ofNat (order.extract (order.splice w v a n) x 1).toNat =
      UInt8.ofNat (order.extract w x 1).toNat := by
  refine ofNat_eq_of_testBit (fun j hj => ?_)
  have hout := shift_byte_outside order h hx
  rw [testBit_extract, testBit_extract, testBit_splice (shift_add_bits_le order h),
    if_neg (by omega)]

theorem splice_word (order : ByteOrder) {a : Address} (h : a.toNat % 4 = 0) (w v : Word) :
    order.splice w v a 4 = v := by
  have hshift : order.shift a 4 = 0 := by
    cases order <;> simp only [shift] <;> omega
  apply UInt32.toNat_inj.mp
  refine Nat.eq_of_testBit_eq (fun i => ?_)
  rw [testBit_splice (shift_add_bits_le order ⟨by omega, by omega⟩), hshift]
  by_cases hi : i < 32
  · rw [if_pos ⟨Nat.zero_le i, hi⟩, Nat.sub_zero]
  · have hlarge : ∀ u : Word, u.toNat.testBit i = false := fun u =>
      Nat.testBit_lt_two_pow
        (Nat.lt_of_lt_of_le u.toNat_lt (Nat.pow_le_pow_right (by omega) (by omega)))
    rw [Nat.sub_zero, hlarge v, hlarge w, ite_self]

theorem truncate_word (v : Word) : truncate v 4 = v := by
  have hv := v.toNat_lt
  have hbits : 1 <<< bits 4 = 4294967296 := rfl
  apply UInt32.toNat_inj.mp
  rw [truncate, hbits, UInt32.toNat_ofNat']
  omega

theorem extract_word (order : ByteOrder) {a : Address} (h : a.toNat % 4 = 0) (w : Word) :
    order.extract w a 4 = w := by
  have hshift : order.shift a 4 = 0 := by
    cases order <;> simp only [shift] <;> omega
  have hw := w.toNat_lt
  apply UInt32.toNat_inj.mp
  rw [extract, hshift, UInt32.toNat_ofNat', Nat.shiftRight_zero]
  have hbits : 1 <<< bits 4 = 4294967296 := rfl
  rw [hbits]
  omega

theorem lane_add (order : ByteOrder) {a : Address} {n i : Nat} (h : Fits a n) (hi : i < n) :
    order.lane 4 (a.toNat % 4 + i) = order.shift a n + order.lane n i := by
  have hn := h.2
  cases order <;> simp only [shift, lane] <;> omega

/-- The bytes of a part are those of the word, from the place of the part on. -/
theorem toBytes_extract (order : ByteOrder) {a : Address} {n : Nat} (h : Fits a n) (w : Word) :
    order.toBytes n (order.extract w a n).toNat =
      ((order.toBytes 4 w.toNat).drop (a.toNat % 4)).take n := by
  apply List.ext_getElem?
  intro i
  by_cases hi : i < n
  · have hword : a.toNat % 4 + i < 4 := by
      have := h.2
      omega
    rw [List.getElem?_take_of_lt hi, List.getElem?_drop, toBytes_getElem? _ hi,
      toBytes_getElem? _ hword]
    refine congrArg some (ofNat_eq_of_testBit fun j hj => ?_)
    rw [Nat.testBit_shiftRight, Nat.testBit_shiftRight, testBit_extract, bits_eq_of_fits h,
      decide_eq_true (lane_add_lt order hi hj), Bool.true_and, lane_add order h hi, Nat.add_assoc]
  · rw [List.getElem?_take_eq_none (by omega),
      List.getElem?_eq_none (by rw [length_toBytes]; omega)]

/-- What was spliced in can be taken out again. -/
theorem extract_splice (order : ByteOrder) {a : Address} {n : Nat} (h : Fits a n) (w v : Word) :
    order.extract (order.splice w v a n) a n = truncate v n := by
  have hspan := shift_add_bits_le order h
  apply UInt32.toNat_inj.mp
  refine Nat.eq_of_testBit_eq (fun i => ?_)
  rw [testBit_extract, testBit_splice hspan, truncate, UInt32.toNat_ofNat', Nat.one_shiftLeft,
    Nat.testBit_mod_two_pow, Nat.testBit_mod_two_pow]
  by_cases hi : i < bits n
  · rw [if_pos (by omega), Nat.add_sub_cancel_left, decide_eq_true (show i < 32 by omega),
      Bool.true_and]
  · rw [decide_eq_false hi, Bool.false_and, Bool.false_and, Bool.and_false]

/-! ## Doublewords -/

theorem toBytes_split (order : ByteOrder) (v : UInt64) :
    order.toBytes 8 v.toNat =
      order.toBytes 4 (order.split v).1.toNat ++ order.toBytes 4 (order.split v).2.toNat := by
  have hlow : lowBytes 4 (UInt32.ofNat v.toNat).toNat = lowBytes 4 v.toNat := by
    rw [UInt32.toNat_ofNat']
    exact lowBytes_mod 4 v.toNat
  have hhigh : lowBytes 4 (UInt32.ofNat (v.toNat / 0x100000000)).toNat =
      lowBytes 4 (v.toNat / 0x100000000) := by
    rw [UInt32.toNat_ofNat']
    exact lowBytes_mod 4 _
  have hsplit : lowBytes 8 v.toNat = lowBytes 4 v.toNat ++ lowBytes 4 (v.toNat / 0x100000000) :=
    lowBytes_add 4 4 v.toNat
  cases order with
  | little => simp only [toBytes, split, hlow, hhigh, hsplit]
  | big => simp only [toBytes, split, hlow, hhigh, hsplit, List.reverse_append]

theorem toNat_join (order : ByteOrder) {xs ys : List UInt8} (hx : xs.length = 4)
    (hy : ys.length = 4) {first second : Word} (h1 : first.toNat = order.ofBytes xs)
    (h2 : second.toNat = order.ofBytes ys) :
    (order.join first second).toNat = order.ofBytes (xs ++ ys) := by
  have hfirst := first.toNat_lt
  have hsecond := second.toNat_lt
  cases order with
  | little =>
    simp only [ofBytes] at h1 h2 ⊢
    rw [ofLowBytes_append, hx, ← h1, ← h2, join, UInt64.toNat_ofNat']
    omega
  | big =>
    simp only [ofBytes] at h1 h2 ⊢
    rw [List.reverse_append, ofLowBytes_append, List.length_reverse, hy, ← h1, ← h2, join,
      UInt64.toNat_ofNat']
    omega

end ByteOrder
end MipsImage
