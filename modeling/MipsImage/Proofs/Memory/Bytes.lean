/-
Memory as one flat array of bytes.

`byteAt` reads single bytes through the words that hold them.  Every successful
write, of whatever width and into whatever region, is `FlatBytes.write` on that
view: it puts the bytes of the value at consecutive addresses and leaves all
others.  Every successful read gives what the bytes of its span spell.  Addresses
wrap at the end of the address space, which is why spans are measured by
differences of addresses and not by comparing them.
-/
import Mathlib
import MipsImage.Proofs.Memory.Command

namespace MipsImage

theorem toNat_add_ofNat (address : Address) (i : Nat) :
    (address + UInt32.ofNat i).toNat = (address.toNat + i) % 4294967296 := by
  rw [UInt32.toNat_add, UInt32.toNat_ofNat']
  omega

theorem toNat_add_words (address : Address) (i : Nat) :
    (address + 4 * UInt32.ofNat i).toNat = (address.toNat + 4 * i) % 4294967296 := by
  rw [UInt32.toNat_add, UInt32.toNat_mul, UInt32.toNat_ofNat', show (4 : UInt32).toNat = 4 from rfl]
  omega

/-- The addresses of `n` words from `address` on. -/
def wordsFrom (address : Address) (n : Nat) : List Address :=
  (List.range n).map fun i => address + 4 * UInt32.ofNat i

theorem mem_wordsFrom {k address : Address} {n : Nat} :
    k ∈ wordsFrom address n ↔ ∃ i < n, address + 4 * UInt32.ofNat i = k := by
  simp only [wordsFrom, List.mem_map, List.mem_range]

/-- The spans of `n` bytes from `a` and of `k` bytes from `b` have no address in
common. -/
def Apart (a : Address) (n : Nat) (b : Address) (k : Nat) : Prop :=
  ∀ i < n, ∀ j < k, a + UInt32.ofNat i ≠ b + UInt32.ofNat j

instance (a : Address) (n : Nat) (b : Address) (k : Nat) : Decidable (Apart a n b k) :=
  inferInstanceAs (Decidable (∀ i < n, ∀ j < k, a + UInt32.ofNat i ≠ b + UInt32.ofNat j))

theorem Apart.symm {a b : Address} {n k : Nat} (h : Apart a n b k) : Apart b k a n :=
  fun i hi j hj hsame => h j hj i hi hsame.symm

def Word.truncate (v : Word) (n : Nat) : Word :=
  UInt32.ofNat (v.toNat % 256 ^ n)

abbrev FlatBytes := Address → UInt8

namespace FlatBytes

def write (b : FlatBytes) (a : Address) (bytes : List UInt8) : FlatBytes :=
  fun x => bytes.getD (x - a).toNat (b x)

def read (b : FlatBytes) (a : Address) (n : Nat) : List UInt8 :=
  (List.range n).map fun i => b (a + UInt32.ofNat i)

theorem length_read (b : FlatBytes) (a : Address) (n : Nat) : (b.read a n).length = n := by
  rw [read, List.length_map, List.length_range]

theorem read_getElem? {b : FlatBytes} {a : Address} {n i : Nat} (hi : i < n) :
    (b.read a n)[i]? = some (b (a + UInt32.ofNat i)) := by
  rw [read, List.getElem?_map, List.getElem?_range hi, Option.map_some]

theorem write_outside {b : FlatBytes} {a x : Address} {bytes : List UInt8}
    (h : bytes.length ≤ (x - a).toNat) : b.write a bytes x = b x := by
  rw [write, List.getD_eq_default _ _ h]

theorem write_inside {b : FlatBytes} {a x : Address} {bytes : List UInt8} {byte : UInt8}
    (h : bytes[(x - a).toNat]? = some byte) : b.write a bytes x = byte := by
  rw [write, List.getD_eq_getElem?_getD, h, Option.getD_some]

@[simp] theorem write_nil (b : FlatBytes) (a : Address) : b.write a [] = b := rfl

theorem toNat_add_ofNat_sub (a : Address) {i : Nat} (hi : i < 4294967296) :
    (a + UInt32.ofNat i - a).toNat = i := by
  have ha := a.toNat_lt
  rw [UInt32.toNat_sub, UInt32.toNat_add, UInt32.toNat_ofNat']
  omega

theorem read_write_apart {f : FlatBytes} {a b : Address} {n : Nat} {bytes : List UInt8}
    (h : Apart a n b bytes.length) : (f.write b bytes).read a n = f.read a n := by
  rw [read, read]
  refine List.map_congr_left fun i hi => write_outside ?_
  by_contra hshort
  -- The distance to `b` would be the place of a byte that is written.
  refine h i (List.mem_range.mp hi) (a + UInt32.ofNat i - b).toNat (by omega) ?_
  rw [UInt32.ofNat_toNat, UInt32.add_comm b, UInt32.sub_add_cancel]

theorem read_write_self (f : FlatBytes) (a : Address) {bytes : List UInt8}
    (h : bytes.length ≤ 4294967296) : (f.write a bytes).read a bytes.length = bytes := by
  refine List.ext_getElem? fun i => ?_
  by_cases hi : i < bytes.length
  · have hplace : (a + UInt32.ofNat i - a).toNat = i := toNat_add_ofNat_sub a (by omega)
    rw [read_getElem? hi, List.getElem?_eq_getElem hi, Option.some_inj]
    refine write_inside ?_
    rw [hplace, List.getElem?_eq_getElem hi]
  · rw [List.getElem?_eq_none (by rw [length_read]; omega), List.getElem?_eq_none (by omega)]

/-- Two runs of bytes are written as one if the second follows the first. -/
theorem write_write (b : FlatBytes) (a : Address) {xs ys : List UInt8}
    (h : xs.length + ys.length ≤ 4294967296) :
    (b.write a xs).write (a + UInt32.ofNat xs.length) ys = b.write a (xs ++ ys) := by
  funext x
  have hx := x.toNat_lt
  have ha := a.toNat_lt
  have hsub : (x - a).toNat = (4294967296 - a.toNat + x.toNat) % 4294967296 := UInt32.toNat_sub x a
  have hsub' : (x - (a + UInt32.ofNat xs.length)).toNat =
      (4294967296 - (a.toNat + xs.length % 4294967296) % 4294967296 + x.toNat) % 4294967296 := by
    rw [UInt32.toNat_sub, UInt32.toNat_add, UInt32.toNat_ofNat']
  simp only [write, List.getD_eq_getElem?_getD]
  by_cases h1 : (x - a).toNat < xs.length
  · rw [List.getElem?_append_left h1, List.getElem?_eq_none (by omega), Option.getD_none]
  · rw [List.getElem?_append_right (by omega), List.getElem?_eq_none (l := xs) (by omega),
      Option.getD_none]
    by_cases h2 : (x - a).toNat < xs.length + ys.length
    · congr 2
      omega
    · rw [List.getElem?_eq_none (by omega), List.getElem?_eq_none (by omega)]

theorem read_add (b : FlatBytes) (a : Address) (n k : Nat) :
    b.read a (n + k) = b.read a n ++ b.read (a + UInt32.ofNat n) k := by
  rw [read, read, read, List.range_add, List.map_append, List.map_map]
  congr 1
  refine List.map_congr_left (fun i _ => ?_)
  simp only [Function.comp_apply, UInt32.ofNat_add, UInt32.add_assoc]

end FlatBytes

namespace Memory

/-- The byte that the word around an address holds there.  Outside every region
there is none and zero stands for it. -/
def byteAt (m : Memory) : FlatBytes :=
  fun x => UInt8.ofNat (m.order.extract ((m.wordAt (Word.containing x)).getD 0) x 1).toNat

/-! ## Spans inside one word -/

/-- An address is among the bytes of an access inside one word exactly if it is in
that word and at one of the places the access takes up there. -/
theorem sub_lt_iff {a x : Address} {n : Nat} (h : ByteOrder.Fits a n) :
    (x - a).toNat < n ↔
      Word.containing x = Word.containing a ∧ a.toNat % 4 ≤ x.toNat % 4 ∧
        x.toNat % 4 < a.toNat % 4 + n := by
  have hn := h.2
  have ha := a.toNat_lt
  have hx := x.toNat_lt
  have hsub : (x - a).toNat = (4294967296 - a.toNat + x.toNat) % 4294967296 := UInt32.toNat_sub x a
  rw [← UInt32.toNat_inj, Word.toNat_containing, Word.toNat_containing]
  omega

theorem sub_eq_of_containing {a x : Address} (hc : Word.containing x = Word.containing a)
    (hle : a.toNat % 4 ≤ x.toNat % 4) : x.toNat % 4 = a.toNat % 4 + (x - a).toNat := by
  have ha := a.toNat_lt
  have hx := x.toNat_lt
  have hsub : (x - a).toNat = (4294967296 - a.toNat + x.toNat) % 4294967296 := UInt32.toNat_sub x a
  rw [← UInt32.toNat_inj, Word.toNat_containing, Word.toNat_containing] at hc
  omega

/-- Replacing a word by itself with bytes spliced in writes these bytes. -/
theorem byteAt_of_words {m m' : Memory} {a : Address} {n : Nat} {word v : Word}
    (hword : m.wordAt (Word.containing a) = some word) (hfits : ByteOrder.Fits a n)
    (horder : m'.order = m.order)
    (hwords : ∀ x, x.toNat % 4 = 0 → m'.wordAt x =
      if x = Word.containing a then some (m.order.splice word v a n) else m.wordAt x) :
    m'.byteAt = FlatBytes.write m.byteAt a (m.order.toBytes n v.toNat) := by
  funext x
  rw [byteAt, horder, hwords _ (Word.containing_aligned x)]
  by_cases hin : (x - a).toNat < n
  · obtain ⟨hc, hle, -⟩ := (sub_lt_iff hfits).mp hin
    rw [if_pos hc, Option.getD_some,
      ByteOrder.splice_byte_inside m.order hfits hin (sub_eq_of_containing hc hle),
      FlatBytes.write_inside (ByteOrder.toBytes_getElem? v.toNat hin)]
  · rw [FlatBytes.write_outside (by rw [ByteOrder.length_toBytes]; omega), byteAt]
    by_cases hc : Word.containing x = Word.containing a
    · have hout : x.toNat % 4 < a.toNat % 4 ∨ a.toNat % 4 + n ≤ x.toNat % 4 := by
        by_contra hboth
        exact hin ((sub_lt_iff hfits).mpr ⟨hc, by omega, by omega⟩)
      rw [if_pos hc, Option.getD_some, hc, hword, Option.getD_some,
        ByteOrder.splice_byte_outside m.order hfits hout]
    · rw [if_neg hc]

theorem Wrote.bytes {m m' : Memory} {a : Address} {n : Nat} {word v : Word}
    (hword : m.wordAt (Word.containing a) = some word) (hfits : ByteOrder.Fits a n)
    (h : Wrote m (Word.containing a) (m.order.splice word v a n) m') :
    m'.byteAt = FlatBytes.write m.byteAt a (m.order.toBytes n v.toNat) :=
  byteAt_of_words hword hfits h.order h.words

/-- The bytes of an access inside one word are those of the part it extracts. -/
theorem read_byteAt {m : Memory} {a : Address} {n : Nat} {word : Word}
    (hword : m.wordAt (Word.containing a) = some word) (hfits : ByteOrder.Fits a n) :
    FlatBytes.read m.byteAt a n = m.order.toBytes n (m.order.extract word a n).toNat := by
  apply List.ext_getElem?
  intro i
  by_cases hi : i < n
  · have hsmall : i < 4294967296 := by
      have := hfits.2
      omega
    have hsub := FlatBytes.toNat_add_ofNat_sub a hsmall
    obtain ⟨hc, hle, -⟩ := (sub_lt_iff hfits).mp (Nat.lt_of_le_of_lt (Nat.le_of_eq hsub) hi)
    have hplace := sub_eq_of_containing hc hle
    rw [hsub] at hplace
    rw [FlatBytes.read_getElem? hi, ByteOrder.toBytes_getElem? _ hi, byteAt, hc, hword,
      Option.getD_some, ByteOrder.extract_byte m.order hfits hi hplace]
  · rw [List.getElem?_eq_none (by rw [FlatBytes.length_read]; omega),
      List.getElem?_eq_none (by rw [ByteOrder.length_toBytes]; omega)]

theorem toNat_extract_lt (order : ByteOrder) {a : Address} {n : Nat} (h : ByteOrder.Fits a n)
    (w : Word) : (order.extract w a n).toNat < 256 ^ n := by
  have hpow : 256 ^ n = 2 ^ ByteOrder.bits n := by
    rw [ByteOrder.bits_eq_of_fits h, Nat.pow_mul]
  rw [ByteOrder.extract, UInt32.toNat_ofNat', Nat.one_shiftLeft, hpow]
  exact Nat.lt_of_le_of_lt (Nat.mod_le _ _) (Nat.mod_lt _ (Nat.two_pow_pos _))

theorem ofBytes_read {m : Memory} {a : Address} {n : Nat} {word : Word}
    (hword : m.wordAt (Word.containing a) = some word) (hfits : ByteOrder.Fits a n) :
    m.order.ofBytes (FlatBytes.read m.byteAt a n) = (m.order.extract word a n).toNat := by
  rw [read_byteAt hword hfits, ByteOrder.ofBytes_toBytes]
  exact Nat.mod_eq_of_lt (toNat_extract_lt m.order hfits word)

theorem Told.byteAt {m m' : Memory} (h : Told m m') : m'.byteAt = m.byteAt := by
  funext x
  rw [Memory.byteAt, Memory.byteAt, h.wordAt, h.frame.order]

/-! ## Operations -/

/-- `m'` is `m` with bytes written from `a` on. -/
structure WroteBytes (m : Memory) (a : Address) (bytes : List UInt8) (m' : Memory) : Prop
    extends Frame m m' where
  bytes : m'.byteAt = FlatBytes.write m.byteAt a bytes

theorem WroteBytes.refl (m : Memory) (a : Address) : WroteBytes m a [] m :=
  ⟨Frame.refl m, (FlatBytes.write_nil m.byteAt a).symm⟩

theorem store_bytes {m m' : Memory} (hm : m.Passive) {a : Address} {v old : Word} {n : Nat}
    {notify : Bool} (hn : n = 1 ∨ n = 2 ∨ n = 4) (h : m.store a v n notify = (.ok old, m')) :
    WroteBytes m a (m.order.toBytes n v.toNat) m' ∧
      old.toNat = m.order.ofBytes (FlatBytes.read m.byteAt a n) := by
  obtain ⟨halign, word, hword, hold, hwrote⟩ := store_wrote hm h
  have hfits := fits_of_misalignment? hn halign
  refine ⟨⟨hwrote.toFrame, hwrote.bytes hword hfits⟩, ?_⟩
  rw [ofBytes_read hword hfits, hold]

theorem storeStatement_bytes {m m' : Memory} (hm : m.Passive) {a : Address} {s : EncodedStatement}
    {notify : Bool} (h : m.storeStatement a s notify = (.ok (), m')) :
    WroteBytes m a (m.order.toBytes 4 s.binary.toNat) m' := by
  obtain ⟨ha, ⟨word, hword⟩, hwrote⟩ := storeStatement_wrote hm h
  have hfits : ByteOrder.Fits a 4 := ⟨by omega, by omega⟩
  rw [← Word.containing_eq_self ha] at hword
  rw [← ByteOrder.splice_word m.order ha word s.binary] at hwrote
  refine ⟨hwrote.toFrame, Wrote.bytes hword hfits ?_⟩
  rw [Word.containing_eq_self ha]
  exact hwrote

theorem fetch_bytes {m : Memory} {a : Address} {v : Word} {n : Nat} {notify : Bool}
    (hn : n = 1 ∨ n = 2 ∨ n = 4) (h : (m.fetch a n notify).1 = .ok v) :
    v.toNat = m.order.ofBytes (FlatBytes.read m.byteAt a n) := by
  obtain ⟨halign, word, hword, hv⟩ := fetch_eq_ok_iff.mp h
  rw [ofBytes_read hword (fits_of_misalignment? hn halign), hv]

theorem WroteBytes.fetch {m m' : Memory} {a b : Address} {n : Nat} {bytes : List UInt8} {v : Word}
    {notify notify' : Bool} (hw : WroteBytes m b bytes m') (hn : n = 1 ∨ n = 2 ∨ n = 4)
    (happart : Apart a n b bytes.length) (h : (m.fetch a n notify).1 = .ok v) :
    (m'.fetch a n notify').1 = .ok v := by
  obtain ⟨halign, word, hword, -⟩ := fetch_eq_ok_iff.mp h
  obtain ⟨area, harea, -⟩ := Option.map_eq_some_iff.mp hword
  have hword' : m'.wordAt (Word.containing a) = some (m'.wordIn area (Word.containing a)) := by
    rw [wordAt, hw.area, harea, Option.map_some]
  have hfetch : (m'.fetch a n notify').1 = .ok (m'.order.extract _ a n) :=
    fetch_eq_ok_iff.mpr ⟨halign, _, hword', rfl⟩
  rw [hfetch]
  congr 1
  rw [← UInt32.toNat_inj, fetch_bytes hn hfetch, fetch_bytes hn h, hw.order, hw.bytes,
    FlatBytes.read_write_apart happart]

theorem store_fetch {m m' : Memory} (hm : m.Passive) {a : Address} {v old : Word} {n : Nat}
    {notify notify' : Bool} (hn : n = 1 ∨ n = 2 ∨ n = 4)
    (h : m.store a v n notify = (.ok old, m')) :
    (m'.fetch a n notify').1 = .ok (Word.truncate v n) := by
  obtain ⟨halign, word, hword, -, hwrote⟩ := store_wrote hm h
  obtain ⟨hw, -⟩ := store_bytes hm hn h
  have hword' : m'.wordAt (Word.containing a) = some (m.order.splice word v a n) := by
    rw [hwrote.words _ (Word.containing_aligned a), if_pos rfl]
  have hfetch : (m'.fetch a n notify').1 = .ok (m'.order.extract _ a n) :=
    fetch_eq_ok_iff.mpr ⟨halign, _, hword', rfl⟩
  rw [hfetch]
  congr 1
  have hshort : (m.order.toBytes n v.toNat).length ≤ 4294967296 := by
    rw [ByteOrder.length_toBytes]
    omega
  have hread := FlatBytes.read_write_self m.byteAt a hshort
  rw [ByteOrder.length_toBytes, ← hw.bytes] at hread
  have hsmall : v.toNat % 256 ^ n < 2 ^ 32 := Nat.lt_of_le_of_lt (Nat.mod_le _ _) v.toNat_lt
  rw [← UInt32.toNat_inj, fetch_bytes hn hfetch, hread, hw.order, ByteOrder.ofBytes_toBytes,
    Word.truncate, UInt32.toNat_ofNat', Nat.mod_eq_of_lt hsmall]

/-- A doubleword is stored as its two words, one after the other. -/
theorem storeDoubleword_eq_ok {m m' : Memory} {a : Address} {v old : UInt64} {notify : Bool}
    (h : m.storeDoubleword a v notify = (.ok old, m')) :
    ∃ m₁ old₁ old₂, m.store a (m.order.split v).1 4 notify = (.ok old₁, m₁) ∧
      m₁.store (a + 4) (m.order.split v).2 4 notify = (.ok old₂, m') ∧
      old = m'.order.join old₁ old₂ := by
  simp only [storeDoubleword] at h
  split at h
  · cases h
  · split at h
    · cases h
    · rename_i old₁ m₁ hfirst
      split at h
      · cases h
      · rename_i old₂ m₂ hsecond
        cases h
        exact ⟨m₁, old₁, old₂, hfirst, hsecond, rfl⟩

theorem storeDoubleword_bytes {m m' : Memory} (hm : m.Passive) {a : Address} {v old : UInt64}
    {notify : Bool} (h : m.storeDoubleword a v notify = (.ok old, m')) :
    WroteBytes m a (m.order.toBytes 8 v.toNat) m' ∧
      old.toNat = m.order.ofBytes (FlatBytes.read m.byteAt a 8) := by
  obtain ⟨m₁, old₁, old₂, hfirst, hsecond, hold⟩ := storeDoubleword_eq_ok h
  obtain ⟨hw₁, ho₁⟩ := store_bytes hm (.inr (.inr rfl)) hfirst
  obtain ⟨hw₂, ho₂⟩ := store_bytes (hw₁.within hm) (.inr (.inr rfl)) hsecond
  have horder : m'.order = m.order := hw₂.order.trans hw₁.order
  rw [hw₁.order] at ho₂
  -- The first word is not among the bytes of the second, so these are still the old ones.
  have hread : FlatBytes.read m₁.byteAt (a + 4) 4 = FlatBytes.read m.byteAt (a + 4) 4 := by
    rw [FlatBytes.read, FlatBytes.read]
    refine List.map_congr_left (fun i hi => ?_)
    have hi := List.mem_range.mp hi
    have ha := a.toNat_lt
    rw [hw₁.bytes]
    refine FlatBytes.write_outside ?_
    rw [ByteOrder.length_toBytes, UInt32.toNat_sub, UInt32.toNat_add, UInt32.toNat_add,
      UInt32.toNat_ofNat', show (4 : UInt32).toNat = 4 from rfl]
    omega
  refine ⟨⟨hw₁.toFrame.trans hw₂.toFrame, ?_⟩, ?_⟩
  · rw [hw₂.bytes, hw₁.bytes, hw₁.order, ByteOrder.toBytes_split]
    have hshort : (m.order.toBytes 4 (m.order.split v).1.toNat).length +
        (m.order.toBytes 4 (m.order.split v).2.toNat).length ≤ 4294967296 := by
      rw [ByteOrder.length_toBytes, ByteOrder.length_toBytes]
      omega
    have hjoin := FlatBytes.write_write m.byteAt a hshort
    rw [ByteOrder.length_toBytes] at hjoin
    exact hjoin
  · rw [hold, horder, FlatBytes.read_add m.byteAt a 4 4]
    refine ByteOrder.toNat_join m.order (FlatBytes.length_read _ _ _) (FlatBytes.length_read _ _ _)
      ho₁ ?_
    rw [ho₂, hread]
    rfl

theorem fetchDoubleword_bytes {m : Memory} (hm : m.Passive) {a : Address} {v : UInt64}
    {notify : Bool} (h : (m.fetchDoubleword a notify).1 = .ok v) :
    v.toNat = m.order.ofBytes (FlatBytes.read m.byteAt a 8) := by
  simp only [fetchDoubleword] at h
  split at h
  · cases h
  · split at h
    · cases h
    · rename_i first m₁ hfirst
      split at h
      · cases h
      · rename_i second m₂ hsecond
        have ht₁ : Told m m₁ := by
          have := told_fetch hm a 4 notify
          rwa [hfirst] at this
        have ht₂ : Told m₁ m₂ := by
          have := told_fetch (ht₁.frame.within hm) (a + 4) 4 notify
          rwa [hsecond] at this
        have hv₁ := fetch_bytes (m := m) (.inr (.inr rfl)) (congrArg Prod.fst hfirst)
        have hv₂ := fetch_bytes (m := m₁) (.inr (.inr rfl)) (congrArg Prod.fst hsecond)
        rw [ht₁.frame.order, ht₁.byteAt] at hv₂
        cases h
        rw [ht₂.frame.order, ht₁.frame.order, FlatBytes.read_add m.byteAt a 4 4]
        exact ByteOrder.toNat_join m.order (FlatBytes.length_read _ _ _)
          (FlatBytes.length_read _ _ _) hv₁ hv₂

theorem byteAt_ofSettings (s : MemorySettings) (x : Address) : (ofSettings s).byteAt x = 0 := by
  have hword : ((ofSettings s).wordAt (Word.containing x)).getD 0 = 0 := by
    rw [wordAt]
    cases (ofSettings s).areaOf? (Word.containing x) with
    | none => rfl
    | some area =>
      rw [Option.map_some, Option.getD_some]
      cases area with
      | data which =>
        rw [wordIn]
        cases which <;> exact Region.fetch_empty _ _ _
      | text which =>
        rw [wordIn]
        cases which <;> exact congrArg encoding (Region.fetch_empty _ _ _)
  rw [byteAt, hword]
  refine ofNat_eq_of_testBit (n := 0) (fun i _ => ?_)
  rw [ByteOrder.testBit_extract]
  simp

/-! ## Starting over -/

theorem told_resetWith {m : Memory} (hm : m.Passive) (layout : Layout) :
    Told (m.cleared layout) (m.resetWith layout) :=
  told_announceIf (m := m.cleared layout) hm true .reset

theorem byteAt_resetWith {m : Memory} (hm : m.Passive) (layout : Layout) (x : Address) :
    (m.resetWith layout).byteAt x = 0 := by
  rw [(told_resetWith hm layout).byteAt]
  exact byteAt_ofSettings { layout, order := m.order, selfModifying := m.selfModifying } x

/-! ## Runs -/

theorem closed_order (order : ByteOrder) :
    Closed (fun x => ∀ other, x ≠ .setOrder other) fun m => m.order = order where
  store hm _ h := (deposit_of_poke h).frame.order.trans hm
  storeStatement hm _ h := (pokeStatement_eq_ok h).2.frame.order.trans hm
  setOrder _ hx := absurd rfl (hx _)
  setSelfModifying hm _ := hm
  clear hm _ := hm
  allocateHeap hm _ _ := hm
  told hm _ _ := hm

/-- With passive listeners, byte order is changed by the commands that say so. -/
theorem order_foldl_run (m : Memory) (hm : m.Passive) {commands : List Command}
    (hpassive : ∀ l, .addListener l ∈ commands → l.Within fun x => x.isWatch = true)
    (hkept : ∀ order, .setOrder order ∉ commands) :
    (commands.foldl Command.run m).order = m.order := by
  have hwatch (x : Act) (hx : x.isWatch = true) (order : ByteOrder) : x ≠ .setOrder order := by
    rintro rfl
    cases hx
  refine ((closed_order m.order).foldl_run (fun _ h => h) rfl (hm.mono hwatch) fun c hc => ?_).1
  cases c with
  | request r notify => cases r <;> simp [Command.Within, Request.Within]
  | setOrder order => exact absurd hc (hkept order)
  | addListener l => exact fun n x hx => hwatch x (hpassive l hc n x hx)
  | watch _ _ _ | watchEverywhere _ | unwatch _ => trivial
  | _ => simp [Command.Within]

/-- Whatever was done to a memory since it was made, it is a flat array of bytes:
zero at first and after a reset, changed by a successful store at the addresses
of its span and nowhere else, and giving back what the bytes of a span spell.
Listeners may be told of everything, as long as they do not act on memory. -/
theorem foldl_run_flat (s : MemorySettings) (commands : List Command) {m : Memory}
    (hpassive : ∀ l, .addListener l ∈ commands → l.Within fun x => x.isWatch = true)
    (hrun : commands.foldl Command.run (ofSettings s) = m) :
    (∀ x, (ofSettings s).byteAt x = 0) ∧
    (∀ x, m.reset.byteAt x = 0) ∧
    ((∀ order, .setOrder order ∉ commands) → m.order = s.order) ∧
    (∀ a v (width : Width) notify old m', m.store a v width.bytes notify = (.ok old, m') →
      m'.byteAt = FlatBytes.write m.byteAt a (m.order.toBytes width.bytes v.toNat) ∧
      old.toNat = m.order.ofBytes (FlatBytes.read m.byteAt a width.bytes)) ∧
    (∀ a v notify old m', m.storeDoubleword a v notify = (.ok old, m') →
      m'.byteAt = FlatBytes.write m.byteAt a (m.order.toBytes 8 v.toNat) ∧
      old.toNat = m.order.ofBytes (FlatBytes.read m.byteAt a 8)) ∧
    (∀ a st notify m', m.storeStatement a st notify = (.ok (), m') →
      m'.byteAt = FlatBytes.write m.byteAt a (m.order.toBytes 4 st.binary.toNat)) ∧
    (∀ a (width : Width) notify v, (m.fetch a width.bytes notify).1 = .ok v →
      v.toNat = m.order.ofBytes (FlatBytes.read m.byteAt a width.bytes)) ∧
    (∀ a notify v, (m.fetchDoubleword a notify).1 = .ok v →
      v.toNat = m.order.ofBytes (FlatBytes.read m.byteAt a 8)) := by
  have hm : m.Passive := by
    rw [← hrun]
    exact (passive_ofSettings s).foldl_run hpassive
  refine ⟨byteAt_ofSettings s, byteAt_resetWith hm m.layout, ?_, ?_, ?_, ?_, ?_, ?_⟩
  · intro hkept
    rw [← hrun]
    exact order_foldl_run _ (passive_ofSettings s) hpassive hkept
  · intro a v width notify old m' h
    obtain ⟨hwrote, hold⟩ := store_bytes hm width.bytes_cases h
    exact ⟨hwrote.bytes, hold⟩
  · intro a v notify old m' h
    obtain ⟨hwrote, hold⟩ := storeDoubleword_bytes hm h
    exact ⟨hwrote.bytes, hold⟩
  · intro a st notify m' h
    exact (storeStatement_bytes hm h).bytes
  · intro a width notify v h
    exact fetch_bytes width.bytes_cases h
  · intro a notify v h
    exact fetchDoubleword_bytes hm h

/-- Reads the success of an operation off its result alone, which can be decided. -/
theorem eq_ok_of_toOption {ε α : Type} {result : Except ε α × Memory} {value : α}
    (h : result.1.toOption = some value) : result = (.ok value, result.2) := by
  obtain ⟨outcome, m⟩ := result
  cases outcome with
  | error e => cases h
  | ok v =>
    cases h
    rfl

/-- A byte stored into the middle of a doubleword, in little-endian order: the
byte it gives back is the one the doubleword had there. -/
theorem foldl_run_flat_middle_byte :
    let m := [Command.request (.storeDoubleword 8 0x1122334455667788) true].foldl Command.run
      (ofSettings ⟨Layout.compactData, .little, false⟩)
    (m.store 9 0xff 1 true).1.toOption = some 0x77 ∧
    (m.store 9 0xff 1 true).2.byteAt = FlatBytes.write m.byteAt 9 [0xff] ∧
    (0x77 : Word).toNat = m.order.ofBytes (FlatBytes.read m.byteAt 9 1) := by
  intro m
  have hstored : (m.store 9 0xff 1 true).1.toOption = some 0x77 := by decide +kernel
  have hok : m.store 9 0xff Width.byte.bytes true = (.ok 0x77, (m.store 9 0xff 1 true).2) :=
    eq_ok_of_toOption hstored
  have horder : m.order = .little := by decide +kernel
  obtain ⟨-, -, -, hstore, -⟩ := foldl_run_flat ⟨Layout.compactData, .little, false⟩
    [.request (.storeDoubleword 8 0x1122334455667788) true] (m := m) (by simp) rfl
  obtain ⟨hbytes, hold⟩ := hstore 9 0xff .byte true 0x77 _ hok
  rw [horder] at hbytes
  exact ⟨hstored, hbytes, hold⟩

end Memory
end MipsImage
