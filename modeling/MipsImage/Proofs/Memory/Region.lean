/-
A sparse region is a map from words to values.

The directory, a table of it and a block of that table together form one array
cut in three: a word is found by its number counted from the table boundary, and
the three indices are the digits of that number in base 1024.  A directory reaches as
far as its range, so every address of the range has its place.  `fetch_store` says
that a store is seen by the addresses of the same word and by no other.
-/
import Mathlib
import MipsImage.Memory.Region

namespace MipsImage

theorem AddressRange.contains_iff {r : AddressRange} {a : Address} :
    r.contains a = true ↔ r.first.toNat ≤ a.toNat ∧ a.toNat ≤ r.last.toNat := by
  rw [contains, Bool.and_eq_true, decide_eq_true_iff, decide_eq_true_iff, UInt32.le_iff_toNat_le,
    UInt32.le_iff_toNat_le]

namespace Region

variable {α : Type}

/-! ## Indices -/

theorem contains_iff {r : Region α} {a : Address} :
    r.contains a = true ↔
      r.range.first.toNat ≤ a.toNat ∧ a.toNat ≤ r.range.last.toNat :=
  AddressRange.contains_iff

theorem base_le_first (range : AddressRange) : base range ≤ range.first.toNat :=
  Nat.mul_div_le _ _

/-- Table boundaries are word boundaries, so words are counted alike from a
boundary and from zero. -/
theorem base_eq (range : AddressRange) : base range = base range / 4 * 4 := by
  simp only [base, bytesPerTable]
  omega

theorem wordIndex_eq_iff {r : Region α} {a b : Address} (ha : r.contains a = true)
    (hb : r.contains b = true) :
    r.wordIndex a = r.wordIndex b ↔ a.toNat / 4 = b.toNat / 4 := by
  have hbase := base_eq r.range
  have hfirst := base_le_first r.range
  rw [contains_iff] at ha hb
  simp only [wordIndex]
  omega

/-- The directory has an entry for each address of the range. -/
theorem tableIndex_lt {r : Region α} {a : Address} (ha : r.contains a = true) :
    r.tableIndex a < r.tables.size := by
  rw [contains_iff] at ha
  rw [r.covered]
  simp only [tableIndex, wordIndex, directorySize, bytesPerTable]
  omega

def SameBlock (r : Region α) (a b : Address) : Prop :=
  r.tableIndex a = r.tableIndex b ∧ r.blockIndex a = r.blockIndex b

instance (r : Region α) (a b : Address) : Decidable (r.SameBlock a b) :=
  inferInstanceAs (Decidable (_ ∧ _))

/-- The block and the place in it are the digits of the word number. -/
theorem sameBlock_and_cellIndex_iff {r : Region α} {a b : Address} :
    r.SameBlock a b ∧ r.cellIndex a = r.cellIndex b ↔ r.wordIndex a = r.wordIndex b := by
  simp only [SameBlock, tableIndex, blockIndex, cellIndex, Fin.mk.injEq]
  omega

/-! ## Blocks -/

/-! A store changes the directory alone.  The three facts are stated for a region
taken apart, so that no comparison of directories is attempted. -/

@[simp] theorem store_range (r : Region α) (a : Address) (v : α) :
    (r.store a v).range = r.range := by
  cases r
  rfl

@[simp] theorem store_blank (r : Region α) (a : Address) (v : α) :
    (r.store a v).blank = r.blank := by
  cases r
  rfl

theorem store_tables (r : Region α) (a : Address) (v : α) :
    (r.store a v).tables =
      r.tables.modify (r.tableIndex a) fun t => some (r.storeTable a v t) := by
  cases r
  rfl

@[simp] theorem store_wordIndex (r : Region α) (a b : Address) (v : α) :
    (r.store a v).wordIndex b = r.wordIndex b := by
  rw [wordIndex, store_range, wordIndex]

/-- The block and the place of an address depend on the range alone. -/
theorem store_indices (r : Region α) (a b : Address) (v : α) :
    (r.store a v).tableIndex b = r.tableIndex b ∧ (r.store a v).blockIndex b = r.blockIndex b ∧
      (r.store a v).cellIndex b = r.cellIndex b := by
  simp only [tableIndex, blockIndex, cellIndex, store_wordIndex, and_self]

/-- A store puts the new block of its address in place and leaves every other
block as it is. -/
theorem block?_store {r : Region α} {a : Address} (ha : r.tableIndex a < r.tables.size) (v : α)
    (b : Address) :
    (r.store a v).block? b =
      if r.SameBlock a b then some (r.storeBlock a v (r.block? a)) else r.block? b := by
  obtain ⟨htable, hblock, -⟩ := r.store_indices a b v
  have hget : r.tables[r.tableIndex a]? = some r.tables[r.tableIndex a] :=
    Array.getElem?_eq_getElem ha
  rw [block?, store_tables, htable, Array.getElem?_modify]
  simp only [hblock]
  by_cases ht : r.tableIndex a = r.tableIndex b
  · rw [if_pos ht, block?, block?, ← ht, hget]
    generalize r.tables[r.tableIndex a] = table
    simp only [Option.map_some, Option.join_some, Option.bind_some, storeTable, Fin.getElem_fin,
      Vector.getElem_set]
    by_cases hi : r.blockIndex a = r.blockIndex b
    · rw [if_pos (congrArg Fin.val hi), if_pos ⟨ht, hi⟩]
      cases table with
      | none => simp only [Option.getD_none, Vector.getElem_replicate, Option.bind_none]
      | some blocks => simp only [Option.getD_some, Option.bind_some]
    · rw [if_neg (fun h => hi (Fin.ext h)), if_neg (fun h => hi h.2)]
      cases table with
      | none => simp only [Option.getD_none, Vector.getElem_replicate, Option.bind_none]
      | some blocks => simp only [Option.getD_some, Option.bind_some]
  · rw [if_neg ht, if_neg (fun h => ht h.1), block?]

/-! ## Reading after writing -/

theorem getElem_storeBlock (r : Region α) (a : Address) (v : α) (block : Option (Block α))
    (j : Fin 1024) :
    (r.storeBlock a v block)[j] =
      if r.cellIndex a = j then v else (block.map fun b => b[j]).getD r.blank := by
  rw [storeBlock, Fin.getElem_fin, Vector.getElem_set]
  by_cases hc : r.cellIndex a = j
  · rw [if_pos (congrArg Fin.val hc), if_pos hc]
  · rw [if_neg (fun h => hc (Fin.ext h)), if_neg hc]
    cases block with
    | none => rw [Option.getD_none, Vector.getElem_replicate, Option.map_none, Option.getD_none]
    | some b => rfl

/-- A store is read back at every address of its word, and no other word reads
differently for it. -/
theorem fetch_store {r : Region α} {a b : Address} (ha : r.contains a = true)
    (hb : r.contains b = true) (v : α) :
    (r.store a v).fetch b = if a.toNat / 4 = b.toNat / 4 then v else r.fetch b := by
  obtain ⟨-, -, hcell⟩ := r.store_indices a b v
  have hword := wordIndex_eq_iff ha hb
  rw [← sameBlock_and_cellIndex_iff] at hword
  rw [fetch, fetch, fetchOrAbsent, fetchOrAbsent, block?_store (tableIndex_lt ha), store_blank]
  simp only [hcell, ← hword]
  by_cases hs : r.SameBlock a b
  · have hblock : r.block? b = r.block? a := by
      simp only [block?, hs.1, hs.2]
    rw [if_pos hs, hblock, Option.map_some, Option.getD_some, getElem_storeBlock]
    by_cases hc : r.cellIndex a = r.cellIndex b
    · rw [if_pos hc, if_pos ⟨hs, hc⟩]
    · rw [if_neg hc, if_neg (fun h => hc h.2)]
  · rw [if_neg hs, if_neg (fun h => hs h.1)]

/-- Blocks are 4 KiB of addresses, counted alike from a table boundary and from
zero. -/
theorem sameBlock_iff {r : Region α} {a b : Address} (ha : r.contains a = true)
    (hb : r.contains b = true) : r.SameBlock a b ↔ a.toNat / 4096 = b.toNat / 4096 := by
  have hfirst := base_le_first r.range
  have hbase : base r.range = base r.range / 4096 * 4096 := by
    simp only [base, bytesPerTable]
    omega
  rw [contains_iff] at ha hb
  simp only [SameBlock, tableIndex, blockIndex, wordIndex, Fin.mk.injEq]
  omega

/-- A store makes all of its block present, and no other block. -/
theorem fetchOrAbsent_store {r : Region α} {a b : Address} (ha : r.contains a = true)
    (hb : r.contains b = true) (v : α) :
    (r.store a v).fetchOrAbsent b =
      if a.toNat / 4096 = b.toNat / 4096 then some ((r.store a v).fetch b)
      else r.fetchOrAbsent b := by
  obtain ⟨-, -, hcell⟩ := r.store_indices a b v
  have hblock := block?_store (tableIndex_lt ha) v b
  have hsame := sameBlock_iff ha hb
  rw [fetch, fetchOrAbsent, hblock]
  by_cases hs : r.SameBlock a b
  · rw [if_pos hs, if_pos (hsame.mp hs), Option.map_some, Option.getD_some]
  · rw [if_neg hs, if_neg (mt hsame.mpr hs), fetchOrAbsent]
    simp only [hcell]

theorem isSome_fetchOrAbsent_store {r : Region α} {a b : Address}
    (ha : r.contains a = true) (hb : r.contains b = true) (v : α) :
    ((r.store a v).fetchOrAbsent b).isSome = true ↔
      a.toNat / 4096 = b.toNat / 4096 ∨ (r.fetchOrAbsent b).isSome = true := by
  rw [fetchOrAbsent_store ha hb]
  by_cases hblock : a.toNat / 4096 = b.toNat / 4096
  · simp [hblock]
  · simp [hblock]

theorem block?_empty (range : AddressRange) (blank : α) (a : Address) :
    (empty range blank).block? a = none := by
  rw [block?, empty, Array.getElem?_replicate]
  split <;> rfl

theorem fetch_empty (range : AddressRange) (blank : α) (a : Address) :
    (empty range blank).fetch a = blank := by
  rw [fetch, fetchOrAbsent, block?_empty]
  rfl

/-! ## Updates -/

theorem update_ok {ε : Type} {r : Region α} {a : Address} (ha : r.contains a = true)
    {f : α → Except ε α} {v : α} (hf : f (r.fetch a) = .ok v) :
    r.update a f = (.ok (r.fetch a), r.store a v) := by
  rw [update, if_pos (tableIndex_lt ha), hf]

theorem update_error {ε : Type} {r : Region α} {a : Address} (ha : r.contains a = true)
    {f : α → Except ε α} {e : ε} (hf : f (r.fetch a) = .error e) :
    r.update a f = (.error e, r) := by
  rw [update, if_pos (tableIndex_lt ha), hf]

theorem update_eq_error_iff {ε : Type} {r r' : Region α} {a : Address} {f : α → Except ε α}
    {e : ε} : r.update a f = (.error e, r') ↔
      r.tableIndex a < r.tables.size ∧ f (r.fetch a) = .error e ∧ r' = r := by
  rw [update]
  split_ifs with hinside
  · cases f (r.fetch a) with
    | error e' => simp [hinside, eq_comm]
    | ok v => simp
  · simp [hinside]

end Region
end MipsImage
