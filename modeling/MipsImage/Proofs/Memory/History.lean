/-
A sparse region against the history of its writes.

Tables and blocks are there to save space.  What a region is for is said without them:
a word reads as what was last put there, and a block is present once anything was put
into it.  `Represents` states that of a region and a list of writes, and `runAll_represents`
that it holds of whatever calls are made, each answered by the word it replaced.

Two levels are filled in as they are needed, so the count of blocks is the part with an
argument: a store adds one to it exactly if its block was absent.
-/
import Mathlib
import MipsImage.Proofs.Memory.Region

namespace MipsImage
namespace Region

variable {α ε : Type}

/-! ## Counting blocks -/

/-- How many blocks of a table are present. -/
def presentIn (table : Option (BlockTable α)) : Nat :=
  table.elim 0 fun blocks => blocks.toList.countP (·.isSome)

theorem foldl_add_presentIn (tables : List (Option (BlockTable α))) (n : Nat) :
    tables.foldl (fun count table => count + presentIn table) n =
      n + (tables.map presentIn).sum := by
  induction tables generalizing n with
  | nil => rfl
  | cons table rest ih => rw [List.foldl_cons, ih, List.map_cons, List.sum_cons, Nat.add_assoc]

theorem allocatedBlocks_eq_sum (r : Region α) :
    r.allocatedBlocks = (r.tables.toList.map presentIn).sum := by
  have hsum := foldl_add_presentIn r.tables.toList 0
  rwa [Nat.zero_add] at hsum

/-- If one table gets `k` more blocks, so does the directory. -/
theorem sum_presentIn_modify {f : Option (BlockTable α) → Option (BlockTable α)} {k : Nat}
    {tables : List (Option (BlockTable α))} {i : Nat} (hi : i < tables.length)
    (hf : presentIn (f tables[i]) = presentIn tables[i] + k) :
    ((tables.modify i f).map presentIn).sum = (tables.map presentIn).sum + k := by
  induction tables generalizing i with
  | nil => exact absurd hi (Nat.not_lt_zero i)
  | cons table rest ih =>
    cases i with
    | zero =>
      rw [List.getElem_cons_zero] at hf
      rw [List.modify_zero_cons, List.map_cons, List.map_cons, List.sum_cons, List.sum_cons, hf]
      omega
    | succ i =>
      have hrest := ih (Nat.lt_of_succ_lt_succ hi) hf
      rw [List.modify_succ_cons, List.map_cons, List.map_cons, List.sum_cons, List.sum_cons, hrest,
        Nat.add_assoc]

theorem countP_set_block (blocks : BlockTable α) {i : Nat} (hi : i < 1024) (block : Block α) :
    (blocks.set i (some block) hi).toList.countP (·.isSome) =
      blocks.toList.countP (·.isSome) + if blocks[i].isSome then 0 else 1 := by
  have hlength : i < blocks.toList.length := by
    rw [Vector.length_toList]
    exact hi
  have hmem : blocks[i] ∈ blocks.toList := by
    rw [← Vector.getElem_toList hlength]
    exact List.getElem_mem hlength
  rw [Vector.toList_set, List.countP_set hlength, Vector.getElem_toList,
    if_pos Option.isSome_some]
  cases hblock : blocks[i].isSome with
  | false => rfl
  | true =>
    have hpos : 0 < blocks.toList.countP (·.isSome) := List.countP_pos_iff.mpr ⟨_, hmem, hblock⟩
    rw [if_pos rfl, if_pos rfl]
    omega

/-- Storing into a table adds the block of the address if it was not there. -/
theorem presentIn_storeTable (r : Region α) (a : Address) (v : α)
    (table : Option (BlockTable α)) :
    presentIn (some (r.storeTable a v table)) =
      presentIn table + if (table.bind (·.get (r.blockIndex a))).isSome then 0 else 1 := by
  rw [presentIn, Option.elim_some, storeTable, countP_set_block _ (r.blockIndex a).isLt]
  cases table with
  | none =>
    rw [Option.getD_none, Vector.toList_replicate, List.countP_replicate,
      Vector.getElem_replicate, Option.bind_none]
    simp [presentIn]
  | some blocks => rfl

theorem allocatedBlocks_store {r : Region α} {a : Address} (ha : r.tableIndex a < r.tables.size)
    (v : α) :
    (r.store a v).allocatedBlocks =
      r.allocatedBlocks + if (r.block? a).isSome then 0 else 1 := by
  rw [allocatedBlocks_eq_sum, allocatedBlocks_eq_sum, store_tables, Array.toList_modify]
  refine sum_presentIn_modify (by simpa using ha) ?_
  rw [presentIn_storeTable, block?, Array.getElem?_eq_getElem ha, Option.join_some,
    Array.getElem_toList]
  rfl

theorem allocatedBlocks_empty (range : AddressRange) (blank : α) :
    (empty range blank).allocatedBlocks = 0 := by
  rw [allocatedBlocks_eq_sum, empty, Array.toList_replicate, List.map_replicate,
    List.sum_replicate]
  exact Nat.mul_zero _

/-! ## Histories -/

/-- A word that was put at an address. -/
structure Write (α : Type) where
  address : Address
  value : α

namespace Write

def block (w : Write α) : Nat :=
  w.address.toNat / 4096

/-- The word last put where `a` is, given the writes with the latest first. -/
def last? (history : List (Write α)) (a : Address) : Option α :=
  (history.find? fun w => w.address.toNat / 4 == a.toNat / 4).map (·.value)

theorem last?_cons (w : Write α) (history : List (Write α)) (a : Address) :
    last? (w :: history) a =
      if w.address.toNat / 4 = a.toNat / 4 then some w.value else last? history a := by
  rw [last?, List.find?_cons]
  by_cases hword : w.address.toNat / 4 = a.toNat / 4
  · rw [if_pos hword, beq_iff_eq.mpr hword]
    rfl
  · rw [if_neg hword, beq_eq_false_iff_ne.mpr hword]
    rfl

end Write

/-- A region holds what a history says, and nothing else. -/
structure Represents (r : Region α) (history : List (Write α)) : Prop where
  fetch : ∀ a, r.contains a = true → r.fetch a = (Write.last? history a).getD r.blank
  present : ∀ a, r.contains a = true →
    ((r.fetchOrAbsent a).isSome ↔ ∃ w ∈ history, w.block = a.toNat / 4096)
  blocks : r.allocatedBlocks = (history.map Write.block).toFinset.card

theorem represents_empty (range : AddressRange) (blank : α) :
    (empty range blank).Represents [] where
  fetch a _ := fetch_empty range blank a
  present a _ := by
    rw [fetchOrAbsent, block?_empty]
    simp
  blocks := allocatedBlocks_empty range blank

theorem Represents.store {r : Region α} {history : List (Write α)} (h : r.Represents history)
    {a : Address} (ha : r.contains a = true) (v : α) :
    (r.store a v).Represents (⟨a, v⟩ :: history) where
  fetch b hb := by
    rw [contains, store_range] at hb
    rw [fetch_store ha hb, Write.last?_cons, store_blank, h.fetch b hb]
    split_ifs
    · rfl
    · rfl
  present b hb := by
    rw [contains, store_range] at hb
    rw [isSome_fetchOrAbsent_store ha hb, List.exists_mem_cons_iff, ← h.present b hb]
    rfl
  blocks := by
    -- the block is new to the region exactly if it is new to the history
    have hnew : (r.block? a).isSome ↔ Write.block ⟨a, v⟩ ∈ (history.map Write.block).toFinset := by
      have hpresent := h.present a ha
      rw [fetchOrAbsent, Option.isSome_map] at hpresent
      rw [hpresent, List.mem_toFinset, List.mem_map]
      rfl
    rw [allocatedBlocks_store (tableIndex_lt ha), List.map_cons, List.toFinset_cons,
      Finset.card_insert_eq_ite, h.blocks]
    by_cases hpresent : (r.block? a).isSome = true
    · rw [if_pos hpresent, if_pos (hnew.mp hpresent), Nat.add_zero]
    · rw [if_neg hpresent, if_neg (mt hnew.mpr hpresent)]

/-! ## Calls -/

/-- The calls that write to a region. -/
inductive Call (ε α : Type) where
  | store (address : Address) (value : α)
  | update (address : Address) (f : α → Except ε α)

namespace Call

def address : Call ε α → Address
  | store a _ | update a _ => a

/-- Make a call: its answer and the region after it. -/
def run (r : Region α) : Call ε α → Except ε α × Region α
  | store a v => (r.exchange a v).map .ok id
  | update a f => r.update a f

/-- The word a call puts in place of another. -/
def value (old : α) : Call ε α → Except ε α
  | store _ v => .ok v
  | update _ f => f old

/-- What a call has to do: answer with the last word, and be the last from then on.  If it is
refused, nothing was written. -/
def record (blank : α) (history : List (Write α)) (c : Call ε α) :
    Except ε α × List (Write α) :=
  let last := (Write.last? history c.address).getD blank
  match c.value last with
  | .error e => (.error e, history)
  | .ok v => (.ok last, ⟨c.address, v⟩ :: history)

theorem run_eq (c : Call ε α) {r : Region α} (hc : r.contains c.address = true) :
    c.run r = match c.value (r.fetch c.address) with
      | .error e => (.error e, r)
      | .ok v => (.ok (r.fetch c.address), r.store c.address v) := by
  cases c with
  | store a v => rfl
  | update a f =>
    rw [run, value, address]
    cases hf : f (r.fetch a) with
    | error e => exact update_error hc hf
    | ok v => exact update_ok hc hf

end Call

/-- Make calls one after the other, and collect their answers. -/
def runAll : List (Call ε α) → Region α → List (Except ε α) × Region α
  | [], r => ([], r)
  | c :: rest, r =>
    let (answer, r) := c.run r
    let (answers, r) := runAll rest r
    (answer :: answers, r)

def recordAll (blank : α) :
    List (Call ε α) → List (Write α) → List (Except ε α) × List (Write α)
  | [], history => ([], history)
  | c :: rest, history =>
    let (answer, history) := c.record blank history
    let (answers, history) := recordAll blank rest history
    (answer :: answers, history)

/-- One call does to the region what it does to the history. -/
theorem Represents.run {r : Region α} {history : List (Write α)} (h : r.Represents history)
    {c : Call ε α} (hc : r.contains c.address = true) :
    (c.run r).1 = (c.record r.blank history).1 ∧
      (c.run r).2.Represents (c.record r.blank history).2 ∧
      (c.run r).2.range = r.range ∧ (c.run r).2.blank = r.blank := by
  rw [c.run_eq hc, Call.record, h.fetch c.address hc]
  cases c.value ((Write.last? history c.address).getD r.blank) with
  | error e => exact ⟨rfl, h, rfl, rfl⟩
  | ok v => exact ⟨rfl, h.store hc v, store_range _ _ _, store_blank _ _ _⟩

theorem Represents.runAll {r : Region α} {history : List (Write α)} (h : r.Represents history)
    {calls : List (Call ε α)} (hcalls : ∀ c ∈ calls, r.range.contains c.address = true) :
    (Region.runAll calls r).1 = (recordAll r.blank calls history).1 ∧
      (Region.runAll calls r).2.Represents (recordAll r.blank calls history).2 ∧
      (Region.runAll calls r).2.range = r.range ∧
      (Region.runAll calls r).2.blank = r.blank := by
  induction calls generalizing r history with
  | nil => exact ⟨rfl, h, rfl, rfl⟩
  | cons c rest ih =>
    obtain ⟨hc, hrest⟩ := List.forall_mem_cons.mp hcalls
    obtain ⟨hanswer, hone, hrange, hblank⟩ := h.run hc
    obtain ⟨hanswers, hall, hrange', hblank'⟩ := ih hone (by rw [hrange]; exact hrest)
    rw [hblank] at hanswers hall
    refine ⟨?_, hall, hrange'.trans hrange, hblank'.trans hblank⟩
    exact congrArg₂ List.cons hanswer hanswers

/-- Whatever is written, and wherever in its range, a region is a map from words to values:
each call is answered by the last word put there, each word reads as that, and the blocks
are those that were written to.  No index ever leaves its array. -/
theorem runAll_represents (range : AddressRange) (blank : α) (calls : List (Call ε α))
    (hcalls : ∀ c ∈ calls, range.contains c.address = true) :
    let run := runAll calls (empty range blank)
    let expected := recordAll blank calls []
    run.1 = expected.1 ∧ run.2.range = range ∧ run.2.blank = blank ∧
      run.2.Represents expected.2 ∧
      ∀ a, range.contains a = true → run.2.tableIndex a < run.2.tables.size ∧
        (run.2.blockIndex a).val < 1024 ∧ (run.2.cellIndex a).val < 1024 := by
  intro run expected
  obtain ⟨hanswers, hrepresents, hrange, hblank⟩ :=
    (represents_empty range blank).runAll hcalls
  refine ⟨hanswers, hrange, hblank, hrepresents, fun a ha => ⟨?_, Fin.isLt _, Fin.isLt _⟩⟩
  exact tableIndex_lt (by rw [contains, hrange]; exact ha)

/-- A range that begins inside a table and ends with another.  Two of the calls are to one
word, and one is refused. -/
theorem runAll_represents_two_tables :
    let range : AddressRange := ⟨0x00401000, 0x00bfffff⟩
    let calls : List (Call Unit Word) :=
      [.store 0x00401ffc 9, .update 0x00401ffe fun w => .ok (w + 1),
        .update 0x00800000 fun _ => .error (), .store 0x00bffffc 5]
    let run := runAll calls (empty range 0)
    run.1 = [.ok 0, .ok 9, .error (), .ok 0] ∧ run.2.fetch 0x00401ffd = 10 ∧
      (run.2.fetchOrAbsent 0x00bff000).isSome = true ∧
      (run.2.fetchOrAbsent 0x00800000).isSome = false ∧ run.2.allocatedBlocks = 2 := by
  intro range calls run
  obtain ⟨hanswers, hrange, hblank, hrepresents, -⟩ :=
    runAll_represents range 0 calls (by decide)
  have hinside {a : Address} (ha : range.contains a = true) : run.2.contains a = true := by
    rw [contains, hrange]
    exact ha
  refine ⟨hanswers, ?_, ?_, ?_, hrepresents.blocks⟩
  · rw [hrepresents.fetch _ (hinside rfl), hblank]
    rfl
  · rw [hrepresents.present _ (hinside rfl)]
    exact ⟨⟨0x00bffffc, 5⟩, List.mem_cons_self, rfl⟩
  · rw [Bool.eq_false_iff, Ne, hrepresents.present _ (hinside rfl)]
    decide

end Region
end MipsImage
