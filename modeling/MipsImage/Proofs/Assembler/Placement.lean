/-
Where the statements of a program end up.

A successful run resolves every parsed statement against the tables it ends with,
and puts the encoding of every part of it at the word that follows the part before.
Two statements never share a word: the first pass only looks at where statements
begin, and what overlaps otherwise is found when the third pass meets a word that is
taken.
-/
import MipsImage.Proofs.Assembler.Program
import MipsImage.Proofs.Symbol

namespace MipsImage

/-! ## What the first pass leaves alone -/

namespace Assembler

/-- From `a` to `b` listeners stay passive, and nothing is resolved or assembled. -/
structure Reads (a b : Assembler) : Prop where
  passive : b.memory.Passive
  resolved : b.resolved = a.resolved
  assembled : b.assembled = a.assembled

theorem Reads.trans {a b c : Assembler} (hab : Reads a b) (hbc : Reads b c) : Reads a c where
  passive := hbc.passive
  resolved := hbc.resolved.trans hab.resolved
  assembled := hbc.assembled.trans hab.assembled

end Assembler

theorem Fixup.passive_apply {f : Fixup} {value : Address} {s : FixupState} (hm : s.memory.Passive) :
    (f.apply value s).memory.Passive := by
  have hkept := hm.store f.address value f.length true
  rw [apply]
  split
  · rename_i hstore
    rwa [hstore] at hkept
  · rename_i hstore
    rwa [hstore] at hkept

namespace FixupQueue

theorem passive_finishOne {scope : SymbolScope} {s : FixupState} (hm : s.memory.Passive)
    (f : Fixup) : (finishOne scope s f).memory.Passive := by
  rw [finishOne]
  split
  · exact Fixup.passive_apply hm
  · exact hm

theorem passive_foldl_finishOne {scope : SymbolScope} (fs : List Fixup) {s : FixupState}
    (hm : s.memory.Passive) : (fs.foldl (finishOne scope) s).memory.Passive := by
  induction fs generalizing s with
  | nil => exact hm
  | cons f rest ih => exact ih (passive_finishOne hm f)

theorem passive_finishWaiting {globals : SymbolTable} (fs : List Fixup) {s : FixupState}
    (hm : s.memory.Passive) : (finishWaiting globals fs s).memory.Passive := by
  induction fs generalizing s with
  | nil => exact hm
  | cons f rest ih =>
    rw [finishWaiting]
    split
    · exact ih (Fixup.passive_apply hm)
    · split
      · exact hm
      · exact ih hm

end FixupQueue

namespace Assembler

theorem reads_step {a : Assembler} (hm : a.memory.Passive) {x : Step} (h : (a.step x).Clean) :
    Reads a (a.step x) := by
  cases x with
  | openFile name => exact ⟨hm, rfl, rfl⟩
  | act x =>
    have heffect := act_effect h
    exact ⟨heffect.passive hm, heffect.resolved, heffect.assembled⟩
  | closeFile =>
    obtain ⟨locals, globals, heq⟩ := promoteGlobals_eq (clean_of_finishFile h)
    rw [step, heq]
    exact ⟨FixupQueue.passive_foldl_finishOne _ hm, rfl, rfl⟩

theorem reads_stepAll {xs : List Step} {a : Assembler} (hm : a.memory.Passive)
    (h : (a.stepAll xs).Clean) : Reads a (a.stepAll xs) := by
  induction xs generalizing a with
  | nil => exact ⟨hm, rfl, rfl⟩
  | cons x rest ih =>
    have hone := reads_step hm (clean_of_stepAll h)
    exact hone.trans (ih hone.passive h)

theorem reads_firstPass {settings : AssemblerSettings} {ms : MemorySettings}
    {sources : List (String × String)} (h : (firstPass settings ms sources).Clean) :
    Reads (start settings (.ofSettings ms)) (firstPass settings ms sources) := by
  have hall := reads_stepAll (Memory.passive_ofSettings ms) (clean_of_finishAll h)
  exact ⟨FixupQueue.passive_finishWaiting _ hall.passive, hall.resolved, hall.assembled⟩

end Assembler

/-! ## Resolved statements -/

/-- The value of an operand, if its label is defined. -/
def Operand.value? (lookup? : String → Option Symbol) : Operand → Option Word
  | .register _ number | .parenRegister _ number => some (UInt32.ofNat number.val)
  | .integer _ value => some value
  | .label token offset => (lookup? token.literal).map (·.address + offset)

/-- `r` is the statement `s` with the values that its operands have by `lookup?`. -/
structure ResolvedStatement.Resolves (lookup? : String → Option Symbol) (s : ParsedStatement)
    (r : ResolvedStatement) : Prop where
  source : r.source = s
  operands : s.operands.map (Operand.value? lookup?) = r.operands.map some
  parts : r.parts = s.instruction.expand r.operands

theorem Instruction.length_expand (i : Instruction) (operands : List Word) :
    (i.expand operands).length = i.size / 4 := by
  cases i with
  | basic b => simp only [expand, size, List.length_singleton, Nat.reduceDiv]
  | pseudo p =>
    rw [expand, PseudoInstruction.expand, List.length_map, size]
    omega

theorem ResolvedStatement.Resolves.length_parts {lookup? : String → Option Symbol}
    {s : ParsedStatement} {r : ResolvedStatement} (h : r.Resolves lookup? s) :
    r.parts.length = s.size / 4 := by
  rw [h.parts, Instruction.length_expand]
  rfl

theorem ResolvedStatement.Resolves.operand_label {lookup? : String → Option Symbol}
    {s : ParsedStatement} {r : ResolvedStatement} (h : r.Resolves lookup? s) {n : Nat}
    {token : Token} {offset : Word} (hn : s.operands[n]? = some (.label token offset)) :
    ∃ symbol, lookup? token.literal = some symbol ∧
      r.operands[n]? = some (symbol.address + offset) := by
  have hvalue := congrArg (·[n]?) h.operands
  simp only [List.getElem?_map, hn, Option.map_some, Operand.value?] at hvalue
  obtain ⟨value, hr, hsome⟩ := Option.map_eq_some_iff.mp hvalue.symm
  obtain ⟨symbol, hsymbol, rfl⟩ := Option.map_eq_some_iff.mp hsome.symm
  exact ⟨symbol, hsymbol, hr⟩

namespace Assembler

theorem resolveOperand_eq {scope : SymbolScope} {log : Log} {op : Operand}
    (h : (resolveOperand scope log op).2.errors = 0) :
    (resolveOperand scope log op).2 = log ∧
      op.value? scope.lookup? = some (resolveOperand scope log op).1 := by
  cases op with
  | register token number => exact ⟨rfl, rfl⟩
  | parenRegister token number => exact ⟨rfl, rfl⟩
  | integer token value => exact ⟨rfl, rfl⟩
  | label token offset =>
    rw [Operand.value?]
    cases hlookup : scope.lookup? token.literal with
    | some symbol =>
      simp only [resolveOperand, hlookup, Option.map_some, and_self]
    | none =>
      simp only [resolveOperand, hlookup] at h
      exact absurd rfl (Log.errors_add_eq_zero_iff.mp h).2

theorem resolveOperands_cons (scope : SymbolScope) (log : Log) (op : Operand)
    (rest : List Operand) :
    resolveOperands scope log (op :: rest) =
      ((resolveOperand scope log op).1 ::
          (resolveOperands scope (resolveOperand scope log op).2 rest).1,
        (resolveOperands scope (resolveOperand scope log op).2 rest).2) := rfl

theorem resolveOperands_eq {scope : SymbolScope} {ops : List Operand} {log : Log}
    (h : (resolveOperands scope log ops).2.errors = 0) :
    (resolveOperands scope log ops).2 = log ∧
      ops.map (Operand.value? scope.lookup?) = (resolveOperands scope log ops).1.map some := by
  induction ops generalizing log with
  | nil => exact ⟨rfl, rfl⟩
  | cons op rest ih =>
    rw [resolveOperands_cons] at h ⊢
    obtain ⟨hlog, hvalues⟩ := ih h
    have hclean : (resolveOperand scope log op).2.errors = 0 := by
      rw [← hlog]
      exact h
    obtain ⟨hsame, hvalue⟩ := resolveOperand_eq hclean
    refine ⟨hlog.trans hsame, ?_⟩
    rw [List.map_cons, List.map_cons, hvalue, hvalues]

theorem resolveStatement_eq {a : Assembler} {s : ParsedStatement}
    (h : (a.resolveStatement s).2.errors = 0) :
    (a.resolveStatement s).2 = a.log ∧
      (a.resolveStatement s).1.Resolves (a.lookup? s.location.file) s := by
  obtain ⟨hlog, hoperands⟩ := resolveOperands_eq h
  exact ⟨hlog, rfl, hoperands, rfl⟩

def resolveAt (a : Assembler) (address : Address) (s : ParsedStatement) : Assembler :=
  { a with log := (a.resolveStatement s).2
           resolved := a.resolved.insert address (a.resolveStatement s).1 }

theorem resolveAll_cons {address : Address} {s : ParsedStatement}
    {rest : List (Address × ParsedStatement)} {a : Assembler}
    (h : (resolveAll ((address, s) :: rest) a).Clean) :
    resolveAll ((address, s) :: rest) a = resolveAll rest (a.resolveAt address s) := by
  have hstep : resolveAll ((address, s) :: rest) a =
      if (a.resolveAt address s).log.exceeded then a.resolveAt address s
      else resolveAll rest (a.resolveAt address s) := rfl
  rw [hstep] at h ⊢
  split_ifs at h ⊢ with hexceeded
  · rw [Log.not_exceeded h] at hexceeded
    cases hexceeded
  · rfl

theorem clean_of_resolveAll {list : List (Address × ParsedStatement)} {a : Assembler}
    (h : (resolveAll list a).Clean) : a.Clean := by
  induction list generalizing a with
  | nil => exact h
  | cons entry rest ih =>
    rw [resolveAll_cons h] at h
    have hlog : (a.resolveStatement entry.2).2.errors = 0 := ih h
    rw [Clean, ← (resolveStatement_eq hlog).1]
    exact hlog

/-- The second pass, statement by statement: each goes under its own address, and
the addresses it does not meet keep what they have. -/
theorem resolveAll_eq {list : List (Address × ParsedStatement)} {a : Assembler}
    (hkeys : list.Pairwise fun x y => x.1 ≠ y.1) (h : (resolveAll list a).Clean) :
    ∃ resolved : Std.TreeMap Address ResolvedStatement,
      resolveAll list a = { a with resolved } ∧
      (∀ entry ∈ list, ∃ r, resolved[entry.1]? = some r ∧
        r.Resolves (a.lookup? entry.2.location.file) entry.2) ∧
      ∀ k, (∀ entry ∈ list, entry.1 ≠ k) → resolved[k]? = a.resolved[k]? := by
  induction list generalizing a with
  | nil =>
    exact ⟨a.resolved, rfl, fun entry hentry => absurd hentry List.not_mem_nil, fun k _ => rfl⟩
  | cons entry rest ih =>
    obtain ⟨address, s⟩ := entry
    have hstep := resolveAll_cons h
    rw [hstep] at h
    obtain ⟨hlog, hone⟩ := resolveStatement_eq (clean_of_resolveAll h)
    rw [hstep]
    rw [resolveAt, hlog] at h ⊢
    obtain ⟨hfirst, hrest⟩ := List.pairwise_cons.mp hkeys
    obtain ⟨resolved, heq, hall, hothers⟩ := ih hrest h
    refine ⟨resolved, heq, List.forall_mem_cons.mpr ⟨?_, hall⟩, fun k hk => ?_⟩
    · refine ⟨(a.resolveStatement s).1, ?_, hone⟩
      rw [hothers address fun other hother => (hfirst other hother).symm,
        Std.TreeMap.getElem?_insert_self]
    · obtain ⟨hk₁, hk₂⟩ := List.forall_mem_cons.mp hk
      rw [hothers k hk₂, getElem?_insert_eq_ite, if_neg (Ne.symm hk₁)]

/-- The second pass resolves what is parsed and nothing else. -/
theorem resolvePass_eq {a : Assembler} (hfresh : a.resolved = ∅) (h : a.resolvePass.Clean) :
    ∃ resolved : Std.TreeMap Address ResolvedStatement,
      a.resolvePass = { a with resolved } ∧
      (∀ (k : Address) (s : ParsedStatement), a.parsed[k]? = some s →
        ∃ r, resolved[k]? = some r ∧ r.Resolves (a.lookup? s.location.file) s) ∧
      ∀ k : Address, a.parsed[k]? = none → resolved[k]? = none := by
  have hkeys : a.parsed.toList.Pairwise fun x y => x.1 ≠ y.1 := by
    refine List.Pairwise.imp ?_ Std.TreeMap.distinct_keys_toList
    intro x y hxy hsame
    exact hxy (by rw [hsame]; exact Std.ReflCmp.compare_self)
  obtain ⟨resolved, heq, hall, hothers⟩ := resolveAll_eq hkeys h
  refine ⟨resolved, heq, fun k s hs => ?_, fun k hk => ?_⟩
  · exact hall (k, s) (Std.TreeMap.mem_toList_iff_getElem?_eq_some.mpr hs)
  · rw [hothers k, hfresh, Std.TreeMap.getElem?_emptyc]
    rintro ⟨k', s⟩ hentry rfl
    rw [Std.TreeMap.mem_toList_iff_getElem?_eq_some] at hentry
    rw [hentry] at hk
    cases hk

end Assembler

/-! ## Encoded statements -/

/-- A basic instruction that a statement has at an address. -/
structure Placement where
  address : Address
  source : ParsedStatement
  instruction : BasicInstruction
  operands : List Word

namespace Placement

def Encodes (p : Placement) (s : EncodedStatement) : Prop :=
  ∃ binary, p.instruction.encode p.operands p.address = .ok binary ∧
    s = { instruction := p.instruction, operands := p.operands, binary, source := some p.source }

theorem Encodes.unique {p : Placement} {s t : EncodedStatement} (hs : p.Encodes s)
    (ht : p.Encodes t) : s = t := by
  obtain ⟨binary, hbinary, rfl⟩ := hs
  obtain ⟨binary', hbinary', rfl⟩ := ht
  rw [hbinary] at hbinary'
  cases hbinary'
  rfl

def ofParts (source : ParsedStatement) :
    Address → List (BasicInstruction × List Word) → List Placement
  | _, [] => []
  | address, (instruction, operands) :: rest =>
    { address, source, instruction, operands } :: ofParts source (address + 4) rest

theorem ofParts_getElem? (source : ParsedStatement) (parts : List (BasicInstruction × List Word))
    (address : Address) (i : Nat) :
    (ofParts source address parts)[i]? =
      parts[i]?.map fun part =>
        { address := address + 4 * UInt32.ofNat i, source, instruction := part.1,
          operands := part.2 } := by
  induction parts generalizing address i with
  | nil => rfl
  | cons part rest ih =>
    cases i with
    | zero =>
      rw [ofParts, List.getElem?_cons_zero, List.getElem?_cons_zero, Option.map_some]
      simp
    | succ i =>
      rw [ofParts, List.getElem?_cons_succ, List.getElem?_cons_succ, ih]
      have haddress : address + 4 + 4 * UInt32.ofNat i = address + 4 * UInt32.ofNat (i + 1) := by
        rw [show UInt32.ofNat (i + 1) = UInt32.ofNat i + 1 from UInt32.ofNat_add i 1,
          UInt32.mul_add, UInt32.mul_one, UInt32.add_assoc, UInt32.add_comm 4]
      rw [haddress]

end Placement

def ResolvedStatement.placements (list : List (Address × ResolvedStatement)) : List Placement :=
  list.flatMap fun entry => Placement.ofParts entry.2.source entry.1 entry.2.parts

namespace Assembler

def place (a : Assembler) (p : Placement) : Assembler :=
  match p.instruction.encode p.operands p.address with
  | .ok binary =>
    a.placeStatement p.address
      { instruction := p.instruction, operands := p.operands, binary, source := some p.source }
  | .error e => a.report (some p.source.location) (.encode e)

theorem place_cases {a : Assembler} {p : Placement} (h : (a.place p).Clean) :
    ∃ s memory, p.Encodes s ∧ a.assembled[p.address]? = none ∧
      a.memory.storeStatement p.address s true = (.ok (), memory) ∧
      a.place p = { a with memory, assembled := a.assembled.insert p.address s } := by
  cases hencode : p.instruction.encode p.operands p.address with
  | error e =>
    simp only [place, hencode] at h
    exact absurd h (not_clean_report rfl)
  | ok binary =>
    simp only [place, hencode, placeStatement] at h ⊢
    cases htaken : a.assembled[p.address]? with
    | some existing =>
      simp only [htaken] at h
      exact absurd h (not_clean_report rfl)
    | none =>
      simp only [htaken] at h ⊢
      split at h
      · rename_i memory hstore
        exact ⟨_, memory, ⟨binary, hencode, rfl⟩, trivial, hstore, rfl⟩
      · exact absurd h (not_clean_report rfl)

theorem clean_of_place {a : Assembler} {p : Placement} (h : (a.place p).Clean) : a.Clean := by
  obtain ⟨s, memory, -, -, -, heq⟩ := place_cases h
  rwa [heq] at h

theorem clean_of_foldl_place {ps : List Placement} {a : Assembler} (h : (ps.foldl place a).Clean) :
    a.Clean := by
  induction ps generalizing a with
  | nil => exact h
  | cons p rest ih => exact clean_of_place (ih h)

theorem placeParts_eq (source : ParsedStatement) (parts : List (BasicInstruction × List Word))
    (address : Address) (a : Assembler) :
    placeParts source address parts a = (Placement.ofParts source address parts).foldl place a := by
  induction parts generalizing address a with
  | nil => rfl
  | cons part rest ih =>
    rw [placeParts, Placement.ofParts, List.foldl_cons, ih]
    rfl

theorem placeAll_eq {list : List (Address × ResolvedStatement)} {a : Assembler}
    (h : (placeAll list a).Clean) :
    placeAll list a = (ResolvedStatement.placements list).foldl place a := by
  induction list generalizing a with
  | nil => rfl
  | cons entry rest ih =>
    obtain ⟨address, s⟩ := entry
    have hstep : placeAll ((address, s) :: rest) a =
        if (placeParts s.source address s.parts a).log.exceeded then
          placeParts s.source address s.parts a
        else placeAll rest (placeParts s.source address s.parts a) := rfl
    rw [hstep] at h ⊢
    split_ifs at h ⊢ with hexceeded
    · rw [Log.not_exceeded h] at hexceeded
      cases hexceeded
    · rw [ih h, placeParts_eq, ResolvedStatement.placements, ResolvedStatement.placements,
        List.flatMap_cons, List.foldl_append]

/-- After `ps` were placed over the contents of `base`: every one of them is
assembled at a word of its own, that word of memory is its encoding, and the words
where nothing is assembled are still those of `base`. -/
structure Placed (base : Memory) (ps : List Placement) (a : Assembler) : Prop where
  passive : a.memory.Passive
  order : a.memory.order = base.order
  distinct : (ps.map (·.address)).Nodup
  aligned : ∀ p ∈ ps, p.address.toNat % 4 = 0
  encoded : ∀ p ∈ ps, ∃ s, p.Encodes s
  assembled : ∀ k s, a.assembled[k]? = some s ↔ ∃ p ∈ ps, p.address = k ∧ p.Encodes s
  words : ∀ k s, a.assembled[k]? = some s → a.memory.wordAt k = some s.binary
  untouched : ∀ x : Address, x.toNat % 4 = 0 → a.assembled[x]? = none →
    a.memory.wordAt x = base.wordAt x

theorem Placed.place {base : Memory} {ps : List Placement} {a : Assembler}
    (ha : Placed base ps a) {p : Placement} (h : (a.place p).Clean) :
    Placed base (ps ++ [p]) (a.place p) := by
  obtain ⟨s, memory, hs, hfree, hstore, heq⟩ := place_cases h
  obtain ⟨haligned, -, hwrote⟩ := Memory.storeStatement_wrote ha.passive hstore
  -- The word was free, so no earlier placement has this address.
  have hnew : ∀ q ∈ ps, q.address ≠ p.address := by
    intro q hq hsame
    obtain ⟨t, ht⟩ := ha.encoded q hq
    have htaken := (ha.assembled p.address t).mpr ⟨q, hq, hsame, ht⟩
    rw [hfree] at htaken
    cases htaken
  rw [heq]
  refine ⟨hwrote.within ha.passive, hwrote.order.trans ha.order, ?_, ?_, ?_, ?_, ?_, ?_⟩
  · rw [List.map_append, List.map_singleton, List.nodup_append]
    refine ⟨ha.distinct, List.nodup_singleton _, ?_⟩
    intro x hx y hy
    obtain ⟨q, hq, rfl⟩ := List.mem_map.mp hx
    rw [List.mem_singleton.mp hy]
    exact hnew q hq
  · exact List.forall_mem_append.mpr ⟨ha.aligned, by simpa using haligned⟩
  · exact List.forall_mem_append.mpr ⟨ha.encoded, by simpa using ⟨s, hs⟩⟩
  · intro k t
    rw [getElem?_insert_eq_ite]
    by_cases hk : k = p.address
    · rw [if_pos hk, Option.some_inj]
      constructor
      · rintro rfl
        exact ⟨p, by simp, hk.symm, hs⟩
      · rintro ⟨q, hq, hqk, ht⟩
        rcases List.mem_append.mp hq with hq | hq
        · exact absurd (hqk.trans hk) (hnew q hq)
        · rw [List.mem_singleton.mp hq] at ht
          exact hs.unique ht
    · rw [if_neg hk, ha.assembled]
      constructor
      · rintro ⟨q, hq, hqk, ht⟩
        exact ⟨q, List.mem_append_left [p] hq, hqk, ht⟩
      · rintro ⟨q, hq, hqk, ht⟩
        rcases List.mem_append.mp hq with hq | hq
        · exact ⟨q, hq, hqk, ht⟩
        · rw [List.mem_singleton.mp hq] at hqk
          exact absurd hqk.symm hk
  · intro k t hk
    rw [getElem?_insert_eq_ite] at hk
    split_ifs at hk with hkp
    · cases hk
      rw [hwrote.words k (by rw [hkp]; exact haligned), if_pos hkp]
    · obtain ⟨q, hq, rfl, -⟩ := (ha.assembled k t).mp hk
      rw [hwrote.words q.address (ha.aligned q hq), if_neg hkp]
      exact ha.words q.address t hk
  · intro x hx hk
    rw [getElem?_insert_eq_ite] at hk
    split_ifs at hk with hxp
    rw [hwrote.words x hx, if_neg hxp]
    exact ha.untouched x hx hk

theorem Placed.foldl_place {base : Memory} {qs ps : List Placement} {a : Assembler}
    (ha : Placed base ps a) (h : (qs.foldl Assembler.place a).Clean) :
    Placed base (ps ++ qs) (qs.foldl Assembler.place a) := by
  induction qs generalizing ps a with
  | nil => rwa [List.append_nil]
  | cons q rest ih =>
    have hone := ha.place (clean_of_foldl_place h)
    have hall := ih hone h
    rwa [List.append_assoc, List.singleton_append] at hall

theorem foldl_place_eq {ps : List Placement} {a : Assembler} (h : (ps.foldl place a).Clean) :
    ∃ memory assembled, ps.foldl place a = { a with memory, assembled } := by
  induction ps generalizing a with
  | nil => exact ⟨a.memory, a.assembled, rfl⟩
  | cons p rest ih =>
    obtain ⟨s, memory, -, -, -, heq⟩ := place_cases (clean_of_foldl_place h)
    obtain ⟨memory', assembled', hrest⟩ := ih h
    rw [List.foldl_cons, hrest, heq]
    exact ⟨memory', assembled', rfl⟩

/-- The third pass, over a state where nothing is assembled yet. -/
theorem placePass_placed {a : Assembler} (hm : a.memory.Passive) (hfresh : a.assembled = ∅)
    (h : a.placePass.Clean) :
    (∃ memory assembled, a.placePass = { a with memory, assembled }) ∧
      Placed a.memory (ResolvedStatement.placements a.resolved.toList) a.placePass := by
  have hstart : Placed a.memory [] a := by
    refine ⟨hm, rfl, List.nodup_nil, ?_, ?_, ?_, ?_, fun x _ _ => rfl⟩
    · intro p hp
      exact absurd hp List.not_mem_nil
    · intro p hp
      exact absurd hp List.not_mem_nil
    · intro k s
      rw [hfresh, Std.TreeMap.getElem?_emptyc]
      simp
    · intro k s hk
      rw [hfresh, Std.TreeMap.getElem?_emptyc] at hk
      cases hk
  have heq : a.placePass = (ResolvedStatement.placements a.resolved.toList).foldl place a :=
    placeAll_eq h
  rw [heq] at h ⊢
  exact ⟨foldl_place_eq h, hstart.foldl_place h⟩

end Assembler

/-! ## Footprints -/

theorem Placement.map_address_ofParts (source : ParsedStatement) (address : Address)
    (parts : List (BasicInstruction × List Word)) :
    (ofParts source address parts).map (·.address) = wordsFrom address parts.length := by
  refine List.ext_getElem? fun i => ?_
  rw [wordsFrom, List.getElem?_map, List.getElem?_map, ofParts_getElem?, Option.map_map]
  by_cases hi : i < parts.length
  · rw [List.getElem?_range hi, List.getElem?_eq_getElem hi]
    rfl
  · rw [List.getElem?_eq_none (by omega),
      List.getElem?_eq_none (by rw [List.length_range]; omega), Option.map_none, Option.map_none]

/-- If no address comes up twice among all words of a table of statements, a word is
that of one statement only, and only once. -/
theorem eq_of_mem_wordsFrom {resolved : Std.TreeMap Address ResolvedStatement}
    (hdistinct : ((ResolvedStatement.placements resolved.toList).map (·.address)).Nodup)
    {address address' : Address} {r r' : ResolvedStatement} (hr : resolved[address]? = some r)
    (hr' : resolved[address']? = some r') {i j : Nat} (hi : i < r.parts.length)
    (hj : j < r'.parts.length)
    (hsame : address + 4 * UInt32.ofNat i = address' + 4 * UInt32.ofNat j) :
    address = address' ∧ i = j := by
  rw [ResolvedStatement.placements, List.map_flatMap, List.nodup_flatMap] at hdistinct
  obtain ⟨hinside, hacross⟩ := hdistinct
  have hmem := Std.TreeMap.mem_toList_iff_getElem?_eq_some.mpr hr
  have hmem' := Std.TreeMap.mem_toList_iff_getElem?_eq_some.mpr hr'
  by_cases haddress : address = address'
  · subst haddress
    rw [hr] at hr'
    cases hr'
    have hnodup := hinside _ hmem
    rw [Placement.map_address_ofParts, wordsFrom] at hnodup
    exact ⟨rfl, List.inj_on_of_nodup_map hnodup (List.mem_range.mpr hi) (List.mem_range.mpr hj)
      hsame⟩
  · have : Std.Symm (Function.onFun List.Disjoint fun entry : Address × ResolvedStatement =>
        (Placement.ofParts entry.2.source entry.1 entry.2.parts).map (·.address)) :=
      ⟨fun _ _ h => List.Disjoint.symm h⟩
    have hapart := hacross.forall hmem hmem' fun h => haddress (Prod.mk.inj h).1
    rw [Function.onFun, Placement.map_address_ofParts, Placement.map_address_ofParts] at hapart
    exact absurd (mem_wordsFrom.mpr ⟨j, hj, rfl⟩)
      (hapart (mem_wordsFrom.mpr ⟨i, hi, hsame⟩))

/-- Every byte of a footprint lies in the word it belongs to. -/
theorem containing_add {address : Address} {i : Nat}
    (h : (address + 4 * UInt32.ofNat (i / 4)).toNat % 4 = 0) :
    Word.containing (address + UInt32.ofNat i) = address + 4 * UInt32.ofNat (i / 4) := by
  rw [toNat_add_words] at h
  rw [← UInt32.toNat_inj, Word.toNat_containing, toNat_add_words, toNat_add_ofNat]
  omega

theorem Instruction.size_eq (i : Instruction) : i.size = 4 * (i.size / 4) := by
  cases i with
  | basic b => simp only [size, Nat.reduceDiv, Nat.reduceMul]
  | pseudo p =>
    rw [size]
    omega

namespace Assembler

/-- What the second and the third pass add to the first. -/
theorem assembleSources_passes {settings : AssemblerSettings} {ms : MemorySettings}
    {sources : List (String × String)} {a : Assembler}
    (h : (start settings (.ofSettings ms)).assembleSources sources = (none, a)) :
    (∃ memory resolved assembled,
      a = { firstPass settings ms sources with memory, resolved, assembled }) ∧
    (∀ (k : Address) (s : ParsedStatement), a.parsed[k]? = some s →
      ∃ r, a.resolved[k]? = some r ∧ r.Resolves (a.lookup? s.location.file) s) ∧
    (∀ k : Address, a.parsed[k]? = none → a.resolved[k]? = none) ∧
    Placed (firstPass settings ms sources).memory
      (ResolvedStatement.placements a.resolved.toList) a := by
  obtain ⟨heq, hfirst, hsecond, hthird⟩ := assembleSources_eq_none h
  have hreads := reads_firstPass hfirst
  obtain ⟨resolved, hresolve, hall, hothers⟩ := resolvePass_eq hreads.resolved hsecond
  have hpassive : (firstPass settings ms sources).resolvePass.memory.Passive := by
    rw [hresolve]
    exact hreads.passive
  have hfresh : (firstPass settings ms sources).resolvePass.assembled = ∅ := by
    rw [hresolve]
    exact hreads.assembled
  rw [heq] at hthird
  obtain ⟨⟨memory, assembled, hplace⟩, hplaced⟩ := placePass_placed hpassive hfresh hthird
  rw [← heq] at hplace hplaced
  rw [hresolve] at hplace hplaced
  rw [hplace] at hplaced ⊢
  exact ⟨⟨memory, resolved, assembled, rfl⟩, hall, hothers, hplaced⟩

section

variable {base : Memory} {a : Assembler}

theorem Placed.part (ha : Placed base (ResolvedStatement.placements a.resolved.toList) a)
    {address : Address} {r : ResolvedStatement} (hr : a.resolved[address]? = some r) {i : Nat}
    {instruction : BasicInstruction} {operands : List Word}
    (hpart : r.parts[i]? = some (instruction, operands)) :
    ∃ binary, instruction.encode operands (address + 4 * UInt32.ofNat i) = .ok binary ∧
      a.assembled[address + 4 * UInt32.ofNat i]? =
        some { instruction, operands, binary, source := some r.source } ∧
      ∀ notify, (a.memory.fetch (address + 4 * UInt32.ofNat i) 4 notify).1 = .ok binary := by
  have hmem :
      { address := address + 4 * UInt32.ofNat i, source := r.source, instruction, operands } ∈
        ResolvedStatement.placements a.resolved.toList := by
    refine List.mem_flatMap.mpr ⟨(address, r), ?_, List.mem_of_getElem? (i := i) ?_⟩
    · exact Std.TreeMap.mem_toList_iff_getElem?_eq_some.mpr hr
    · rw [Placement.ofParts_getElem?, hpart, Option.map_some]
  obtain ⟨e, hencodes⟩ := ha.encoded _ hmem
  have hassembled := (ha.assembled _ e).mpr ⟨_, hmem, rfl, hencodes⟩
  have hword := ha.words _ e hassembled
  have haligned := ha.aligned _ hmem
  obtain ⟨binary, hencode, rfl⟩ := hencodes
  refine ⟨binary, hencode, hassembled, fun notify => Memory.fetch_eq_ok_iff.mpr ?_⟩
  refine ⟨if_pos haligned, binary, ?_, ?_⟩
  · rw [Word.containing_eq_self haligned]
    exact hword
  · exact (ByteOrder.extract_word a.memory.order haligned binary).symm

/-- A word of the assembled program belongs to a part of a resolved statement. -/
theorem Placed.of_assembled (ha : Placed base (ResolvedStatement.placements a.resolved.toList) a)
    {k : Address} {e : EncodedStatement} (hk : a.assembled[k]? = some e) :
    k.toNat % 4 = 0 ∧ ∃ address r i, a.resolved[address]? = some r ∧ i < r.parts.length ∧
      k = address + 4 * UInt32.ofNat i := by
  obtain ⟨p, hp, rfl, -⟩ := (ha.assembled k e).mp hk
  refine ⟨ha.aligned p hp, ?_⟩
  obtain ⟨⟨address, r⟩, hentry, hmem⟩ := List.mem_flatMap.mp hp
  obtain ⟨i, hi⟩ := List.mem_iff_getElem?.mp hmem
  rw [Placement.ofParts_getElem?, Option.map_eq_some_iff] at hi
  obtain ⟨part, hpart, rfl⟩ := hi
  refine ⟨address, r, i, Std.TreeMap.mem_toList_iff_getElem?_eq_some.mp hentry, ?_, rfl⟩
  exact (List.getElem?_eq_some_iff.mp hpart).1

theorem Placed.aligned_part (ha : Placed base (ResolvedStatement.placements a.resolved.toList) a)
    {address : Address} {r : ResolvedStatement} (hr : a.resolved[address]? = some r) {i : Nat}
    (hi : i < r.parts.length) : (address + 4 * UInt32.ofNat i).toNat % 4 = 0 := by
  obtain ⟨binary, -, hassembled, -⟩ := ha.part hr (List.getElem?_eq_getElem hi)
  exact (ha.of_assembled hassembled).1

end

/-- A successful run resolves each statement by the tables it ends with, encodes
each of its parts at its own word, and fills no other words with statements. -/
theorem assembleSources_places {settings : AssemblerSettings} {ms : MemorySettings}
    {sources : List (String × String)} {a : Assembler}
    (h : (start settings (.ofSettings ms)).assembleSources sources = (none, a)) :
    (∀ (address : Address) (s : ParsedStatement), a.parsed[address]? = some s →
      ∃ r, a.resolved[address]? = some r ∧ r.source = s ∧
        s.operands.map (Operand.value? (a.lookup? s.location.file)) = r.operands.map some ∧
        r.parts = s.instruction.expand r.operands ∧ r.parts.length = s.size / 4 ∧
        ∀ i instruction operands, r.parts[i]? = some (instruction, operands) →
          ∃ binary, instruction.encode operands (address + 4 * UInt32.ofNat i) = .ok binary ∧
            a.assembled[address + 4 * UInt32.ofNat i]? =
              some { instruction, operands, binary, source := some s } ∧
            ∀ notify, (a.memory.fetch (address + 4 * UInt32.ofNat i) 4 notify).1 = .ok binary) ∧
    (∀ (k : Address) (e : EncodedStatement), a.assembled[k]? = some e →
      k.toNat % 4 = 0 ∧
      ∃! place : Address × Nat, ∃ s, a.parsed[place.1]? = some s ∧ place.2 < s.size / 4 ∧
        k = place.1 + 4 * UInt32.ofNat place.2) ∧
    (∀ (address address' : Address) (s s' : ParsedStatement), a.parsed[address]? = some s →
      a.parsed[address']? = some s' → address ≠ address' →
      ∀ i < s.size, ∀ j < s'.size, address + UInt32.ofNat i ≠ address' + UInt32.ofNat j) := by
  obtain ⟨-, hall, hothers, hplaced⟩ := assembleSources_passes h
  have hparsed : ∀ {address : Address} {r : ResolvedStatement}, a.resolved[address]? = some r →
      ∃ s, a.parsed[address]? = some s ∧ r.parts.length = s.size / 4 := by
    intro address r hr
    cases hs : a.parsed[address]? with
    | none =>
      rw [hothers address hs] at hr
      cases hr
    | some s =>
      obtain ⟨r', hr', hresolves⟩ := hall address s hs
      rw [hr] at hr'
      cases hr'
      exact ⟨s, rfl, hresolves.length_parts⟩
  refine ⟨fun address s hs => ?_, fun k e hk => ?_, ?_⟩
  · obtain ⟨r, hr, hresolves⟩ := hall address s hs
    refine ⟨r, hr, hresolves.source, hresolves.operands, hresolves.parts,
      hresolves.length_parts, ?_⟩
    intro i instruction operands hpart
    have hencoded := hplaced.part hr hpart
    rwa [hresolves.source] at hencoded
  · obtain ⟨haligned, address, r, i, hr, hi, rfl⟩ := hplaced.of_assembled hk
    obtain ⟨s, hs, hsize⟩ := hparsed hr
    refine ⟨haligned, (address, i), ⟨s, hs, by omega, rfl⟩, ?_⟩
    rintro ⟨address', i'⟩ ⟨s', hs', hi', hsame⟩
    obtain ⟨r', hr', hresolves'⟩ := hall address' s' hs'
    have hsize' := hresolves'.length_parts
    obtain ⟨rfl, rfl⟩ := eq_of_mem_wordsFrom hplaced.distinct hr' hr (by omega) hi hsame.symm
    rfl
  · intro address address' s s' hs hs' hne i hi j hj hsame
    obtain ⟨r, hr, hresolves⟩ := hall address s hs
    obtain ⟨r', hr', hresolves'⟩ := hall address' s' hs'
    have hwords : i / 4 < r.parts.length := by
      rw [hresolves.length_parts]
      exact Nat.div_lt_div_of_lt_of_dvd ⟨_, s.instruction.size_eq⟩ hi
    have hwords' : j / 4 < r'.parts.length := by
      rw [hresolves'.length_parts]
      exact Nat.div_lt_div_of_lt_of_dvd ⟨_, s'.instruction.size_eq⟩ hj
    -- A byte that both had would put the words around it into one place.
    have hword := containing_add (hplaced.aligned_part hr hwords)
    rw [hsame, containing_add (hplaced.aligned_part hr' hwords')] at hword
    exact hne (eq_of_mem_wordsFrom hplaced.distinct hr hr' hwords hwords' hword.symm).1

theorem eq_of_fst_eq_none {result : Option AssemblyError × Assembler} (h : result.1 = none) :
    result = (none, result.2) := by
  obtain ⟨error, a⟩ := result
  cases h
  rfl

set_option maxRecDepth 10000 in
/-- The two words of a load of an address that is defined further down. -/
theorem assembleSources_places_load :
    let run := (start ⟨none, false⟩ (.ofSettings ⟨Layout.standard, .little, false⟩)).assembleSources
      [("load.s", "main: la $t0, x\nj main\n.data\n.space 4\nx: .word 7\n")]
    run.1 = none ∧ ∃ s, run.2.parsed[(0x00400000 : Address)]? = some s ∧ s.size = 8 ∧
      ∃ r, run.2.resolved[(0x00400000 : Address)]? = some r ∧ r.parts.length = 2 ∧
        s.operands.map (Operand.value? (run.2.lookup? s.location.file)) = r.operands.map some := by
  intro run
  obtain ⟨hrun, hparsed⟩ : run.1 = none ∧
      (run.2.parsed[(0x00400000 : Address)]?).map (·.size) = some 8 := by
    decide +kernel
  obtain ⟨s, hs, hsize⟩ := Option.map_eq_some_iff.mp hparsed
  obtain ⟨hplaces, -, -⟩ := assembleSources_places (eq_of_fst_eq_none hrun)
  obtain ⟨r, hr, -, hoperands, -, hlength, -⟩ := hplaces 0x00400000 s hs
  rw [hsize] at hlength
  exact ⟨hrun, s, hs, hsize, r, hr, hlength, hoperands⟩

end Assembler
end MipsImage
