/-
What becomes of a fix-up.

While a source is read its fix-ups pile up; at its end some can be filled in, and the rest
wait until all sources are read.  So a fix-up is dealt with at one of two times, against
different tables.  `SourceRun.settled` and `settledLast` say how it ends from the tables
alone, without a queue.  The queue then does exactly that, in this order, whatever memory
and log have come to in between.
-/
import MipsImage.Proofs.Assembler.Clean
import MipsImage.Proofs.Log

namespace MipsImage

/-! ## Without a queue -/

/-- How a fix-up ends: an address is stored, or there is none for it. -/
inductive Settlement where
  | stored (f : Fixup) (address : Address)
  | undefined (f : Fixup)
  deriving DecidableEq

namespace Settlement

def fixup : Settlement → Fixup
  | stored f _ | undefined f => f

/-- One store, or nothing. -/
def store (m : Memory) : Settlement → Memory
  | stored f address => (m.store f.address address f.length true).2
  | undefined _ => m

/-- The error that a settlement makes, if it makes one. -/
def report (m : Memory) : Settlement → List Diagnostic
  | stored f address =>
    match (m.store f.address address f.length true).1 with
    | .ok _ => []
    | .error e => [⟨.error, some f.token.location, e.message⟩]
  | undefined f =>
    [⟨.error, some f.token.location, "Undefined symbol '" ++ f.token.literal ++ "'"⟩]

/-- The errors of a list of settlements, each in the memory that those before it leave. -/
def reports : Memory → List Settlement → List Diagnostic
  | _, [] => []
  | m, x :: rest => x.report m ++ reports (x.store m) rest

end Settlement

/-- A source as the queue sees it: what is pushed while it is read, and at its end the
tables, the memory and the log. -/
structure SourceRun where
  pushed : List Fixup
  locals : SymbolTable
  globals : SymbolTable
  memory : Memory
  log : Log

namespace SourceRun

/-- The source's own label of that name, or else the global one. -/
def address? (r : SourceRun) (f : Fixup) : Option Address :=
  ((r.locals.lookup? f.token.literal).or (r.globals.lookup? f.token.literal)).map (·.address)

/-- What is settled at the end of the source. -/
def settled (r : SourceRun) : List Settlement :=
  r.pushed.filterMap fun f => (r.address? f).map (.stored f)

/-- What is left for later. -/
def left (r : SourceRun) : List Fixup :=
  r.pushed.filter fun f => (r.address? f).isNone

end SourceRun

/-- How a fix-up that was left ends. -/
def settleLast (globals : SymbolTable) (f : Fixup) : Settlement :=
  ((globals.lookup? f.token.literal).map (·.address)).elim (.undefined f) (.stored f)

def settledLast (sources : List SourceRun) (globals : SymbolTable) : List Settlement :=
  (sources.flatMap SourceRun.left).map (settleLast globals)

theorem fixup_settleLast (globals : SymbolTable) (f : Fixup) :
    (settleLast globals f).fixup = f := by
  rw [settleLast]
  cases (globals.lookup? f.token.literal).map (·.address) with
  | none => rfl
  | some address => rfl

theorem map_fixup_settled (r : SourceRun) :
    r.settled.map Settlement.fixup = r.pushed.filter fun f => !(r.address? f).isNone := by
  rw [SourceRun.settled, List.map_filterMap, ← List.filterMap_eq_filter]
  refine List.filterMap_congr fun f _ => ?_
  cases hf : r.address? f with
  | none => simp [Option.guard, hf]
  | some address => simp [Option.guard, hf, Settlement.fixup]

theorem perm_source (r : SourceRun) :
    (r.settled.map Settlement.fixup ++ r.left).Perm r.pushed := by
  rw [map_fixup_settled]
  exact List.perm_append_comm.trans (List.filter_append_perm _ _)

/-- Nothing is lost and nothing is settled twice. -/
theorem perm_settlements (sources : List SourceRun) (globals : SymbolTable) :
    ((sources.flatMap SourceRun.settled ++ settledLast sources globals).map
      Settlement.fixup).Perm (sources.flatMap SourceRun.pushed) := by
  have hlast : (settledLast sources globals).map Settlement.fixup =
      sources.flatMap SourceRun.left := by
    rw [settledLast, List.map_map]
    exact (List.map_congr_left fun f _ => fixup_settleLast globals f).trans (List.map_id _)
  rw [List.map_append, hlast, List.map_flatMap]
  exact (List.flatMap_append_perm _ _ _).trans (List.Perm.flatMap_left _ fun r _ => perm_source r)

/-! ## With the queue -/

namespace FixupState

/-- Carry out a settlement. -/
def settle (s : FixupState) (x : Settlement) : FixupState :=
  { s with memory := x.store s.memory, log := s.log.addAll (x.report s.memory) }

theorem apply_eq_settle (f : Fixup) (address : Address) (s : FixupState) :
    f.apply address s = s.settle (.stored f address) := by
  simp only [Fixup.apply, settle, Settlement.store, Settlement.report]
  rcases s.memory.store f.address address f.length true with ⟨_ | _, memory⟩
  · rfl
  · rfl

theorem foldl_settle (xs : List Settlement) (s : FixupState) :
    xs.foldl settle s = ⟨s.queue, xs.foldl Settlement.store s.memory,
      s.log.addAll (Settlement.reports s.memory xs)⟩ := by
  induction xs generalizing s with
  | nil => rfl
  | cons x rest ih =>
    rw [List.foldl_cons, ih]
    simp only [settle, Settlement.reports, Log.addAll, List.foldl_cons, List.foldl_append]

end FixupState

namespace FixupQueue

open FixupState

theorem finishOne_eq (r : SourceRun) (s : FixupState) (f : Fixup) :
    finishOne ⟨some r.locals, r.globals⟩ s f =
      ((r.address? f).map (.stored f)).elim
        { s with queue := { s.queue with waiting := s.queue.waiting.push f } } s.settle := by
  have hlookup : (SymbolScope.mk (some r.locals) r.globals).lookup? f.token.literal =
      (r.locals.lookup? f.token.literal).or (r.globals.lookup? f.token.literal) := by
    simp only [SymbolScope.lookup?, Option.bind_some]
    cases r.locals.lookup? f.token.literal with
    | none => rfl
    | some symbol => rfl
  rw [SourceRun.address?, ← hlookup]
  cases hfound : (SymbolScope.mk (some r.locals) r.globals).lookup? f.token.literal with
  | none => exact finishOne_of_none hfound s
  | some symbol => exact (finishOne_of_some hfound s).trans (apply_eq_settle f _ s)

/-- The end of a source settles what it can, in order, and keeps the rest, in order. -/
theorem foldl_finishOne_eq (r : SourceRun) (fs : List Fixup) (s : FixupState) :
    fs.foldl (finishOne ⟨some r.locals, r.globals⟩) s =
      (fs.filterMap fun f => (r.address? f).map (.stored f)).foldl settle
        { s with queue := { s.queue with
          waiting := s.queue.waiting ++ (fs.filter fun f => (r.address? f).isNone).toArray } } := by
  induction fs generalizing s with
  | nil => simp
  | cons f rest ih =>
    rw [List.foldl_cons, ih, finishOne_eq]
    cases hf : r.address? f with
    | none => simp [hf]
    | some address => simp [hf, settle]

/-- The last settlements go on to the end, since a log without a limit never has enough. -/
theorem finishWaiting_eq_foldl {globals : SymbolTable} (fs : List Fixup) {s : FixupState}
    (h : s.log.limit = none) :
    finishWaiting globals fs s = (fs.map (settleLast globals)).foldl settle s := by
  induction fs generalizing s with
  | nil => rfl
  | cons f rest ih =>
    have hone : (s.settle (settleLast globals f)).log.limit = none :=
      (Log.addAll_of_unlimited h _).1
    rw [List.map_cons, List.foldl_cons, ← ih hone, finishWaiting, settleLast]
    cases globals.lookup? f.token.literal with
    | some symbol => exact congrArg _ (apply_eq_settle f _ s)
    | none =>
      rw [Log.not_exceeded_of_unlimited h]
      rfl

theorem foldl_push (q : FixupQueue) (fs : List Fixup) :
    fs.foldl push q = { q with current := q.current ++ fs.toArray } := by
  induction fs generalizing q with
  | nil => simp
  | cons f rest ih =>
    rw [List.foldl_cons, ih, push]
    simp

end FixupQueue

namespace SourceRun

/-- Read a source and come to its end. -/
def finish (r : SourceRun) (q : FixupQueue) : FixupState :=
  FixupQueue.finishFile ⟨some r.locals, r.globals⟩
    ⟨r.pushed.foldl FixupQueue.push q.startFile, r.memory, r.log⟩

theorem finish_eq (r : SourceRun) (q : FixupQueue) :
    r.finish q = ⟨⟨#[], q.waiting ++ r.left.toArray⟩, r.settled.foldl Settlement.store r.memory,
      r.log.addAll (Settlement.reports r.memory r.settled)⟩ := by
  rw [finish, FixupQueue.finishFile, FixupQueue.foldl_push, FixupQueue.foldl_finishOne_eq,
    FixupState.foldl_settle]
  simp [FixupQueue.startFile, settled, left]

end SourceRun

namespace FixupQueue

/-- The queue after a number of sources. -/
def after (sources : List SourceRun) : FixupQueue :=
  sources.foldl (fun q r => (r.finish q).queue) .empty

theorem after_eq (sources : List SourceRun) :
    after sources = ⟨#[], (sources.flatMap SourceRun.left).toArray⟩ := by
  induction sources using List.reverseRecOn with
  | nil => rfl
  | append_singleton sources r ih =>
    rw [after, List.foldl_concat, ← after, ih, r.finish_eq]
    simp

/-- Every fix-up is settled once.  At the end of its source it gets the address that the
source or else the global table has for it; after the last source, that of the global table,
or one error. -/
theorem after_settles (sources : List SourceRun) (globals : SymbolTable) (memory : Memory)
    {log : Log} (hlog : log.limit = none) :
    (∀ r ∈ sources, ∀ q,
      (r.finish q).memory = r.settled.foldl Settlement.store r.memory ∧
      (r.finish q).log = r.log.addAll (Settlement.reports r.memory r.settled)) ∧
    (let last := settledLast sources globals
     let done := finishAll globals ⟨after sources, memory, log⟩
     done.memory = last.foldl Settlement.store memory ∧
      done.log = log.addAll (Settlement.reports memory last) ∧
      done.log.messages.toList = log.messages.toList ++ Settlement.reports memory last ∧
      done.queue = .empty) ∧
    ((sources.flatMap SourceRun.settled ++ settledLast sources globals).map
      Settlement.fixup).Perm (sources.flatMap SourceRun.pushed) := by
  refine ⟨fun r _ q => ?_, ?_, perm_settlements sources globals⟩
  · rw [r.finish_eq]
    exact ⟨rfl, rfl⟩
  · intro last done
    have hdone : done = ⟨.empty, last.foldl Settlement.store memory,
        log.addAll (Settlement.reports memory last)⟩ := by
      show finishAll globals ⟨after sources, memory, log⟩ = _
      rw [finishAll, finishWaiting_eq_foldl _ hlog, FixupState.foldl_settle, after_eq]
      rfl
    rw [hdone]
    exact ⟨rfl, rfl, (Log.addAll_of_unlimited hlog _).2, rfl⟩

/-- The first source has an `x` of its own, the second defines `y` for both, and nobody
defines `z`. -/
theorem after_settles_two_sources :
    let place (address : Address) (name : String) : Fixup :=
      ⟨address, 4, ⟨.identifier, name, ⟨"a.s", 1, 1⟩⟩⟩
    let table (symbols : List Symbol) : SymbolTable :=
      { SymbolTable.empty "" with
        symbols := .ofList (symbols.map fun s => (s.identifier, s)) }
    let memory := Memory.ofSettings ⟨Layout.standard, .little, false⟩
    let sources : List SourceRun := [
      ⟨[place 0x10010000 "y", place 0x10010004 "z", place 0x10010008 "x"],
        table [⟨"x", 4, true⟩], table [⟨"x", 8, true⟩], memory, .empty none⟩,
      ⟨[place 0x1001000c "x"], table [⟨"y", 12, true⟩], table [⟨"x", 8, true⟩], memory, .empty none⟩]
    let globals := table [⟨"x", 8, true⟩, ⟨"y", 12, true⟩]
    let done := finishAll globals ⟨after sources, memory, .empty none⟩
    sources.map SourceRun.settled = [[.stored (place 0x10010008 "x") 4],
        [.stored (place 0x1001000c "x") 8]] ∧
      settledLast sources globals =
        [.stored (place 0x10010000 "y") 12, .undefined (place 0x10010004 "z")] ∧
      done.log.messages.toList = [⟨.error, some ⟨"a.s", 1, 1⟩, "Undefined symbol 'z'"⟩] ∧
      (done.memory.fetch 0x10010000 4 false).1.toOption = some 12 ∧ done.queue = .empty := by
  intro place table memory sources globals done
  obtain ⟨-, ⟨hmemory, -, hmessages, hqueue⟩, -⟩ :=
    after_settles sources globals memory (show (Log.empty none).limit = none from rfl)
  refine ⟨?_, ?_, hmessages.trans ?_, ?_, hqueue⟩
  · decide +kernel
  · decide +kernel
  · decide +kernel
  · rw [hmemory]
    decide +kernel

end FixupQueue
end MipsImage
