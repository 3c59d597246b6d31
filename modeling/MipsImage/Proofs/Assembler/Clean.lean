/-
Runs that report no error.

An error stays in the log, so a run without errors had none at any point of it.
Each lemma here takes the absence of errors from the end of an operation back to
its start, and where the operation could have failed, says what it did instead.
-/
import Mathlib
import MipsImage.Assembler.Passes

namespace MipsImage

/-! ## The log -/

namespace Log

theorem errors_add_eq_zero_iff {log : Log} {d : Diagnostic} :
    (log.add d).errors = 0 ↔ log.errors = 0 ∧ d.level ≠ .error := by
  rw [add]
  cases hlevel : d.level with
  | info => simp
  | warning => simp
  | error =>
    have hnever : ¬ (log.errors = 0 ∧ Level.error ≠ Level.error) := fun h => h.2 rfl
    refine iff_of_false ?_ hnever
    cases log.limit with
    | none => exact Nat.succ_ne_zero _
    | some limit =>
      show ¬ (if log.errors < limit then log.recordError d
        else if log.errors = limit then log.recordError limitNotice else log).errors = 0
      split_ifs with h₁ h₂
      · exact Nat.succ_ne_zero _
      · exact Nat.succ_ne_zero _
      · omega

theorem not_exceeded {log : Log} (h : log.errors = 0) : log.exceeded = false := by
  rw [exceeded, h]
  cases log.limit with
  | none => rfl
  | some limit => simp

theorem hasErrors_eq_false_iff {log : Log} : log.hasErrors = false ↔ log.errors = 0 := by
  rw [hasErrors, decide_eq_false_iff_not, Nat.not_lt, Nat.le_zero]

theorem errors_addAll_eq_zero {ds : List Diagnostic} {log : Log} (h : (log.addAll ds).errors = 0) :
    log.errors = 0 ∧ ∀ d ∈ ds, d.level ≠ .error := by
  induction ds generalizing log with
  | nil => exact ⟨h, fun d hd => absurd hd List.not_mem_nil⟩
  | cons d rest ih =>
    obtain ⟨hadd, hrest⟩ := ih h
    obtain ⟨hlog, hd⟩ := errors_add_eq_zero_iff.mp hadd
    exact ⟨hlog, List.forall_mem_cons.mpr ⟨hd, hrest⟩⟩

end Log

namespace Assembler

/-- No error has been reported. -/
def Clean (a : Assembler) : Prop :=
  a.log.errors = 0

instance (a : Assembler) : Decidable a.Clean :=
  inferInstanceAs (Decidable (_ = _))

theorem clean_report {a : Assembler} {location : Option Location} {issue : Issue} :
    (a.report location issue).Clean ↔ a.Clean ∧ issue.level ≠ .error :=
  Log.errors_add_eq_zero_iff

theorem clean_reportAt {a : Assembler} {token : Token} {issue : Issue} :
    (a.reportAt token issue).Clean ↔ a.Clean ∧ issue.level ≠ .error :=
  clean_report

/-- An issue that is an error has no place in a clean run. -/
theorem not_clean_reportAt {a : Assembler} {token : Token} {issue : Issue}
    (hlevel : issue.level = .error) : ¬ (a.reportAt token issue).Clean :=
  fun h => (clean_reportAt.mp h).2 hlevel

theorem not_clean_report {a : Assembler} {location : Option Location} {issue : Issue}
    (hlevel : issue.level = .error) : ¬ (a.report location issue).Clean :=
  fun h => (clean_report.mp h).2 hlevel

/-! ## Labels and statements -/

/-- A label is defined, unless no file is open to have labels. -/
theorem defineLabel_cases {a : Assembler} {token : Token} (h : (a.defineLabel token).Clean) :
    (a.currentTable? = none ∧ a.defineLabel token = a) ∨
    ∃ t t', a.currentTable? = some t ∧
      t.define ⟨token.literal, a.segments.cursor, a.segments.active.isData⟩ = .ok t' ∧
      a.defineLabel token = a.setCurrentTable t' := by
  cases ht : a.currentTable? with
  | none => exact .inl ⟨rfl, by simp only [defineLabel, ht]⟩
  | some t =>
    cases hdefine : t.define ⟨token.literal, a.segments.cursor, a.segments.active.isData⟩ with
    | ok t' => exact .inr ⟨t, t', rfl, hdefine, by simp only [defineLabel, ht, hdefine]⟩
    | error d =>
      simp only [defineLabel, ht, hdefine] at h
      exact absurd h (not_clean_reportAt rfl)

/-- A statement is recorded at a free address outside the data segments. -/
theorem addStatement_cases {a : Assembler} {s : ParsedStatement} (h : (a.addStatement s).Clean) :
    a.segments.active.isData = false ∧ a.parsed[a.segments.cursor]? = none ∧
    a.addStatement s =
      { a with parsed := a.parsed.insert a.segments.cursor s
               segments := a.segments.advance (UInt32.ofNat s.size) } := by
  cases hactive : a.segments.active.isData with
  | true =>
    simp only [addStatement, hactive, if_true] at h
    exact absurd h (not_clean_reportAt rfl)
  | false =>
    cases hparsed : a.parsed[a.segments.cursor]? with
    | some existing =>
      simp only [addStatement, hactive, hparsed] at h
      exact absurd h (not_clean_reportAt rfl)
    | none =>
      refine ⟨rfl, rfl, ?_⟩
      simp only [addStatement, hactive, hparsed, Bool.false_eq_true, if_false]

theorem alignCursor_eq (a : Assembler) (alignment : Word) :
    a.alignCursor alignment =
      { a with locals := (a.alignCursor alignment).locals
               segments := a.segments.alignTo alignment } := by
  rw [alignCursor]
  cases a.currentTable? with
  | none => rfl
  | some t => rfl

theorem autoAlign_eq (a : Assembler) (alignment : Word) :
    a.autoAlign alignment = a.alignCursor alignment ∨ a.autoAlign alignment = a := by
  rw [autoAlign]
  split
  · exact .inl rfl
  · exact .inr rfl

theorem alignCursor_log (a : Assembler) (alignment : Word) :
    (a.alignCursor alignment).log = a.log := by
  rw [alignCursor_eq]

theorem autoAlign_log (a : Assembler) (alignment : Word) :
    (a.autoAlign alignment).log = a.log := by
  rcases a.autoAlign_eq alignment with heq | heq <;> rw [heq]
  exact alignCursor_log a alignment

/-! ## Data -/

theorem writeData_cases {a : Assembler} {location : Location} {value : Word} {length : Nat}
    (h : (a.writeData location value length).2.Clean) :
    ∃ old memory, a.memory.store a.segments.cursor value length true = (.ok old, memory) ∧
      a.writeData location value length =
        (true, { a with memory, segments := a.segments.advance (UInt32.ofNat length) }) := by
  match hstore : a.memory.store a.segments.cursor value length true with
  | (.ok old, memory) => exact ⟨old, memory, rfl, by simp only [writeData, hstore, skip]⟩
  | (.error e, memory) =>
    simp only [writeData, hstore] at h
    exact absurd h (not_clean_report rfl)

theorem writeDoubleword_cases {a : Assembler} {location : Location} {value : UInt64}
    (h : (a.writeDoubleword location value).2.Clean) :
    ∃ old memory, a.memory.storeDoubleword a.segments.cursor value true = (.ok old, memory) ∧
      a.writeDoubleword location value =
        (true, { a with memory, segments := a.segments.advance 8 }) := by
  match hstore : a.memory.storeDoubleword a.segments.cursor value true with
  | (.ok old, memory) => exact ⟨old, memory, rfl, by simp only [writeDoubleword, hstore, skip]⟩
  | (.error e, memory) =>
    simp only [writeDoubleword, hstore] at h
    exact absurd h (not_clean_report rfl)

theorem writeForward_cases {a : Assembler} {token : Token} {length : Nat}
    (h : (a.writeForward token length).2.Clean) :
    ∃ old memory,
      a.memory.store a.segments.cursor Fixup.placeholder length true = (.ok old, memory) ∧
      a.writeForward token length =
        (true, { a with
          memory
          segments := a.segments.advance (UInt32.ofNat length)
          fixups := a.fixups.push { address := a.segments.cursor, length, token } }) := by
  match hstore : a.memory.store a.segments.cursor Fixup.placeholder length true with
  | (.ok old, memory) =>
    exact ⟨old, memory, rfl, by simp only [writeForward, writeData, hstore, skip]⟩
  | (.error e, memory) =>
    simp only [writeForward, writeData, hstore] at h
    exact absurd h (not_clean_report rfl)

/-! ## Global symbols -/

theorem defineExternal_cases {a : Assembler} {token : Token} {size : Word}
    (h : (a.defineExternal token size).Clean) :
    (a.globals.contains token.literal = true ∧ a.defineExternal token size = a) ∨
    (a.globals.contains token.literal = false ∧ ∃ globals,
      a.globals.define ⟨token.literal, a.segments.external.cursor, true⟩ = .ok globals ∧
      a.defineExternal token size =
        { a with segments := a.segments.modify .external (·.advance size), globals }) := by
  cases htaken : a.globals.contains token.literal with
  | true => exact .inl ⟨rfl, by simp only [defineExternal, htaken, if_true]⟩
  | false =>
    refine .inr ⟨rfl, ?_⟩
    cases hdefine : a.globals.define ⟨token.literal, a.segments.external.cursor, true⟩ with
    | ok globals =>
      refine ⟨globals, rfl, ?_⟩
      simp only [defineExternal, htaken, hdefine, Bool.false_eq_true, if_false]
    | error d =>
      simp only [defineExternal, htaken, hdefine, Bool.false_eq_true, if_false] at h
      exact absurd h (not_clean_reportAt rfl)

/-- A label is declared global, perhaps again.  The second time it is only logged. -/
theorem declareGlobal_cases {a : Assembler} {token : Token} (h : (a.declareGlobal token).Clean) :
    a.Clean ∧ ∃ log, a.declareGlobal token =
      { a with
        log
        pendingGlobals :=
          if a.pendingGlobals.any (·.literal == token.literal) then a.pendingGlobals
          else a.pendingGlobals ++ [token] } := by
  rw [declareGlobal] at h ⊢
  split_ifs at h ⊢ with hknown
  · exact ⟨(clean_reportAt.mp h).1, _, rfl⟩
  · exact ⟨h, a.log, rfl⟩

/-- A label moves from the table of the current file to the global one. -/
theorem promote_cases {a : Assembler} {token : Token} (h : (a.promote token).Clean) :
    (a.currentTable? = none ∧ a.promote token = a) ∨
    ∃ t t' symbol globals, a.currentTable? = some t ∧
      a.globals.contains token.literal = false ∧
      t.remove? token.literal = some (symbol, t') ∧ a.globals.define symbol = .ok globals ∧
      a.promote token = { a.setCurrentTable t' with globals } := by
  cases ht : a.currentTable? with
  | none => exact .inl ⟨rfl, by simp only [promote, ht]⟩
  | some t =>
    refine .inr ⟨t, ?_⟩
    cases htaken : a.globals.contains token.literal with
    | true =>
      simp only [promote, ht, htaken, if_true] at h
      exact absurd h (not_clean_reportAt rfl)
    | false =>
      cases hremove : t.remove? token.literal with
      | none =>
        simp only [promote, ht, htaken, hremove, Bool.false_eq_true, if_false] at h
        exact absurd h (not_clean_reportAt rfl)
      | some removed =>
        cases hdefine : a.globals.define removed.1 with
        | error d =>
          simp only [promote, ht, htaken, hremove, hdefine, Bool.false_eq_true, if_false] at h
          exact absurd h (not_clean_reportAt rfl)
        | ok globals =>
          refine ⟨removed.2, removed.1, globals, rfl, rfl, rfl, hdefine, ?_⟩
          simp only [promote, ht, htaken, hremove, hdefine, Bool.false_eq_true, if_false]

theorem clean_of_promote {a : Assembler} {token : Token} (h : (a.promote token).Clean) :
    a.Clean := by
  rcases promote_cases h with ⟨-, heq⟩ | ⟨t, t', symbol, globals, -, -, -, -, heq⟩
  · rwa [heq] at h
  · rwa [heq] at h

theorem clean_of_foldl_promote {tokens : List Token} {a : Assembler}
    (h : (tokens.foldl promote a).Clean) : a.Clean := by
  induction tokens generalizing a with
  | nil => exact h
  | cons token rest ih => exact clean_of_promote (ih h)

theorem foldl_promote_eq {tokens : List Token} {a : Assembler}
    (h : (tokens.foldl promote a).Clean) :
    ∃ locals globals, tokens.foldl promote a = { a with locals, globals } := by
  induction tokens generalizing a with
  | nil => exact ⟨a.locals, a.globals, rfl⟩
  | cons token rest ih =>
    obtain ⟨locals, globals, hrest⟩ := ih h
    rw [List.foldl_cons, hrest]
    rcases promote_cases (clean_of_foldl_promote h) with ⟨-, heq⟩ |
      ⟨t, t', symbol, globals', -, -, -, -, heq⟩
    · rw [heq]
      exact ⟨locals, globals, rfl⟩
    · rw [heq]
      exact ⟨locals, globals, rfl⟩

theorem promoteGlobals_eq {a : Assembler} (h : a.promoteGlobals.Clean) :
    ∃ locals globals,
      a.promoteGlobals = { a with pendingGlobals := [], locals, globals } :=
  foldl_promote_eq h

theorem clean_of_promoteGlobals {a : Assembler} (h : a.promoteGlobals.Clean) : a.Clean := by
  obtain ⟨locals, globals, heq⟩ := promoteGlobals_eq h
  rwa [heq] at h

end Assembler

/-! ## Fix-ups -/

namespace Fixup

theorem apply_cases {f : Fixup} {value : Address} {s : FixupState}
    (h : (f.apply value s).log.errors = 0) :
    ∃ old memory, s.memory.store f.address value f.length true = (.ok old, memory) ∧
      f.apply value s = { s with memory } := by
  match hstore : s.memory.store f.address value f.length true with
  | (.ok old, memory) => exact ⟨old, memory, rfl, by simp only [apply, hstore]⟩
  | (.error e, memory) =>
    simp only [apply, hstore] at h
    exact absurd rfl (Log.errors_add_eq_zero_iff.mp h).2

theorem clean_of_apply {f : Fixup} {value : Address} {s : FixupState}
    (h : (f.apply value s).log.errors = 0) : s.log.errors = 0 := by
  obtain ⟨old, memory, -, heq⟩ := apply_cases h
  rwa [heq] at h

end Fixup

namespace FixupQueue

theorem finishOne_of_some {scope : SymbolScope} {f : Fixup} {symbol : Symbol}
    (h : scope.lookup? f.token.literal = some symbol) (s : FixupState) :
    finishOne scope s f = f.apply symbol.address s := by
  simp only [finishOne, h]

theorem finishOne_of_none {scope : SymbolScope} {f : Fixup}
    (h : scope.lookup? f.token.literal = none) (s : FixupState) :
    finishOne scope s f =
      { s with queue := { s.queue with waiting := s.queue.waiting.push f } } := by
  simp only [finishOne, h]

theorem clean_of_finishOne {scope : SymbolScope} {s : FixupState} {f : Fixup}
    (h : (finishOne scope s f).log.errors = 0) : s.log.errors = 0 := by
  cases hlookup : scope.lookup? f.token.literal with
  | none => rwa [finishOne_of_none hlookup] at h
  | some symbol =>
    rw [finishOne_of_some hlookup] at h
    exact Fixup.clean_of_apply h

theorem clean_of_foldl_finishOne {scope : SymbolScope} {fs : List Fixup} {s : FixupState}
    (h : (fs.foldl (finishOne scope) s).log.errors = 0) : s.log.errors = 0 := by
  induction fs generalizing s with
  | nil => exact h
  | cons f rest ih => exact clean_of_finishOne (ih h)

theorem clean_of_finishWaiting {globals : SymbolTable} {fs : List Fixup} {s : FixupState}
    (h : (finishWaiting globals fs s).log.errors = 0) : s.log.errors = 0 := by
  induction fs generalizing s with
  | nil => exact h
  | cons f rest ih =>
    cases hlookup : globals.lookup? f.token.literal with
    | some symbol =>
      simp only [finishWaiting, hlookup] at h
      exact Fixup.clean_of_apply (ih h)
    | none =>
      simp only [finishWaiting, hlookup] at h
      split at h
      · exact h
      · exact (Log.errors_add_eq_zero_iff.mp (ih h)).1

/-- After the last file every label that is still waited for is a global one. -/
theorem finishWaiting_cons {globals : SymbolTable} {f : Fixup} {rest : List Fixup} {s : FixupState}
    (h : (finishWaiting globals (f :: rest) s).log.errors = 0) :
    ∃ symbol, globals.lookup? f.token.literal = some symbol ∧
      finishWaiting globals (f :: rest) s =
        finishWaiting globals rest (f.apply symbol.address s) := by
  have hs := clean_of_finishWaiting h
  cases hlookup : globals.lookup? f.token.literal with
  | some symbol => exact ⟨symbol, rfl, by simp only [finishWaiting, hlookup]⟩
  | none =>
    simp only [finishWaiting, hlookup, Log.not_exceeded hs, Bool.false_eq_true, if_false] at h
    exact absurd rfl (Log.errors_add_eq_zero_iff.mp (clean_of_finishWaiting h)).2

end FixupQueue

namespace Assembler

theorem clean_of_finishFile {a : Assembler} (h : a.finishFile.Clean) : a.Clean :=
  FixupQueue.clean_of_foldl_finishOne h

theorem clean_of_finishAll {a : Assembler} (h : a.finishAll.Clean) : a.Clean :=
  FixupQueue.clean_of_finishWaiting h

end Assembler
end MipsImage
