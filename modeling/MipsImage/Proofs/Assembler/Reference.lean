/-
What a label stored as data comes to.

A reference is stored at once if its label is known by then, and left to a fix-up
otherwise.  Bytes that no other value shares keep what was stored in them until that
fix-up is worked off.  So they end up with one of two addresses: where the label was
when the reference was read, or where it is in the end.  These differ if an alignment
further down has moved the label.
-/
import MipsImage.Proofs.Assembler.Scope
import MipsImage.Proofs.Assembler.Spans

namespace MipsImage

open Memory (Width)

/-! ## Fix-ups and other places -/

/-- Reading the `n` bytes at `p` gives `v`. -/
def Memory.Holds (m : Memory) (p : Address) (n : Nat) (v : Word) : Prop :=
  ∀ notify, (m.fetch p n notify).1 = .ok v

namespace Fixup

variable {p : Address} {w : Width}

/-- `f` is for bytes other than the `n` at `p`. -/
structure Clear (p : Address) (n : Nat) (f : Fixup) : Prop where
  width : ∃ width : Width, f.length = width.bytes
  apart : Apart p n f.address f.length

/-- `f` is for the `n` bytes at `p`, and its label has a value that leaves `v` there. -/
structure Fills (scope : SymbolScope) (p : Address) (n : Nat) (v : Word) (f : Fixup) : Prop where
  address : f.address = p
  length : f.length = n
  value : ∃ symbol, scope.lookup? f.token.literal = some symbol ∧
    Word.truncate symbol.address n = v

theorem Clear.apply {f : Fixup} (hf : f.Clear p w.bytes) {value : Address} {s : FixupState}
    (hm : s.memory.Passive) (h : (f.apply value s).log.errors = 0) {v : Word}
    (hv : s.memory.Holds p w.bytes v) :
    (f.apply value s).memory.Holds p w.bytes v := by
  obtain ⟨old, memory, hstore, heq⟩ := apply_cases h
  obtain ⟨width, hwidth⟩ := hf.width
  have hlength := width.bytes_cases
  rw [← hwidth] at hlength
  obtain ⟨hwrote, -⟩ := Memory.store_bytes hm hlength hstore
  have happart := hf.apart
  rw [← ByteOrder.length_toBytes s.memory.order f.length value.toNat] at happart
  rw [heq]
  intro notify
  exact hwrote.fetch w.bytes_cases happart (hv notify)

end Fixup

namespace FixupQueue

variable {p : Address} {w : Width}

theorem finishOne_holds {v : Word} {scope : SymbolScope} {s : FixupState} (hm : s.memory.Passive)
    {f : Fixup} (h : (finishOne scope s f).log.errors = 0)
    (hf : f.Clear p w.bytes ∨ scope.lookup? f.token.literal = none ∨ f.Fills scope p w.bytes v)
    (hv : s.memory.Holds p w.bytes v ∨ f.Fills scope p w.bytes v) :
    (finishOne scope s f).memory.Holds p w.bytes v := by
  have hfill : f.Fills scope p w.bytes v → (finishOne scope s f).memory.Holds p w.bytes v := by
    intro hfills
    obtain ⟨symbol, hsymbol, hvalue⟩ := hfills.value
    rw [finishOne_of_some hsymbol] at h ⊢
    obtain ⟨old, memory, hstore, heq⟩ := Fixup.apply_cases h
    rw [hfills.address, hfills.length] at hstore
    rw [heq]
    intro notify
    rw [← hvalue]
    exact Memory.store_fetch hm w.bytes_cases hstore
  rcases hv with hv | hfills
  · rcases hf with hclear | hnone | hfills
    · cases hlookup : scope.lookup? f.token.literal with
      | none =>
        rw [finishOne_of_none hlookup]
        exact hv
      | some symbol =>
        rw [finishOne_of_some hlookup] at h ⊢
        exact hclear.apply hm h hv
    · rw [finishOne_of_none hnone]
      exact hv
    · exact hfill hfills
  · exact hfill hfills

/-- Once fix-ups were worked off that either leave the bytes alone or fill them with
`v`, the bytes have it, if they had it before or one of the fix-ups fills them. -/
theorem foldl_finishOne_holds {v : Word} {scope : SymbolScope} {fs : List Fixup} {s : FixupState}
    (hm : s.memory.Passive) (h : (fs.foldl (finishOne scope) s).log.errors = 0)
    (hfs : ∀ f ∈ fs,
      f.Clear p w.bytes ∨ scope.lookup? f.token.literal = none ∨ f.Fills scope p w.bytes v)
    (hv : s.memory.Holds p w.bytes v ∨ ∃ f ∈ fs, f.Fills scope p w.bytes v) :
    (fs.foldl (finishOne scope) s).memory.Holds p w.bytes v := by
  induction fs generalizing s with
  | nil =>
    rcases hv with hv | ⟨f, hf, -⟩
    · exact hv
    · cases hf
  | cons f rest ih =>
    obtain ⟨hone, hrest⟩ := List.forall_mem_cons.mp hfs
    have hfirst := finishOne_holds hm (clean_of_foldl_finishOne h) hone
    refine ih (passive_finishOne hm f) h hrest ?_
    rcases hv with hv | ⟨g, hg, hfills⟩
    · exact .inl (hfirst (.inl hv))
    · rcases List.mem_cons.mp hg with rfl | hlater
      · exact .inl (hfirst (.inr hfills))
      · exact .inr ⟨g, hlater, hfills⟩

theorem foldl_finishOne_queue {scope : SymbolScope} {fs : List Fixup} {s : FixupState}
    (h : (fs.foldl (finishOne scope) s).log.errors = 0) :
    (fs.foldl (finishOne scope) s).queue.current = s.queue.current ∧
    ∀ f, f ∈ (fs.foldl (finishOne scope) s).queue.waiting ↔
      f ∈ s.queue.waiting ∨ f ∈ fs ∧ scope.lookup? f.token.literal = none := by
  induction fs generalizing s with
  | nil => exact ⟨rfl, fun f => by simp⟩
  | cons g rest ih =>
    rw [List.foldl_cons] at h ⊢
    obtain ⟨hcurrent, hwaiting⟩ := ih h
    have hone : (finishOne scope s g).log.errors = 0 := clean_of_foldl_finishOne h
    cases hlookup : scope.lookup? g.token.literal with
    | none =>
      rw [finishOne_of_none hlookup] at hcurrent hwaiting ⊢
      refine ⟨hcurrent, fun f => ?_⟩
      rw [hwaiting, Array.mem_push, List.mem_cons]
      constructor
      · rintro ((hold | rfl) | ⟨hrest, hnone⟩)
        · exact .inl hold
        · exact .inr ⟨.inl rfl, hlookup⟩
        · exact .inr ⟨.inr hrest, hnone⟩
      · rintro (hold | ⟨rfl | hrest, hnone⟩)
        · exact .inl (.inl hold)
        · exact .inl (.inr rfl)
        · exact .inr ⟨hrest, hnone⟩
    | some symbol =>
      rw [finishOne_of_some hlookup] at hone hcurrent hwaiting ⊢
      obtain ⟨old, memory, -, heq⟩ := Fixup.apply_cases hone
      rw [heq] at hcurrent hwaiting ⊢
      refine ⟨hcurrent, fun f => ?_⟩
      rw [hwaiting, List.mem_cons]
      constructor
      · rintro (hold | ⟨hrest, hnone⟩)
        · exact .inl hold
        · exact .inr ⟨.inr hrest, hnone⟩
      · rintro (hold | ⟨rfl | hrest, hnone⟩)
        · exact .inl hold
        · rw [hlookup] at hnone
          cases hnone
        · exact .inr ⟨hrest, hnone⟩

/-- After the last file fix-ups are worked off as at the end of a file without labels
of its own, and all of them can be. -/
theorem finishWaiting_eq {globals : SymbolTable} {fs : List Fixup} {s : FixupState}
    (h : (finishWaiting globals fs s).log.errors = 0) :
    finishWaiting globals fs s =
      fs.foldl (finishOne { localTable := none, globalTable := globals }) s ∧
    ∀ f ∈ fs, ∃ symbol, globals.lookup? f.token.literal = some symbol := by
  induction fs generalizing s with
  | nil => exact ⟨rfl, fun f hf => absurd hf List.not_mem_nil⟩
  | cons f rest ih =>
    obtain ⟨symbol, hsymbol, heq⟩ := finishWaiting_cons h
    rw [heq] at h ⊢
    obtain ⟨hrest, hall⟩ := ih h
    refine ⟨?_, List.forall_mem_cons.mpr ⟨⟨symbol, hsymbol⟩, hall⟩⟩
    have hscope : SymbolScope.lookup? { localTable := none, globalTable := globals }
        f.token.literal = some symbol := hsymbol
    rw [hrest, List.foldl_cons, finishOne_of_some hscope]

end FixupQueue

/-! ## Steps and other places -/

namespace Assembler

variable {p : Address} {w : Width}

/-- From `a` to `b` the `n` bytes at `p` keep what they hold.  No fix-up for them is
added, and none that waits is lost. -/
structure Spares (p : Address) (n : Nat) (a b : Assembler) : Prop where
  passive : b.memory.Passive
  holds : ∀ {v}, a.memory.Holds p n v → b.memory.Holds p n v
  kept : ∀ {f}, f ∈ a.fixups.waiting → f ∈ b.fixups.waiting
  current : ∀ {f}, f ∈ b.fixups.current → f ∈ a.fixups.current ∨ f.Clear p n
  waiting : ∀ {f}, f ∈ b.fixups.waiting →
    f ∈ a.fixups.waiting ∨ f ∈ a.fixups.current ∨ f.Clear p n

theorem Spares.refl {a : Assembler} (hm : a.memory.Passive) (p : Address) (n : Nat) :
    Spares p n a a :=
  ⟨hm, fun hv => hv, fun hf => hf, fun hf => .inl hf, fun hf => .inl hf⟩

theorem Spares.trans {p : Address} {n : Nat} {a b c : Assembler} (hab : Spares p n a b)
    (hbc : Spares p n b c) : Spares p n a c where
  passive := hbc.passive
  holds hv := hbc.holds (hab.holds hv)
  kept hf := hbc.kept (hab.kept hf)
  current hf := by
    rcases hbc.current hf with hb | hclear
    · exact hab.current hb
    · exact .inr hclear
  waiting hf := by
    rcases hbc.waiting hf with hb | hb | hclear
    · exact hab.waiting hb
    · rcases hab.current hb with ha | hclear
      · exact .inr (.inl ha)
      · exact .inr (.inr hclear)
    · exact .inr (.inr hclear)

/-- Inside a file fix-ups are only added. -/
theorem act_fixups {a : Assembler} {x : Action} (h : (a.act x).Clean) :
    (∀ f ∈ a.fixups.current, f ∈ (a.act x).fixups.current) ∧
      (a.act x).fixups.waiting = a.fixups.waiting := by
  rcases (act_effect h).fixups with hsame | ⟨token, width, -, hpush⟩
  · rw [hsame]
    exact ⟨fun f hf => hf, rfl⟩
  · rw [hpush]
    exact ⟨fun f hf => Array.mem_push.mpr (.inl hf), rfl⟩

theorem actAll_fixups {xs : List Action} {a : Assembler} (h : (a.actAll xs).Clean) :
    (∀ f ∈ a.fixups.current, f ∈ (a.actAll xs).fixups.current) ∧
      (a.actAll xs).fixups.waiting = a.fixups.waiting := by
  induction xs generalizing a with
  | nil => exact ⟨fun f hf => hf, rfl⟩
  | cons x rest ih =>
    obtain ⟨hkept, hwaiting⟩ := act_fixups (clean_of_actAll h)
    obtain ⟨hkept', hwaiting'⟩ := ih h
    exact ⟨fun f hf => hkept' f (hkept f hf), hwaiting'.trans hwaiting⟩

theorem act_spares {a : Assembler} (hm : a.memory.Passive) {x : Action} (h : (a.act x).Clean)
    (happart : ∀ z ∈ a.storedSpans (.act x), Apart p w.bytes z.address z.length) :
    Spares p w.bytes a (a.act x) := by
  have heffect := act_effect h
  obtain ⟨bytes, hlength, hwrote⟩ := heffect.stores hm
  obtain ⟨-, hwaiting⟩ := act_fixups h
  have hcursor : Apart p w.bytes a.segments.cursor x.stored := by
    by_cases hzero : x.stored = 0
    · rw [hzero]
      intro i _ j hj
      exact absurd hj (Nat.not_lt_zero j)
    · exact happart ⟨a.segments.active, a.segments.cursor, x.stored⟩ (by
        rw [storedSpans, if_neg hzero]
        exact List.mem_singleton_self _)
  refine ⟨hwrote.within hm, ?_, by rw [hwaiting]; exact fun hf => hf, ?_,
    by rw [hwaiting]; exact fun hf => .inl hf⟩
  · intro v hv notify
    exact hwrote.fetch w.bytes_cases (hlength ▸ hcursor) (hv notify)
  · intro f hf
    rcases heffect.fixups with hsame | ⟨token, width, rfl, hpush⟩
    · rw [hsame] at hf
      exact .inl hf
    · rw [hpush] at hf
      rcases Array.mem_push.mp hf with hold | rfl
      · exact .inl hold
      · exact .inr ⟨⟨width, rfl⟩, hcursor⟩

theorem actAll_spares {xs : List Action} {a : Assembler} (hm : a.memory.Passive)
    (h : (a.actAll xs).Clean)
    (happart : ∀ z ∈ collect storedSpans (xs.map Step.act) a, Apart p w.bytes z.address z.length) :
    Spares p w.bytes a (a.actAll xs) := by
  induction xs generalizing a with
  | nil => exact Spares.refl hm p w.bytes
  | cons x rest ih =>
    obtain ⟨hfirst, hlater⟩ := List.forall_mem_append.mp happart
    have hone := act_spares hm (clean_of_actAll h) hfirst
    exact hone.trans (ih hone.passive h hlater)

/-- The end of a file works off its fix-ups by what is known then. -/
theorem closeFile_finishes {a : Assembler} (h : (a.step .closeFile).Clean) :
    ∃ s : FixupState, s.queue = a.fixups.startFile ∧ s.memory = a.memory ∧
      let t := a.fixups.current.toList.foldl
        (FixupQueue.finishOne ((a.step .closeFile).scopeOf a.currentFile)) s
      t.log.errors = 0 ∧ (a.step .closeFile).fixups = t.queue ∧
        (a.step .closeFile).memory = t.memory := by
  obtain ⟨locals, globals, heq⟩ := promoteGlobals_eq (clean_of_finishFile h)
  have hclean : (a.step .closeFile).Clean := h
  rw [step, heq] at hclean ⊢
  exact ⟨⟨a.fixups.startFile, a.memory, a.log⟩, rfl, rfl, hclean, rfl, rfl⟩

theorem closeFile_fixups {a : Assembler} (h : (a.step .closeFile).Clean) :
    (a.step .closeFile).fixups.current = #[] ∧
    ∀ f, f ∈ (a.step .closeFile).fixups.waiting ↔ f ∈ a.fixups.waiting ∨
      f ∈ a.fixups.current ∧
        (a.step .closeFile).lookup? a.currentFile f.token.literal = none := by
  obtain ⟨s, hqueue, -, hclean, hfixups, -⟩ := closeFile_finishes h
  obtain ⟨hcurrent, hwaiting⟩ := FixupQueue.foldl_finishOne_queue hclean
  rw [hfixups]
  refine ⟨by rw [hcurrent, hqueue]; rfl, fun f => ?_⟩
  rw [hwaiting, hqueue, Array.mem_toList_iff]
  rfl

theorem closeFile_holds {v : Word} {a : Assembler} (hm : a.memory.Passive)
    (h : (a.step .closeFile).Clean)
    (hfs : ∀ f ∈ a.fixups.current, f.Clear p w.bytes ∨
      (a.step .closeFile).lookup? a.currentFile f.token.literal = none ∨
      f.Fills ((a.step .closeFile).scopeOf a.currentFile) p w.bytes v)
    (hv : a.memory.Holds p w.bytes v ∨
      ∃ f ∈ a.fixups.current, f.Fills ((a.step .closeFile).scopeOf a.currentFile) p w.bytes v) :
    (a.step .closeFile).memory.Holds p w.bytes v := by
  obtain ⟨s, -, hmemory, hclean, -, hresult⟩ := closeFile_finishes h
  rw [hresult]
  refine FixupQueue.foldl_finishOne_holds (hmemory ▸ hm) hclean ?_ ?_
  · intro f hf
    exact hfs f (Array.mem_toList_iff.mp hf)
  · rcases hv with hv | ⟨f, hf, hfills⟩
    · exact .inl (hmemory ▸ hv)
    · exact .inr ⟨f, Array.mem_toList_iff.mpr hf, hfills⟩

/-- What waits keeps waiting until the last file is read. -/
theorem waiting_step {a : Assembler} {x : Step} (h : (a.step x).Clean) {f : Fixup}
    (hf : f ∈ a.fixups.waiting) : f ∈ (a.step x).fixups.waiting := by
  cases x with
  | openFile name => exact hf
  | act x =>
    show f ∈ (a.act x).fixups.waiting
    rw [(act_fixups h).2]
    exact hf
  | closeFile => exact ((closeFile_fixups h).2 f).mpr (.inl hf)

theorem waiting_stepAll {steps : List Step} {a : Assembler} (h : (a.stepAll steps).Clean)
    {f : Fixup} (hf : f ∈ a.fixups.waiting) : f ∈ (a.stepAll steps).fixups.waiting := by
  induction steps generalizing a with
  | nil => exact hf
  | cons x rest ih => exact ih h (waiting_step (clean_of_stepAll h) hf)

/-- A fix-up of the open file finds its label when the file ends, or else among the global
symbols after the last file. -/
theorem fixup_settled {a : Assembler} {steps : List Step}
    (h : ((a.step .closeFile).stepAll steps).finishAll.Clean) {f : Fixup}
    (hf : f ∈ a.fixups.current) :
    ∃ symbol, ((a.step .closeFile).lookup? a.currentFile f.token.literal).or
      (((a.step .closeFile).stepAll steps).globals.lookup? f.token.literal) = some symbol := by
  have hrest := clean_of_finishAll h
  cases hlookup : (a.step .closeFile).lookup? a.currentFile f.token.literal with
  | some symbol => exact ⟨symbol, rfl⟩
  | none =>
    have hwaits := ((closeFile_fixups (clean_of_stepAll hrest)).2 f).mpr (.inr ⟨hf, hlookup⟩)
    obtain ⟨-, hdefined⟩ := FixupQueue.finishWaiting_eq h
    exact hdefined f (Array.mem_toList_iff.mpr (waiting_stepAll hrest hwaits))

/-- A step spares bytes that neither it nor a fix-up of the open file stores into. -/
theorem step_spares {a : Assembler} (hm : a.memory.Passive) {x : Step} (h : (a.step x).Clean)
    (hcurrent : ∀ f ∈ a.fixups.current, f.Clear p w.bytes)
    (happart : ∀ z ∈ a.storedSpans x, Apart p w.bytes z.address z.length) :
    Spares p w.bytes a (a.step x) := by
  cases x with
  | openFile name =>
    refine ⟨hm, fun hv => hv, fun hf => hf, fun hf => ?_, fun hf => .inl hf⟩
    exact absurd hf (Array.not_mem_empty _)
  | act x => exact act_spares hm h happart
  | closeFile =>
    obtain ⟨hempty, hwaiting⟩ := closeFile_fixups h
    refine ⟨(reads_step hm h).passive, fun hv => ?_, waiting_step h, fun hf => ?_, fun hf => ?_⟩
    · exact closeFile_holds hm h (fun f hf => .inl (hcurrent f hf)) (.inl hv)
    · rw [hempty] at hf
      exact absurd hf (Array.not_mem_empty _)
    · rcases (hwaiting _).mp hf with hold | ⟨hnew, -⟩
      · exact .inl hold
      · exact .inr (.inl hnew)

theorem stepAll_spares {steps : List Step} {a : Assembler} (hm : a.memory.Passive)
    (h : (a.stepAll steps).Clean) (hcurrent : ∀ f ∈ a.fixups.current, f.Clear p w.bytes)
    (happart : ∀ z ∈ collect storedSpans steps a, Apart p w.bytes z.address z.length) :
    Spares p w.bytes a (a.stepAll steps) := by
  induction steps generalizing a with
  | nil => exact Spares.refl hm p w.bytes
  | cons x rest ih =>
    obtain ⟨hfirst, hlater⟩ := List.forall_mem_append.mp happart
    have hone := step_spares hm (clean_of_stepAll h) hcurrent hfirst
    refine hone.trans (ih hone.passive h (fun f hf => ?_) hlater)
    rcases hone.current hf with hold | hclear
    · exact hcurrent f hold
    · exact hclear

theorem finishAll_holds {v : Word} {a : Assembler} (hm : a.memory.Passive) (h : a.finishAll.Clean)
    (hfs : ∀ f ∈ a.fixups.waiting, f.Clear p w.bytes ∨ f.Fills ⟨none, a.globals⟩ p w.bytes v)
    (hv : a.memory.Holds p w.bytes v ∨
      ∃ f ∈ a.fixups.waiting, f.Fills ⟨none, a.globals⟩ p w.bytes v) :
    a.finishAll.memory.Holds p w.bytes v := by
  have hclean : (FixupQueue.finishWaiting a.globals a.fixups.waiting.toList
      ⟨{ a.fixups with waiting := #[] }, a.memory, a.log⟩).log.errors = 0 := h
  show (FixupQueue.finishWaiting a.globals a.fixups.waiting.toList
    ⟨{ a.fixups with waiting := #[] }, a.memory, a.log⟩).memory.Holds p w.bytes v
  obtain ⟨heq, -⟩ := FixupQueue.finishWaiting_eq hclean
  rw [heq] at hclean ⊢
  refine FixupQueue.foldl_finishOne_holds hm hclean ?_ ?_
  · intro f hf
    rcases hfs f (Array.mem_toList_iff.mp hf) with hclear | hfills
    · exact .inl hclear
    · exact .inr (.inr hfills)
  · rcases hv with hv | ⟨f, hf, hfills⟩
    · exact .inl hv
    · exact .inr ⟨f, Array.mem_toList_iff.mpr hf, hfills⟩

/-- No fix-up is for the `n` bytes at `p`. -/
structure AllClear (p : Address) (n : Nat) (a : Assembler) : Prop where
  current : ∀ f ∈ a.fixups.current, f.Clear p n
  waiting : ∀ f ∈ a.fixups.waiting, f.Clear p n

theorem Spares.allClear {p : Address} {n : Nat} {a b : Assembler} (hab : Spares p n a b)
    (ha : AllClear p n a) : AllClear p n b := by
  constructor
  · intro f hf
    rcases hab.current hf with hold | hclear
    · exact ha.current f hold
    · exact hclear
  · intro f hf
    rcases hab.waiting hf with hold | hold | hclear
    · exact ha.waiting f hold
    · exact ha.current f hold
    · exact hclear

theorem allClear_start (p : Address) (n : Nat) (settings : AssemblerSettings) (m : Memory) :
    AllClear p n (start settings m) := by
  constructor <;> intro f hf <;> exact absurd hf (Array.not_mem_empty f)

theorem AllClear.holds {steps : List Step} {a : Assembler} (ha : AllClear p w.bytes a)
    (hm : a.memory.Passive) (h : (a.stepAll steps).finishAll.Clean)
    (happart : ∀ z ∈ collect storedSpans steps a, Apart p w.bytes z.address z.length) {v : Word}
    (hv : a.memory.Holds p w.bytes v) : (a.stepAll steps).finishAll.memory.Holds p w.bytes v := by
  have hspares := stepAll_spares hm (clean_of_finishAll h) ha.current happart
  refine finishAll_holds hspares.passive h (fun f hf => .inl ?_) (.inl (hspares.holds hv))
  exact (hspares.allClear ha).waiting f hf

/-- Of all fix-ups only one of the open file is for the `n` bytes at `p`. -/
structure Awaits (p : Address) (n : Nat) (token : Token) (a : Assembler) : Prop where
  own : { address := p, length := n, token } ∈ a.fixups.current
  current : ∀ f ∈ a.fixups.current, f.Clear p n ∨ f = { address := p, length := n, token }
  waiting : ∀ f ∈ a.fixups.waiting, f.Clear p n

theorem Awaits.actAll {token : Token} {xs : List Action} {a : Assembler}
    (ha : Awaits p w.bytes token a) (hm : a.memory.Passive) (h : (a.actAll xs).Clean)
    (happart : ∀ z ∈ collect storedSpans (xs.map Step.act) a, Apart p w.bytes z.address z.length) :
    Awaits p w.bytes token (a.actAll xs) := by
  have hspares := actAll_spares hm h happart
  obtain ⟨hkept, hwaiting⟩ := actAll_fixups h
  refine ⟨hkept _ ha.own, ?_, by rw [hwaiting]; exact ha.waiting⟩
  intro f hf
  rcases hspares.current hf with hold | hclear
  · exact ha.current f hold
  · exact .inl hclear

theorem Awaits.filled {token : Token} {a : Assembler} (ha : Awaits p w.bytes token a)
    (hm : a.memory.Passive) (h : (a.step .closeFile).Clean) {symbol : Symbol}
    (hsymbol : (a.step .closeFile).lookup? a.currentFile token.literal = some symbol) :
    AllClear p w.bytes (a.step .closeFile) ∧
      (a.step .closeFile).memory.Holds p w.bytes (Word.truncate symbol.address w.bytes) := by
  have hfills : Fixup.Fills ((a.step .closeFile).scopeOf a.currentFile) p w.bytes
      (Word.truncate symbol.address w.bytes) { address := p, length := w.bytes, token } :=
    ⟨rfl, rfl, symbol, hsymbol, rfl⟩
  obtain ⟨hempty, hleft⟩ := closeFile_fixups h
  refine ⟨⟨?_, ?_⟩, closeFile_holds hm h ?_ (.inr ⟨_, ha.own, hfills⟩)⟩
  · intro f hf
    rw [hempty] at hf
    exact absurd hf (Array.not_mem_empty f)
  · intro f hf
    rcases (hleft f).mp hf with hold | ⟨hnew, hundefined⟩
    · exact ha.waiting f hold
    · rcases ha.current f hnew with hclear | rfl
      · exact hclear
      · rw [hsymbol] at hundefined
        cases hundefined
  · intro f hf
    rcases ha.current f hf with hclear | rfl
    · exact .inl hclear
    · exact .inr (.inr hfills)

/-- A label that is not known by the end of the file is waited for, and is global in the
end. -/
theorem Awaits.left {token : Token} {a : Assembler} (ha : Awaits p w.bytes token a)
    (hm : a.memory.Passive) {steps : List Step}
    (h : ((a.step .closeFile).stepAll steps).finishAll.Clean)
    (hundefined : (a.step .closeFile).lookup? a.currentFile token.literal = none)
    (happart : ∀ z ∈ collect storedSpans steps (a.step .closeFile),
      Apart p w.bytes z.address z.length) :
    ∃ symbol,
      ((a.step .closeFile).stepAll steps).globals.lookup? token.literal = some symbol ∧
      ((a.step .closeFile).stepAll steps).finishAll.memory.Holds p w.bytes
        (Word.truncate symbol.address w.bytes) := by
  have hrest := clean_of_finishAll h
  have hclose := clean_of_stepAll hrest
  obtain ⟨hempty, hleft⟩ := closeFile_fixups hclose
  have hnone : ∀ f ∈ (a.step .closeFile).fixups.current, f.Clear p w.bytes := by
    intro f hf
    rw [hempty] at hf
    exact absurd hf (Array.not_mem_empty f)
  have hspares := stepAll_spares (reads_step hm hclose).passive hrest hnone happart
  have hlast := hspares.kept ((hleft _).mpr (.inr ⟨ha.own, hundefined⟩))
  obtain ⟨-, hdefined⟩ := FixupQueue.finishWaiting_eq h
  obtain ⟨symbol, hsymbol⟩ := hdefined _ (Array.mem_toList_iff.mpr hlast)
  have hfills : Fixup.Fills ⟨none, ((a.step .closeFile).stepAll steps).globals⟩ p w.bytes
      (Word.truncate symbol.address w.bytes) { address := p, length := w.bytes, token } :=
    ⟨rfl, rfl, symbol, hsymbol, rfl⟩
  refine ⟨symbol, hsymbol, finishAll_holds hspares.passive h ?_ (.inr ⟨_, hlast, hfills⟩)⟩
  intro f hf
  rcases hspares.waiting hf with hold | hold | hclear
  · rcases (hleft f).mp hold with hearlier | ⟨hnew, -⟩
    · exact .inl (ha.waiting f hearlier)
    · rcases ha.current f hnew with hclear | rfl
      · exact .inl hclear
      · exact .inr hfills
  · exact .inl (hnone f hold)
  · exact .inl hclear

/-! ## The rest of a program -/

def stepsFrom (xs : List Action) (files : List SourceFile) : List Step :=
  xs.map Step.act ++ .closeFile :: files.flatMap SourceFile.steps

theorem stepAll_stepsFrom (a : Assembler) (xs : List Action) (files : List SourceFile) :
    a.stepAll (stepsFrom xs files) =
      ((a.actAll xs).step .closeFile).stepAll (files.flatMap SourceFile.steps) := by
  rw [stepsFrom, stepAll_append, stepAll_map_act, stepAll_cons]

theorem collect_append {β : Type} (f : Assembler → Step → List β) (xs ys : List Step)
    (a : Assembler) : collect f (xs ++ ys) a = collect f xs a ++ collect f ys (a.stepAll xs) := by
  induction xs generalizing a with
  | nil => rfl
  | cons x rest ih => rw [List.cons_append, collect, collect, ih, List.append_assoc, stepAll_cons]

/-- A label that is known in the open file is found in the end, at the address it was
carried to. -/
theorem lookup?_stepsFrom {a : Assembler} {t : SymbolTable} (ht : Open t a) {xs : List Action}
    {files : List SourceFile} (hnames : ∀ f ∈ files, f.name ≠ a.currentFile)
    (h : (a.stepAll (stepsFrom xs files)).Clean) {name : String} {s : Symbol}
    (hs : t.lookup? name = some s) :
    (a.stepAll (stepsFrom xs files)).lookup? a.currentFile name =
      some { s with address := carryAll xs a s.address } := by
  rw [stepAll_stepsFrom] at h ⊢
  have hclose := clean_of_stepAll h
  obtain ⟨hextends, t', ht', hcarried⟩ := actAll_scope ht (clean_of_step hclose)
  obtain ⟨-, hlookup⟩ := closeFile_scope ht' hclose
  refine (keepsFile_files hnames h).lookup? ?_
  rw [← hextends.file]
  rw [hlookup, hcarried, hs]
  rfl

/-- A fix-up of the open file is worked off with the address that its label has when the
file ends, or else with that of the global symbol after the last file. -/
theorem Awaits.stepsFrom {token : Token} {a : Assembler} (ha : Awaits p w.bytes token a)
    (hm : a.memory.Passive) {t : SymbolTable} (ht : Open t a) {xs : List Action}
    {files : List SourceFile} (h : (a.stepAll (stepsFrom xs files)).finishAll.Clean)
    (happart : ∀ z ∈ collect storedSpans (stepsFrom xs files) a,
      Apart p w.bytes z.address z.length) :
    ∃ symbol,
      (((a.actAll xs).step .closeFile).lookup? a.currentFile token.literal).or
        ((a.stepAll (stepsFrom xs files)).globals.lookup? token.literal) = some symbol ∧
      (a.stepAll (stepsFrom xs files)).finishAll.memory.Holds p w.bytes
        (Word.truncate symbol.address w.bytes) := by
  rw [Assembler.stepsFrom, collect_append, stepAll_map_act] at happart
  obtain ⟨hinside, hrest⟩ := List.forall_mem_append.mp happart
  rw [stepAll_stepsFrom] at h ⊢
  have hall := clean_of_finishAll h
  have hclose := clean_of_stepAll hall
  have hbody := clean_of_step hclose
  have hspares := actAll_spares hm hbody hinside
  have hawaits := ha.actAll hm hbody hinside
  obtain ⟨hextends, -⟩ := actAll_scope ht hbody
  rw [← hextends.file]
  cases hlookup : ((a.actAll xs).step .closeFile).lookup? (a.actAll xs).currentFile
      token.literal with
  | some symbol =>
    obtain ⟨hclear, hholds⟩ := hawaits.filled hspares.passive hclose hlookup
    exact ⟨symbol, rfl, hclear.holds (reads_step hspares.passive hclose).passive h hrest hholds⟩
  | none =>
    obtain ⟨symbol, hsymbol, hholds⟩ := hawaits.left hspares.passive h hlookup hrest
    exact ⟨symbol, hsymbol, hholds⟩

/-! ## References -/

/-- Where a label of the open file that stands at `address` is by the end of the file. -/
def carryFrom : List Step → Assembler → Address → Address
  | .act x :: rest, a, address => carryFrom rest (a.act x) (a.carry x address)
  | _, _, address => address

theorem carryFrom_stepsFrom (xs : List Action) (files : List SourceFile) (a : Assembler)
    (address : Address) : carryFrom (stepsFrom xs files) a address = carryAll xs a address := by
  induction xs generalizing a address with
  | nil => rfl
  | cons x rest ih => exact ih (a.act x) (a.carry x address)

theorem open_inside {a : Assembler} {files : List SourceFile} {name : String} {xs : List Action}
    (h : (a.stepAll (files.flatMap SourceFile.steps ++ .openFile name :: xs.map Step.act)).Clean) :
    (∃ t, Open t (a.stepAll
      (files.flatMap SourceFile.steps ++ .openFile name :: xs.map Step.act))) ∧
    (a.stepAll (files.flatMap SourceFile.steps ++ .openFile name :: xs.map Step.act)).currentFile =
      name := by
  rw [stepAll_append, stepAll_cons, stepAll_map_act] at h ⊢
  obtain ⟨hextends, t, ht, -⟩ := actAll_scope (open_openFile _ name) h
  exact ⟨⟨t, ht⟩, hextends.file⟩

theorem Open.known? {t : SymbolTable} {a : Assembler} (ht : Open t a) (name : String) :
    a.known? name = (t.lookup? name).map (·.address) := by
  rw [Assembler.known?, ht.table, Option.bind_some]

/-- What placing statements leaves of a value: all of it, or the word of a statement. -/
theorem Placed.fetch {base : Memory} {ps : List Placement} {a : Assembler} (ha : Placed base ps a)
    {p : Address} {n : Nat} {v : Word} (hv : base.Holds p n v) (notify : Bool) :
    (a.memory.fetch p n notify).1 = .ok
      (match a.assembled[Word.containing p]? with
        | some s => a.memory.order.extract s.binary p n
        | none => v) := by
  obtain ⟨halign, word, hword, hvalue⟩ := Memory.fetch_eq_ok_iff.mp (hv notify)
  cases hs : a.assembled[Word.containing p]? with
  | some s => exact Memory.fetch_eq_ok_iff.mpr ⟨halign, s.binary, ha.words _ s hs, rfl⟩
  | none =>
    refine Memory.fetch_eq_ok_iff.mpr ⟨halign, word, ?_, ?_⟩
    · rw [ha.untouched _ (Word.containing_aligned p) hs]
      exact hword
    · rw [ha.order]
      exact hvalue

theorem names_after {sources : List (String × String)} (hnames : (sources.map Prod.fst).Nodup)
    {files₁ files₂ : List SourceFile} {f : SourceFile}
    (hfiles : sourceFiles sources = files₁ ++ f :: files₂) : ∀ g ∈ files₂, g.name ≠ f.name := by
  have hsame : sources.map Prod.fst = (sourceFiles sources).map (·.name) := by
    rw [sourceFiles, List.map_map]
    rfl
  rw [hsame, hfiles, List.map_append, List.map_cons] at hnames
  obtain ⟨-, hrest, -⟩ := List.nodup_append.mp hnames
  intro g hg hname
  exact (List.nodup_cons.mp hrest).1 (hname ▸ List.mem_map_of_mem hg)

theorem AllClear.act_reference {a : Assembler} {token : Token} {width : Width}
    (ha : AllClear a.segments.cursor width.bytes a) (hm : a.memory.Passive)
    (h : (a.act (.reference token width)).Clean) :
    (∃ address, a.known? token.literal = some address ∧
      AllClear a.segments.cursor width.bytes (a.act (.reference token width)) ∧
      (a.act (.reference token width)).memory.Holds a.segments.cursor width.bytes
        (Word.truncate address width.bytes)) ∨
    a.known? token.literal = none ∧
      Awaits a.segments.cursor width.bytes token (a.act (.reference token width)) := by
  obtain ⟨value, old, memory, fixups, hstore, heq, hcases⟩ := act_reference_cases h
  rw [heq]
  rcases hcases with ⟨hknown, rfl⟩ | ⟨hunknown, rfl⟩
  · refine .inl ⟨value, hknown, ⟨ha.current, ha.waiting⟩, ?_⟩
    intro notify
    exact Memory.store_fetch hm width.bytes_cases hstore
  · refine .inr ⟨hunknown, Array.mem_push_self, ?_, ha.waiting⟩
    intro f hf
    rcases Array.mem_push.mp hf with hold | rfl
    · exact .inl (ha.current f hold)
    · exact .inr rfl

/-- A reference to a label that is not known when it is read, in the state `a`. -/
theorem reference_settled {a : Assembler} {t : SymbolTable} (ht : Open t a) {token : Token}
    {width : Width} (hunknown : a.known? token.literal = none) {xs : List Action}
    {files : List SourceFile}
    (h : (((a.act (.reference token width)).stepAll (stepsFrom xs files)).finishAll).Clean) :
    let b := (a.act (.reference token width)).stepAll (stepsFrom xs files)
    ∃ symbol,
      ((((a.act (.reference token width)).actAll xs).step .closeFile).lookup? a.currentFile
        token.literal).or (b.globals.lookup? token.literal) = some symbol ∧
      (a.memory.Passive → AllClear a.segments.cursor width.bytes a →
        (∀ z ∈ collect storedSpans (stepsFrom xs files) (a.act (.reference token width)),
          Apart a.segments.cursor width.bytes z.address z.length) →
        b.finishAll.memory.Holds a.segments.cursor width.bytes
          (Word.truncate symbol.address width.bytes)) := by
  intro b
  have hread : (a.act (.reference token width)).Clean := clean_of_stepAll (clean_of_finishAll h)
  obtain ⟨hextends, t', ht', -⟩ := act_scope ht hread
  have hbody : ((a.act (.reference token width)).actAll xs).Clean := by
    have hall := clean_of_finishAll h
    rw [stepAll_stepsFrom] at hall
    exact clean_of_step (clean_of_stepAll hall)
  obtain ⟨hextends', -⟩ := actAll_scope ht' hbody
  have hown : { address := a.segments.cursor, length := width.bytes, token } ∈
      ((a.act (.reference token width)).actAll xs).fixups.current := by
    obtain ⟨value, old, memory, fixups, -, heq, ⟨hknown, -⟩ | ⟨-, hpush⟩⟩ := act_reference_cases hread
    · rw [hunknown] at hknown
      cases hknown
    · refine (actAll_fixups hbody).1 _ ?_
      rw [heq, hpush]
      exact Array.mem_push_self
  have hsettled := h
  rw [stepAll_stepsFrom] at hsettled
  obtain ⟨symbol, hsymbol⟩ := fixup_settled hsettled hown
  rw [hextends'.file, hextends.file, ← stepAll_stepsFrom] at hsymbol
  refine ⟨symbol, hsymbol, fun hm hclear happart => ?_⟩
  rcases hclear.act_reference hm hread with ⟨address, hknown, -, -⟩ | ⟨-, hawaits⟩
  · rw [hunknown] at hknown
    cases hknown
  · have hpassive := (act_effect hread).passive hm
    obtain ⟨symbol', hsymbol', hholds⟩ := hawaits.stepsFrom hpassive ht' h happart
    rw [hextends.file] at hsymbol'
    cases hsymbol.symm.trans hsymbol'
    exact hholds

/-- What the first pass leaves of a reference that is read when `a` is the state. -/
theorem reference_stepsFrom {a : Assembler} (hm : a.memory.Passive) {t : SymbolTable} (ht : Open t a)
    {token : Token} {width : Width} {xs : List Action} {files : List SourceFile}
    (hnames : ∀ f ∈ files, f.name ≠ a.currentFile)
    (h : (((a.act (.reference token width)).stepAll (stepsFrom xs files)).finishAll).Clean)
    (hclear : AllClear a.segments.cursor width.bytes a)
    (happart : ∀ z ∈ collect storedSpans (stepsFrom xs files) (a.act (.reference token width)),
      Apart a.segments.cursor width.bytes z.address z.length) :
    let b := (a.act (.reference token width)).stepAll (stepsFrom xs files)
    ∃ symbol, b.lookup? a.currentFile token.literal = some symbol ∧
      (∀ address, a.known? token.literal = some address →
        symbol.address = carryAll xs (a.act (.reference token width)) address) ∧
      b.finishAll.memory.Holds a.segments.cursor width.bytes
        (Word.truncate ((a.known? token.literal).getD symbol.address) width.bytes) := by
  intro b
  have hread : (a.act (.reference token width)).Clean := clean_of_stepAll (clean_of_finishAll h)
  have hpassive := (act_effect hread).passive hm
  obtain ⟨hextends, t', ht', hcarried⟩ := act_scope ht hread
  rw [← hextends.file] at hnames ⊢
  rcases hclear.act_reference hm hread with ⟨address, hknown, hclear', hholds⟩ |
    ⟨hunknown, hawaits⟩
  · obtain ⟨s, hs, rfl⟩ := Option.map_eq_some_iff.mp ((ht.known? _).symm.trans hknown)
    refine ⟨_, lookup?_stepsFrom ht' hnames (clean_of_finishAll h) (hcarried.of_some hs), ?_, ?_⟩
    · intro address haddress
      rw [hknown] at haddress
      cases haddress
      rfl
    · rw [hknown]
      exact hclear'.holds hpassive h happart hholds
  · obtain ⟨symbol, hsymbol, hholds⟩ := hawaits.stepsFrom hpassive ht' h happart
    have hkeeps := keepsFile_files hnames (by rw [← stepAll_stepsFrom]; exact clean_of_finishAll h)
    rw [← stepAll_stepsFrom] at hkeeps
    refine ⟨symbol, (hkeeps.lookup?_eq _).trans hsymbol, ?_, ?_⟩
    · intro address haddress
      rw [hunknown] at haddress
      cases haddress
    · rw [hunknown]
      exact hholds

/-- A reference whose bytes no other value shares holds, unless a statement was placed
over it, the address that its label had when it was read, or, if the label was not known
then, the address that it has in the end.  A label that was known may since have been
carried on, and the reference is right exactly if that makes no difference. -/
theorem assembleSources_reference {settings : AssemblerSettings} {ms : MemorySettings}
    {sources : List (String × String)} {a : Assembler}
    (h : (start settings (.ofSettings ms)).assembleSources sources = (none, a))
    (hnames : (sources.map Prod.fst).Nodup) {before after : List Step} {token : Token}
    {width : Width}
    (hsteps : programSteps sources = before ++ .act (.reference token width) :: after) :
    let here := (start settings (.ofSettings ms)).stepAll before
    let next := here.act (.reference token width)
    (∀ z ∈ collect storedSpans before (start settings (.ofSettings ms)) ++
      collect storedSpans after next,
      Apart here.segments.cursor width.bytes z.address z.length) →
    ∃ symbol, a.lookup? here.currentFile token.literal = some symbol ∧
      (∀ address, here.known? token.literal = some address →
        symbol.address = carryFrom after next address) ∧
      (∀ notify, (a.memory.fetch here.segments.cursor width.bytes notify).1 = .ok
        (match a.assembled[Word.containing here.segments.cursor]? with
          | some s => a.memory.order.extract s.binary here.segments.cursor width.bytes
          | none =>
            Word.truncate ((here.known? token.literal).getD symbol.address) width.bytes)) ∧
      (a.assembled[Word.containing here.segments.cursor]? = none →
        ∀ notify, (a.memory.fetch here.segments.cursor width.bytes notify).1 =
            .ok (Word.truncate symbol.address width.bytes) ↔
          ∀ address, here.known? token.literal = some address →
            Word.truncate address width.bytes = Word.truncate symbol.address width.bytes) := by
  intro here next happart
  obtain ⟨hapart₁, hapart₂⟩ := List.forall_mem_append.mp happart
  obtain ⟨-, hfirst, -, -⟩ := assembleSources_eq_none h
  obtain ⟨⟨memory, resolved, assembled, ha⟩, -, -, hplaced⟩ := assembleSources_passes h
  obtain ⟨files₁, f, files₂, xs, ys, hfiles, -, hbefore, hafter⟩ := SourceFile.split_steps hsteps
  have hrun : firstPass settings ms sources = (next.stepAll (stepsFrom ys files₂)).finishAll := by
    rw [firstPass, hsteps, stepAll_append, stepAll_cons, hafter]
    rfl
  rw [hrun] at hfirst
  have hread : next.Clean := clean_of_stepAll (clean_of_finishAll hfirst)
  have hhere : here.Clean := clean_of_act hread
  -- Nothing waits for these bytes yet when the reference is read.
  have hstart := allClear_start here.segments.cursor width.bytes settings (.ofSettings ms)
  have hspares : Spares here.segments.cursor width.bytes (start settings (.ofSettings ms)) here :=
    stepAll_spares (Memory.passive_ofSettings ms) hhere hstart.current hapart₁
  obtain ⟨⟨t, ht⟩, hfile⟩ : (∃ t, Open t here) ∧ here.currentFile = f.name := by
    show (∃ t, Open t ((start settings (.ofSettings ms)).stepAll before)) ∧
      ((start settings (.ofSettings ms)).stepAll before).currentFile = f.name
    have hopen : ((start settings (.ofSettings ms)).stepAll before).Clean := hhere
    rw [hbefore] at hopen ⊢
    exact open_inside hopen
  rw [hafter] at hapart₂ ⊢
  obtain ⟨symbol, hlookup, hcarried, hholds⟩ := reference_stepsFrom hspares.passive ht
    (by rw [hfile]; exact names_after hnames hfiles) hfirst (hspares.allClear hstart) hapart₂
  rw [hrun] at hplaced
  refine ⟨symbol, ?_, ?_, hplaced.fetch hholds, ?_⟩
  · rw [ha, hrun]
    exact hlookup
  · intro address hknown
    rw [hcarried address hknown]
    exact (carryFrom_stepsFrom ys files₂ next address).symm
  · intro hfree notify
    rw [hplaced.fetch hholds notify, hfree]
    cases here.known? token.literal with
    | none => simp
    | some known => simp

set_option maxRecDepth 10000 in
/-- The label follows the word that is aligned after it, and the reference does not. -/
theorem assembleSources_reference_moved :
    let ms : MemorySettings := ⟨Layout.standard, .little, false⟩
    let sources := [("moved.s",
      ".data\n.byte 1\nx:\n.kdata\n.word x\n.data\n.word 5\n.text\nla $t0, x\n")]
    let run := (start ⟨none, false⟩ (.ofSettings ms)).assembleSources sources
    run.1 = none ∧ (run.2.lookup? "moved.s" "x").map (·.address) = some 0x10010004 ∧
      ∀ notify, (run.2.memory.fetch 0x90000000 4 notify).1 = .ok 0x10010001 := by
  intro ms sources run
  let before := (programSteps sources).take 7
  let after := (programSteps sources).drop 8
  let token : Token := ⟨.identifier, "x", ⟨"moved.s", 5, 7⟩⟩
  have hsteps : programSteps sources = before ++ .act (.reference token .word) :: after := by
    decide +kernel
  let here := (start ⟨none, false⟩ (.ofSettings ms)).stepAll before
  obtain ⟨hcursor, hfile, hknown, hcarried, hapart⟩ : here.segments.cursor = 0x90000000 ∧
      here.currentFile = "moved.s" ∧ here.known? token.literal = some 0x10010001 ∧
      carryFrom after (here.act (.reference token .word)) 0x10010001 = 0x10010004 ∧
      ∀ z ∈ collect storedSpans before (start ⟨none, false⟩ (.ofSettings ms)) ++
        collect storedSpans after (here.act (.reference token .word)),
        Apart here.segments.cursor Width.word.bytes z.address z.length := by
    decide +kernel
  obtain ⟨hrun, hfree⟩ : run.1 = none ∧
      run.2.assembled[Word.containing 0x90000000]? = none := by
    decide +kernel
  obtain ⟨symbol, hsymbol, haddress, hfetch, -⟩ :=
    assembleSources_reference (eq_of_fst_eq_none hrun) (by decide) hsteps hapart
  rw [hcursor, hknown, hfree] at hfetch
  rw [hfile] at hsymbol
  have hmoved : symbol.address = 0x10010004 := (haddress 0x10010001 hknown).trans hcarried
  refine ⟨hrun, ?_, hfetch⟩
  rw [← hmoved]
  exact congrArg (Option.map (·.address)) hsymbol

end Assembler
end MipsImage
