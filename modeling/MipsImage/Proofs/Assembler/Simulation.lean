/-
Two runs in step with each other.

What an assembler does depends on its source, its tables and its cursors, and hardly at
all on its settings, its log or what is in memory: reports are added to the log without
reading it, and a store either goes through or faults.  So two runs of one program that
differ in these three parts do the same elsewhere.  `Simulation` says what has to be
known of the three parts, once, and every operation is shown to keep it.  It may also say
something of what the second and third pass make; then it depends on the relation whether
these passes keep it, and `Resolves` and `Places` say that they do.

Only the checks whether the log has had enough look at it.  `Guarded` is about runs put
together from operations and such checks.
-/
import MipsImage.Proofs.Assembler.Placement

namespace MipsImage

/-- Two accesses went through or failed alike, and left related memories. -/
inductive Alike (R : Memory → Memory → Prop) {α : Type} :
    Except AddressError α × Memory → Except AddressError α × Memory → Prop
  | ok (v v' : α) {m m' : Memory} (memory : R m m') : Alike R (.ok v, m) (.ok v', m')
  | error (e : AddressError) {m m' : Memory} (memory : R m m') : Alike R (.error e, m) (.error e, m')

/-- Relations between settings, logs and memories that reports and stores keep, together with
something that holds of the statements of the later passes. -/
structure Simulation where
  settings : AssemblerSettings → AssemblerSettings → Prop
  log : Log → Log → Prop
  memory : Memory → Memory → Prop
  results : Std.TreeMap Address ResolvedStatement → Std.TreeMap Address EncodedStatement → Prop
  add {l l' : Log} (h : log l l') (d : Diagnostic) : log (l.add d) (l'.add d)
  store {m m' : Memory} (h : memory m m') (address : Address) (value : Word) (length : Nat) :
    Alike memory (m.store address value length true) (m'.store address value length true)
  storeDoubleword {m m' : Memory} (h : memory m m') (address : Address) (value : UInt64) :
    Alike memory (m.storeDoubleword address value true) (m'.storeDoubleword address value true)

/-- What the second pass does keeps the relation. -/
structure Simulation.Resolves (S : Simulation) : Prop where
  insert {resolved : Std.TreeMap Address ResolvedStatement}
    {assembled : Std.TreeMap Address EncodedStatement} (h : S.results resolved assembled)
    (address : Address) (s : ResolvedStatement) : S.results (resolved.insert address s) assembled

/-- What the third pass does keeps the relation. -/
structure Simulation.Places (S : Simulation) : Prop where
  insert {resolved : Std.TreeMap Address ResolvedStatement}
    {assembled : Std.TreeMap Address EncodedStatement} (h : S.results resolved assembled)
    (address : Address) (s : EncodedStatement) : S.results resolved (assembled.insert address s)
  storeStatement {m m' : Memory} (h : S.memory m m') (address : Address) (s : EncodedStatement) :
    Alike S.memory (m.storeStatement address s true) (m'.storeStatement address s true)

/-- Two assemblers that agree in all but the three related parts. -/
inductive Related (S : Simulation) (a : Assembler) : Assembler → Prop
  | intro {settings : AssemblerSettings} {log : Log} {memory : Memory}
      (hsettings : S.settings a.settings settings) (hlog : S.log a.log log)
      (hmemory : S.memory a.memory memory) (hresults : S.results a.resolved a.assembled) :
      Related S a { a with settings, log, memory }

/-- A function that keeps assemblers related. -/
def Preserves (S : Simulation) (f : Assembler → Assembler) : Prop :=
  ∀ ⦃a b : Assembler⦄, Related S a b → Related S (f a) (f b)

/-- The same for a function that also gives an answer, which has to agree. -/
def PreservesAnswer (S : Simulation) (f : Assembler → Bool × Assembler) : Prop :=
  ∀ ⦃a b : Assembler⦄, Related S a b → (f a).1 = (f b).1 ∧ Related S (f a).2 (f b).2

theorem Alike.refl {α : Type} (x : Except AddressError α × Memory) : Alike Eq x x := by
  obtain ⟨outcome, memory⟩ := x
  cases outcome with
  | ok v => exact .ok v v rfl
  | error e => exact .error e rfl

/-- Runs whose memories are the same. -/
def Simulation.ofLogs (settings : AssemblerSettings → AssemblerSettings → Prop)
    (log : Log → Log → Prop)
    (add : ∀ {l l' : Log}, log l l' → ∀ d, log (l.add d) (l'.add d)) : Simulation where
  settings := settings
  log := log
  memory := Eq
  results _ _ := True
  add := add
  store := by
    rintro m _ rfl address value length
    exact .refl _
  storeDoubleword := by
    rintro m _ rfl address value
    exact .refl _

/-- A relation that every pass keeps. -/
structure Simulation.Lasting (S : Simulation) : Prop where
  resolves : S.Resolves
  places : S.Places

/-- Runs whose memories are the same stay in step through every pass. -/
theorem Simulation.lasting_of_eq {S : Simulation} (hmemory : S.memory = Eq)
    (hresults : ∀ resolved assembled, S.results resolved assembled) : S.Lasting where
  resolves := ⟨fun _ _ _ => hresults _ _⟩
  places := by
    refine ⟨fun _ _ _ => hresults _ _, ?_⟩
    rw [hmemory]
    rintro m _ rfl address s
    exact .refl _

namespace Related

variable {S : Simulation} {a b : Assembler}

theorem log (h : Related S a b) : S.log a.log b.log := by
  obtain ⟨-, hlog, -, -⟩ := h
  exact hlog

theorem parsed (h : Related S a b) : b.parsed = a.parsed := by
  obtain ⟨-, -, -, -⟩ := h
  rfl

theorem settings (h : Related S a b) : S.settings a.settings b.settings := by
  obtain ⟨hsettings, -, -, -⟩ := h
  exact hsettings

theorem memory (h : Related S a b) : S.memory a.memory b.memory := by
  obtain ⟨-, -, hmemory, -⟩ := h
  exact hmemory

theorem results (h : Related S a b) : S.results a.resolved a.assembled := by
  obtain ⟨-, -, -, hresults⟩ := h
  exact hresults

end Related

section Combinators

variable {S : Simulation}

theorem Preserves.comp {f g : Assembler → Assembler} (hg : Preserves S g) (hf : Preserves S f) :
    Preserves S fun a => g (f a) :=
  fun _ _ h => hg (hf h)

theorem PreservesAnswer.comp {write : Assembler → Bool × Assembler} {f : Assembler → Assembler}
    (hwrite : PreservesAnswer S write) (hf : Preserves S f) :
    PreservesAnswer S fun a => write (f a) :=
  fun _ _ h => hwrite (hf h)

theorem PreservesAnswer.andThen {write : Assembler → Bool × Assembler}
    {rest : Assembler → Assembler} (hwrite : PreservesAnswer S write) (hrest : Preserves S rest) :
    Preserves S fun a => match write a with | (true, a) => rest a | (false, a) => a := by
  intro a b h
  obtain ⟨hanswer, hrelated⟩ := hwrite h
  dsimp only
  generalize write a = x at hanswer hrelated ⊢
  generalize write b = y at hanswer hrelated ⊢
  obtain ⟨stored, a'⟩ := x
  obtain ⟨_, b'⟩ := y
  cases hanswer
  cases stored with
  | true => exact hrest hrelated
  | false => exact hrelated

theorem PreservesAnswer.andWrite {write rest : Assembler → Bool × Assembler}
    (hwrite : PreservesAnswer S write) (hrest : PreservesAnswer S rest) :
    PreservesAnswer S fun a =>
      match write a with | (true, a) => rest a | (false, a) => (false, a) := by
  intro a b h
  obtain ⟨hanswer, hrelated⟩ := hwrite h
  dsimp only
  generalize write a = x at hanswer hrelated ⊢
  generalize write b = y at hanswer hrelated ⊢
  obtain ⟨stored, a'⟩ := x
  obtain ⟨_, b'⟩ := y
  cases hanswer
  cases stored with
  | true => exact hrest hrelated
  | false => exact ⟨rfl, hrelated⟩

theorem preserves_foldl {α : Type} {f : Assembler → α → Assembler}
    (hf : ∀ x, Preserves S (f · x)) (xs : List α) : Preserves S (xs.foldl f ·) := by
  induction xs with
  | nil => exact fun _ _ h => h
  | cons x rest ih => exact fun _ _ h => ih (hf x h)

end Combinators

/-! ## Single operations -/

namespace Assembler

variable {S : Simulation}

theorem preserves_report (location : Option Location) (issue : Issue) :
    Preserves S (·.report location issue) := by
  rintro a _ ⟨hs, hl, hm, hr⟩
  exact ⟨hs, S.add hl _, hm, hr⟩

theorem preserves_reportAt (token : Token) (issue : Issue) : Preserves S (·.reportAt token issue) :=
  preserves_report (some token.location) issue

theorem preserves_setCurrentTable (t : SymbolTable) : Preserves S (·.setCurrentTable t) := by
  rintro a _ ⟨hs, hl, hm, hr⟩
  exact ⟨hs, hl, hm, hr⟩

theorem preserves_skip (bytes : Word) : Preserves S (·.skip bytes) := by
  rintro a _ ⟨hs, hl, hm, hr⟩
  exact ⟨hs, hl, hm, hr⟩

theorem preserves_defineLabel (token : Token) : Preserves S (·.defineLabel token) := by
  rintro a _ ⟨hs, hl, hm, hr⟩
  have h : Related S a _ := ⟨hs, hl, hm, hr⟩
  simp only [defineLabel, currentTable?]
  cases a.locals[a.currentFile]? with
  | none => exact h
  | some t =>
    dsimp only
    cases t.define ⟨token.literal, a.segments.cursor, a.segments.active.isData⟩ with
    | ok t => exact preserves_setCurrentTable t h
    | error d => exact preserves_reportAt token _ h

theorem preserves_addStatement (s : ParsedStatement) : Preserves S (·.addStatement s) := by
  rintro a _ ⟨hs, hl, hm, hr⟩
  have h : Related S a _ := ⟨hs, hl, hm, hr⟩
  simp only [addStatement]
  split_ifs with hdata
  · exact preserves_skip (UInt32.ofNat s.size) (preserves_reportAt s.mnemonic _ h)
  · cases a.parsed[a.segments.cursor]? with
    | some existing =>
      exact preserves_skip (UInt32.ofNat s.size) (preserves_reportAt s.mnemonic _ h)
    | none => exact ⟨hs, hl, hm, hr⟩

theorem preserves_alignCursor (alignment : Word) : Preserves S (·.alignCursor alignment) := by
  rintro a _ ⟨hs, hl, hm, hr⟩
  simp only [alignCursor, currentTable?]
  cases a.locals[a.currentFile]? with
  | none => exact ⟨hs, hl, hm, hr⟩
  | some t => exact ⟨hs, hl, hm, hr⟩

theorem preserves_writeData (location : Location) (value : Word) (length : Nat) :
    PreservesAnswer S (writeData location value length) := by
  rintro a _ ⟨hs, hl, hm, hr⟩
  have hstore := S.store hm a.segments.cursor value length
  simp only [writeData]
  generalize a.memory.store a.segments.cursor value length true = x at hstore ⊢
  generalize Memory.store _ a.segments.cursor value length true = y at hstore ⊢
  cases hstore with
  | ok v v' hm => exact ⟨rfl, hs, hl, hm, hr⟩
  | error e hm => exact ⟨rfl, preserves_report _ _ ⟨hs, hl, hm, hr⟩⟩

theorem preserves_writeDoubleword (location : Location) (value : UInt64) :
    PreservesAnswer S (writeDoubleword location value) := by
  rintro a _ ⟨hs, hl, hm, hr⟩
  have hstore := S.storeDoubleword hm a.segments.cursor value
  simp only [writeDoubleword]
  generalize a.memory.storeDoubleword a.segments.cursor value true = x at hstore ⊢
  generalize Memory.storeDoubleword _ a.segments.cursor value true = y at hstore ⊢
  cases hstore with
  | ok v v' hm => exact ⟨rfl, hs, hl, hm, hr⟩
  | error e hm => exact ⟨rfl, preserves_report _ _ ⟨hs, hl, hm, hr⟩⟩

theorem preserves_writeForward (token : Token) (length : Nat) :
    PreservesAnswer S (writeForward token length) := by
  rintro a _ ⟨hs, hl, hm, hr⟩
  have hstore := S.store hm a.segments.cursor Fixup.placeholder length
  simp only [writeForward, writeData]
  generalize a.memory.store a.segments.cursor Fixup.placeholder length true = x at hstore ⊢
  generalize Memory.store _ a.segments.cursor Fixup.placeholder length true = y at hstore ⊢
  cases hstore with
  | ok v v' hm => exact ⟨rfl, hs, hl, hm, hr⟩
  | error e hm => exact ⟨rfl, preserves_report _ _ ⟨hs, hl, hm, hr⟩⟩

theorem preserves_writeRepeatedly {write : Assembler → Bool × Assembler}
    (hwrite : PreservesAnswer S write) (count : Nat) :
    PreservesAnswer S (writeRepeatedly write count) := by
  induction count with
  | zero => exact fun _ _ h => ⟨rfl, h⟩
  | succ count ih => exact hwrite.andWrite ih

theorem preserves_writeBytes (location : Location) (bytes : List UInt8) :
    PreservesAnswer S (writeBytes location bytes) := by
  induction bytes with
  | nil => exact fun _ _ h => ⟨rfl, h⟩
  | cons b rest ih => exact (preserves_writeData location (UInt32.ofNat b.toNat) 1).andWrite ih

theorem preserves_defineExternal (token : Token) (size : Word) :
    Preserves S (·.defineExternal token size) := by
  rintro a _ ⟨hs, hl, hm, hr⟩
  simp only [defineExternal]
  split_ifs with htaken
  · exact ⟨hs, hl, hm, hr⟩
  · cases a.globals.define ⟨token.literal, a.segments.external.cursor, true⟩ with
    | ok globals => exact ⟨hs, hl, hm, hr⟩
    | error d => exact preserves_reportAt token _ ⟨hs, hl, hm, hr⟩

theorem preserves_declareGlobal (token : Token) : Preserves S (·.declareGlobal token) := by
  rintro a _ ⟨hs, hl, hm, hr⟩
  simp only [declareGlobal]
  split_ifs with hknown
  · exact preserves_reportAt token _ ⟨hs, hl, hm, hr⟩
  · exact ⟨hs, hl, hm, hr⟩

theorem preserves_promote (token : Token) : Preserves S (·.promote token) := by
  rintro a _ ⟨hs, hl, hm, hr⟩
  have h : Related S a _ := ⟨hs, hl, hm, hr⟩
  simp only [promote, currentTable?]
  cases a.locals[a.currentFile]? with
  | none => exact h
  | some t =>
    dsimp only
    split_ifs with htaken
    · exact preserves_reportAt token _ h
    · cases t.remove? token.literal with
      | none => exact preserves_reportAt token _ h
      | some removed =>
        dsimp only
        cases a.globals.define removed.1 with
        | ok globals => exact ⟨hs, hl, hm, hr⟩
        | error d => exact preserves_reportAt token _ (preserves_setCurrentTable removed.2 h)

theorem preserves_promoteGlobals : Preserves S promoteGlobals := by
  rintro a _ ⟨hs, hl, hm, hr⟩
  exact preserves_foldl preserves_promote a.pendingGlobals ⟨hs, hl, hm, hr⟩

/-! ## Directives -/

end Assembler

theorem Repetition.preserves_report {S : Simulation} (r : Repetition) : Preserves S r.report := by
  cases r with
  | times count => exact fun _ _ h => h
  | invalid token => exact Assembler.preserves_reportAt token _
  | missing colon => exact Assembler.preserves_reportAt colon _

namespace Assembler

variable {S : Simulation}

theorem preserves_reportTruncation (directive token : Token) (value : Word) (length : Nat) :
    Preserves S (reportTruncation directive token value length) := by
  intro a b h
  rw [reportTruncation, reportTruncation]
  split_ifs
  · exact h
  · exact preserves_reportAt token _ h

theorem preserves_reportOverflow (token : Token) (bits : UInt64) :
    Preserves S (reportOverflow token bits) := by
  intro a b h
  rw [reportOverflow, reportOverflow]
  split_ifs
  · exact preserves_reportAt token _ h
  · exact h

theorem currentTable?_eq {a b : Assembler} (h : Related S a b) :
    b.currentTable? = a.currentTable? := by
  obtain ⟨-, -, -, -⟩ := h
  rfl

theorem preserves_storeInteger (directive : Token) (length : Nat) (e : DataEntry) :
    PreservesAnswer S (storeInteger directive length e) := by
  cases e with
  | invalid t => exact fun _ _ h => ⟨rfl, preserves_reportAt t _ h⟩
  | value t repetition =>
    intro a b h
    have hreport := repetition.preserves_report h
    cases hkind : t.kind with
    | integer n =>
      simp only [storeInteger, hkind]
      exact (preserves_writeRepeatedly (preserves_writeData t.location n length) _).comp
        (preserves_reportTruncation directive t n length) hreport
    | _ =>
      simp only [storeInteger, hkind, currentTable?_eq hreport]
      cases (currentTable? (repetition.report a)).bind (·.lookup? t.literal) with
      | some symbol =>
        exact preserves_writeRepeatedly (preserves_writeData t.location symbol.address length) _
          hreport
      | none => exact preserves_writeRepeatedly (preserves_writeForward t length) _ hreport

theorem preserves_storeReal (directive : Token) (double : Bool) (e : DataEntry) :
    PreservesAnswer S (storeReal directive double e) := by
  cases e with
  | invalid t => exact fun _ _ h => ⟨rfl, preserves_reportAt t _ h⟩
  | value t repetition =>
    intro a b h
    have hreport := repetition.preserves_report h
    cases double with
    | true =>
      exact preserves_writeRepeatedly (preserves_writeDoubleword t.location _) _ hreport
    | false =>
      exact (preserves_writeRepeatedly (preserves_writeData t.location _ 4) _).comp
        (preserves_reportOverflow t _) hreport

theorem preserves_storeEntries {storeOne : DataEntry → Assembler → Bool × Assembler}
    (hone : ∀ e, PreservesAnswer S (storeOne e)) (entries : List DataEntry) :
    Preserves S (storeEntries storeOne entries) := by
  induction entries with
  | nil => exact fun _ _ h => h
  | cons e rest ih => exact (hone e).andThen ih

theorem preserves_storeStrings (directive : Token) (terminated : Bool) (tokens : List Token) :
    Preserves S (storeStrings directive terminated tokens) := by
  induction tokens with
  | nil => exact fun _ _ h => h
  | cons t rest ih =>
    intro a b h
    cases hkind : t.kind with
    | string value =>
      simp only [storeStrings, hkind]
      exact (preserves_writeBytes t.location _).andThen ih h
    | _ =>
      simp only [storeStrings, hkind]
      exact ih (preserves_reportAt t _ h)

theorem preserves_switchTo (kind : SegmentKind) :
    Preserves S fun a => { a with segments := a.segments.switchTo kind } := by
  rintro a _ ⟨hs, hl, hm, hr⟩
  exact ⟨hs, hl, hm, hr⟩

theorem preserves_setCursor (address : Address) :
    Preserves S fun a => { a with segments := a.segments.setCursor address } := by
  rintro a _ ⟨hs, hl, hm, hr⟩
  exact ⟨hs, hl, hm, hr⟩

theorem preserves_switchSegment (kind : SegmentKind) (directive : Token) (content : List Token) :
    Preserves S (switchSegment kind directive content) := by
  intro a b h
  have hswitched := preserves_switchTo kind h
  rcases content with _ | ⟨t, _ | ⟨extra, _⟩⟩
  · exact hswitched
  · cases hkind : t.kind with
    | integer address =>
      simp only [switchSegment, hkind]
      exact preserves_setCursor address hswitched
    | _ =>
      simp only [switchSegment, hkind]
      exact preserves_reportAt t _ hswitched
  · exact preserves_reportAt extra _ hswitched

theorem segments_eq {a b : Assembler} (h : Related S a b) : b.segments = a.segments := by
  obtain ⟨-, -, -, -⟩ := h
  rfl

theorem preserves_inDataSegment (directive : Token) {run : Assembler → Assembler}
    (hrun : Preserves S run) : Preserves S (inDataSegment directive run) := by
  intro a b h
  rw [inDataSegment, inDataSegment, segments_eq h]
  split_ifs
  · exact hrun h
  · exact preserves_reportAt directive _ h

theorem preserves_withValues (directive : Token) (content : List Token) (what : String)
    {run : Assembler → Assembler} (hrun : Preserves S run) :
    Preserves S (withValues directive content what run) := by
  intro a b h
  rw [withValues, withValues]
  split_ifs
  · exact preserves_reportAt directive _ h
  · exact hrun h

theorem preserves_autoAlign (alignment : Word) : Preserves S (autoAlign alignment) := by
  intro a b h
  rw [autoAlign, autoAlign, segments_eq h]
  split_ifs
  · exact preserves_alignCursor alignment h
  · exact h

theorem preserves_integers (length : Nat) (directive : Token) (content : List Token) :
    Preserves S (integers length directive content) :=
  preserves_withValues directive content "values"
    ((preserves_storeEntries (preserves_storeInteger directive length) _).comp
      (preserves_autoAlign (UInt32.ofNat length)))

theorem preserves_reals (double : Bool) (directive : Token) (content : List Token) :
    Preserves S (reals double directive content) :=
  preserves_withValues directive content "values"
    ((preserves_storeEntries (preserves_storeReal directive double) _).comp
      (preserves_autoAlign (if double then 8 else 4)))

theorem preserves_strings (terminated : Bool) (directive : Token) (content : List Token) :
    Preserves S (strings terminated directive content) :=
  preserves_withValues directive content "strings" (preserves_storeStrings directive terminated _)

theorem preserves_reserveSpace (directive : Token) (content : List Token) :
    Preserves S (reserveSpace directive content) := by
  intro a b h
  rw [reserveSpace, reserveSpace]
  cases soleSize? content with
  | some size => exact preserves_skip size h
  | none => exact preserves_reportAt directive _ h

theorem preserves_align (directive : Token) (content : List Token) :
    Preserves S (align directive content) := by
  rintro a _ ⟨hs, hl, hm, hr⟩
  have h : Related S a _ := ⟨hs, hl, hm, hr⟩
  rw [align, align]
  split
  · exact ⟨hs, hl, hm, hr⟩
  · exact preserves_alignCursor 2 h
  · exact preserves_alignCursor 4 h
  · exact preserves_alignCursor 8 h
  · exact preserves_reportAt directive _ h

theorem preserves_external (directive : Token) (content : List Token) :
    Preserves S (external directive content) := by
  intro a b h
  cases content with
  | nil => exact preserves_reportAt directive _ h
  | cons label rest =>
    rw [external, external]
    cases soleSize? (DataEntry.withoutCommas rest) with
    | none => exact preserves_reportAt directive _ h
    | some size =>
      dsimp only
      split_ifs
      · exact preserves_defineExternal label size h
      · exact preserves_reportAt directive _ h

theorem preserves_globalLabel (t : Token) : Preserves S (globalLabel · t) := by
  intro a b h
  dsimp only [globalLabel]
  split_ifs
  · exact preserves_declareGlobal t h
  · exact preserves_reportAt t _ h

theorem preserves_global (directive : Token) (content : List Token) :
    Preserves S (global directive content) := by
  intro a b h
  rw [global, global]
  split_ifs
  · exact preserves_reportAt directive _ h
  · exact preserves_foldl preserves_globalLabel _ h

theorem preserves_runDirective (d : Directive) (token : Token) (content : List Token) :
    Preserves S (runDirective d token content) := by
  cases d with
  | text => exact preserves_switchSegment .text token content
  | data => exact preserves_switchSegment .data token content
  | kernelText => exact preserves_switchSegment .kernelText token content
  | kernelData => exact preserves_switchSegment .kernelData token content
  | byte => exact preserves_inDataSegment token (preserves_integers 1 token content)
  | half => exact preserves_inDataSegment token (preserves_integers 2 token content)
  | word => exact preserves_inDataSegment token (preserves_integers 4 token content)
  | float => exact preserves_inDataSegment token (preserves_reals false token content)
  | double => exact preserves_inDataSegment token (preserves_reals true token content)
  | ascii => exact preserves_inDataSegment token (preserves_strings false token content)
  | asciiz => exact preserves_inDataSegment token (preserves_strings true token content)
  | space => exact preserves_inDataSegment token (preserves_reserveSpace token content)
  | align => exact preserves_inDataSegment token (preserves_align token content)
  | external => exact preserves_external token content
  | global => exact preserves_global token content
  | set => exact preserves_reportAt token _
  | constant => exact preserves_reportAt token _
  | macroStart => exact preserves_reportAt token _
  | macroEnd => exact preserves_reportAt token _
  | inclusion => exact preserves_reportAt token _

/-! ## Files and statements -/

theorem preserves_process (i : Item) : Preserves S (·.process i) := by
  cases i with
  | label token => exact preserves_defineLabel token
  | directive d token content => exact preserves_runDirective d token content
  | statement s => exact preserves_addStatement s

theorem preserves_addLog (d : Diagnostic) :
    Preserves S fun a => { a with log := a.log.add d } := by
  rintro a _ ⟨hs, hl, hm, hr⟩
  exact ⟨hs, S.add hl d, hm, hr⟩

theorem preserves_openFile (name : String) : Preserves S (·.openFile name) := by
  rintro a _ ⟨hs, hl, hm, hr⟩
  exact ⟨hs, hl, hm, hr⟩

/-- Write the address of a label where a fix-up asks for it. -/
def fill (f : Fixup) (value : Address) (a : Assembler) : Assembler :=
  a.withFixups (f.apply value)

theorem preserves_fill (f : Fixup) (value : Address) : Preserves S (fill f value) := by
  rintro a _ ⟨hs, hl, hm, hr⟩
  have hstore := S.store hm f.address value f.length
  simp only [fill, withFixups, Fixup.apply]
  generalize a.memory.store f.address value f.length true = x at hstore ⊢
  generalize Memory.store _ f.address value f.length true = y at hstore ⊢
  cases hstore with
  | ok v v' hm => exact ⟨hs, hl, hm, hr⟩
  | @error e m m' hm =>
    have h : Related S { a with memory := m } _ := ⟨hs, hl, hm, hr⟩
    exact preserves_addLog ⟨.error, some f.token.location, e.message⟩ h

theorem withFixups_foldl (g : FixupState → Fixup → FixupState) (fs : List Fixup) (a : Assembler) :
    a.withFixups (fs.foldl g ·) = fs.foldl (fun a f => a.withFixups (g · f)) a := by
  induction fs generalizing a with
  | nil => rfl
  | cons f rest ih => exact ih (a.withFixups (g · f))

theorem preserves_finishOne (scope : SymbolScope) (f : Fixup) :
    Preserves S (·.withFixups (FixupQueue.finishOne scope · f)) := by
  intro a b h
  cases hlookup : scope.lookup? f.token.literal with
  | some symbol =>
    simp only [FixupQueue.finishOne, hlookup]
    exact preserves_fill f symbol.address h
  | none =>
    simp only [FixupQueue.finishOne, hlookup]
    obtain ⟨hs, hl, hm, hr⟩ := h
    exact ⟨hs, hl, hm, hr⟩

theorem finishFile_eq_foldl (a : Assembler) :
    a.finishFile = a.fixups.current.toList.foldl
      (fun b f => b.withFixups (FixupQueue.finishOne (a.scopeOf a.currentFile) · f))
      { a with fixups := a.fixups.startFile } :=
  withFixups_foldl _ _ { a with fixups := a.fixups.startFile }

theorem preserves_finishFile : Preserves S finishFile := by
  rintro a _ ⟨hs, hl, hm, hr⟩
  rw [finishFile_eq_foldl, finishFile_eq_foldl]
  exact preserves_foldl (preserves_finishOne (a.scopeOf a.currentFile)) a.fixups.current.toList
    ⟨hs, hl, hm, hr⟩

theorem resolveOperand_related {l l' : Log} (h : S.log l l') (scope : SymbolScope) (op : Operand) :
    (resolveOperand scope l op).1 = (resolveOperand scope l' op).1 ∧
      S.log (resolveOperand scope l op).2 (resolveOperand scope l' op).2 := by
  cases op with
  | label token offset =>
    rw [resolveOperand, resolveOperand]
    cases scope.lookup? token.literal with
    | some symbol => exact ⟨rfl, h⟩
    | none => exact ⟨rfl, S.add h ⟨.error, some token.location, _⟩⟩
  | _ => exact ⟨rfl, h⟩

theorem resolveOperands_related {l l' : Log} (h : S.log l l') (scope : SymbolScope)
    (ops : List Operand) :
    (resolveOperands scope l ops).1 = (resolveOperands scope l' ops).1 ∧
      S.log (resolveOperands scope l ops).2 (resolveOperands scope l' ops).2 := by
  induction ops generalizing l l' with
  | nil => exact ⟨rfl, h⟩
  | cons op rest ih =>
    obtain ⟨hvalue, hlog⟩ := resolveOperand_related h scope op
    obtain ⟨hvalues, hlogs⟩ := ih hlog
    exact ⟨congrArg₂ List.cons hvalue hvalues, hlogs⟩

theorem preserves_resolveAt (hS : S.Resolves) (address : Address) (s : ParsedStatement) :
    Preserves S (·.resolveAt address s) := by
  rintro a _ ⟨hs, hl, hm, hr⟩
  obtain ⟨hvalues, hlog⟩ := resolveOperands_related hl (a.scopeOf s.location.file) s.operands
  simp only [resolveAt, resolveStatement, scopeOf] at hvalues hlog ⊢
  rw [← hvalues]
  exact ⟨hs, hlog, hm, hS.insert hr _ _⟩

theorem preserves_placeStatement (hS : S.Places) (address : Address) (s : EncodedStatement) :
    Preserves S (·.placeStatement address s) := by
  rintro a _ ⟨hs, hl, hm, hr⟩
  simp only [placeStatement]
  cases a.assembled[address]? with
  | some existing => exact preserves_report s.location _ ⟨hs, hl, hm, hr⟩
  | none =>
    have hstore := hS.storeStatement hm address s
    dsimp only
    generalize a.memory.storeStatement address s true = x at hstore ⊢
    generalize Memory.storeStatement _ address s true = y at hstore ⊢
    cases hstore with
    | ok v v' hm => exact ⟨hs, hl, hm, hS.insert hr _ _⟩
    | error e hm => exact preserves_report s.location _ ⟨hs, hl, hm, hr⟩

theorem preserves_placeParts (hS : S.Places) (source : ParsedStatement) (address : Address)
    (parts : List (BasicInstruction × List Word)) :
    Preserves S (placeParts source address parts) := by
  induction parts generalizing address with
  | nil => exact fun _ _ h => h
  | cons part rest ih =>
    intro a b h
    rw [placeParts, placeParts]
    cases part.1.encode part.2 address with
    | ok binary => exact ih (address + 4) (preserves_placeStatement hS address _ h)
    | error e => exact ih (address + 4) (preserves_report (some source.location) _ h)

end Assembler

/-! ## Runs that may be cut short

A stage says whether the run is cut short with it. -/

namespace Assembler

def proceed (f : Assembler → Assembler) (a : Assembler) : Bool × Assembler :=
  (false, f a)

/-- Cut the run short if the log has had enough. -/
def checkLog (a : Assembler) : Bool × Assembler :=
  (a.log.exceeded, a)

/-- Go on to `g` unless `f` has cut the run short. -/
def thenStage (f g : Assembler → Bool × Assembler) (a : Assembler) : Bool × Assembler :=
  match f a with
  | (true, a) => (true, a)
  | (false, a) => g a

def stages : List (Assembler → Bool × Assembler) → Assembler → Bool × Assembler
  | [] => proceed id
  | f :: rest => thenStage f (stages rest)

/-- A run that looks at the log only where it checks whether to go on, and otherwise keeps
every relation of a kind. -/
inductive Guarded (C : Simulation → Prop) : (Assembler → Bool × Assembler) → Prop
  | proceed {f : Assembler → Assembler} (hf : ∀ S, C S → Preserves S f) : Guarded C (proceed f)
  | checkLog : Guarded C checkLog
  | thenStage {f g : Assembler → Bool × Assembler} (hf : Guarded C f) (hg : Guarded C g) :
      Guarded C (thenStage f g)
  | read {α : Type} {c : Assembler → α} {f : α → Assembler → Bool × Assembler}
      (hc : ∀ S a b, Related S a b → c b = c a) (hf : ∀ x, Guarded C (f x)) :
      Guarded C fun a => f (c a) a

variable {C : Simulation → Prop}

theorem guarded_stages {fs : List (Assembler → Bool × Assembler)} (h : ∀ f ∈ fs, Guarded C f) :
    Guarded C (stages fs) := by
  induction fs with
  | nil => exact .proceed fun S _ _ _ h => h
  | cons f rest ih =>
    obtain ⟨hf, hrest⟩ := List.forall_mem_cons.mp h
    exact .thenStage hf (ih hrest)

theorem thenStage_checkLog (f : Assembler → Assembler) (g : Assembler → Bool × Assembler)
    (a : Assembler) :
    thenStage (thenStage (proceed f) checkLog) g a =
      if (f a).log.exceeded then (true, f a) else g (f a) := by
  simp only [thenStage, proceed, checkLog]
  cases (f a).log.exceeded <;> rfl

theorem guarded_checked {f : Assembler → Assembler} (hf : ∀ S, C S → Preserves S f) :
    Guarded C (thenStage (proceed f) checkLog) :=
  .thenStage (.proceed hf) .checkLog

/-- One operation after the other, with a look at the log after each. -/
def checkedStages {α : Type} (f : α → Assembler → Assembler) (xs : List α) :
    Assembler → Bool × Assembler :=
  stages (xs.map fun x => thenStage (proceed (f x)) checkLog)

theorem guarded_checkedStages {α : Type} {f : α → Assembler → Assembler}
    (hf : ∀ x S, C S → Preserves S (f x)) (xs : List α) : Guarded C (checkedStages f xs) := by
  refine guarded_stages fun stage hstage => ?_
  obtain ⟨x, -, rfl⟩ := List.mem_map.mp hstage
  exact guarded_checked (hf x)

theorem eq_checkedStages {α : Type} {f : α → Assembler → Assembler}
    {loop : List α → Assembler → Assembler} (hnil : ∀ a, loop [] a = a)
    (hcons : ∀ x xs a, loop (x :: xs) a =
      if (f x a).log.exceeded then f x a else loop xs (f x a)) (xs : List α) (a : Assembler) :
    loop xs a = (checkedStages f xs a).2 := by
  induction xs generalizing a with
  | nil => exact hnil a
  | cons x rest ih =>
    rw [checkedStages, List.map_cons, stages, thenStage_checkLog, hcons, ih]
    split_ifs
    · rfl
    · rfl

def outcomeStage : Item.Outcome → Assembler → Bool × Assembler
  | .problem d => proceed fun a => { a with log := a.log.add d }
  | .item i => thenStage (proceed (·.process i)) checkLog

theorem processAll_eq_stages (outcomes : List Item.Outcome) :
    processAll outcomes = stages (outcomes.map outcomeStage) := by
  funext a
  induction outcomes generalizing a with
  | nil => rfl
  | cons outcome rest ih =>
    cases outcome with
    | problem d => exact ih _
    | item i =>
      rw [List.map_cons, stages, outcomeStage, thenStage_checkLog, processAll, ih]

theorem guarded_readFile (f : SourceFile) : Guarded C (·.readFile f) := by
  have houtcomes : Guarded C (processAll (Item.ofFile f)) := by
    rw [processAll_eq_stages]
    refine guarded_stages fun stage hstage => ?_
    obtain ⟨outcome, -, rfl⟩ := List.mem_map.mp hstage
    cases outcome with
    | problem d => exact .proceed fun S _ => preserves_addLog d
    | item i => exact guarded_checked fun S _ => preserves_process i
  have hopen : Guarded C (proceed (·.openFile f.name)) := .proceed fun S _ => preserves_openFile f.name
  have hclose : Guarded C (proceed fun a => a.promoteGlobals.finishFile) :=
    .proceed fun S _ => preserves_finishFile.comp preserves_promoteGlobals
  have hall := hopen.thenStage (houtcomes.thenStage hclose)
  exact hall

/-- The files of the first pass, without what follows the last. -/
def fileStages (files : List SourceFile) : Assembler → Bool × Assembler :=
  stages (files.map fun f => (·.readFile f))

theorem readFiles_eq_stages (files : List SourceFile) (a : Assembler) :
    readFiles files a = (fileStages files a).2 := by
  induction files generalizing a with
  | nil => rfl
  | cons f rest ih =>
    rw [readFiles, fileStages, List.map_cons, stages, thenStage]
    cases a.readFile f with
    | mk stopped a' =>
      cases stopped with
      | true => rfl
      | false => exact ih a'

theorem guarded_fileStages (files : List SourceFile) : Guarded C (fileStages files) := by
  refine guarded_stages fun stage hstage => ?_
  obtain ⟨f, -, rfl⟩ := List.mem_map.mp hstage
  exact guarded_readFile f

/-- What is done about one fix-up after the last file. -/
def waitingStage (globals : SymbolTable) (f : Fixup) : Assembler → Bool × Assembler :=
  match globals.lookup? f.token.literal with
  | some symbol => proceed (fill f symbol.address)
  | none =>
    thenStage checkLog (proceed fun a =>
      { a with log :=
        a.log.error (some f.token.location) (Fixup.undefinedMessage f.token.literal) })

theorem withFixups_finishWaiting (globals : SymbolTable) (fs : List Fixup) (a : Assembler) :
    a.withFixups (FixupQueue.finishWaiting globals fs) =
      (stages (fs.map (waitingStage globals)) a).2 := by
  induction fs generalizing a with
  | nil => rfl
  | cons f rest ih =>
    cases hlookup : globals.lookup? f.token.literal with
    | some symbol =>
      rw [List.map_cons, stages, waitingStage, hlookup]
      refine Eq.trans ?_ (ih (fill f symbol.address a))
      simp only [withFixups, FixupQueue.finishWaiting, hlookup]
      rfl
    | none =>
      rw [List.map_cons, stages, waitingStage, hlookup]
      simp only [thenStage, checkLog, proceed]
      cases hexceeded : a.log.exceeded with
      | true =>
        simp only [withFixups, FixupQueue.finishWaiting, hlookup, hexceeded, if_true]
      | false =>
        refine Eq.trans ?_ (ih _)
        simp only [withFixups, FixupQueue.finishWaiting, hlookup, hexceeded, Bool.false_eq_true,
          if_false]

def clearWaiting (a : Assembler) : Assembler :=
  { a with fixups := { a.fixups with waiting := #[] } }

theorem preserves_clearWaiting {S : Simulation} : Preserves S clearWaiting := by
  rintro a _ ⟨hs, hl, hm, hr⟩
  exact ⟨hs, hl, hm, hr⟩

/-- What follows the last file of the first pass. -/
def waitingStages (a : Assembler) : Bool × Assembler :=
  thenStage (proceed clearWaiting)
    (stages (a.fixups.waiting.toList.map (waitingStage a.globals))) a

theorem finishAll_eq_stages (a : Assembler) : a.finishAll = (waitingStages a).2 :=
  withFixups_finishWaiting a.globals a.fixups.waiting.toList a.clearWaiting

theorem guarded_waitingStage (globals : SymbolTable) (f : Fixup) :
    Guarded C (waitingStage globals f) := by
  rw [waitingStage]
  cases globals.lookup? f.token.literal with
  | some symbol => exact .proceed fun S _ => preserves_fill f symbol.address
  | none => exact .thenStage .checkLog (.proceed fun S _ => preserves_addLog _)

theorem guarded_waitingStages : Guarded C waitingStages := by
  refine .read (c := fun a => (a.fixups.waiting.toList, a.globals))
    (f := fun x => thenStage (proceed clearWaiting) (stages (x.1.map (waitingStage x.2)))) ?_
    fun x => .thenStage (.proceed fun S _ => preserves_clearWaiting) (guarded_stages ?_)
  · intro S a b h
    obtain ⟨-, -, -, -⟩ := h
    rfl
  · intro stage hstage
    obtain ⟨f, -, rfl⟩ := List.mem_map.mp hstage
    exact guarded_waitingStage x.2 f

/-- The second pass, with whether it was cut short. -/
def resolveStages (a : Assembler) : Bool × Assembler :=
  checkedStages (fun entry a => a.resolveAt entry.1 entry.2) a.parsed.toList a

theorem resolvePass_eq_stages (a : Assembler) : a.resolvePass = (resolveStages a).2 := by
  show resolveAll a.parsed.toList a = _
  exact eq_checkedStages (fun _ => rfl) (fun _ _ _ => rfl) a.parsed.toList a

theorem guarded_resolveStages (hC : ∀ S, C S → S.Resolves) : Guarded C resolveStages := by
  refine .read (c := fun a => a.parsed)
    (f := fun parsed => checkedStages (fun entry a => a.resolveAt entry.1 entry.2) parsed.toList)
    ?_ fun parsed => guarded_checkedStages
      (fun entry S hS => preserves_resolveAt (hC S hS) entry.1 entry.2) _
  intro S a b h
  obtain ⟨-, -, -, -⟩ := h
  rfl

def placeAt (entry : Address × ResolvedStatement) : Assembler → Assembler :=
  placeParts entry.2.source entry.1 entry.2.parts

/-- The third pass, with whether it was cut short. -/
def placeStages (a : Assembler) : Bool × Assembler :=
  checkedStages placeAt a.resolved.toList a

theorem placePass_eq_stages (a : Assembler) : a.placePass = (placeStages a).2 := by
  show placeAll a.resolved.toList a = _
  exact eq_checkedStages (fun _ => rfl) (fun _ _ _ => rfl) a.resolved.toList a

theorem guarded_placeStages (hC : ∀ S, C S → S.Places) : Guarded C placeStages := by
  refine .read (c := fun a => a.resolved) (f := fun resolved => checkedStages placeAt resolved.toList)
    ?_ fun resolved => guarded_checkedStages
      (fun entry S hS => preserves_placeParts (hC S hS) _ _ _) _
  intro S a b h
  obtain ⟨-, -, -, -⟩ := h
  rfl

/-! ## Whole runs -/

/-- Go on to `f` unless the pass has left errors. -/
def gated (pass : Pass) (f : Assembler → Option AssemblyError × Assembler) (a : Assembler) :
    Option AssemblyError × Assembler :=
  match a.gate pass with
  | some e => (some e, a)
  | none => f a

/-- The verdict on a run without errors. -/
def judge (a : Assembler) : Option AssemblyError × Assembler :=
  if a.settings.warningsAreErrors && a.log.hasWarnings then (a.failure .place, a) else (none, a)

def assembleStatements (a : Assembler) : Option AssemblyError × Assembler :=
  gated .resolve (fun a => gated .place judge a.placePass) a.resolvePass

theorem assemble_eq_gated {files : List SourceFile} (h : files.isEmpty = false) (a : Assembler) :
    a.assemble files = gated .parse assembleStatements (a.parseFiles files) := by
  rw [assemble, if_neg (by rw [h]; exact Bool.false_ne_true)]
  rfl

theorem addAll_related {S : Simulation} {l l' : Log} (h : S.log l l') (ds : List Diagnostic) :
    S.log (l.addAll ds) (l'.addAll ds) := by
  induction ds generalizing l l' with
  | nil => exact h
  | cons d rest ih => exact ih (S.add h d)

theorem preserves_addLogs {S : Simulation} (ds : List Diagnostic) :
    Preserves S fun a => { a with log := a.log.addAll ds } := by
  rintro a _ ⟨hs, hl, hm, hr⟩
  exact ⟨hs, addAll_related hl ds, hm, hr⟩

theorem readSources_related {S : Simulation} {a b : Assembler} (h : Related S a b)
    (sources : List (String × String)) :
    (a.readSources sources).1 = (b.readSources sources).1 ∧
      Related S (a.readSources sources).2 (b.readSources sources).2 := by
  induction sources generalizing a b with
  | nil => exact ⟨rfl, h⟩
  | cons source rest ih =>
    obtain ⟨hfiles, hrelated⟩ := ih (preserves_addLogs (SourceFile.ofText source.1 source.2).2 h)
    rw [readSources_cons, readSources_cons]
    exact ⟨congrArg (List.cons _) hfiles, hrelated⟩

end Assembler
end MipsImage
