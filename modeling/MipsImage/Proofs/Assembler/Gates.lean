/-
The gates between the passes.

A pass that leaves an error in the log is the last one, so a run that is stopped early
has nothing to show of the later passes.  Up to the third pass memory changes by stores of
data alone, which protected text does not take, and by what listeners do that are told of them.

Two simulations do the work.  `steady` compares a run with itself and so says what it
keeps: the counters of its log are those of the messages, and what later passes make is not
there yet.  `lenient` compares a run that takes warnings for errors with one that does not;
nothing but the very last step looks at that setting.
-/
import MipsImage.Proofs.Assembler.Simulation
import MipsImage.Proofs.Log
import MipsImage.Proofs.Memory.Coherence

namespace MipsImage

open Diagnostic (ofLevel)

/-! ## Protected text -/

namespace Memory

/-- Text that is protected and holds no statement. -/
structure Unwritten (m : Memory) : Prop where
  off : m.selfModifying = false
  text : ∀ which x, (m.textRegion which).fetch x = none

theorem SameText.unwritten {m m' : Memory} (h : SameText m m') (hm : m.Unwritten)
    (hoff : m'.selfModifying = false) : m'.Unwritten := by
  refine ⟨hoff, fun which x => ?_⟩
  rw [h which]
  exact hm.text which x

theorem closed_unwritten : Closed (fun x => x.sparesText = true) Unwritten where
  store hm _ h := by
    rcases poke_text h with hsame | ⟨hon, -⟩
    · exact hsame.unwritten hm ((deposit_of_poke h).frame.selfModifying.trans hm.off)
    · rw [hm.off] at hon
      cases hon
  storeStatement _ hx _ := absurd hx Bool.false_ne_true
  setOrder {m order} hm _ := (sameText_with m order _ _ _ _).unwritten hm hm.off
  setSelfModifying {m allowed} hm hx :=
    (sameText_with m _ allowed _ _ _).unwritten hm (Bool.not_eq_true' allowed ▸ hx)
  clear _ hx := absurd hx Bool.false_ne_true
  allocateHeap {m _} hm _ heap := (sameText_with m _ _ heap _ _).unwritten hm hm.off
  told {m} hm watches journal := (sameText_with m _ _ _ watches journal).unwritten hm hm.off

theorem unwritten_reset {m : Memory} (hoff : m.selfModifying = false)
    (hm : m.Within fun x => x.sparesText = true) : m.reset.Unwritten := by
  have hcleared : (m.cleared m.layout).Unwritten := by
    refine ⟨hoff, fun which x => ?_⟩
    cases which <;> exact Region.fetch_empty _ _ _
  exact closed_unwritten.announce hcleared hm .reset

/-- A property that stores keep, with what listeners do that are told of them. -/
structure Lasts (P : Memory → Prop) : Prop where
  store {m : Memory} (hm : P m) (a : Address) (v : Word) (n : Nat) : P (m.store a v n true).2
  storeDoubleword {m : Memory} (hm : P m) (a : Address) (v : UInt64) :
    P (m.storeDoubleword a v true).2

theorem lasts_true : Lasts fun _ => True :=
  ⟨fun _ _ _ _ => trivial, fun _ _ _ => trivial⟩

theorem Lasts.of_imp {P : Memory → Prop} (hP : Lasts P) (C : Prop) : Lasts fun m => C → P m :=
  ⟨fun hm a v n hC => hP.store (hm hC) a v n, fun hm a v hC => hP.storeDoubleword (hm hC) a v⟩

/-- What acts of a kind keep lasts, if storing is of that kind and so is all that listeners do. -/
theorem Closed.lasts {A : Act → Prop} {P : Memory → Prop} (hP : Closed A P)
    (hstore : ∀ a v n, A (.store a v n)) : Lasts fun m => P m ∧ m.Within A := by
  have hrequest {m : Memory} (hm : P m ∧ m.Within A) {r : Request} (hr : r.Within A) :
      P (r.run m true).2 ∧ (r.run m true).2.Within A :=
    ⟨hP.request hm.1 hm.2 hr true,
      hm.2.command (c := .request r true) fun _ h => Command.noConfusion h⟩
  constructor
  · intro m hm a v n
    exact ⟨hP.of_store hm.1 hm.2 (hstore a v n) true, hm.2.store a v n true⟩
  · intro m hm a v
    exact hrequest hm (r := .storeDoubleword a v) fun _ => ⟨hstore _ _ _, hstore _ _ _⟩

/-- A word of such text is zero and no statement. -/
theorem Unwritten.word {m : Memory} (h : m.Unwritten) {x : Address} {which : TextArea}
    (harea : m.areaOf? x = some (.text which)) (hx : x.toNat % 4 = 0) (notify : Bool) :
    (m.fetchStatement x notify).1 = .ok none ∧ (m.fetch x 4 notify).1 = .ok 0 := by
  rw [fetchStatement_text harea, fetch_text harea, if_pos hx, if_pos hx, h.text]
  exact ⟨rfl, rfl⟩

end Memory

/-! ## Runs in lockstep -/

theorem Alike.self {P : Memory → Prop} {α : Type} {x : Except AddressError α × Memory}
    (h : P x.2) : Alike (fun m m' => m = m' ∧ P m) x x := by
  obtain ⟨outcome, memory⟩ := x
  cases outcome with
  | ok v => exact .ok v v ⟨rfl, h⟩
  | error e => exact .error e ⟨rfl, h⟩

namespace Assembler

open Memory (Lasts Unwritten)

variable {S : Simulation} {C : Simulation → Prop} {a b : Assembler}
  {f : Assembler → Bool × Assembler}

/-- Two runs whose logs agree are cut short alike. -/
theorem Guarded.lockstep (hS : C S) (hlog : ∀ {l l' : Log}, S.log l l' → l' = l)
    (hf : Guarded C f) (h : Related S a b) :
    (f b).1 = (f a).1 ∧ Related S (f a).2 (f b).2 := by
  induction hf generalizing a b with
  | proceed hf => exact ⟨rfl, hf S hS h⟩
  | checkLog => exact ⟨congrArg Log.exceeded (hlog h.log), h⟩
  | thenStage hf hg ihf ihg =>
    rename_i f g
    obtain ⟨hanswer, hrelated⟩ := ihf h
    simp only [Assembler.thenStage]
    generalize f a = x at hanswer hrelated ⊢
    generalize f b = y at hanswer hrelated ⊢
    obtain ⟨stopped, a'⟩ := x
    obtain ⟨_, b'⟩ := y
    cases hanswer
    cases stopped with
    | true => exact ⟨rfl, hrelated⟩
    | false => exact ihg hrelated
  | read hc hf ih =>
    rename_i c f
    have hsame := hc S a b h
    simp only [hsame]
    exact ih _ h

section Passes

variable (hlog : ∀ {l l' : Log}, S.log l l' → l' = l)
include hlog

theorem parseFiles_related (files : List SourceFile) (h : Related S a b) :
    Related S (a.parseFiles files) (b.parseFiles files) := by
  have hparsed : Related S (a.parsePass files) (b.parsePass files) := by
    rw [parsePass, parsePass, readFiles_eq_stages, readFiles_eq_stages, finishAll_eq_stages,
      finishAll_eq_stages]
    have hread := ((guarded_fileStages files).lockstep (C := fun _ => True) trivial hlog h).2
    exact (guarded_waitingStages.lockstep (C := fun _ => True) trivial hlog hread).2
  rw [parseFiles, parseFiles, hparsed.parsed, hlog hparsed.log]
  split_ifs
  · exact preserves_report none .noStatements hparsed
  · exact hparsed

theorem resolvePass_related (hS : S.Resolves) (h : Related S a b) :
    Related S a.resolvePass b.resolvePass := by
  rw [resolvePass_eq_stages, resolvePass_eq_stages]
  exact ((guarded_resolveStages fun _ hS => hS).lockstep hS hlog h).2

theorem placePass_related (hS : S.Places) (h : Related S a b) :
    Related S a.placePass b.placePass := by
  rw [placePass_eq_stages, placePass_eq_stages]
  exact ((guarded_placeStages fun _ hS => hS).lockstep hS hlog h).2

end Passes

theorem hasErrors_noFiles (a : Assembler) : (a.report none .noFiles).log.hasErrors = true := by
  refine decide_eq_true (Nat.pos_of_ne_zero fun h => ?_)
  exact (Log.errors_add_eq_zero_iff.mp h).2 rfl

theorem assemble_of_isEmpty {files : List SourceFile} (h : files.isEmpty = true) (a : Assembler) :
    a.assemble files = ((a.report none .noFiles).failure .parse, a.report none .noFiles) := by
  rw [assemble, if_pos h]
  simp only [gate, hasErrors_noFiles, if_true]

/-! ## What a run keeps -/

/-- A run compared with itself: `P` holds of its memory and `Q` of what later passes make. -/
def steady (settings : AssemblerSettings) {P : Memory → Prop} (hP : Lasts P)
    (Q : Std.TreeMap Address ResolvedStatement → Std.TreeMap Address EncodedStatement → Prop) :
    Simulation where
  settings s s' := s = s' ∧ s = settings
  log l l' := l = l' ∧ l.Counted
  memory m m' := m = m' ∧ P m
  results := Q
  add := by
    rintro l _ ⟨rfl, hl⟩ d
    exact ⟨rfl, hl.add d⟩
  store := by
    rintro m _ ⟨rfl, hm⟩ address value length
    exact .self (hP.store hm address value length)
  storeDoubleword := by
    rintro m _ ⟨rfl, hm⟩ address value
    exact .self (hP.storeDoubleword hm address value)

theorem steady_log {settings : AssemblerSettings} {P : Memory → Prop} {hP : Lasts P}
    {Q : Std.TreeMap Address ResolvedStatement → Std.TreeMap Address EncodedStatement → Prop}
    {l l' : Log} (h : (steady settings hP Q).log l l') : l' = l :=
  h.1.symm

/-- The gate at which a run ended, and its state there. -/
inductive Ended (P : Memory → Prop) (b : Assembler) : Option AssemblyError × Assembler → Prop
  | parse (errors : b.log.hasErrors = true) (memory : P b.memory) (resolved : b.resolved = ∅)
      (assembled : b.assembled = ∅) : Ended P b (b.failure .parse, b)
  | resolve (errors : b.log.hasErrors = true) (memory : P b.memory) (assembled : b.assembled = ∅) :
      Ended P b (b.failure .resolve, b)
  | place (errors : b.log.hasErrors = true) : Ended P b (b.failure .place, b)
  | warned (clean : b.log.hasErrors = false) (strict : b.settings.warningsAreErrors = true)
      (warnings : b.log.hasWarnings = true) : Ended P b (b.failure .place, b)
  | passed (clean : b.log.hasErrors = false)
      (content : b.settings.warningsAreErrors = false ∨ b.log.hasWarnings = false) :
      Ended P b (none, b)

theorem ended_judge {P : Memory → Prop} (h : b.log.hasErrors = false) : Ended P b b.judge := by
  rw [judge]
  split_ifs with hwarned
  · obtain ⟨hstrict, hwarnings⟩ := Bool.and_eq_true_iff.mp hwarned
    exact .warned h hstrict hwarnings
  · exact .passed h (Bool.and_eq_false_iff.mp (Bool.eq_false_iff.mpr hwarned))

theorem gated_eq (pass : Pass) (next : Assembler → Option AssemblyError × Assembler)
    (a : Assembler) :
    gated pass next a = if a.log.hasErrors then (a.failure pass, a) else next a := by
  rw [gated, gate]
  split_ifs
  · rfl
  · rfl

/-- The run ended at a gate, with settings that stayed and counters that are right. -/
def Ends (settings : AssemblerSettings) (P : Memory → Prop)
    (x : Option AssemblyError × Assembler) : Prop :=
  ∃ b : Assembler, b.settings = settings ∧ b.log.Counted ∧ Ended P b x

section Gates

variable {settings : AssemblerSettings} {P R : Memory → Prop} (hP : Lasts P) {hR : Lasts R}
  {Q : Std.TreeMap Address ResolvedStatement → Std.TreeMap Address EncodedStatement → Prop}

theorem gated_ends {pass : Pass} {next : Assembler → Option AssemblyError × Assembler}
    (h : Related (steady settings hR Q) a a)
    (hstop : a.log.hasErrors = true → Ended P a (a.failure pass, a))
    (hnext : a.log.hasErrors = false → Ends settings P (next a)) :
    Ends settings P (gated pass next a) := by
  rw [gated_eq]
  cases ha : a.log.hasErrors with
  | true => exact ⟨a, h.settings.2, h.log.2, hstop ha⟩
  | false => exact hnext ha

theorem placePass_ends (h : Related (steady settings hR Q) a a) :
    Ends settings P (gated .place judge a.placePass) := by
  have hplaced : Related (steady settings Memory.lasts_true fun _ _ => True)
      a.placePass a.placePass := by
    refine placePass_related steady_log ⟨fun h _ _ => h, ?_⟩ ?_
    · rintro m _ ⟨rfl, -⟩ address s
      exact .self trivial
    · exact ⟨h.settings, h.log, ⟨rfl, trivial⟩, trivial⟩
  exact gated_ends hplaced .place fun hclean =>
    ⟨_, hplaced.settings.2, hplaced.log.2, ended_judge hclean⟩

theorem assembleStatements_ends
    (h : Related (steady settings hP fun _ assembled => assembled = ∅) a a) :
    Ends settings P a.assembleStatements := by
  have hresolved : Related (steady settings hP fun _ assembled => assembled = ∅)
      a.resolvePass a.resolvePass :=
    resolvePass_related steady_log ⟨fun h _ _ => h⟩ h
  exact gated_ends hresolved
    (fun errors => .resolve errors hresolved.memory.2 hresolved.results)
    fun _ => placePass_ends hresolved

theorem assemble_ends (files : List SourceFile)
    (h : Related (steady settings hP fun resolved assembled => resolved = ∅ ∧ assembled = ∅) a a) :
    Ends settings P (a.assemble files) := by
  cases hempty : files.isEmpty with
  | true =>
    have hreport := preserves_report none .noFiles h
    rw [assemble_of_isEmpty hempty]
    exact ⟨_, hreport.settings.2, hreport.log.2,
      .parse (hasErrors_noFiles a) hreport.memory.2 hreport.results.1 hreport.results.2⟩
  | false =>
    have hparsed := parseFiles_related steady_log files h
    rw [assemble_eq_gated hempty]
    refine gated_ends hparsed
      (fun errors => .parse errors hparsed.memory.2 hparsed.results.1 hparsed.results.2)
      fun _ => assembleStatements_ends hP ?_
    exact ⟨hparsed.settings, hparsed.log, hparsed.memory, hparsed.results.2⟩

end Gates

theorem assembleSources_ends {P : Memory → Prop} (hP : Lasts P) (a : Assembler)
    (hreset : P a.memory.reset) (sources : List (String × String)) :
    Ends a.settings P (a.assembleSources sources) := by
  have hstart : Related (steady a.settings hP fun resolved assembled =>
      resolved = ∅ ∧ assembled = ∅) a.reset a.reset :=
    ⟨⟨rfl, rfl⟩, ⟨rfl, Log.counted_empty _⟩, ⟨rfl, hreset⟩, rfl, rfl⟩
  exact assemble_ends hP _ (readSources_related hstart sources).2

theorem Ended.eq_none_iff {P : Memory → Prop} {x : Option AssemblyError × Assembler}
    (h : Ended P b x) : x.1 = none ↔ x.2.log.hasErrors = false ∧
      (b.settings.warningsAreErrors = false ∨ x.2.log.hasWarnings = false) := by
  cases h with
  | parse errors | resolve errors | place errors => simp [failure, errors]
  | warned clean strict warnings => simp [failure, strict, warnings]
  | passed clean content => exact iff_of_true rfl ⟨clean, content⟩

theorem Ended.of_eq_some {P : Memory → Prop} {x : Option AssemblyError × Assembler}
    (h : Ended P b x) {e : AssemblyError} (he : x.1 = some e) :
    e.messages = x.2.log.messages ∧ (e.pass = .parse → x.2.resolved = ∅) ∧
      (e.pass ≠ .place → x.2.assembled = ∅ ∧ P x.2.memory) ∧
      (e.pass = .place → x.2.log.hasErrors = false → b.settings.warningsAreErrors = true) := by
  cases h with
  | parse errors memory resolved assembled =>
    cases he
    exact ⟨rfl, fun _ => resolved, fun _ => ⟨assembled, memory⟩, nofun⟩
  | resolve errors memory assembled =>
    cases he
    exact ⟨rfl, nofun, fun _ => ⟨assembled, memory⟩, nofun⟩
  | place errors =>
    cases he
    refine ⟨rfl, nofun, fun h => absurd rfl h, fun _ hclean => ?_⟩
    cases errors.symm.trans hclean
  | warned clean strict warnings =>
    cases he
    exact ⟨rfl, nofun, fun h => absurd rfl h, fun _ _ => strict⟩
  | passed clean content => cases he

theorem Ended.state {P : Memory → Prop} {x : Option AssemblyError × Assembler}
    (h : Ended P b x) : x.2 = b := by
  cases h <;> rfl

/-! ## Warnings -/

/-- A run, and the same run with warnings no errors. -/
def lenient : Simulation :=
  .ofLogs (fun s s' => s' = { s with warningsAreErrors := false }) Eq <| by
    rintro l _ rfl d
    rfl

theorem eq_of_lenient (h : Related lenient a b) :
    b = { a with settings := { a.settings with warningsAreErrors := false } } := by
  obtain ⟨hsettings, hlog, hmemory, -⟩ := h
  cases hsettings
  cases hlog
  cases hmemory
  rfl

/-- Where a run has no errors, the lenient one succeeds and has done the same. -/
def Forgives (x y : Option AssemblyError × Assembler) : Prop :=
  x.2.log.hasErrors = false → y.1 = none ∧ Related lenient x.2 y.2

theorem gated_forgives {next : Assembler → Option AssemblyError × Assembler} (pass : Pass)
    (hnext : Related lenient a b → Forgives (next a) (next b)) (h : Related lenient a b) :
    Forgives (gated pass next a) (gated pass next b) := by
  have hlog : b.log = a.log := h.log.symm
  rw [gated_eq, gated_eq, hlog]
  cases ha : a.log.hasErrors with
  | true =>
    intro hclean
    cases ha.symm.trans hclean
  | false => exact hnext h

theorem judge_forgives (h : Related lenient a b) : Forgives a.judge b.judge := by
  have hjudged : b.judge = (none, b) := by
    have hsettings : b.settings.warningsAreErrors = false :=
      congrArg AssemblerSettings.warningsAreErrors h.settings
    rw [judge, hsettings]
    rfl
  have hstate : a.judge.2 = a := by
    rw [judge]
    split_ifs
    · rfl
    · rfl
  intro _
  rw [hjudged, hstate]
  exact ⟨rfl, h⟩

theorem assemble_forgives (files : List SourceFile) (h : Related lenient a b) :
    Forgives (a.assemble files) (b.assemble files) := by
  have hlog {l l' : Log} (h : lenient.log l l') : l' = l := Eq.symm h
  have hlasting : lenient.Lasting := Simulation.lasting_of_eq rfl fun _ _ => trivial
  cases hempty : files.isEmpty with
  | true =>
    intro hclean
    rw [assemble_of_isEmpty hempty] at hclean
    cases (hasErrors_noFiles a).symm.trans hclean
  | false =>
    rw [assemble_eq_gated hempty, assemble_eq_gated hempty]
    refine gated_forgives .parse (fun h => ?_) (parseFiles_related hlog files h)
    refine gated_forgives .resolve (fun h => ?_) (resolvePass_related hlog hlasting.resolves h)
    exact gated_forgives .place judge_forgives (placePass_related hlog hlasting.places h)

theorem assembleSources_forgives (a : Assembler) (sources : List (String × String)) :
    Forgives (a.assembleSources sources)
      ({ a with settings := { a.settings with warningsAreErrors := false } }.assembleSources
        sources) := by
  have hstart : Related lenient a.reset
      { a with settings := { a.settings with warningsAreErrors := false } }.reset :=
    ⟨rfl, rfl, rfl, trivial⟩
  obtain ⟨hfiles, hread⟩ := readSources_related hstart sources
  rw [assembleSources, assembleSources]
  dsimp only
  rw [← hfiles]
  exact assemble_forgives _ hread

/-! ## The verdict -/

/-- A run succeeds if its log has nothing against it.  One that fails says so with all of its
messages; if it fails in an early pass, nothing is there of the later ones, unless a listener
has put it there; and if it fails for a warning alone, that is all that keeps it from success. -/
theorem assembleSources_gates (a : Assembler) (sources : List (String × String)) :
    let result := a.assembleSources sources
    let messages := result.2.log.messages.toList
    (result.1 = none ↔ ofLevel .error messages = [] ∧
      (a.settings.warningsAreErrors = false ∨ ofLevel .warning messages = [])) ∧
    ∀ e, result.1 = some e →
      e.messages.toList = messages ∧
      (e.pass = .parse → result.2.resolved = ∅) ∧
      (e.pass ≠ .place → result.2.assembled = ∅ ∧ (a.memory.selfModifying = false →
        (a.memory.Within fun x => x.sparesText = true) →
        ∀ x which notify, result.2.memory.areaOf? x = some (.text which) → x.toNat % 4 = 0 →
          (result.2.memory.fetchStatement x notify).1 = .ok none ∧
          (result.2.memory.fetch x 4 notify).1 = .ok 0)) ∧
      (e.pass = .place → ofLevel .error messages = [] →
        let lenient := { a.settings with warningsAreErrors := false }
        a.settings.warningsAreErrors = true ∧
        { a with settings := lenient }.assembleSources sources =
          (none, { result.2 with settings := lenient })) := by
  intro result messages
  have hforgives : Forgives result _ := assembleSources_forgives a sources
  have hlasts := (Memory.closed_unwritten.lasts fun _ _ _ => rfl).of_imp
    (a.memory.selfModifying = false ∧ a.memory.Within fun x => x.sparesText = true)
  obtain ⟨b, hsettings, hcounted, hended⟩ := assembleSources_ends hlasts a
    (fun h => ⟨Memory.unwritten_reset h.1 h.2,
      h.2.command (c := .resetWith a.memory.layout) fun _ h => Memory.Command.noConfusion h⟩)
    sources
  have hstate : result.2 = b := hended.state
  have hlog : result.2.log.Counted := hstate ▸ hcounted
  refine ⟨?_, fun e he => ?_⟩
  · rw [← hlog.hasErrors_eq_false, ← hlog.hasWarnings_eq_false, ← hsettings]
    exact hended.eq_none_iff
  · obtain ⟨hmessages, hparse, hearly, hstrict⟩ := hended.of_eq_some he
    refine ⟨congrArg Array.toList hmessages, hparse, fun hpass => ?_, fun hpass hnone => ?_⟩
    · obtain ⟨hassembled, hunwritten⟩ := hearly hpass
      exact ⟨hassembled, fun hoff hspared x which notify harea hx =>
        (hunwritten ⟨hoff, hspared⟩).1.word harea hx notify⟩
    · have hclean := hlog.hasErrors_eq_false.mpr hnone
      obtain ⟨hok, hrelated⟩ := hforgives hclean
      refine ⟨hsettings ▸ hstrict hpass hclean, Prod.ext hok ?_⟩
      rw [eq_of_lenient hrelated, hstate, hsettings]

set_option maxRecDepth 10000 in
/-- One program with a warning and no error, and one with a label that nobody defines. -/
theorem assembleSources_gates_warning :
    let a := start ⟨none, true⟩ (.ofSettings ⟨Layout.standard, .little, false⟩)
    let warned := [("warned.s", ".set on\nnop\n")]
    let unresolved := [("unresolved.s", "nop\nj x\n")]
    let strict := a.assembleSources warned
    let stopped := a.assembleSources unresolved
    strict.1.map (·.pass) = some .place ∧
      { a with settings := ⟨none, false⟩ }.assembleSources warned =
        (none, { strict.2 with settings := ⟨none, false⟩ }) ∧
      stopped.1.map (·.pass) = some .resolve ∧ stopped.2.assembled = ∅ ∧
      (stopped.2.memory.fetch 0x00400000 4 false).1 = .ok 0 := by
  intro a warned unresolved strict stopped
  obtain ⟨hplace, herrors, hresolve, harea⟩ : strict.1.map (·.pass) = some .place ∧
      ofLevel .error strict.2.log.messages.toList = [] ∧
      stopped.1.map (·.pass) = some .resolve ∧
      stopped.2.memory.areaOf? 0x00400000 = some (.text .user) := by
    decide +kernel
  obtain ⟨e, he, hpass⟩ := Option.map_eq_some_iff.mp hplace
  obtain ⟨-, -, -, hforgiven⟩ := (assembleSources_gates a warned).2 e he
  obtain ⟨e', he', hpass'⟩ := Option.map_eq_some_iff.mp hresolve
  obtain ⟨-, -, hearly, -⟩ := (assembleSources_gates a unresolved).2 e' he'
  obtain ⟨hassembled, hwords⟩ := hearly (by rw [hpass']; decide)
  exact ⟨hplace, (hforgiven hpass herrors).2, hresolve, hassembled,
    (hwords rfl (Memory.within_ofSettings _ _) 0x00400000 .user false harea rfl).2⟩

end Assembler
end MipsImage
