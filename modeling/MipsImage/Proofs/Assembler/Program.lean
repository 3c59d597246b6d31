/-
Programs as lists of steps.

What a line asks for can be read off its tokens.  A run that reports no error opens
each file, carries out the actions of its lines one after the other, and closes it.
So what every step keeps, the first pass keeps, and nothing else about directives
has to be known for that.
-/
import MipsImage.Proofs.Assembler.Action

namespace MipsImage

open Memory (Width)

/-! ## Entries -/

theorem Repetition.performs_report (r : Repetition) : Assembler.Performs r.report [] := by
  cases r with
  | times count =>
    intro a _
    rfl
  | invalid token =>
    exact Assembler.performs_of_not_clean [] fun a => Assembler.not_clean_reportAt rfl
  | missing colon =>
    exact Assembler.performs_of_not_clean [] fun a => Assembler.not_clean_reportAt rfl

namespace DataEntry

open Assembler

/-- The warning that a value does not fit, if it does not. -/
def truncationActions (directive token : Token) (value : Word) (width : Width) : List Action :=
  if fits value width.bytes then []
  else
    [.reportAt token (.integerTruncated token.literal directive.literal
      (value.toNat % (1 <<< (8 * width.bytes))))]

def integerActions (directive : Token) (width : Width) : DataEntry → List Action
  | .invalid _ => []
  | .value t repetition =>
    match t.kind with
    | .integer n =>
      truncationActions directive t n width ++
        List.replicate repetition.count (.integer t.location n width)
    | _ => List.replicate repetition.count (.reference t width)

/-- The warning that a value is too large for a single, if it is. -/
def overflowActions (token : Token) (bits : UInt64) : List Action :=
  if Ieee.isInfiniteSingle (Ieee.toSingle bits) && Ieee.isFinite bits then
    [.reportAt token (.floatOutOfRange token.literal)]
  else []

def realActions (double : Bool) : DataEntry → List Action
  | .invalid _ => []
  | .value t repetition =>
    let bits := (realBits? t.kind).getD 0
    if double then List.replicate repetition.count (.double t.location bits)
    else
      overflowActions t bits ++
        List.replicate repetition.count (.integer t.location (Ieee.toSingle bits) .word)

theorem performs_truncation (directive token : Token) (value : Word) (width : Width) :
    Performs (reportTruncation directive token value width.bytes)
      (truncationActions directive token value width) := by
  intro a _
  rw [reportTruncation, truncationActions]
  split
  · rfl
  · rfl

theorem performs_overflow (token : Token) (bits : UInt64) :
    Performs (reportOverflow token bits) (overflowActions token bits) := by
  intro a _
  rw [reportOverflow, overflowActions]
  split
  · rfl
  · rfl

theorem writes_references (token : Token) (width : Width) (count : Nat) :
    Writes (fun a => writeRepeatedly (writeReference token width (a.known? token.literal)) count a)
      (List.replicate count (.reference token width)) := by
  intro a h
  exact writeRepeatedly_reference count h

theorem writes_integer (directive : Token) (width : Width) (e : DataEntry) :
    Writes (storeInteger directive width.bytes e) (e.integerActions directive width) := by
  cases e with
  | invalid t => exact writes_of_not_clean _ fun a => not_clean_reportAt rfl
  | value t repetition =>
    have hreference := (writes_references t width repetition.count).comp repetition.performs_report
    cases hkind : t.kind with
    | integer n =>
      have hinteger := ((writes_repeatedly (writes_data t.location n width)
        repetition.count).comp (performs_truncation directive t n width)).comp
          repetition.performs_report
      simp only [integerActions, hkind]
      refine hinteger.congr fun a => ?_
      simp only [storeInteger, hkind]
    | _ =>
      simp only [integerActions, hkind]
      refine hreference.congr fun a => ?_
      simp only [storeInteger, hkind, known?]
      cases (currentTable? (repetition.report a)).bind (·.lookup? t.literal) with
      | none => rfl
      | some symbol => rfl

theorem writes_real (directive : Token) (double : Bool) (e : DataEntry) :
    Writes (storeReal directive double e) (e.realActions double) := by
  cases e with
  | invalid t => exact writes_of_not_clean _ fun a => not_clean_reportAt rfl
  | value t repetition =>
    cases double with
    | true =>
      exact (writes_repeatedly (writes_doubleword t.location ((realBits? t.kind).getD 0))
        repetition.count).comp repetition.performs_report
    | false =>
      exact ((writes_repeatedly (writes_data t.location
        (Ieee.toSingle ((realBits? t.kind).getD 0)) .word) repetition.count).comp
          (performs_overflow t ((realBits? t.kind).getD 0))).comp repetition.performs_report

end DataEntry

/-! ## Directives -/

namespace Directive

open Assembler

def switchActions (kind : SegmentKind) : List Token → List Action
  | [t] =>
    match t.kind with
    | .integer address => [.activate kind, .moveTo address]
    | _ => []
  | _ => [.activate kind]

def power : Width → Fin 4
  | .byte => 0
  | .halfword => 1
  | .word => 2

def integersActions (width : Width) (directive : Token) (content : List Token) : List Action :=
  .autoAlign (power width) ::
    (DataEntry.parse isIntegerValue (DataEntry.withoutCommas content)).flatMap
      (DataEntry.integerActions directive width)

def realsActions (double : Bool) (content : List Token) : List Action :=
  .autoAlign (if double then 3 else 2) ::
    (DataEntry.parse (fun kind => (realBits? kind).isSome)
      (DataEntry.withoutCommas content)).flatMap (DataEntry.realActions double)

/-- A string is stored byte by byte. -/
def stringActions (terminated : Bool) (t : Token) : List Action :=
  match t.kind with
  | .string value =>
    (Text.Utf8.encode value ++ if terminated then [0] else []).map fun (b : UInt8) =>
      .integer t.location (UInt32.ofNat b.toNat) .byte
  | _ => []

def alignActions (content : List Token) : List Action :=
  match soleInteger? content with
  | some 0 => [.stopAligning]
  | some 1 => [.align 1]
  | some 2 => [.align 2]
  | some 3 => [.align 3]
  | _ => []

def externalActions : List Token → List Action
  | label :: rest =>
    match soleSize? (DataEntry.withoutCommas rest) with
    | some size => [.external label size]
    | none => []
  | [] => []

/-- What a directive asks for.  One that makes no sense asks for nothing. -/
def actions (token : Token) (content : List Token) : Directive → List Action
  | .text => switchActions .text content
  | .data => switchActions .data content
  | .kernelText => switchActions .kernelText content
  | .kernelData => switchActions .kernelData content
  | .byte => integersActions .byte token content
  | .half => integersActions .halfword token content
  | .word => integersActions .word token content
  | .float => realsActions false content
  | .double => realsActions true content
  | .ascii => (DataEntry.withoutCommas content).flatMap (stringActions false)
  | .asciiz => (DataEntry.withoutCommas content).flatMap (stringActions true)
  | .space => ((soleSize? content).map Action.reserve).toList
  | .align => alignActions content
  | .external => externalActions content
  | .global => (DataEntry.withoutCommas content).map Action.global
  | .set => [.reportAt token (.unsupported token.literal)]
  | .constant | .macroStart | .macroEnd | .inclusion =>
    [.reportAt token (.preprocessed token.literal)]

theorem performs_switchSegment (kind : SegmentKind) (directive : Token) (content : List Token) :
    Performs (switchSegment kind directive content) (switchActions kind content) := by
  match content with
  | [] =>
    intro a _
    rfl
  | [t] =>
    cases hkind : t.kind with
    | integer address =>
      intro a _
      simp only [switchSegment, switchActions, hkind]
      rfl
    | _ =>
      refine performs_of_not_clean _ fun a => ?_
      simp only [switchSegment, hkind]
      exact not_clean_reportAt rfl
  | _ :: extra :: _ => exact performs_of_not_clean _ fun a => not_clean_reportAt rfl

theorem performs_inDataSegment (directive : Token) {run : Assembler → Assembler} {xs : List Action}
    (hrun : Performs run xs) : Performs (inDataSegment directive run) xs := by
  intro a h
  rw [inDataSegment] at h ⊢
  split_ifs at h ⊢ with hactive
  · exact hrun a h
  · exact absurd h (not_clean_reportAt rfl)

theorem performs_withValues (directive : Token) (content : List Token) (what : String)
    {run : Assembler → Assembler} {xs : List Action} (hrun : Performs run xs) :
    Performs (withValues directive content what run) xs := by
  intro a h
  rw [withValues] at h ⊢
  split_ifs at h ⊢ with hempty
  · exact absurd h (not_clean_reportAt rfl)
  · exact hrun a h

theorem performs_storeEntries {storeOne : DataEntry → Assembler → Bool × Assembler}
    {actions : DataEntry → List Action} (hone : ∀ e, Writes (storeOne e) (actions e))
    (entries : List DataEntry) :
    Performs (storeEntries storeOne entries) (entries.flatMap actions) := by
  induction entries with
  | nil =>
    intro a _
    rfl
  | cons e rest ih =>
    rw [List.flatMap_cons]
    exact (hone e).andThen ih

theorem performs_autoAlign {bytes : Word} {power : Fin 4} (h : bytes = Action.alignment power) :
    Performs (autoAlign bytes) [.autoAlign power] := by
  intro a _
  rw [h]
  rfl

theorem performs_integers (width : Width) (directive : Token) (content : List Token) :
    Performs (integers width.bytes directive content)
      (integersActions width directive content) := by
  have halign : UInt32.ofNat width.bytes = Action.alignment (power width) := by
    cases width <;> rfl
  exact performs_withValues directive content "values"
    ((performs_storeEntries (DataEntry.writes_integer directive width) _).comp
      (performs_autoAlign halign))

theorem performs_reals (double : Bool) (directive : Token) (content : List Token) :
    Performs (reals double directive content) (realsActions double content) := by
  have halign : (if double then 8 else 4) = Action.alignment (if double then 3 else 2) := by
    cases double <;> rfl
  exact performs_withValues directive content "values"
    ((performs_storeEntries (DataEntry.writes_real directive double) _).comp
      (performs_autoAlign halign))

theorem performs_storeStrings (directive : Token) (terminated : Bool) (tokens : List Token) :
    Performs (storeStrings directive terminated tokens)
      (tokens.flatMap (stringActions terminated)) := by
  induction tokens with
  | nil =>
    intro a _
    rfl
  | cons t rest ih =>
    rw [List.flatMap_cons]
    cases hkind : t.kind with
    | string value =>
      have hthen := (writes_bytes t.location
        (Text.Utf8.encode value ++ if terminated then [0] else [])).andThen ih
      intro a h
      simp only [storeStrings, stringActions, hkind] at h ⊢
      exact hthen a h
    | _ =>
      have hbad : Performs (·.reportAt t (.invalidValue t.literal directive.literal)) [] :=
        performs_of_not_clean [] fun a => not_clean_reportAt rfl
      intro a h
      simp only [storeStrings, stringActions, hkind] at h ⊢
      exact (ih.comp hbad) a h

theorem performs_reserveSpace (directive : Token) (content : List Token) :
    Performs (reserveSpace directive content) ((soleSize? content).map Action.reserve).toList := by
  intro a h
  rw [reserveSpace] at h ⊢
  cases hsize : soleSize? content with
  | none =>
    simp only [hsize] at h
    exact absurd h (not_clean_reportAt rfl)
  | some size => rfl

theorem performs_align (directive : Token) (content : List Token) :
    Performs (Assembler.align directive content) (alignActions content) := by
  intro a h
  rw [Assembler.align] at h ⊢
  rw [alignActions]
  generalize soleInteger? content = sole at h ⊢
  split at h
  · rfl
  · rfl
  · rfl
  · rfl
  · exact absurd h (not_clean_reportAt rfl)

theorem performs_external (directive : Token) (content : List Token) :
    Performs (Assembler.external directive content) (externalActions content) := by
  cases content with
  | nil => exact performs_of_not_clean _ fun a => not_clean_reportAt rfl
  | cons label rest =>
    intro a h
    rw [Assembler.external] at h ⊢
    rw [externalActions]
    cases hsize : soleSize? (DataEntry.withoutCommas rest) with
    | none =>
      simp only [hsize] at h
      exact absurd h (not_clean_reportAt rfl)
    | some size =>
      simp only [hsize] at h ⊢
      split_ifs at h ⊢ with hname
      · rfl
      · exact absurd h (not_clean_reportAt rfl)

theorem performs_globalLabel (t : Token) : Performs (globalLabel · t) [.global t] := by
  intro a h
  dsimp only [globalLabel] at h ⊢
  split_ifs at h ⊢ with hname
  · rfl
  · exact absurd h (not_clean_reportAt rfl)

theorem performs_global (directive : Token) (content : List Token) :
    Performs (Assembler.global directive content)
      ((DataEntry.withoutCommas content).map Action.global) := by
  have hall : ∀ ts : List Token, Performs (ts.foldl globalLabel ·) (ts.map Action.global) := by
    intro ts
    induction ts with
    | nil =>
      intro a _
      rfl
    | cons t rest ih => exact ih.comp (performs_globalLabel t)
  intro a h
  rw [Assembler.global] at h ⊢
  split_ifs at h ⊢ with hempty
  · exact absurd h (not_clean_reportAt rfl)
  · exact hall _ a h

theorem performs_runDirective (d : Directive) (token : Token) (content : List Token) :
    Performs (runDirective d token content) (d.actions token content) := by
  cases d with
  | text => exact performs_switchSegment .text token content
  | data => exact performs_switchSegment .data token content
  | kernelText => exact performs_switchSegment .kernelText token content
  | kernelData => exact performs_switchSegment .kernelData token content
  | byte => exact performs_inDataSegment token (performs_integers .byte token content)
  | half => exact performs_inDataSegment token (performs_integers .halfword token content)
  | word => exact performs_inDataSegment token (performs_integers .word token content)
  | float => exact performs_inDataSegment token (performs_reals false token content)
  | double => exact performs_inDataSegment token (performs_reals true token content)
  | ascii =>
    exact performs_inDataSegment token
      (performs_withValues token content "strings" (performs_storeStrings token false _))
  | asciiz =>
    exact performs_inDataSegment token
      (performs_withValues token content "strings" (performs_storeStrings token true _))
  | space => exact performs_inDataSegment token (performs_reserveSpace token content)
  | align => exact performs_inDataSegment token (performs_align token content)
  | external => exact performs_external token content
  | global => exact performs_global token content
  | set => exact performs_reportAt token _
  | constant => exact performs_reportAt token _
  | macroStart => exact performs_reportAt token _
  | macroEnd => exact performs_reportAt token _
  | inclusion => exact performs_reportAt token _

end Directive

/-! ## Files -/

def Item.actions : Item → List Action
  | .label token => [.label token]
  | .directive d token content => d.actions token content
  | .statement s => [.statement s]

def Item.Outcome.actions : Item.Outcome → List Action
  | .problem d => [.report d]
  | .item i => i.actions

def SourceFile.actions (f : SourceFile) : List Action :=
  (Item.ofFile f).flatMap Item.Outcome.actions

inductive Step where
  | openFile (name : String)
  | act (x : Action)
  | closeFile
  deriving DecidableEq, Repr

def SourceFile.steps (f : SourceFile) : List Step :=
  .openFile f.name :: (f.actions.map Step.act ++ [.closeFile])

namespace Assembler

def step (a : Assembler) : Step → Assembler
  | .openFile name => a.openFile name
  | .act x => a.act x
  | .closeFile => a.promoteGlobals.finishFile

def stepAll (a : Assembler) (steps : List Step) : Assembler :=
  steps.foldl step a

@[simp] theorem stepAll_cons (a : Assembler) (x : Step) (xs : List Step) :
    a.stepAll (x :: xs) = (a.step x).stepAll xs := rfl

@[simp] theorem stepAll_append (a : Assembler) (xs ys : List Step) :
    a.stepAll (xs ++ ys) = (a.stepAll xs).stepAll ys :=
  List.foldl_append

@[simp] theorem stepAll_map_act (a : Assembler) (xs : List Action) :
    a.stepAll (xs.map Step.act) = a.actAll xs :=
  List.foldl_map

theorem clean_of_step {a : Assembler} {x : Step} (h : (a.step x).Clean) : a.Clean := by
  cases x with
  | openFile name => exact h
  | act x => exact clean_of_act h
  | closeFile => exact clean_of_promoteGlobals (clean_of_finishFile h)

theorem clean_of_stepAll {a : Assembler} {xs : List Step} (h : (a.stepAll xs).Clean) :
    a.Clean := by
  induction xs generalizing a with
  | nil => exact h
  | cons x rest ih => exact clean_of_step (ih h)

theorem performs_process (i : Item) : Performs (·.process i) i.actions := by
  cases i with
  | label token => exact performs_act (.label token)
  | directive d token content => exact d.performs_runDirective token content
  | statement s => exact performs_act (.statement s)

/-- A clean run never stops early. -/
theorem processAll_eq {outcomes : List Item.Outcome} {a : Assembler}
    (h : (processAll outcomes a).2.Clean) :
    processAll outcomes a = (false, a.actAll (outcomes.flatMap Item.Outcome.actions)) := by
  induction outcomes generalizing a with
  | nil => rfl
  | cons outcome rest ih =>
    rw [List.flatMap_cons, actAll_append]
    cases outcome with
    | problem d => exact ih h
    | item i =>
      rw [processAll] at h ⊢
      split_ifs at h ⊢ with hexceeded
      · rw [Log.not_exceeded h] at hexceeded
        cases hexceeded
      · have hrest := ih h
        rw [hrest] at h
        have hone : a.process i = a.actAll i.actions := performs_process i a (clean_of_actAll h)
        rw [hrest, hone]
        rfl

theorem readFile_eq {f : SourceFile} {a : Assembler} (h : (a.readFile f).2.Clean) :
    a.readFile f = (false, a.stepAll f.steps) := by
  rw [readFile] at h ⊢
  match hread : processAll (Item.ofFile f) (a.openFile f.name) with
  | (stopped, a') =>
    have hclean : a'.Clean := by
      cases stopped with
      | true =>
        simp only [hread] at h
        exact h
      | false =>
        simp only [hread] at h
        exact clean_of_promoteGlobals (clean_of_finishFile h)
    have hall := processAll_eq (by rw [hread]; exact hclean)
    rw [hread] at hall
    cases hall
    rw [SourceFile.steps, stepAll_cons, stepAll_append, stepAll_map_act]
    rfl

theorem readFiles_eq {files : List SourceFile} {a : Assembler} (h : (readFiles files a).Clean) :
    readFiles files a = a.stepAll (files.flatMap SourceFile.steps) := by
  induction files generalizing a with
  | nil => rfl
  | cons f rest ih =>
    rw [List.flatMap_cons, stepAll_append]
    rw [readFiles] at h ⊢
    match hread : a.readFile f with
    | (true, a') =>
      simp only [hread] at h
      have hall := readFile_eq (by rw [hread]; exact h)
      rw [hread] at hall
      cases hall
    | (false, a') =>
      simp only [hread] at h ⊢
      have hrest := ih h
      rw [hrest] at h ⊢
      have hall := readFile_eq (by rw [hread]; exact clean_of_stepAll h)
      rw [hread] at hall
      cases hall
      rfl

end Assembler

/-! ## Programs -/

theorem SourceFile.level_of_ofText {name text : String} {d : Diagnostic}
    (h : d ∈ (ofText name text).2) : d.level = .error := by
  simp only [ofText, List.mem_flatMap, List.mem_map] at h
  obtain ⟨read, ⟨line, -, rfl⟩, hd⟩ := h
  rw [readLine] at hd
  split at hd
  · cases hd
  · rw [List.mem_singleton.mp hd]

def sourceFiles (sources : List (String × String)) : List SourceFile :=
  sources.map fun source => (SourceFile.ofText source.1 source.2).1

def programSteps (sources : List (String × String)) : List Step :=
  (sourceFiles sources).flatMap SourceFile.steps

theorem Memory.reset_ofSettings (s : MemorySettings) : (ofSettings s).reset = ofSettings s := rfl

namespace Assembler

/-- The state once the malformed lines of a text are logged. -/
def noted (a : Assembler) (source : String × String) : Assembler :=
  { a with log := a.log.addAll (SourceFile.ofText source.1 source.2).2 }

theorem readSources_cons (a : Assembler) (source : String × String)
    (rest : List (String × String)) :
    a.readSources (source :: rest) =
      ((SourceFile.ofText source.1 source.2).1 :: ((a.noted source).readSources rest).1,
        ((a.noted source).readSources rest).2) := rfl

theorem noted_eq {a : Assembler} {source : String × String} (h : (a.noted source).Clean) :
    a.noted source = a := by
  have hnone : (SourceFile.ofText source.1 source.2).2 = [] := by
    refine List.eq_nil_iff_forall_not_mem.mpr fun d hd => ?_
    exact (Log.errors_addAll_eq_zero h).2 d hd (SourceFile.level_of_ofText hd)
  rw [noted, hnone]
  rfl

theorem readSources_eq {sources : List (String × String)} {a : Assembler}
    (h : (a.readSources sources).2.Clean) : a.readSources sources = (sourceFiles sources, a) := by
  induction sources generalizing a with
  | nil => rfl
  | cons source rest ih =>
    rw [readSources_cons] at h ⊢
    have hrest := ih h
    rw [hrest] at h ⊢
    rw [noted_eq h]
    rfl

/-- What the first pass of a program leaves, if it finds nothing wrong. -/
def firstPass (settings : AssemblerSettings) (ms : MemorySettings)
    (sources : List (String × String)) : Assembler :=
  ((start settings (.ofSettings ms)).stepAll (programSteps sources)).finishAll

theorem gate_eq_none_iff {a : Assembler} {pass : Pass} : a.gate pass = none ↔ a.Clean := by
  rw [gate, Clean, ← Log.hasErrors_eq_false_iff]
  cases a.log.hasErrors with
  | true => simp [failure]
  | false => simp

theorem parseFiles_eq {a : Assembler} {files : List SourceFile} (h : (a.parseFiles files).Clean) :
    a.Clean ∧ a.parseFiles files = (a.stepAll (files.flatMap SourceFile.steps)).finishAll := by
  have hpass : a.parseFiles files = a.parsePass files := by
    rw [parseFiles] at h ⊢
    split_ifs at h ⊢ with hnone
    · exact absurd h (not_clean_report rfl)
    · rfl
  rw [hpass, parsePass] at h
  have hfiles := readFiles_eq (clean_of_finishAll h)
  rw [hfiles] at h
  refine ⟨clean_of_stepAll (clean_of_finishAll h), ?_⟩
  rw [hpass, parsePass, hfiles]

/-- A run succeeds exactly by going through its three passes without an error. -/
theorem assembleSources_eq_none {settings : AssemblerSettings} {ms : MemorySettings}
    {sources : List (String × String)} {a : Assembler}
    (h : (start settings (.ofSettings ms)).assembleSources sources = (none, a)) :
    a = (firstPass settings ms sources).resolvePass.placePass ∧
    (firstPass settings ms sources).Clean ∧ (firstPass settings ms sources).resolvePass.Clean ∧
    a.Clean := by
  rw [assembleSources, reset] at h
  match hread : (start settings (.ofSettings ms)).readSources sources with
  | (files, a₀) =>
    have hmemory : (start settings (.ofSettings ms)).memory.reset = .ofSettings ms :=
      Memory.reset_ofSettings ms
    rw [hmemory] at h
    have hsettings : (start settings (.ofSettings ms)).settings = settings := rfl
    rw [hsettings, hread] at h
    dsimp only at h
    rw [assemble] at h
    split_ifs at h with hempty
    · have hgate := congrArg Prod.fst h
      exact absurd (gate_eq_none_iff.mp hgate) (not_clean_report rfl)
    · dsimp only at h
      split at h
      · cases h
      · rename_i hparse
        split at h
        · cases h
        · rename_i hresolve
          split at h
          · cases h
          · rename_i hplace
            split_ifs at h with hwarned
            · cases h
            · obtain ⟨-, rfl⟩ := Prod.mk.inj h
              rw [gate_eq_none_iff] at hparse hresolve hplace
              obtain ⟨hclean, heq⟩ := parseFiles_eq hparse
              have hsources := readSources_eq (by rw [hread]; exact hclean)
              rw [hread] at hsources
              obtain ⟨rfl, rfl⟩ := Prod.mk.inj hsources
              have hfirst : parseFiles (start settings (.ofSettings ms)) (sourceFiles sources) =
                  firstPass settings ms sources := heq
              rw [hfirst] at hparse hresolve hplace ⊢
              exact ⟨rfl, hparse, hresolve, hplace⟩

end Assembler
end MipsImage
