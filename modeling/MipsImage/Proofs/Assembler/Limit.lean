/-
The limit on errors and the verdict on a program.

A run with a limit and a run without one stay in step until the limited log has had
enough.  From there on the limited run stops, and its log gets nothing but errors, which
it drops, while the other goes on and can only add to its log.  Both have found an error
by then, so the pass that stops the one fails the other.
-/
import MipsImage.Proofs.Assembler.Simulation
import MipsImage.Proofs.Log

namespace MipsImage

open Diagnostic (ofLevel ofLevel_append)

namespace Assembler

open Simulation (Lasting lasting_of_eq)

/-- The log of a run without a limit that began with the reports `ds`. -/
def growing (ds : List Diagnostic) : Simulation :=
  .ofLogs Eq (fun l l' => l = l' ∧ ∃ more, l = (Log.empty none).addAll (ds ++ more)) <| by
    rintro l _ ⟨rfl, more, rfl⟩ d
    refine ⟨rfl, more ++ [d], ?_⟩
    rw [← List.append_assoc, Log.addAll_concat]

/-- A run without a limit on the left, and one with the limit `m` on the right, that have
had the same reports. -/
def limiting (m : Nat) (strict : Bool) : Simulation :=
  .ofLogs (fun s s' => s = ⟨none, strict⟩ ∧ s' = ⟨some m, strict⟩)
    (fun l l' => ∃ ds, l = (Log.empty none).addAll ds ∧ l' = (Log.empty (some m)).addAll ds) <| by
    rintro _ _ ⟨ds, rfl, rfl⟩ d
    exact ⟨ds ++ [d], (Log.addAll_concat _ ds d).symm, (Log.addAll_concat _ ds d).symm⟩

/-- The limited run has stopped, and the other has gone on. -/
def Behind (m : Nat) (a b : Assembler) : Prop :=
  ∃ ds more, a.log = (Log.empty none).addAll (ds ++ more) ∧
    b.log = (Log.empty (some m)).addAll ds ∧ m < (ofLevel .error ds).length

variable {m : Nat} {strict : Bool} {a b : Assembler} {f : Assembler → Bool × Assembler}

/-- Without a limit a run is never cut short, and its log only grows. -/
theorem Guarded.grows (hf : Guarded Lasting f) {ds : List Diagnostic}
    (h : a.log = (Log.empty none).addAll ds) :
    (f a).1 = false ∧ ∃ more, (f a).2.log = (Log.empty none).addAll (ds ++ more) := by
  induction hf generalizing a ds with
  | proceed hf =>
    have hself : Related (growing ds) a a := ⟨rfl, ⟨rfl, [], by rw [h, List.append_nil]⟩, rfl, trivial⟩
    obtain ⟨-, more, hmore⟩ := (hf (growing ds) (lasting_of_eq rfl fun _ _ => trivial) hself).log
    exact ⟨rfl, more, hmore⟩
  | checkLog =>
    refine ⟨?_, [], by rw [List.append_nil]; exact h⟩
    show a.log.exceeded = false
    rw [h, Log.not_exceeded_unlimited]
  | thenStage hf hg ihf ihg =>
    rename_i f g
    obtain ⟨hgoes, first, hfirst⟩ := ihf h
    obtain ⟨hwent, second, hsecond⟩ := ihg hfirst
    have hthen : Assembler.thenStage f g a = g (f a).2 := by
      rw [Assembler.thenStage]
      generalize f a = x at hgoes ⊢
      obtain ⟨stopped, a'⟩ := x
      cases hgoes
      rfl
    rw [hthen]
    exact ⟨hwent, first ++ second, by rw [hsecond, List.append_assoc]⟩
  | read hc hf ih => exact ih _ h

theorem Behind.goOn (h : Behind m a b) (hf : Guarded Lasting f) : Behind m (f a).2 b := by
  obtain ⟨ds, more, ha, hb, hlt⟩ := h
  obtain ⟨-, further, hfurther⟩ := hf.grows ha
  exact ⟨ds, more ++ further, by rw [hfurther, List.append_assoc], hb, hlt⟩

/-- Runs that are in step stay so until the limited one is cut short. -/
theorem Guarded.limited (hf : Guarded Lasting f) (h : Related (limiting m strict) a b) :
    ((f b).1 = false ∧ Related (limiting m strict) (f a).2 (f b).2) ∨
    ((f b).1 = true ∧ Behind m (f a).2 (f b).2) := by
  induction hf generalizing a b with
  | proceed hf => exact .inl ⟨rfl, hf _ (lasting_of_eq rfl fun _ _ => trivial) h⟩
  | checkLog =>
    obtain ⟨ds, ha, hb⟩ := h.log
    show (b.log.exceeded = false ∧ Related _ a b) ∨ (b.log.exceeded = true ∧ Behind m a b)
    cases hexceeded : b.log.exceeded with
    | false => exact .inl ⟨rfl, h⟩
    | true =>
      rw [hb] at hexceeded
      exact .inr ⟨rfl, ds, [], by rw [List.append_nil, ha], hb,
        Log.exceeded_limited_iff.mp hexceeded⟩
  | thenStage hf hg ihf ihg =>
    rename_i f g
    obtain ⟨ds, ha, -⟩ := h.log
    have hgoes := (hf.grows ha).1
    have hfirst := ihf h
    simp only [Assembler.thenStage]
    generalize f a = x at hgoes hfirst ⊢
    generalize f b = y at hfirst ⊢
    obtain ⟨stopped, a'⟩ := x
    obtain ⟨stopped', b'⟩ := y
    cases hgoes
    cases stopped' with
    | false =>
      rcases hfirst with ⟨-, hrelated⟩ | ⟨hstopped, -⟩
      · exact ihg hrelated
      · cases hstopped
    | true =>
      rcases hfirst with ⟨hstopped, -⟩ | ⟨-, hbehind⟩
      · cases hstopped
      · exact .inr ⟨rfl, hbehind.goOn hg⟩
  | read hc hf ih =>
    rename_i c f
    have hsame := hc _ _ _ h
    simp only [hsame]
    exact ih _ h

/-! ## The passes -/

theorem stages_keeps {P : Assembler → Prop} {fs : List (Assembler → Bool × Assembler)}
    (hfs : ∀ f ∈ fs, ∀ a, P a → P (f a).2) (h : P a) : P (stages fs a).2 := by
  induction fs generalizing a with
  | nil => exact h
  | cons f rest ih =>
    obtain ⟨hf, hrest⟩ := List.forall_mem_cons.mp hfs
    have hfirst := hf a h
    rw [stages, thenStage]
    generalize f a = x at hfirst ⊢
    obtain ⟨stopped, a'⟩ := x
    cases stopped with
    | true => exact hfirst
    | false => exact ih hrest hfirst

/-- Only errors are reported after the last file, and a log that has had enough takes none. -/
theorem log_finishAll_of_exceeded (h : b.log.exceeded = true) : b.finishAll.log = b.log := by
  rw [finishAll_eq_stages]
  refine stages_keeps (P := fun c => c.log = b.log) (fun stage hstage c hc => ?_) rfl
  obtain ⟨f, -, rfl⟩ := List.mem_map.mp hstage
  rw [← hc] at h
  rw [waitingStage]
  cases b.globals.lookup? f.token.literal with
  | none =>
    simp only [thenStage, checkLog, h]
    exact hc
  | some symbol =>
    show (fill f symbol.address c).log = b.log
    simp only [fill, withFixups, Fixup.apply]
    split
    · exact hc
    · exact (Log.error_of_exceeded h _ _).trans hc

/-- Still in step, or the limited run has stopped. -/
def InStep (m : Nat) (strict : Bool) (a b : Assembler) : Prop :=
  Related (limiting m strict) a b ∨ Behind m a b

theorem Guarded.inStep (hf : Guarded Lasting f) (h : Related (limiting m strict) a b) :
    InStep m strict (f a).2 (f b).2 :=
  (hf.limited h).imp And.right And.right

theorem Behind.finishAll (h : Behind m a b) : Behind m a.finishAll b.finishAll := by
  have hgrown := h.goOn guarded_waitingStages
  obtain ⟨ds, more, ha, hb, hlt⟩ := hgrown
  have hexceeded : b.log.exceeded = true := by
    rw [hb]
    exact Log.exceeded_limited_iff.mpr hlt
  refine ⟨ds, more, ?_, ?_, hlt⟩
  · rw [finishAll_eq_stages, ha]
  · rw [log_finishAll_of_exceeded hexceeded, hb]

theorem parsePass_inStep (files : List SourceFile) (h : Related (limiting m strict) a b) :
    InStep m strict (a.parsePass files) (b.parsePass files) := by
  rw [parsePass, parsePass, readFiles_eq_stages, readFiles_eq_stages]
  rcases (guarded_fileStages files).inStep h with hrelated | hbehind
  · rw [finishAll_eq_stages, finishAll_eq_stages]
    exact guarded_waitingStages.inStep hrelated
  · exact .inr hbehind.finishAll

theorem resolvePass_inStep (h : Related (limiting m strict) a b) :
    InStep m strict a.resolvePass b.resolvePass := by
  rw [resolvePass_eq_stages, resolvePass_eq_stages]
  exact (guarded_resolveStages fun _ hS => hS.resolves).inStep h

theorem placePass_inStep (h : Related (limiting m strict) a b) :
    InStep m strict a.placePass b.placePass := by
  rw [placePass_eq_stages, placePass_eq_stages]
  exact (guarded_placeStages fun _ hS => hS.places).inStep h

theorem hasErrors_of_related (h : Related (limiting m strict) a b) :
    b.log.hasErrors = a.log.hasErrors := by
  obtain ⟨ds, ha, hb⟩ := h.log
  rw [ha, hb, Log.hasErrors_limited]

theorem Behind.hasErrors (h : Behind m a b) :
    a.log.hasErrors = true ∧ b.log.hasErrors = true := by
  obtain ⟨ds, more, ha, hb, hlt⟩ := h
  refine ⟨?_, ?_⟩
  · rw [ha]
    refine Log.hasErrors_of_lt (m := m) ?_
    rw [ofLevel_append, List.length_append]
    omega
  · rw [hb, Log.hasErrors_limited, Log.hasErrors_of_lt hlt]

theorem parseFiles_inStep (files : List SourceFile) (h : Related (limiting m strict) a b) :
    InStep m strict (a.parseFiles files) (b.parseFiles files) := by
  rw [parseFiles, parseFiles]
  rcases parsePass_inStep files h with hrelated | hbehind
  · rw [hasErrors_of_related hrelated, hrelated.parsed]
    split_ifs
    · exact .inl (preserves_report none .noStatements hrelated)
    · exact .inl hrelated
  · obtain ⟨ha, hb⟩ := hbehind.hasErrors
    rw [ha, hb, Bool.not_true, Bool.and_false, Bool.and_false]
    exact .inr hbehind

/-! ## Verdicts -/

/-- Two runs with the same verdict, each with its own log. -/
def SameVerdict (m : Nat) (strict : Bool) (x y : Option AssemblyError × Assembler) : Prop :=
  ∃ pass : Option Pass, x.1 = pass.bind x.2.failure ∧ y.1 = pass.bind y.2.failure ∧
    InStep m strict x.2 y.2

theorem gated_sameVerdict {next : Assembler → Option AssemblyError × Assembler} (pass : Pass)
    (hnext : ∀ {a b : Assembler}, Related (limiting m strict) a b →
      SameVerdict m strict (next a) (next b)) (h : InStep m strict a b) :
    SameVerdict m strict (gated pass next a) (gated pass next b) := by
  simp only [gated, gate]
  rcases h with hrelated | hbehind
  · rw [hasErrors_of_related hrelated]
    cases a.log.hasErrors with
    | true => exact ⟨some pass, rfl, rfl, .inl hrelated⟩
    | false => exact hnext hrelated
  · obtain ⟨ha, hb⟩ := hbehind.hasErrors
    rw [ha, hb]
    exact ⟨some pass, rfl, rfl, .inr hbehind⟩

theorem judge_sameVerdict (h : Related (limiting m strict) a b) :
    SameVerdict m strict a.judge b.judge := by
  obtain ⟨ds, ha, hb⟩ := h.log
  obtain ⟨hsa, hsb⟩ := h.settings
  have hwarnings : b.log.hasWarnings = a.log.hasWarnings := by
    rw [ha, hb, Log.hasWarnings_limited]
  rw [judge, judge, hwarnings, hsa, hsb]
  split_ifs
  · exact ⟨some .place, rfl, rfl, .inl h⟩
  · exact ⟨none, rfl, rfl, .inl h⟩

theorem assemble_sameVerdict (files : List SourceFile) (h : Related (limiting m strict) a b) :
    SameVerdict m strict (a.assemble files) (b.assemble files) := by
  cases hempty : files.isEmpty with
  | true =>
    have hreport := preserves_report none .noFiles h
    rw [assemble, assemble, if_pos hempty, if_pos hempty]
    simp only [gate]
    rw [hasErrors_of_related hreport]
    split_ifs
    · exact ⟨some .parse, rfl, rfl, .inl hreport⟩
    · exact ⟨none, rfl, rfl, .inl hreport⟩
  | false =>
    rw [assemble_eq_gated hempty, assemble_eq_gated hempty]
    refine gated_sameVerdict .parse (fun h => ?_) (parseFiles_inStep files h)
    refine gated_sameVerdict .resolve (fun h => ?_) (resolvePass_inStep h)
    exact gated_sameVerdict .place judge_sameVerdict (placePass_inStep h)

theorem assembleSources_sameVerdict (m : Nat) (strict : Bool) (memory : Memory)
    (sources : List (String × String)) :
    SameVerdict m strict ((start ⟨none, strict⟩ memory).assembleSources sources)
      ((start ⟨some m, strict⟩ memory).assembleSources sources) := by
  have hstart : Related (limiting m strict) (start ⟨none, strict⟩ memory).reset
      (start ⟨some m, strict⟩ memory).reset := ⟨⟨rfl, rfl⟩, ⟨[], rfl, rfl⟩, rfl, trivial⟩
  obtain ⟨hfiles, hread⟩ := readSources_related hstart sources
  rw [assembleSources, assembleSources]
  dsimp only
  rw [← hfiles]
  exact assemble_sameVerdict _ hread

theorem InStep.messages (h : InStep m strict a b) :
    ofLevel .error b.log.messages.toList =
      (ofLevel .error a.log.messages.toList).take m ++
        (if m < (ofLevel .error a.log.messages.toList).length then [Log.limitNotice] else []) ∧
    ofLevel .warning b.log.messages.toList <+: ofLevel .warning a.log.messages.toList := by
  rcases h with hrelated | ⟨ds, more, ha, hb, hlt⟩
  · obtain ⟨ds, ha, hb⟩ := hrelated.log
    rw [ha, hb, Log.addAll_limited, Log.addAll_unlimited]
    refine ⟨Log.ofLevel_error_keep m ds, ?_⟩
    rw [Log.ofLevel_keep (by decide)]
  · rw [ha, hb, Log.addAll_limited, Log.addAll_unlimited]
    dsimp only
    rw [Log.ofLevel_error_keep, Log.ofLevel_keep (by decide), ofLevel_append, ofLevel_append,
      if_pos hlt, List.take_append_of_le_length hlt.le, List.length_append, if_pos (by omega)]
    exact ⟨rfl, List.prefix_append _ _⟩

/-- A run that stays within the limit never notices it. -/
theorem InStep.eq_of_length_le (h : InStep m strict a b)
    (hle : (ofLevel .error a.log.messages.toList).length ≤ m) :
    b = { a with settings := ⟨some m, strict⟩, log := { a.log with limit := some m } } := by
  rcases h with hrelated | ⟨ds, more, ha, -, hlt⟩
  · obtain ⟨⟨-, rfl⟩, ⟨ds, ha, rfl⟩, rfl, -⟩ := hrelated
    rw [ha, Log.addAll_unlimited] at hle
    have hcount : min (ofLevel .error ds).length (m + 1) = (ofLevel .error ds).length :=
      Nat.min_eq_left (Nat.le_succ_of_le hle)
    rw [ha, Log.addAll_limited, Log.addAll_unlimited, Log.keep_of_length_le hle, hcount]
  · rw [ha, Log.addAll_unlimited] at hle
    dsimp only at hle
    rw [ofLevel_append, List.length_append] at hle
    omega

theorem SameVerdict.inStep {x y : Option AssemblyError × Assembler} (h : SameVerdict m strict x y) :
    InStep m strict x.2 y.2 := by
  obtain ⟨-, -, -, hstep⟩ := h
  exact hstep

theorem SameVerdict.map_pass {x y : Option AssemblyError × Assembler}
    (h : SameVerdict m strict x y) : y.1.map (·.pass) = x.1.map (·.pass) := by
  obtain ⟨pass, hx, hy, -⟩ := h
  rw [hx, hy]
  cases pass with
  | none => rfl
  | some pass => rfl

theorem SameVerdict.eq_of_length_le {x y : Option AssemblyError × Assembler}
    (h : SameVerdict m strict x y) (hle : (ofLevel .error x.2.log.messages.toList).length ≤ m) :
    y.1 = x.1 ∧
      y.2 = { x.2 with settings := ⟨some m, strict⟩, log := { x.2.log with limit := some m } } := by
  obtain ⟨pass, hx, hy, hstep⟩ := h
  have hstate := hstep.eq_of_length_le hle
  refine ⟨?_, hstate⟩
  rw [hx, hy, hstate]
  rfl

/-- The limit on errors decides how much is reported and nothing else. -/
theorem assembleSources_limited (strict : Bool) (memory : Memory) (m : Nat)
    (sources : List (String × String)) :
    let full := (start ⟨none, strict⟩ memory).assembleSources sources
    let cut := (start ⟨some m, strict⟩ memory).assembleSources sources
    let errors := ofLevel .error full.2.log.messages.toList
    cut.1.map (·.pass) = full.1.map (·.pass) ∧
    ofLevel .error cut.2.log.messages.toList = errors.take m ++
      (if m < errors.length then
        [{ level := .error, location := none,
           text := "Maximum error count exceeded; halting assembly" }]
      else []) ∧
    ofLevel .warning cut.2.log.messages.toList <+:
      ofLevel .warning full.2.log.messages.toList ∧
    (errors.length ≤ m → cut.1 = full.1 ∧ cut.2 =
      { full.2 with settings := ⟨some m, strict⟩, log := { full.2.log with limit := some m } }) := by
  intro full cut errors
  have hverdict : SameVerdict m strict full cut :=
    assembleSources_sameVerdict m strict memory sources
  obtain ⟨herrors, hwarnings⟩ := hverdict.inStep.messages
  exact ⟨hverdict.map_pass, herrors, hwarnings, hverdict.eq_of_length_le⟩

set_option maxRecDepth 10000 in
/-- Two errors with a limit of one, where the last line is not reached, and of two. -/
theorem assembleSources_limited_two_errors :
    let run := fun limit => (start ⟨limit, false⟩ (.ofSettings ⟨Layout.standard, .little, false⟩)
      ).assembleSources [("two.s", ".set on\nfoo\nbar\nnop\n.set off\n")]
    let errors := ofLevel .error (run none).2.log.messages.toList
    errors.length = 2 ∧
    (run (some 1)).1.map (·.pass) = some .parse ∧
    ofLevel .error (run (some 1)).2.log.messages.toList = errors.take 1 ++ [Log.limitNotice] ∧
    (ofLevel .warning (run (some 1)).2.log.messages.toList).length = 1 ∧
    (run (some 2)).1 = (run none).1 ∧ (run (some 2)).2.log = { (run none).2.log with limit := some 2 }
    := by
  intro run errors
  obtain ⟨hlength, hpass, hwarnings⟩ : errors.length = 2 ∧ (run none).1.map (·.pass) = some .parse ∧
      (ofLevel .warning (run (some 1)).2.log.messages.toList).length = 1 := by
    decide +kernel
  obtain ⟨hpass₁, herrors, -, -⟩ := assembleSources_limited false
    (.ofSettings ⟨Layout.standard, .little, false⟩) 1
    [("two.s", ".set on\nfoo\nbar\nnop\n.set off\n")]
  obtain ⟨-, -, -, hsame⟩ := assembleSources_limited false
    (.ofSettings ⟨Layout.standard, .little, false⟩) 2
    [("two.s", ".set on\nfoo\nbar\nnop\n.set off\n")]
  have hstopped : 1 < errors.length := by omega
  obtain ⟨hverdict, hstate⟩ := hsame hlength.le
  refine ⟨hlength, hpass₁.trans hpass, herrors.trans ?_, hwarnings, hverdict, ?_⟩
  · show errors.take 1 ++ (if 1 < errors.length then _ else _) = _
    rw [if_pos hstopped]
    rfl
  · exact congrArg (·.log) hstate

end Assembler
end MipsImage
