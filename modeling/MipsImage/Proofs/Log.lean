/-
What a log holds of the reports made to it.

A log without a limit holds all of them.  With a limit it lets that many errors through,
puts the notice where the next one stood, and drops the errors after it.  `keep` is that
rule on lists, and the counters of the log are read off the list as well, so nothing
about a log has to be followed report by report.  `CutOff` says what the rule comes to, with the
place of the notice and the answers of the log about itself.
-/
import Mathlib
import MipsImage.Diagnostic.Log

namespace MipsImage

def Diagnostic.ofLevel (level : Level) (ds : List Diagnostic) : List Diagnostic :=
  ds.filter fun d => d.level = level

theorem Diagnostic.ofLevel_cons (level : Level) (d : Diagnostic) (ds : List Diagnostic) :
    ofLevel level (d :: ds) =
      if d.level = level then d :: ofLevel level ds else ofLevel level ds := by
  simp only [ofLevel, List.filter_cons, decide_eq_true_eq]

theorem Diagnostic.ofLevel_append (level : Level) (ds es : List Diagnostic) :
    ofLevel level (ds ++ es) = ofLevel level ds ++ ofLevel level es :=
  List.filter_append ..

namespace Log

open Diagnostic (ofLevel ofLevel_cons ofLevel_append)

/-- What is kept of a list of reports when `m` errors are let through. -/
def keep : Nat → List Diagnostic → List Diagnostic
  | _, [] => []
  | m, d :: ds =>
    if d.level = .error then
      match m with
      | 0 => limitNotice :: ds.filter fun d => d.level ≠ .error
      | m + 1 => d :: keep m ds
    else d :: keep m ds

theorem keep_concat (m : Nat) (ds : List Diagnostic) (d : Diagnostic) :
    keep m (ds ++ [d]) =
      if d.level ≠ .error ∨ (ofLevel .error ds).length < m then keep m ds ++ [d]
      else if (ofLevel .error ds).length = m then keep m ds ++ [limitNotice]
      else keep m ds := by
  induction ds generalizing m with
  | nil =>
    by_cases hd : d.level = .error
    · cases m <;> simp [keep, ofLevel, hd]
    · simp [keep, hd]
  | cons e rest ih =>
    by_cases he : e.level = .error
    · cases m with
      | zero => by_cases hd : d.level = .error <;> simp [keep, ofLevel, he, hd]
      | succ m =>
        simp only [List.cons_append, keep, he, if_true, ih, ofLevel_cons, List.length_cons,
          Nat.add_lt_add_iff_right, Nat.add_right_cancel_iff, apply_ite (List.cons e)]
    · simp only [List.cons_append, keep, he, if_false, ih, ofLevel_cons, apply_ite (List.cons e)]

theorem keep_of_length_le {m : Nat} {ds : List Diagnostic}
    (h : (ofLevel .error ds).length ≤ m) : keep m ds = ds := by
  induction ds generalizing m with
  | nil => rfl
  | cons d rest ih =>
    by_cases hd : d.level = .error
    · rw [ofLevel_cons, if_pos hd, List.length_cons] at h
      obtain ⟨m, rfl⟩ : ∃ n, m = n + 1 := ⟨m - 1, by omega⟩
      have hrest := ih (Nat.le_of_succ_le_succ h)
      simp only [keep, hd, if_true, hrest]
    · rw [ofLevel_cons, if_neg hd] at h
      simp only [keep, hd, if_false, ih h]

/-- The errors that are kept are the first `m`, and the notice if there were more. -/
theorem ofLevel_error_keep (m : Nat) (ds : List Diagnostic) :
    ofLevel .error (keep m ds) = (ofLevel .error ds).take m ++
      if m < (ofLevel .error ds).length then [limitNotice] else [] := by
  induction ds generalizing m with
  | nil => simp [keep, ofLevel]
  | cons d rest ih =>
    by_cases hd : d.level = .error
    · cases m with
      | zero => simp [keep, ofLevel, hd, limitNotice]
      | succ m => simp [keep, ofLevel_cons, hd, ih m]
    · simp [keep, ofLevel_cons, hd, ih m]

/-- Nothing but errors is dropped. -/
theorem ofLevel_keep {level : Level} (hlevel : level ≠ .error) (m : Nat) (ds : List Diagnostic) :
    ofLevel level (keep m ds) = ofLevel level ds := by
  have hnotice : ¬ Level.error = level := fun h => hlevel h.symm
  induction ds generalizing m with
  | nil => rfl
  | cons d rest ih =>
    by_cases hd : d.level = .error
    · cases m with
      | zero =>
        have hfilter : ofLevel level (rest.filter fun d => d.level ≠ .error) =
            ofLevel level rest := by
          rw [ofLevel, ofLevel, List.filter_filter]
          refine List.filter_congr fun e _ => ?_
          by_cases he : e.level = level
          · simp [he, hlevel]
          · simp [he]
        simp only [keep, hd, if_true, ofLevel_cons, limitNotice, hnotice, if_false, hfilter]
      | succ m => simp [keep, ofLevel_cons, hd, hnotice, ih m]
    · simp only [keep, hd, if_false, ofLevel_cons, ih m]

/-! ## Logs of lists -/

theorem addAll_concat (log : Log) (ds : List Diagnostic) (d : Diagnostic) :
    log.addAll (ds ++ [d]) = (log.addAll ds).add d :=
  List.foldl_concat _ _ _ _

theorem addAll_unlimited (ds : List Diagnostic) :
    (empty none).addAll ds =
      { limit := none, messages := ds.toArray, errors := (ofLevel .error ds).length,
        warnings := (ofLevel .warning ds).length } := by
  induction ds using List.reverseRecOn with
  | nil => rfl
  | append_singleton ds d ih =>
    rw [addAll_concat, ih, add]
    cases hd : d.level <;> simp [ofLevel, hd, recordError]

theorem addAll_limited (m : Nat) (ds : List Diagnostic) :
    (empty (some m)).addAll ds =
      { limit := some m, messages := (keep m ds).toArray,
        errors := min (ofLevel .error ds).length (m + 1),
        warnings := (ofLevel .warning ds).length } := by
  induction ds using List.reverseRecOn with
  | nil => simp [addAll, empty, keep, ofLevel]
  | append_singleton ds d ih =>
    rw [addAll_concat, ih, add, keep_concat]
    cases hd : d.level with
    | info => simp [ofLevel, hd]
    | warning => simp [ofLevel, hd]
    | error =>
      -- The counter stands at the number of errors until it is one above the limit.
      have hlt : min (ofLevel .error ds).length (m + 1) < m ↔ (ofLevel .error ds).length < m := by
        omega
      have heq : min (ofLevel .error ds).length (m + 1) = m ↔ (ofLevel .error ds).length = m := by
        omega
      have hcount : (ofLevel .error (ds ++ [d])).length = (ofLevel .error ds).length + 1 := by
        simp [ofLevel, hd]
      have hwarnings : ofLevel .warning (ds ++ [d]) = ofLevel .warning ds := by
        simp [ofLevel, hd]
      simp only [hlt, heq, hcount, hwarnings, ne_eq, not_true_eq_false, false_or]
      split_ifs with h₁ h₂
      · simp [recordError]
        omega
      · simp [recordError]
        omega
      · have hpast : min (ofLevel .error ds).length (m + 1) =
            min ((ofLevel .error ds).length + 1) (m + 1) := by omega
        rw [hpast]

theorem not_exceeded_unlimited (ds : List Diagnostic) :
    ((empty none).addAll ds).exceeded = false := by
  rw [addAll_unlimited]
  rfl

theorem exceeded_limited_iff {m : Nat} {ds : List Diagnostic} :
    ((empty (some m)).addAll ds).exceeded = true ↔ m < (ofLevel .error ds).length := by
  rw [addAll_limited]
  simp [exceeded]

/-- The limit has no say in whether there are errors. -/
theorem hasErrors_limited (m : Nat) (ds : List Diagnostic) :
    ((empty (some m)).addAll ds).hasErrors = ((empty none).addAll ds).hasErrors := by
  rw [addAll_limited, addAll_unlimited]
  simp [hasErrors]

theorem hasErrors_of_lt {m : Nat} {ds : List Diagnostic} (h : m < (ofLevel .error ds).length) :
    ((empty none).addAll ds).hasErrors = true := by
  rw [addAll_unlimited]
  simp only [hasErrors, decide_eq_true_eq]
  omega

theorem hasWarnings_limited (m : Nat) (ds : List Diagnostic) :
    ((empty (some m)).addAll ds).hasWarnings = ((empty none).addAll ds).hasWarnings := by
  rw [addAll_limited, addAll_unlimited]
  rfl

/-- An error has no effect on a log that has had enough. -/
theorem error_of_exceeded {log : Log} (h : log.exceeded = true) (location : Option Location)
    (text : String) : log.error location text = log := by
  rw [exceeded] at h
  rw [error, add]
  cases hlimit : log.limit with
  | none =>
    rw [hlimit] at h
    cases h
  | some m =>
    rw [hlimit] at h
    have hpast : m < log.errors := by simpa using h
    dsimp only
    rw [if_neg (by omega), if_neg (by omega)]

/-! ## Logs without a limit -/

/-- A log without a limit keeps everything. -/
theorem add_of_unlimited {log : Log} (h : log.limit = none) (d : Diagnostic) :
    (log.add d).limit = none ∧ (log.add d).messages = log.messages.push d := by
  rw [add]
  cases d.level with
  | info => exact ⟨h, rfl⟩
  | warning => exact ⟨h, rfl⟩
  | error =>
    rw [h]
    exact ⟨h, rfl⟩

theorem addAll_of_unlimited {log : Log} (h : log.limit = none) (ds : List Diagnostic) :
    (log.addAll ds).limit = none ∧
      (log.addAll ds).messages.toList = log.messages.toList ++ ds := by
  induction ds generalizing log with
  | nil => exact ⟨h, (List.append_nil _).symm⟩
  | cons d rest ih =>
    obtain ⟨hlimit, hmessages⟩ := add_of_unlimited h d
    obtain ⟨hlimit', hrest⟩ := ih hlimit
    refine ⟨hlimit', hrest.trans ?_⟩
    rw [hmessages, Array.toList_push, List.append_assoc, List.singleton_append]

theorem not_exceeded_of_unlimited {log : Log} (h : log.limit = none) : log.exceeded = false := by
  rw [exceeded, h]
  rfl

/-! ## Counters -/

/-- The counters of a log are those of its messages. -/
structure Counted (log : Log) : Prop where
  errors : log.errors = (ofLevel .error log.messages.toList).length
  warnings : log.warnings = (ofLevel .warning log.messages.toList).length

theorem counted_empty (limit : Option Nat) : (empty limit).Counted :=
  ⟨rfl, rfl⟩

theorem Counted.recordError {log : Log} (h : log.Counted) {d : Diagnostic}
    (hd : d.level = .error) : (log.recordError d).Counted := by
  constructor
  · simp [Log.recordError, h.errors, ofLevel, hd]
  · simp [Log.recordError, h.warnings, ofLevel, hd]

theorem Counted.add {log : Log} (h : log.Counted) (d : Diagnostic) : (log.add d).Counted := by
  rw [Log.add]
  cases hd : d.level with
  | info => exact ⟨by simp [h.errors, ofLevel, hd], by simp [h.warnings, ofLevel, hd]⟩
  | warning => exact ⟨by simp [h.errors, ofLevel, hd], by simp [h.warnings, ofLevel, hd]⟩
  | error =>
    cases log.limit with
    | none => exact h.recordError hd
    | some m =>
      dsimp only
      split_ifs
      · exact h.recordError hd
      · exact h.recordError rfl
      · exact h

theorem Counted.hasErrors_eq_false {log : Log} (h : log.Counted) :
    log.hasErrors = false ↔ ofLevel .error log.messages.toList = [] := by
  rw [hasErrors, decide_eq_false_iff_not, Nat.pos_iff_ne_zero, not_not, h.errors,
    List.length_eq_zero_iff]

theorem Counted.hasWarnings_eq_false {log : Log} (h : log.Counted) :
    log.hasWarnings = false ↔ ofLevel .warning log.messages.toList = [] := by
  rw [hasWarnings, decide_eq_false_iff_not, Nat.pos_iff_ne_zero, not_not, h.warnings,
    List.length_eq_zero_iff]

/-! ## The cut-off -/

/-- A call that reports something to a log. -/
inductive Call where
  | info (location : Option Location) (text : String)
  | warning (location : Option Location) (text : String)
  | error (location : Option Location) (text : String)

namespace Call

def perform (log : Log) : Call → Log
  | info location text => log.info location text
  | warning location text => log.warning location text
  | error location text => log.error location text

/-- What is reported. -/
def diagnostic : Call → Diagnostic
  | info location text => { level := .info, location, text }
  | warning location text => { level := .warning, location, text }
  | error location text => { level := .error, location, text }

end Call

theorem foldl_perform (log : Log) (calls : List Call) :
    calls.foldl Call.perform log = log.addAll (calls.map Call.diagnostic) := by
  rw [addAll, List.foldl_map]
  congr 1
  funext log call
  cases call <;> rfl

theorem filter_keep (m : Nat) (ds : List Diagnostic) :
    (keep m ds).filter (fun d => d.level ≠ .error) = ds.filter fun d => d.level ≠ .error := by
  induction ds generalizing m with
  | nil => rfl
  | cons d rest ih =>
    by_cases hd : d.level = .error
    · cases m with
      | zero => simp [keep, hd, limitNotice]
      | succ m => simpa [keep, hd] using ih m
    · simpa [keep, hd] using ih m

/-- What is kept when there are too many errors: everything before the first that is over the
limit, the notice in its place, and of the rest what is no error. -/
theorem keep_of_lt {m : Nat} {ds : List Diagnostic} (h : m < (ofLevel .error ds).length) :
    ∃ before excess after, ds = before ++ excess :: after ∧ excess.level = .error ∧
      (ofLevel .error before).length = m ∧
      keep m ds = before ++ limitNotice :: after.filter fun d => d.level ≠ .error := by
  induction ds generalizing m with
  | nil => cases h
  | cons d rest ih =>
    by_cases hd : d.level = .error
    · cases m with
      | zero => exact ⟨[], d, rest, rfl, hd, rfl, by simp [keep, hd]⟩
      | succ m =>
        rw [ofLevel_cons, if_pos hd, List.length_cons] at h
        obtain ⟨before, excess, after, rfl, hexcess, hcount, hkeep⟩ := ih (Nat.lt_of_succ_lt_succ h)
        refine ⟨d :: before, excess, after, rfl, hexcess, ?_, ?_⟩
        · rw [ofLevel_cons, if_pos hd, List.length_cons, hcount]
        · simp only [keep, hd, if_true, hkeep, List.cons_append]
    · rw [ofLevel_cons, if_neg hd] at h
      obtain ⟨before, excess, after, rfl, hexcess, hcount, hkeep⟩ := ih h
      refine ⟨d :: before, excess, after, rfl, hexcess, ?_, ?_⟩
      · rw [ofLevel_cons, if_neg hd, hcount]
      · simp only [keep, hd, if_false, hkeep, List.cons_append]

/-- What a log with a limit holds after these reports. -/
structure CutOff (limit : Option Nat) (ds : List Diagnostic) (log : Log) : Prop where
  /-- Up to the limit everything is held as it was reported. -/
  within : (∀ m ∈ limit, (ofLevel .error ds).length ≤ m) → log.messages.toList = ds
  /-- The notice stands for the first error over the limit, and no error comes after it. -/
  beyond : ∀ m ∈ limit, m < (ofLevel .error ds).length →
    ∃ before excess after, ds = before ++ excess :: after ∧ excess.level = .error ∧
      (ofLevel .error before).length = m ∧
      log.messages.toList = before ++ limitNotice :: after.filter fun d => d.level ≠ .error
  others : log.messages.toList.filter (fun d => d.level ≠ .error) =
    ds.filter fun d => d.level ≠ .error
  first : ∀ m ∈ limit, ofLevel .error log.messages.toList = (ofLevel .error ds).take m ++
    if m < (ofLevel .error ds).length then [limitNotice] else []
  counted : log.Counted
  hasErrors : log.hasErrors = true ↔ 0 < (ofLevel .error ds).length
  exceeded : log.exceeded = true ↔ ∃ m ∈ limit, m < (ofLevel .error ds).length

theorem counted_addAll {log : Log} (h : log.Counted) (ds : List Diagnostic) :
    (log.addAll ds).Counted := by
  induction ds generalizing log with
  | nil => exact h
  | cons d rest ih => exact ih (h.add d)

theorem cutOff_unlimited (ds : List Diagnostic) : CutOff none ds ((empty none).addAll ds) where
  within _ := by rw [addAll_unlimited]
  beyond _ hm := absurd hm (Option.not_mem_none _)
  others := by rw [addAll_unlimited]
  first _ hm := absurd hm (Option.not_mem_none _)
  counted := counted_addAll (counted_empty none) ds
  hasErrors := by
    rw [addAll_unlimited]
    exact decide_eq_true_iff
  exceeded := by simp [not_exceeded_unlimited]

theorem cutOff_limited (m : Nat) (ds : List Diagnostic) :
    CutOff (some m) ds ((empty (some m)).addAll ds) where
  within h := by
    rw [addAll_limited]
    exact keep_of_length_le (h m rfl)
  beyond _ hm h := by
    obtain rfl := Option.mem_some_iff.mp hm
    rw [addAll_limited]
    exact keep_of_lt h
  others := by
    rw [addAll_limited]
    exact filter_keep m ds
  first _ hm := by
    obtain rfl := Option.mem_some_iff.mp hm
    rw [addAll_limited]
    exact ofLevel_error_keep _ ds
  counted := counted_addAll (counted_empty (some m)) ds
  hasErrors := by
    rw [hasErrors_limited, addAll_unlimited]
    exact decide_eq_true_iff
  exceeded := by simp [exceeded_limited_iff]

/-- Whatever is reported to a new log, and in whatever order, errors are cut off at the limit
and nothing else is. -/
theorem foldl_perform_cutOff (limit : Option Nat) (calls : List Call) :
    CutOff limit (calls.map Call.diagnostic) (calls.foldl Call.perform (empty limit)) := by
  rw [foldl_perform]
  cases limit with
  | none => exact cutOff_unlimited _
  | some m => exact cutOff_limited m _

end Log
end MipsImage
