/-
Who gets an address.

The first statement that memory takes at an address keeps it.  Whoever comes later is
reported and leaves everything as it was, and so is a statement that memory refuses, which
does not occupy the address either: if code may modify itself later on, the same address
can still be had.  Which statement that is can be told from the list of attempts alone,
since whether memory takes one depends on where it goes and on what code may do, but not on
what is there.

A statement that has its address is read back from there, since statements placed
elsewhere do not change it.  All of this is about memories whose listeners are passive: one
that acts on the memory could also overwrite a statement, or clear the memory altogether.
-/
import MipsImage.Assembler.Passes
import MipsImage.Proofs.Log
import MipsImage.Proofs.Memory.Refusal
import MipsImage.Proofs.Symbol

namespace MipsImage
namespace Memory

/-! ## Statements in memory -/

/-- The word at an address is that of a statement, and in text it is that statement. -/
structure Keeps (m : Memory) (address : Address) (s : EncodedStatement) : Prop where
  word : ∀ notify, (m.fetch address 4 notify).1 = .ok s.binary
  statement : ∀ which notify, m.areaOf? address = some (.text which) →
    (m.fetchStatement address notify).1 = .ok (some s)

theorem keeps_of_quiet {m : Memory} {a : Address} {s : EncodedStatement}
    (hword : (m.fetch a 4 false).1 = .ok s.binary)
    (hstatement : ∀ which, m.areaOf? a = some (.text which) →
      (m.fetchStatement a false).1 = .ok (some s)) : m.Keeps a s where
  word notify := fetch_eq_ok_iff.mpr (fetch_eq_ok_iff.mp hword)
  statement which notify harea := by
    rw [fetchStatement_text harea, ← fetchStatement_text harea false]
    exact hstatement which harea

theorem Keeps.oneWord {m m' : Memory} {a w : Address} {s : EncodedStatement} {v : Word}
    (h : m.Keeps a s) (hone : OneWord m w v m') (hne : a ≠ w) : m'.Keeps a s := by
  refine keeps_of_quiet ((hone.words a hne).trans (h.word false)) fun which harea => ?_
  rw [hone.frame.area] at harea
  exact (hone.statements a hne).trans (h.statement which false harea)

theorem Keeps.told {m m' : Memory} {a : Address} {s : EncodedStatement} (h : m.Keeps a s)
    (htold : Told m m') : m'.Keeps a s := by
  obtain ⟨hword, hstatement⟩ := fetch_congr htold.frame (x := a)
    (fun _ which _ => by rw [htold.sameData which]) (fun _ which _ => by rw [htold.sameText which])
  refine keeps_of_quiet (hword.trans (h.word false)) fun which harea => ?_
  rw [htold.frame.area] at harea
  exact hstatement.trans (h.statement which false harea)

/-- What code may do has no part in it. -/
theorem Keeps.policy {m : Memory} {a : Address} {s : EncodedStatement} (h : m.Keeps a s)
    (allowed : Bool) : Keeps { m with selfModifying := allowed } a s := by
  have hword := fetch_eq_ok_iff.mp (h.word false)
  refine keeps_of_quiet (fetch_eq_ok_iff.mpr hword) fun which harea => ?_
  have hsame : m.areaOf? a = some (.text which) := harea
  have hstatement := h.statement which false hsame
  rw [fetchStatement_text hsame] at hstatement
  rw [fetchStatement_text harea, ← hstatement]
  cases which <;> rfl

theorem Inserted.keeps {m m' : Memory} {a : Address} {s : EncodedStatement}
    (ha : a.toNat % 4 = 0) (h : Inserted m a s m') : m'.Keeps a s := by
  have hone := h.deposit.oneWord ha
  refine keeps_of_quiet hone.word fun k hk => ?_
  have harea := hone.frame.area a
  cases h with
  | text hplace =>
    rw [hplace, hk] at harea
    cases harea
    rw [fetchStatement_text hk, if_pos ha, textRegion_setTextRegion, if_pos rfl,
      Region.fetch_store (contains_of_areaOf?_text hplace) (contains_of_areaOf?_text hplace),
      if_pos rfl]
  | data hplace on =>
    rw [hplace, hk] at harea
    cases harea

/-- All that a statement which memory takes does to it. -/
theorem storeStatement_keeps {m m' : Memory} (hm : m.Passive) {a : Address}
    {s : EncodedStatement} {notify : Bool} (h : m.storeStatement a s notify = (.ok (), m')) :
    OneWord m a s.binary m' ∧ m'.Keeps a s := by
  rw [storeStatement] at h
  cases hpoke : m.pokeStatement a s with
  | error e =>
    rw [hpoke] at h
    cases h
  | ok left =>
    rw [hpoke] at h
    cases h
    obtain ⟨ha, hinserted⟩ := inserted_of_pokeStatement hpoke
    have hone := hinserted.deposit.oneWord ha
    have htold := told_announceIf (hone.frame.within hm) notify (.write (wordAccess a s.binary))
    exact ⟨hone.told htold, (hinserted.keeps ha).told htold⟩

end Memory

namespace Assembler

/-! ## Attempts -/

/-- A statement to be put at an address, and whether code may modify itself by then. -/
structure Attempt where
  address : Address
  statement : EncodedStatement
  selfModifying : Bool

/-- Whether memory takes the statement: at a word of text, or of data that may be code. -/
def Attempt.admitted (m : Memory) (x : Attempt) : Bool :=
  x.address.toNat % 4 == 0 &&
    match m.areaOf? x.address with
    | none => false
    | some (.text _) => true
    | some (.data _) => x.selfModifying

def allow (a : Assembler) (selfModifying : Bool) : Assembler :=
  { a with memory := { a.memory with selfModifying } }

def attempt (a : Assembler) (x : Attempt) : Assembler :=
  (a.allow x.selfModifying).placeStatement x.address x.statement

/-- `b` is `a` with one more error in its log. -/
def Complains (a b : Assembler) : Prop :=
  ∃ d, d.level = .error ∧ b = { a with log := a.log.add d } ∧
    b.log.messages = a.log.messages.push d

theorem complains_report {a : Assembler} (ha : a.log.limit = none) (location : Option Location)
    {issue : Issue} (h : issue.level = .error) : Complains a (a.report location issue) :=
  ⟨_, h, rfl, (Log.add_of_unlimited ha _).2⟩

theorem Attempt.admitted_eq_false_iff {m : Memory} (x : Attempt)
    (h : m.selfModifying = x.selfModifying) :
    x.admitted m = false ↔ ∃ fault, m.StatementFault x.address fault := by
  rw [admitted]
  constructor
  · intro hnot
    by_cases halign : x.address.toNat % 4 = 0
    · cases harea : m.areaOf? x.address with
      | none => exact ⟨_, .outOfRange halign harea⟩
      | some area =>
        rw [halign, harea] at hnot
        cases area with
        | text which => cases hnot
        | data which => exact ⟨_, .codeOutsideText halign harea (h.trans hnot)⟩
    · exact ⟨_, .misaligned halign⟩
  · rintro ⟨fault, hfault⟩
    cases hfault with
    | misaligned odd => rw [beq_false_of_ne odd, Bool.false_and]
    | outOfRange aligned area => rw [area, Bool.and_false]
    | codeOutsideText aligned area off =>
      rw [area]
      dsimp only
      rw [← h, off, Bool.and_false]

theorem Attempt.storeStatement_ok_iff {m : Memory} (x : Attempt)
    (h : m.selfModifying = x.selfModifying) (notify : Bool) :
    (∃ m', m.storeStatement x.address x.statement notify = (.ok (), m')) ↔
      x.admitted m = true := by
  rw [← Bool.not_eq_false, x.admitted_eq_false_iff h]
  constructor
  · rintro ⟨m', hok⟩ ⟨fault, hfault⟩
    have herror : m.storeStatement x.address x.statement notify =
        (.error (.store x.address fault), m) :=
      Memory.storeStatement_eq_error_iff.mpr ⟨⟨fault, hfault, rfl⟩, rfl⟩
    rw [hok] at herror
    cases herror
  · intro hnone
    cases hstore : m.storeStatement x.address x.statement notify with
    | mk result m' =>
      cases result with
      | ok _ => exact ⟨m', rfl⟩
      | error e =>
        obtain ⟨⟨fault, hfault, -⟩, -⟩ := Memory.storeStatement_eq_error_iff.mp hstore
        exact absurd ⟨fault, hfault⟩ hnone

/-- What can come of placing a statement. -/
inductive Placing (a : Assembler) (address : Address) (s : EncodedStatement) : Assembler → Prop
  | taken {holder : EncodedStatement} {b : Assembler}
      (occupied : a.assembled[address]? = some holder) (complains : Complains a b) :
      Placing a address s b
  | refused {e : AddressError} {b : Assembler} (free : a.assembled[address]? = none)
      (fault : a.memory.storeStatement address s true = (.error e, a.memory))
      (complains : Complains a b) : Placing a address s b
  | placed {memory : Memory} {b : Assembler} (free : a.assembled[address]? = none)
      (stored : a.memory.storeStatement address s true = (.ok (), memory))
      (done : b = { a with memory, assembled := a.assembled.insert address s }) :
      Placing a address s b

theorem placing_placeStatement {a : Assembler} (ha : a.log.limit = none) (address : Address)
    (s : EncodedStatement) : Placing a address s (a.placeStatement address s) := by
  rw [placeStatement]
  cases htaken : a.assembled[address]? with
  | some holder => exact .taken htaken (complains_report ha _ rfl)
  | none =>
    cases hstore : a.memory.storeStatement address s true with
    | mk result memory =>
      cases result with
      | ok _ => exact .placed htaken hstore rfl
      | error e =>
        obtain ⟨-, rfl⟩ := Memory.storeStatement_eq_error_iff.mp hstore
        exact .refused htaken hstore (complains_report ha _ rfl)

/-! ## Runs -/

/-- After some attempts that began with `a`: every statement that got its address is there. -/
structure Kept (a b : Assembler) : Prop where
  unlimited : b.log.limit = none
  passive : b.memory.Passive
  area : ∀ x, b.memory.areaOf? x = a.memory.areaOf? x
  statements : ∀ k s, b.assembled[k]? = some s → b.memory.Keeps k s

theorem assembled_reset (a : Assembler) (k : Address) : a.reset.assembled[k]? = none :=
  Std.TreeMap.getElem?_emptyc

theorem kept_reset {a : Assembler} (h : a.settings.errorLimit = none) (hm : a.memory.Passive) :
    Kept a.reset a.reset where
  unlimited := h
  passive := (Memory.told_resetWith hm a.memory.layout).frame.within hm
  area _ := rfl
  statements k s hs := by
    rw [assembled_reset] at hs
    cases hs

theorem Kept.allow {a b : Assembler} (h : Kept a b) (allowed : Bool) :
    Kept a (b.allow allowed) where
  unlimited := h.unlimited
  passive := h.passive
  area := h.area
  statements k s hs := (h.statements k s hs).policy allowed

theorem Kept.complains {a b c : Assembler} (h : Kept a b) (hc : Complains b c) : Kept a c := by
  obtain ⟨d, -, heq, -⟩ := hc
  rw [heq]
  exact ⟨(Log.add_of_unlimited h.unlimited d).1, h.passive, h.area, h.statements⟩

theorem Kept.placed {a b : Assembler} (h : Kept a b) {address : Address} {s : EncodedStatement}
    {memory : Memory} (hstore : b.memory.storeStatement address s true = (.ok (), memory)) :
    Kept a { b with memory, assembled := b.assembled.insert address s } := by
  obtain ⟨hone, hkeeps⟩ := Memory.storeStatement_keeps h.passive hstore
  refine ⟨h.unlimited, hone.frame.within h.passive,
    fun x => (hone.frame.area x).trans (h.area x), fun k t ht => ?_⟩
  rw [getElem?_insert_eq_ite] at ht
  by_cases hk : k = address
  · rw [if_pos hk] at ht
    cases ht
    exact hk ▸ hkeeps
  · rw [if_neg hk] at ht
    exact (h.statements k t ht).oneWord hone hk

theorem Kept.placing {a b : Assembler} (h : Kept a b) (x : Attempt) :
    Placing (b.allow x.selfModifying) x.address x.statement (b.attempt x) :=
  placing_placeStatement (h.allow x.selfModifying).unlimited x.address x.statement

theorem Kept.attempt {a b : Assembler} (h : Kept a b) (x : Attempt) : Kept a (b.attempt x) := by
  have hb := h.allow x.selfModifying
  cases h.placing x with
  | taken occupied complains => exact hb.complains complains
  | refused free fault complains => exact hb.complains complains
  | placed free stored done => exact done ▸ hb.placed stored

theorem Kept.foldl_attempt {a b : Assembler} (h : Kept a b) (xs : List Attempt) :
    Kept a (xs.foldl Assembler.attempt b) := by
  induction xs generalizing b with
  | nil => exact h
  | cons x rest ih => exact ih (h.attempt x)

/-! ## First come, first served -/

theorem Kept.admitted {a b : Assembler} (h : Kept a b) (x : Attempt) :
    x.admitted b.memory = x.admitted a.memory := by
  rw [Attempt.admitted, Attempt.admitted, h.area]

theorem Kept.storeStatement_ok_iff {a b : Assembler} (h : Kept a b) (x : Attempt) :
    (∃ m, (b.allow x.selfModifying).memory.storeStatement x.address x.statement true =
      (.ok (), m)) ↔ x.admitted a.memory = true := by
  rw [x.storeStatement_ok_iff rfl true, (h.allow x.selfModifying).admitted]

theorem Complains.assembled {a b : Assembler} (h : Complains a b) : b.assembled = a.assembled := by
  obtain ⟨d, -, heq, -⟩ := h
  rw [heq]

/-- One more attempt matters to its own address only, and only if that is free. -/
theorem Kept.assembled_attempt {a b : Assembler} (h : Kept a b) (x : Attempt) (k : Address) :
    (b.attempt x).assembled[k]? = b.assembled[k]?.or
      (if x.address == k && x.admitted a.memory then some x.statement else none) := by
  have hok := h.storeStatement_ok_iff x
  cases h.placing x with
  | taken occupied complains =>
    rw [complains.assembled]
    by_cases hk : x.address = k
    · subst hk
      rw [show b.assembled[x.address]? = _ from occupied, Option.some_or]
      exact occupied
    · rw [beq_false_of_ne hk, Bool.false_and, if_neg Bool.false_ne_true, Option.or_none]
      rfl
  | refused free fault complains =>
    have hnot : x.admitted a.memory = false := by
      rw [← Bool.not_eq_true, ← hok]
      rintro ⟨m, hstored⟩
      rw [fault] at hstored
      cases hstored
    rw [complains.assembled, hnot, Bool.and_false, if_neg Bool.false_ne_true, Option.or_none]
    rfl
  | placed free stored done =>
    rw [done, getElem?_insert_eq_ite, hok.mp ⟨_, stored⟩, Bool.and_true]
    by_cases hk : x.address = k
    · subst hk
      rw [if_pos rfl, beq_self_eq_true, if_pos rfl, show b.assembled[x.address]? = none from free,
        Option.none_or]
    · rw [if_neg (Ne.symm hk), beq_false_of_ne hk, if_neg Bool.false_ne_true, Option.or_none]
      rfl

theorem Kept.assembled_foldl {a b : Assembler} (h : Kept a b) (xs : List Attempt) (k : Address) :
    (xs.foldl Assembler.attempt b).assembled[k]? = b.assembled[k]?.or
      ((xs.find? fun x => x.address == k && x.admitted a.memory).map (·.statement)) := by
  induction xs generalizing b with
  | nil => rw [List.foldl_nil, List.find?_nil, Option.map_none, Option.or_none]
  | cons x rest ih =>
    rw [List.foldl_cons, ih (h.attempt x), h.assembled_attempt, List.find?_cons, Option.or_assoc]
    cases x.address == k && x.admitted a.memory with
    | true => rw [if_pos rfl, Option.some_or, Option.map_some]
    | false => rw [if_neg Bool.false_ne_true, Option.none_or]

/-- However statements are placed after a reset, every address belongs to the first of them
that memory would take there.  Placing one at an address that has its statement already, or
where memory refuses it, adds one error and changes nothing else; placing one that memory takes
at a free address does no more than that.  And what is assembled at an address can be read
there, in text as the statement it is. -/
theorem foldl_attempt_first_served (a : Assembler) (hlimit : a.settings.errorLimit = none)
    (hm : a.memory.Passive) (xs : List Attempt) :
    (∀ k, (xs.foldl attempt a.reset).assembled[k]? =
      (xs.find? fun x => x.address == k && x.admitted a.reset.memory).map (·.statement)) ∧
    (∀ before x after, xs = before ++ x :: after →
      let b := (before.foldl attempt a.reset).allow x.selfModifying
      let c := (before ++ [x]).foldl attempt a.reset
      ((∃ m, b.memory.storeStatement x.address x.statement true = (.ok (), m)) ↔
        x.admitted a.reset.memory = true) ∧
      (∀ s, b.assembled[x.address]? = some s → Complains b c) ∧
      (∀ e m, b.assembled[x.address]? = none →
        b.memory.storeStatement x.address x.statement true = (.error e, m) → Complains b c) ∧
      ∀ m, b.assembled[x.address]? = none →
        b.memory.storeStatement x.address x.statement true = (.ok (), m) →
          c = { b with memory := m, assembled := b.assembled.insert x.address x.statement }) ∧
    ∀ k s, (xs.foldl attempt a.reset).assembled[k]? = some s →
      (xs.foldl attempt a.reset).memory.Keeps k s := by
  have hstart := kept_reset hlimit hm
  refine ⟨fun k => ?_, ?_, (hstart.foldl_attempt xs).statements⟩
  · rw [hstart.assembled_foldl, assembled_reset, Option.none_or]
  · intro before x after _
    dsimp only
    have hbefore := hstart.foldl_attempt before
    rw [List.foldl_append, List.foldl_cons, List.foldl_nil]
    refine ⟨hbefore.storeStatement_ok_iff x, ?_⟩
    cases hbefore.placing x with
    | taken occupied complains =>
      refine ⟨fun _ _ => complains, fun _ _ _ _ => complains, fun m hfree _ => ?_⟩
      rw [occupied] at hfree
      cases hfree
    | refused free fault complains =>
      refine ⟨fun _ _ => complains, fun _ _ _ _ => complains, fun m _ hok => ?_⟩
      rw [fault] at hok
      cases hok
    | placed free stored done =>
      refine ⟨fun s htaken => ?_, fun e m _ herror => ?_, fun m _ hok => ?_⟩
      · rw [free] at htaken
        cases htaken
      · rw [stored] at herror
        cases herror
      · rw [stored] at hok
        cases hok
        exact done

set_option maxRecDepth 10000 in
/-- Data refuses a statement until code may modify itself; the third to come is too late. -/
theorem foldl_attempt_first_served_data :
    let m := ((Memory.ofSettings ⟨Layout.standard, .little, false⟩).addListener
      ⟨1, fun _ => []⟩).watchEverywhere 0
    let a := start ⟨none, false⟩ m
    let first : EncodedStatement := ⟨BasicInstruction.swBase, [8, 29], 0xafa80000, none⟩
    let second : EncodedStatement := ⟨BasicInstruction.swBase, [9, 29], 0xafa90000, none⟩
    let xs : List Attempt := [⟨0x10010000, first, false⟩, ⟨0x10010000, second, true⟩,
      ⟨0x10010000, first, true⟩, ⟨0x00400000, first, false⟩, ⟨0x00400002, second, false⟩]
    let b := xs.foldl attempt a.reset
    a.settings.errorLimit = none ∧ m.Passive ∧ b.assembled[(0x10010000 : Address)]? = some second ∧
      b.memory.Keeps 0x10010000 second ∧ b.memory.Keeps 0x00400000 first ∧
      b.log.messages.size = 3 := by
  intro m a first second xs b
  have hpassive : m.Passive :=
    (Memory.passive_ofSettings _).addListener (Listener.within_idle _ 1)
  have hserved := foldl_attempt_first_served a rfl hpassive xs
  have hsecond : b.assembled[(0x10010000 : Address)]? = some second :=
    (hserved.1 0x10010000).trans (by decide +kernel)
  have hfirst : b.assembled[(0x00400000 : Address)]? = some first :=
    (hserved.1 0x00400000).trans (by decide +kernel)
  exact ⟨rfl, hpassive, hsecond, hserved.2.2 _ _ hsecond, hserved.2.2 _ _ hfirst,
    by decide +kernel⟩

end Assembler
end MipsImage
