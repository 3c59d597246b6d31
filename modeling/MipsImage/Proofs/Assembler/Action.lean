/-
The actions that the first pass is made of.

Whatever a line asks of the assembler comes down to a few kinds of action: define a
label, move a cursor, store one value.  Here they are, with what it means for a
function on assemblers to carry out a list of them.
-/
import MipsImage.Proofs.Assembler.Clean
import MipsImage.Proofs.Memory.Bytes

namespace MipsImage

open Memory (Width)

/-- One thing the assembler does inside a file. -/
inductive Action where
  | label (token : Token)
  | statement (s : ParsedStatement)
  | activate (kind : SegmentKind)
  | moveTo (address : Address)
  | align (power : Fin 4)
  /-- Align unless that has been turned off. -/
  | autoAlign (power : Fin 4)
  | stopAligning
  | integer (location : Location) (value : Word) (width : Width)
  /-- Store the address of a label, or leave a place for it. -/
  | reference (token : Token) (width : Width)
  | double (location : Location) (bits : UInt64)
  | reserve (size : Word)
  | external (token : Token) (size : Word)
  | global (token : Token)
  | report (d : Diagnostic)
  deriving DecidableEq, Repr

namespace Action

def reportAt (token : Token) (issue : Issue) : Action :=
  .report { level := issue.level, location := some token.location, text := issue.message }

/-- What is aligned to: one byte, two, four or eight. -/
def alignment (power : Fin 4) : Word :=
  UInt32.ofNat (2 ^ power.val)

/-- How many bytes an action stores at the active cursor. -/
def stored : Action → Nat
  | .integer _ _ width | .reference _ width => width.bytes
  | .double _ _ => 8
  | _ => 0

end Action

namespace Assembler

/-- The address of a label that the current file has defined so far. -/
def known? (a : Assembler) (identifier : String) : Option Address :=
  (a.currentTable?.bind (·.lookup? identifier)).map (·.address)

def act (a : Assembler) : Action → Assembler
  | .label token => a.defineLabel token
  | .statement s => a.addStatement s
  | .activate kind => { a with segments := a.segments.switchTo kind }
  | .moveTo address => { a with segments := a.segments.setCursor address }
  | .align power => a.alignCursor (Action.alignment power)
  | .autoAlign power => a.autoAlign (Action.alignment power)
  | .stopAligning => { a with segments := { a.segments with autoAlign := false } }
  | .integer location value width => (a.writeData location value width.bytes).2
  | .reference token width =>
    match a.known? token.literal with
    | some address => (a.writeData token.location address width.bytes).2
    | none => (a.writeForward token width.bytes).2
  | .double location bits => (a.writeDoubleword location bits).2
  | .reserve size => a.skip size
  | .external token size => a.defineExternal token size
  | .global token => a.declareGlobal token
  | .report d => { a with log := a.log.add d }

def actAll (a : Assembler) (actions : List Action) : Assembler :=
  actions.foldl act a

@[simp] theorem actAll_nil (a : Assembler) : a.actAll [] = a := rfl

@[simp] theorem actAll_cons (a : Assembler) (x : Action) (xs : List Action) :
    a.actAll (x :: xs) = (a.act x).actAll xs := rfl

@[simp] theorem actAll_append (a : Assembler) (xs ys : List Action) :
    a.actAll (xs ++ ys) = (a.actAll xs).actAll ys :=
  List.foldl_append

/-- A reference is stored as the address that is known, or as a placeholder that is
noted for later. -/
theorem act_reference_cases {a : Assembler} {token : Token} {width : Width}
    (h : (a.act (.reference token width)).Clean) :
    ∃ value old memory fixups,
      a.memory.store a.segments.cursor value width.bytes true = (.ok old, memory) ∧
      a.act (.reference token width) =
        { a with memory, segments := a.segments.advance (UInt32.ofNat width.bytes), fixups } ∧
      (a.known? token.literal = some value ∧ fixups = a.fixups ∨
        a.known? token.literal = none ∧ fixups =
          a.fixups.push { address := a.segments.cursor, length := width.bytes, token }) := by
  cases hknown : a.known? token.literal with
  | some address =>
    have hact : a.act (.reference token width) =
        (a.writeData token.location address width.bytes).2 := by
      simp only [act, hknown]
    rw [hact] at h ⊢
    obtain ⟨old, memory, hstore, heq⟩ := writeData_cases h
    exact ⟨address, old, memory, a.fixups, hstore, by rw [heq], .inl ⟨rfl, rfl⟩⟩
  | none =>
    have hact : a.act (.reference token width) = (a.writeForward token width.bytes).2 := by
      simp only [act, hknown]
    rw [hact] at h ⊢
    obtain ⟨old, memory, hstore, heq⟩ := writeForward_cases h
    exact ⟨Fixup.placeholder, old, memory, _, hstore, by rw [heq], .inr ⟨rfl, rfl⟩⟩

/-! ## Effects -/

def movedSegments (a : Assembler) : Action → Segments
  | .statement s => a.segments.advance (UInt32.ofNat s.size)
  | .activate kind => a.segments.switchTo kind
  | .moveTo address => a.segments.setCursor address
  | .align power => a.segments.alignTo (Action.alignment power)
  | .autoAlign power =>
    if a.segments.autoAlign then a.segments.alignTo (Action.alignment power) else a.segments
  | .stopAligning => { a.segments with autoAlign := false }
  | .integer _ _ width | .reference _ width => a.segments.advance (UInt32.ofNat width.bytes)
  | .double _ _ => a.segments.advance 8
  | .reserve size => a.segments.advance size
  | .external token size =>
    if a.globals.contains token.literal then a.segments
    else a.segments.modify .external (·.advance size)
  | .label _ | .global _ | .report _ => a.segments

/-- The statements recorded once an action is done. -/
def recorded (a : Assembler) : Action → Std.TreeMap Address ParsedStatement
  | .statement s => a.parsed.insert a.segments.cursor s
  | _ => a.parsed

/-- The labels declared global once an action is done. -/
def declared (a : Assembler) : Action → List Token
  | .global token =>
    if a.pendingGlobals.any (·.literal == token.literal) then a.pendingGlobals
    else a.pendingGlobals ++ [token]
  | _ => a.pendingGlobals

/-- What an action does to everything but the symbol tables. -/
structure Effect (a : Assembler) (x : Action) (b : Assembler) : Prop where
  clean : a.Clean
  segments : b.segments = a.movedSegments x
  fixups : b.fixups = a.fixups ∨ ∃ token width, x = .reference token width ∧
    b.fixups = a.fixups.push { address := a.segments.cursor, length := width.bytes, token }
  parsed : b.parsed = a.recorded x
  pendingGlobals : b.pendingGlobals = a.declared x
  globals : b.globals = a.globals ∨ ∃ token size, x = .external token size ∧
    a.globals.define ⟨token.literal, a.segments.external.cursor, true⟩ = .ok b.globals
  resolved : b.resolved = a.resolved
  assembled : b.assembled = a.assembled
  stores : a.memory.Passive → ∃ bytes : List UInt8, bytes.length = x.stored ∧
    Memory.WroteBytes a.memory a.segments.cursor bytes b.memory

theorem Effect.passive {a b : Assembler} {x : Action} (h : Effect a x b) (hm : a.memory.Passive) :
    b.memory.Passive := by
  obtain ⟨bytes, -, hwrote⟩ := h.stores hm
  exact hwrote.within hm

theorem Effect.of_memory_eq {a b : Assembler} {x : Action} (hstored : x.stored = 0)
    (hclean : a.Clean) (hsegments : b.segments = a.movedSegments x)
    (hfixups : b.fixups = a.fixups) (hparsed : b.parsed = a.recorded x)
    (hpending : b.pendingGlobals = a.declared x) (hresolved : b.resolved = a.resolved)
    (hassembled : b.assembled = a.assembled) (hmemory : b.memory = a.memory)
    (hglobals : b.globals = a.globals ∨ ∃ token size, x = .external token size ∧
      a.globals.define ⟨token.literal, a.segments.external.cursor, true⟩ = .ok b.globals) :
    Effect a x b := by
  refine ⟨hclean, hsegments, .inl hfixups, hparsed, hpending, hglobals, hresolved, hassembled,
    fun _ => ⟨[], hstored.symm, ?_⟩⟩
  rw [hmemory]
  exact .refl _ _

theorem stores_width {a : Assembler} {value old : Word} {memory : Memory} {width : Width}
    (hstore : a.memory.store a.segments.cursor value width.bytes true = (.ok old, memory))
    (hm : a.memory.Passive) : ∃ bytes : List UInt8, bytes.length = width.bytes ∧
      Memory.WroteBytes a.memory a.segments.cursor bytes memory :=
  ⟨_, ByteOrder.length_toBytes _ _ _, (Memory.store_bytes hm width.bytes_cases hstore).1⟩

theorem act_effect {a : Assembler} {x : Action} (h : (a.act x).Clean) : Effect a x (a.act x) := by
  cases x with
  | label token =>
    rw [act] at h ⊢
    rcases defineLabel_cases h with ⟨-, heq⟩ | ⟨t, t', -, -, heq⟩
    · rw [heq] at h ⊢
      exact .of_memory_eq rfl h rfl rfl rfl rfl rfl rfl rfl (.inl rfl)
    · rw [heq] at h ⊢
      exact .of_memory_eq rfl h rfl rfl rfl rfl rfl rfl rfl (.inl rfl)
  | statement s =>
    rw [act] at h ⊢
    obtain ⟨-, -, heq⟩ := addStatement_cases h
    rw [heq] at h ⊢
    exact .of_memory_eq rfl h rfl rfl rfl rfl rfl rfl rfl (.inl rfl)
  | align power =>
    have hclean : a.Clean := by rwa [act, Clean, alignCursor_log] at h
    rw [act, alignCursor_eq]
    exact .of_memory_eq rfl hclean rfl rfl rfl rfl rfl rfl rfl (.inl rfl)
  | autoAlign power =>
    have hclean : a.Clean := by rwa [act, Clean, autoAlign_log] at h
    rw [act, Assembler.autoAlign]
    split_ifs with hauto
    · rw [alignCursor_eq]
      exact .of_memory_eq rfl hclean (if_pos hauto).symm rfl rfl rfl rfl rfl rfl (.inl rfl)
    · exact .of_memory_eq rfl hclean (if_neg hauto).symm rfl rfl rfl rfl rfl rfl (.inl rfl)
  | integer location value width =>
    rw [act] at h ⊢
    obtain ⟨old, memory, hstore, heq⟩ := writeData_cases h
    rw [heq] at h ⊢
    exact ⟨h, rfl, .inl rfl, rfl, rfl, .inl rfl, rfl, rfl, stores_width hstore⟩
  | reference token width =>
    obtain ⟨value, old, memory, fixups, hstore, heq, hcases⟩ := act_reference_cases h
    rw [heq] at h ⊢
    refine ⟨h, rfl, ?_, rfl, rfl, .inl rfl, rfl, rfl, stores_width hstore⟩
    rcases hcases with ⟨-, hsame⟩ | ⟨-, hpush⟩
    · exact .inl hsame
    · exact .inr ⟨token, width, rfl, hpush⟩
  | double location bits =>
    rw [act] at h ⊢
    obtain ⟨old, memory, hstore, heq⟩ := writeDoubleword_cases h
    rw [heq] at h ⊢
    refine ⟨h, rfl, .inl rfl, rfl, rfl, .inl rfl, rfl, rfl, fun hm => ?_⟩
    exact ⟨_, ByteOrder.length_toBytes _ _ _, (Memory.storeDoubleword_bytes hm hstore).1⟩
  | external token size =>
    rw [act] at h ⊢
    rcases defineExternal_cases h with ⟨htaken, heq⟩ | ⟨hfree, globals, hdefine, heq⟩
    · rw [heq] at h ⊢
      exact .of_memory_eq rfl h (if_pos htaken).symm rfl rfl rfl rfl rfl rfl (.inl rfl)
    · rw [heq] at h ⊢
      refine .of_memory_eq rfl h ?_ rfl rfl rfl rfl rfl rfl (.inr ⟨token, size, rfl, hdefine⟩)
      rw [movedSegments, hfree, if_neg Bool.false_ne_true]
  | global token =>
    rw [act] at h ⊢
    obtain ⟨hclean, log, heq⟩ := declareGlobal_cases h
    rw [heq]
    exact .of_memory_eq rfl hclean rfl rfl rfl rfl rfl rfl rfl (.inl rfl)
  | report d =>
    exact .of_memory_eq rfl (Log.errors_add_eq_zero_iff.mp h).1 rfl rfl rfl rfl rfl rfl rfl (.inl rfl)
  | _ => exact .of_memory_eq rfl h rfl rfl rfl rfl rfl rfl rfl (.inl rfl)

theorem clean_of_act {a : Assembler} {x : Action} (h : (a.act x).Clean) : a.Clean :=
  (act_effect h).clean

theorem clean_of_actAll {a : Assembler} {xs : List Action} (h : (a.actAll xs).Clean) : a.Clean := by
  induction xs generalizing a with
  | nil => exact h
  | cons x rest ih => exact clean_of_act (ih h)

/-! ## Functions that carry out actions

`Performs` is about the functions that go on whatever happens, and `Writes` about
those that say whether to go on. -/

def Performs (f : Assembler → Assembler) (xs : List Action) : Prop :=
  ∀ a, (f a).Clean → f a = a.actAll xs

def Writes (write : Assembler → Bool × Assembler) (xs : List Action) : Prop :=
  ∀ a, (write a).2.Clean → write a = (true, a.actAll xs)

theorem performs_act (x : Action) : Performs (·.act x) [x] := by
  intro a _
  rfl

theorem performs_reportAt (token : Token) (issue : Issue) :
    Performs (·.reportAt token issue) [.reportAt token issue] := by
  intro a _
  rfl

theorem Performs.comp {f g : Assembler → Assembler} {xs ys : List Action} (hg : Performs g ys)
    (hf : Performs f xs) : Performs (fun a => g (f a)) (xs ++ ys) := by
  intro a h
  have hgf := hg (f a) h
  have hclean : (f a).Clean := by
    have h' : (g (f a)).Clean := h
    rw [hgf] at h'
    exact clean_of_actAll h'
  show g (f a) = a.actAll (xs ++ ys)
  rw [hgf, hf a hclean, actAll_append]

/-- A function that ends in an error does whatever is asked of clean runs. -/
theorem performs_of_not_clean {f : Assembler → Assembler} (xs : List Action)
    (h : ∀ a, ¬ (f a).Clean) : Performs f xs := by
  intro a hclean
  exact absurd hclean (h a)

theorem Writes.performs {write : Assembler → Bool × Assembler} {xs : List Action}
    (hwrite : Writes write xs) : Performs (fun a => (write a).2) xs := by
  intro a h
  show (write a).2 = a.actAll xs
  rw [hwrite a h]

/-- A write that did not go through has reported an error, so a clean run goes on
to the rest. -/
theorem Writes.andThen {write : Assembler → Bool × Assembler} {rest : Assembler → Assembler}
    {xs ys : List Action} (hwrite : Writes write xs) (hrest : Performs rest ys) :
    Performs (fun a => match write a with | (true, a) => rest a | (false, a) => a) (xs ++ ys) := by
  intro a h
  match hfirst : write a with
  | (false, a') =>
    simp only [hfirst] at h
    have hdone := hwrite a (by rw [hfirst]; exact h)
    rw [hfirst] at hdone
    cases hdone
  | (true, a') =>
    simp only [hfirst] at h ⊢
    have hthen := hrest a' h
    rw [hthen] at h
    have hdone := hwrite a (by rw [hfirst]; exact clean_of_actAll h)
    rw [hfirst] at hdone
    cases hdone
    rw [hthen, actAll_append]

theorem Writes.andWrite {write rest : Assembler → Bool × Assembler} {xs ys : List Action}
    (hwrite : Writes write xs) (hrest : Writes rest ys) :
    Writes (fun a => match write a with | (true, a) => rest a | (false, a) => (false, a))
      (xs ++ ys) := by
  intro a h
  match hfirst : write a with
  | (false, a') =>
    simp only [hfirst] at h
    have hdone := hwrite a (by rw [hfirst]; exact h)
    rw [hfirst] at hdone
    cases hdone
  | (true, a') =>
    simp only [hfirst] at h ⊢
    have hthen := hwrite.andThen hrest.performs a (by simp only [hfirst]; exact h)
    simp only [hfirst] at hthen
    rw [← hthen, hrest a' h]

theorem writes_repeatedly {write : Assembler → Bool × Assembler} {x : Action}
    (hwrite : Writes write [x]) (count : Nat) :
    Writes (writeRepeatedly write count) (List.replicate count x) := by
  induction count with
  | zero =>
    intro a _
    rfl
  | succ count ih => exact hwrite.andWrite ih

/-! ## Single values -/

theorem writes_data (location : Location) (value : Word) (width : Width) :
    Writes (writeData location value width.bytes) [.integer location value width] := by
  intro a h
  obtain ⟨old, memory, -, heq⟩ := writeData_cases h
  rw [actAll_cons, actAll_nil, act, heq]

theorem writes_doubleword (location : Location) (bits : UInt64) :
    Writes (writeDoubleword location bits) [.double location bits] := by
  intro a h
  obtain ⟨old, memory, -, heq⟩ := writeDoubleword_cases h
  rw [actAll_cons, actAll_nil, act, heq]

theorem writes_bytes (location : Location) (bytes : List UInt8) :
    Writes (writeBytes location bytes)
      (bytes.map fun b => .integer location (UInt32.ofNat b.toNat) .byte) := by
  induction bytes with
  | nil =>
    intro a _
    rfl
  | cons b rest ih => exact (writes_data location (UInt32.ofNat b.toNat) .byte).andWrite ih

/-- How a reference is stored once it is settled what the label is. -/
def writeReference (token : Token) (width : Width) : Option Address → Assembler → Bool × Assembler
  | some address => writeData token.location address width.bytes
  | none => writeForward token width.bytes

theorem act_reference (a : Assembler) (token : Token) (width : Width) :
    a.act (.reference token width) = (writeReference token width (a.known? token.literal) a).2 := by
  rw [act]
  cases a.known? token.literal with
  | none => rfl
  | some address => rfl

theorem known?_writeReference {token : Token} {width : Width} {known : Option Address}
    {a a' : Assembler} (h : writeReference token width known a = (true, a')) (identifier : String) :
    a'.known? identifier = a.known? identifier := by
  cases known with
  | some address =>
    simp only [writeReference, writeData] at h
    split at h <;> cases h
    rfl
  | none =>
    simp only [writeReference, writeForward, writeData] at h
    split at h <;> rename_i hwrite <;> split at hwrite <;> cases hwrite <;> cases h
    rfl

theorem writeReference_stored {token : Token} {width : Width} {known : Option Address}
    {a : Assembler} (h : (writeReference token width known a).2.Clean) :
    (writeReference token width known a).1 = true := by
  cases known with
  | some address =>
    rw [writeReference] at h ⊢
    obtain ⟨old, memory, -, heq⟩ := writeData_cases h
    rw [heq]
  | none =>
    rw [writeReference] at h ⊢
    obtain ⟨old, memory, -, heq⟩ := writeForward_cases h
    rw [heq]

/-- Repeated references agree on what the label is, since storing one defines no
label. -/
theorem writeRepeatedly_reference {token : Token} {width : Width} (count : Nat) {a : Assembler}
    (h : (writeRepeatedly (writeReference token width (a.known? token.literal)) count a).2.Clean) :
    writeRepeatedly (writeReference token width (a.known? token.literal)) count a =
      (true, a.actAll (List.replicate count (.reference token width))) := by
  induction count generalizing a with
  | zero => rfl
  | succ count ih =>
    rw [writeRepeatedly] at h ⊢
    match hfirst : writeReference token width (a.known? token.literal) a with
    | (false, a') =>
      simp only [hfirst] at h
      have hstored := writeReference_stored (by rw [hfirst]; exact h)
      rw [hfirst] at hstored
      cases hstored
    | (true, a') =>
      simp only [hfirst] at h ⊢
      rw [← known?_writeReference hfirst] at h ⊢
      rw [ih h, List.replicate_succ, actAll_cons, act_reference, hfirst]

theorem Writes.comp {write : Assembler → Bool × Assembler} {f : Assembler → Assembler}
    {xs ys : List Action} (hwrite : Writes write ys) (hf : Performs f xs) :
    Writes (fun a => write (f a)) (xs ++ ys) := by
  intro a h
  have hall : (write (f a)).2 = a.actAll (xs ++ ys) := hwrite.performs.comp hf a h
  have hlast := hwrite (f a) h
  show write (f a) = _
  rw [hlast] at hall ⊢
  exact congrArg (Prod.mk true) hall

theorem Writes.congr {write write' : Assembler → Bool × Assembler} {xs : List Action}
    (hwrite : Writes write xs) (heq : ∀ a, write' a = write a) : Writes write' xs := by
  intro a h
  rw [heq] at h ⊢
  exact hwrite a h

theorem writes_of_not_clean {write : Assembler → Bool × Assembler} (xs : List Action)
    (h : ∀ a, ¬ (write a).2.Clean) : Writes write xs := by
  intro a hclean
  exact absurd hclean (h a)

end Assembler
end MipsImage
