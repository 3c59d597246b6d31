/-
What a data directive writes.

The content of a directive stands for a list of elements: each value as often as its count
says, each string byte by byte.  They are stored one after the other, from the cursor on.  If
memory refuses one, those before it stay, the cursor is left at it and the fault is the one
error that is reported; the rest of the directive is given up, whether it was in the middle of
a repeated value, of a string or of the list.

`Outcome` has both endings, so that each of the nested loops is followed once: a loop that goes
on appends its elements to those written so far, and one that stops hands on where it stopped.
-/
import MipsImage.Assembler.Directives
import MipsImage.Proofs.Assembler.Clean
import MipsImage.Proofs.Log
import MipsImage.Proofs.Memory.Refusal
import MipsImage.Proofs.Memory.Sequence

namespace MipsImage

namespace Segments

@[simp] theorem cursor_advance (s : Segments) (n : Word) :
    (s.advance n).cursor = s.cursor + n := by
  obtain ⟨_, _, _, _, _, active, _⟩ := s
  cases active <;> rfl

@[simp] theorem cursor_setCursor (s : Segments) (address : Address) :
    (s.setCursor address).cursor = address := by
  obtain ⟨_, _, _, _, _, active, _⟩ := s
  cases active <;> rfl

theorem advance_advance (s : Segments) (n k : Word) :
    (s.advance n).advance k = s.advance (n + k) := by
  obtain ⟨_, _, _, _, _, active, _⟩ := s
  cases active <;> simp only [advance, modify, Segment.advance, UInt32.add_assoc]

theorem advance_zero (s : Segments) : s.advance 0 = s := by
  obtain ⟨_, _, _, _, _, active, _⟩ := s
  cases active <;> simp only [advance, modify, Segment.advance, UInt32.add_zero]

end Segments

namespace Assembler

/-! ## Elements and outcomes -/

/-- A value that is stored in one go, and where the source has it. -/
structure Element where
  location : Location
  value : Word
  deriving DecidableEq, Repr

/-- Storing `elements` from the cursor of `a` on has led to `b`, with no more than warnings. -/
structure Filled (size : Nat) (a : Assembler) (elements : List Element) (b : Assembler) :
    Prop where
  stores : a.memory.Stores size a.segments.cursor (elements.map (·.value)) b.memory
  segments : b.segments = a.segments.advance (UInt32.ofNat (size * elements.length))
  log : ∃ ds, (∀ d ∈ ds, d.level = .warning) ∧ b.log = a.log.addAll ds

/-- How storing `elements` ends: all are stored, or all up to one that memory refuses, which is
reported. -/
inductive Outcome (size : Nat) (a : Assembler) (elements : List Element) :
    Bool × Assembler → Prop where
  | complete {b : Assembler} (filled : Filled size a elements b) : Outcome size a elements (true, b)
  | cut {before after : List Element} {e : Element} {b : Assembler} {fault : AddressFault}
      (split : elements = before ++ e :: after) (filled : Filled size a before b)
      (refused : b.memory.StoreFault b.segments.cursor e.value size fault) :
      Outcome size a elements
        (false, b.report (some e.location) (.access (.store b.segments.cursor fault)))

variable {size : Nat} {a b c : Assembler} {es fs : List Element}

theorem Filled.append (h : Filled size a es b) (k : Filled size b fs c) :
    Filled size a (es ++ fs) c where
  stores := by
    have hrest := k.stores
    rw [h.segments, Segments.cursor_advance] at hrest
    rw [List.map_append]
    refine h.stores.append ?_
    rwa [List.length_map]
  segments := by
    rw [k.segments, h.segments, Segments.advance_advance, List.length_append, Nat.mul_add,
      UInt32.ofNat_add]
  log := by
    obtain ⟨ds, hds, hlog⟩ := h.log
    obtain ⟨ds', hds', hlog'⟩ := k.log
    refine ⟨ds ++ ds', fun d hd => ?_, ?_⟩
    · rcases List.mem_append.mp hd with hd | hd
      · exact hds d hd
      · exact hds' d hd
    · rw [hlog', hlog, Log.addAll, Log.addAll, Log.addAll, List.foldl_append]

theorem filled_nil (size : Nat) (a : Assembler) : Filled size a [] a where
  stores := .nil a.memory a.segments.cursor
  segments := (Segments.advance_zero a.segments).symm
  log := ⟨[], List.forall_mem_nil _, rfl⟩

theorem filled_warning (size : Nat) (a : Assembler) (token : Token) {issue : Issue}
    (hlevel : issue.level = .warning) : Filled size a [] (a.reportAt token issue) where
  stores := .nil a.memory a.segments.cursor
  segments := (Segments.advance_zero a.segments).symm
  log := ⟨[_], List.forall_mem_singleton.mpr hlevel, rfl⟩

theorem Outcome.goesOn {r : Bool × Assembler} (h : Filled size a es b)
    (k : Outcome size b fs r) : Outcome size a (es ++ fs) r := by
  cases k with
  | complete filled => exact .complete (h.append filled)
  | cut split filled refused =>
    exact .cut (by rw [split, List.append_assoc]) (h.append filled) refused

theorem Outcome.stops (h : Outcome size a es (false, b)) (fs : List Element) :
    Outcome size a (es ++ fs) (false, b) := by
  cases h with
  | cut split filled refused =>
    exact .cut (by rw [split, List.append_assoc, List.cons_append]) filled refused

theorem Outcome.filled (h : Outcome size a es (true, b)) : Filled size a es b := by
  cases h with
  | complete filled => exact filled

/-! ## Loops -/

theorem writeData_outcome (size : Nat) (e : Element) (a : Assembler) :
    Outcome size a [e] (a.writeData e.location e.value size) := by
  rcases hstore : a.memory.store a.segments.cursor e.value size true with ⟨e' | old, memory⟩
  · obtain ⟨⟨fault, hfault, rfl⟩, rfl⟩ := Memory.store_eq_error_iff.mp hstore
    simp only [writeData, hstore]
    exact .cut (show [e] = [] ++ e :: [] from rfl) (filled_nil size a) hfault
  · simp only [writeData, hstore]
    refine .complete ⟨.cons hstore (.nil _ _), ?_, [], List.forall_mem_nil _, rfl⟩
    rw [List.length_singleton, Nat.mul_one]
    rfl

theorem writeRepeatedly_outcome (size : Nat) (e : Element) (count : Nat) (a : Assembler) :
    Outcome size a (List.replicate count e)
      (writeRepeatedly (writeData e.location e.value size) count a) := by
  induction count generalizing a with
  | zero => exact .complete (filled_nil size a)
  | succ count ih =>
    have hfirst := writeData_outcome size e a
    rw [List.replicate_succ, ← List.singleton_append, writeRepeatedly]
    rcases hwrite : a.writeData e.location e.value size with ⟨_ | _, b⟩
    · rw [hwrite] at hfirst
      exact hfirst.stops _
    · rw [hwrite] at hfirst
      exact .goesOn hfirst.filled (ih b)

/-- The elements of bytes that stand together in the source. -/
def byteElements (location : Location) (bytes : List UInt8) : List Element :=
  bytes.map fun byte => ⟨location, UInt32.ofNat byte.toNat⟩

theorem writeBytes_outcome (location : Location) (bytes : List UInt8) (a : Assembler) :
    Outcome 1 a (byteElements location bytes) (writeBytes location bytes a) := by
  induction bytes generalizing a with
  | nil => exact .complete (filled_nil 1 a)
  | cons byte rest ih =>
    have hfirst := writeData_outcome 1 ⟨location, UInt32.ofNat byte.toNat⟩ a
    rw [byteElements, List.map_cons, ← List.singleton_append, writeBytes]
    rcases hwrite : a.writeData location (UInt32.ofNat byte.toNat) 1 with ⟨_ | _, b⟩
    · rw [hwrite] at hfirst
      exact hfirst.stops _
    · rw [hwrite] at hfirst
      exact .goesOn hfirst.filled (ih b)

/-- An integer is stored as often as its count says.  That it does not fit is only warned
about. -/
theorem storeInteger_outcome (directive : Token) (size : Nat) {t : Token} {value : Word}
    (ht : t.kind = .integer value) (count : Nat) (a : Assembler) :
    Outcome size a (List.replicate count ⟨t.location, value⟩)
      (storeInteger directive size (.value t (.times count)) a) := by
  have hwarned : Filled size a [] (reportTruncation directive t value size a) := by
    rw [reportTruncation]
    split
    · exact filled_nil size a
    · exact filled_warning size a t rfl
  simp only [storeInteger, Repetition.report, Repetition.count, ht]
  exact .goesOn hwarned (writeRepeatedly_outcome size ⟨t.location, value⟩ count _)

/-! ## What a content stands for -/

/-- Integers, each by itself or with a colon and a count after it. -/
inductive Integers : List Token → List Element → Prop where
  | nil : Integers [] []
  | once {t : Token} {value : Word} {rest : List Token} {es : List Element}
      (value_kind : t.kind = .integer value) (others : Integers rest es) :
      Integers (t :: rest) (⟨t.location, value⟩ :: es)
  | repeated {t colon n : Token} {value count : Word} {rest : List Token} {es : List Element}
      (value_kind : t.kind = .integer value) (colon_kind : colon.kind = .colon)
      (count_kind : n.kind = .integer count) (positive : 0 < Word.signed count)
      (others : Integers rest es) :
      Integers (t :: colon :: n :: rest) (List.replicate count.toNat ⟨t.location, value⟩ ++ es)

/-- Strings as they are kept in memory, with or without a zero after each. -/
inductive Strings (terminated : Bool) : List Token → List Element → Prop where
  | nil : Strings terminated [] []
  | cons {t : Token} {value : String} {rest : List Token} {es : List Element}
      (value_kind : t.kind = .string value) (others : Strings terminated rest es) :
      Strings terminated (t :: rest)
        (byteElements t.location (Text.Utf8.encode value ++ if terminated then [0] else []) ++ es)

/-- The elements that a directive stores if its content is this without commas, and the bytes
that each takes. -/
inductive Denotes : Directive → List Token → Nat → List Element → Prop where
  | byte {ts : List Token} {es : List Element} (h : Integers ts es) : Denotes .byte ts 1 es
  | half {ts : List Token} {es : List Element} (h : Integers ts es) : Denotes .half ts 2 es
  | word {ts : List Token} {es : List Element} (h : Integers ts es) : Denotes .word ts 4 es
  | ascii {ts : List Token} {es : List Element} (h : Strings false ts es) : Denotes .ascii ts 1 es
  | asciiz {ts : List Token} {es : List Element} (h : Strings true ts es) : Denotes .asciiz ts 1 es

theorem Denotes.size_cases {d : Directive} {ts : List Token} (h : Denotes d ts size es) :
    size = 1 ∨ size = 2 ∨ size = 4 := by
  cases h <;> simp

/-- A content never goes on with a colon. -/
theorem Integers.take {ts : List Token} (h : Integers ts es) :
    Repetition.take ts = (.times 1, ts) := by
  cases h with
  | nil => rfl
  | once value_kind others => simp [Repetition.take, value_kind]
  | repeated value_kind colon_kind count_kind positive others =>
    simp [Repetition.take, value_kind]

/-- `b` is what comes of storing `elements`, however that ends. -/
def Written (size : Nat) (a : Assembler) (elements : List Element) (b : Assembler) : Prop :=
  ∃ stored, Outcome size a elements (stored, b)

theorem storeEntries_written {e : DataEntry} {rest : List DataEntry}
    {storeOne : DataEntry → Assembler → Bool × Assembler} (h : Outcome size a es (storeOne e a))
    (k : ∀ b, Written size b fs (storeEntries storeOne rest b)) :
    Written size a (es ++ fs) (storeEntries storeOne (e :: rest) a) := by
  rw [storeEntries]
  rcases hone : storeOne e a with ⟨_ | _, b⟩
  · rw [hone] at h
    exact ⟨false, h.stops fs⟩
  · rw [hone] at h
    obtain ⟨stored, hrest⟩ := k b
    exact ⟨stored, .goesOn h.filled hrest⟩

theorem Integers.written {ts : List Token} (h : Integers ts es) (directive : Token) (size : Nat)
    (a : Assembler) :
    Written size a es
      (storeEntries (storeInteger directive size) (DataEntry.parse isIntegerValue ts) a) := by
  induction h generalizing a with
  | nil =>
    rw [DataEntry.parse]
    exact ⟨true, .complete (filled_nil size a)⟩
  | @once t value rest es value_kind others ih =>
    have hparse : DataEntry.parse isIntegerValue (t :: rest) =
        .value t (.times 1) :: DataEntry.parse isIntegerValue rest := by
      rw [DataEntry.parse, value_kind, others.take]
      rfl
    rw [hparse]
    exact storeEntries_written (storeInteger_outcome directive size value_kind 1 a) ih
  | @repeated t colon n value count rest es value_kind colon_kind count_kind positive others ih =>
    have htake : Repetition.take (colon :: n :: rest) = (.times count.toNat, rest) := by
      rw [Repetition.take, if_pos colon_kind, Repetition.ofToken, count_kind]
      exact congrArg (·, rest) (if_pos positive)
    have hparse : DataEntry.parse isIntegerValue (t :: colon :: n :: rest) =
        .value t (.times count.toNat) :: DataEntry.parse isIntegerValue rest := by
      rw [DataEntry.parse, value_kind, htake]
      rfl
    rw [hparse]
    exact storeEntries_written (storeInteger_outcome directive size value_kind count.toNat a) ih

theorem Strings.written {terminated : Bool} {ts : List Token} (h : Strings terminated ts es)
    (directive : Token) (a : Assembler) :
    Written 1 a es (storeStrings directive terminated ts a) := by
  induction h generalizing a with
  | nil => exact ⟨true, .complete (filled_nil 1 a)⟩
  | @cons t value rest es value_kind others ih =>
    have hfirst := writeBytes_outcome t.location
      (Text.Utf8.encode value ++ if terminated then [0] else []) a
    rw [storeStrings, value_kind]
    dsimp only
    rcases hwrite : writeBytes t.location
      (Text.Utf8.encode value ++ if terminated then [0] else []) a with ⟨_ | _, b⟩
    · rw [hwrite] at hfirst
      exact ⟨false, hfirst.stops es⟩
    · rw [hwrite] at hfirst
      obtain ⟨stored, hrest⟩ := ih b
      exact ⟨stored, .goesOn hfirst.filled hrest⟩

/-! ## Directives -/

/-- Where a directive begins to store. -/
def dataStart (size : Nat) (a : Assembler) : Address :=
  if a.segments.autoAlign then Word.alignUp a.segments.cursor (UInt32.ofNat size)
  else a.segments.cursor

theorem dataStart_one (a : Assembler) : a.dataStart 1 = a.segments.cursor :=
  ite_self _

theorem autoAlign_start (size : Nat) (a : Assembler) :
    (a.autoAlign (UInt32.ofNat size)).memory = a.memory ∧
      (a.autoAlign (UInt32.ofNat size)).log = a.log ∧
      (a.autoAlign (UInt32.ofNat size)).segments.cursor = a.dataStart size := by
  rw [autoAlign, dataStart]
  split
  · rw [alignCursor_eq]
    exact ⟨rfl, rfl, Segments.cursor_setCursor _ _⟩
  · exact ⟨rfl, rfl, rfl⟩

theorem Integers.directive {token : Token} {content : List Token} (hcontent : content ≠ [])
    (h : Integers (DataEntry.withoutCommas content) es) (size : Nat) (a : Assembler) :
    Written size (a.autoAlign (UInt32.ofNat size)) es (integers size token content a) := by
  rw [integers, withValues, List.isEmpty_eq_false_iff.mpr hcontent]
  exact h.written token size _

theorem Strings.directive {terminated : Bool} {token : Token} {content : List Token}
    (hcontent : content ≠ []) (h : Strings terminated (DataEntry.withoutCommas content) es)
    (a : Assembler) : Written 1 a es (strings terminated token content a) := by
  rw [strings, withValues, List.isEmpty_eq_false_iff.mpr hcontent]
  exact h.written token a

/-- A directive stores its elements from where it begins, after it has aligned the cursor. -/
theorem runDirective_written {d : Directive} (token : Token) {content : List Token}
    (hactive : a.segments.active.isData = true) (hcontent : content ≠ [])
    (h : Denotes d (DataEntry.withoutCommas content) size es) :
    ∃ a₁ : Assembler, (a₁.memory = a.memory ∧ a₁.log = a.log ∧
      a₁.segments.cursor = a.dataStart size) ∧
      Written size a₁ es (runDirective d token content a) := by
  cases h with
  | byte h =>
    rw [runDirective, inDataSegment, if_pos hactive]
    exact ⟨_, autoAlign_start 1 a, h.directive hcontent 1 a⟩
  | half h =>
    rw [runDirective, inDataSegment, if_pos hactive]
    exact ⟨_, autoAlign_start 2 a, h.directive hcontent 2 a⟩
  | word h =>
    rw [runDirective, inDataSegment, if_pos hactive]
    exact ⟨_, autoAlign_start 4 a, h.directive hcontent 4 a⟩
  | ascii h =>
    rw [runDirective, inDataSegment, if_pos hactive]
    exact ⟨a, ⟨rfl, rfl, a.dataStart_one.symm⟩, h.directive hcontent a⟩
  | asciiz h =>
    rw [runDirective, inDataSegment, if_pos hactive]
    exact ⟨a, ⟨rfl, rfl, a.dataStart_one.symm⟩, h.directive hcontent a⟩

/-- `b` has `elements` in its memory, which was `m`, from `start` on and no other byte changed,
and the cursor just past them. -/
structure Laid (size : Nat) (m : Memory) (start : Address) (elements : List Element)
    (b : Assembler) : Prop where
  stores : m.Stores size start (elements.map (·.value)) b.memory
  bytes : b.memory.byteAt = FlatBytes.lay m.order size m.byteAt start (elements.map (·.value))
  cursor : b.segments.cursor = start + UInt32.ofNat (size * elements.length)

def loggedErrors (a : Assembler) : List Diagnostic :=
  Diagnostic.ofLevel .error a.log.messages.toList

theorem Filled.laid (h : Filled size a es b) (hsize : size = 1 ∨ size = 2 ∨ size = 4)
    (hm : a.memory.Passive) : Laid size a.memory a.segments.cursor es b where
  stores := h.stores
  bytes := (h.stores.lays hsize hm).2
  cursor := by rw [h.segments, Segments.cursor_advance]

theorem Filled.loggedErrors (h : Filled size a es b) (hlimit : a.log.limit = none) :
    b.log.limit = none ∧ b.loggedErrors = a.loggedErrors := by
  obtain ⟨ds, hds, hlog⟩ := h.log
  obtain ⟨hnone, hmessages⟩ := Log.addAll_of_unlimited hlimit ds
  have hwarnings : Diagnostic.ofLevel .error ds = [] := by
    refine List.filter_eq_nil_iff.mpr fun d hd => ?_
    simp [hds d hd]
  rw [Assembler.loggedErrors, hlog, hmessages, Diagnostic.ofLevel_append, hwarnings,
    List.append_nil]
  exact ⟨hnone, rfl⟩

theorem loggedErrors_report (hlimit : a.log.limit = none) (location : Option Location)
    {issue : Issue} (hlevel : issue.level = .error) :
    (a.report location issue).loggedErrors =
      a.loggedErrors ++ [⟨.error, location, issue.message⟩] := by
  rw [loggedErrors, report, (Log.add_of_unlimited hlimit _).2, Array.toList_push,
    Diagnostic.ofLevel_append, hlevel]
  rfl

/-- A data directive stores its elements at consecutive addresses from the aligned cursor on and
reports no error; or memory refuses one of them, those before it are stored, the cursor is left
at it and its fault is the only error that is reported.  Either way no byte has changed that was
not among those stored. -/
theorem runDirective_lays {d : Directive} {token : Token} {content : List Token}
    (hlimit : a.log.limit = none) (hm : a.memory.Passive)
    (hactive : a.segments.active.isData = true) (hcontent : content ≠ [])
    (hdenotes : Denotes d (DataEntry.withoutCommas content) size es)
    (hrun : runDirective d token content a = b) :
    (Laid size a.memory (a.dataStart size) es b ∧ b.loggedErrors = a.loggedErrors) ∨
    ∃ before e after fault, es = before ++ e :: after ∧
      Laid size a.memory (a.dataStart size) before b ∧
      b.memory.StoreFault b.segments.cursor e.value size fault ∧
      b.loggedErrors = a.loggedErrors ++
        [⟨.error, some e.location, (AddressError.store b.segments.cursor fault).message⟩] := by
  obtain ⟨a₁, ⟨hmemory, hlog, hstart⟩, stored, houtcome⟩ :=
    runDirective_written token hactive hcontent hdenotes
  have hsame : a₁.loggedErrors = a.loggedErrors := by rw [loggedErrors, hlog, loggedErrors]
  rw [hrun] at houtcome
  rw [← hmemory, ← hstart, ← hsame]
  rw [← hmemory] at hm
  rw [← hlog] at hlimit
  cases houtcome with
  | complete filled =>
    exact .inl ⟨filled.laid hdenotes.size_cases hm, (filled.loggedErrors hlimit).2⟩
  | @cut before after e b fault split filled refused =>
    obtain ⟨hunlimited, herrors⟩ := filled.loggedErrors hlimit
    have hlaid := filled.laid hdenotes.size_cases hm
    refine .inr ⟨before, e, after, fault, split, ⟨hlaid.stores, hlaid.bytes, hlaid.cursor⟩,
      refused, ?_⟩
    rw [loggedErrors_report hunlimited _ rfl, herrors]
    rfl

/-- Two words from the last one of data on: automatic alignment moves the cursor to it, and the
second is refused by kernel text. -/
theorem runDirective_lays_last_word :
    let m := Memory.ofSettings ⟨Layout.standard, .big, false⟩
    let segments := ((Segments.ofLayout m.layout).switchTo .data).setCursor 0x7ffffff9
    let a := { start ⟨none, false⟩ m with segments }
    let value : Token := ⟨.integer 0x01020304, "0x01020304", ⟨"last.s", 1, 9⟩⟩
    let colon : Token := ⟨.colon, ":", ⟨"last.s", 1, 20⟩⟩
    let count : Token := ⟨.integer 2, "2", ⟨"last.s", 1, 22⟩⟩
    let comma : Token := ⟨.comma, ",", ⟨"last.s", 1, 7⟩⟩
    let e : Element := ⟨value.location, 0x01020304⟩
    let b := runDirective .word ⟨.directive, ".word", ⟨"last.s", 1, 1⟩⟩
      [comma, value, colon, count] a
    a.log.limit = none ∧ a.memory.Passive ∧ a.segments.active.isData = true ∧
      Denotes .word (DataEntry.withoutCommas [comma, value, colon, count]) 4 [e, e] ∧
      ∃ before e' after fault, [e, e] = before ++ e' :: after ∧
        Laid 4 m 0x7ffffffc before b ∧ b.memory.StoreFault b.segments.cursor e'.value 4 fault ∧
        b.loggedErrors =
          [⟨.error, some e'.location, (AddressError.store b.segments.cursor fault).message⟩] := by
  intro m segments a value colon count comma e b
  have hm : a.memory.Passive := Memory.passive_ofSettings _
  have hvalues : Integers [value, colon, count] (List.replicate (2 : Word).toNat e ++ []) :=
    .repeated rfl rfl rfl (by decide) .nil
  have hdenotes : Denotes .word (DataEntry.withoutCommas [comma, value, colon, count]) 4 [e, e] :=
    .word hvalues
  have herrors : b.loggedErrors.length = 1 := by decide +kernel
  have hstart : a.dataStart 4 = 0x7ffffffc := by decide
  have hnone : a.loggedErrors = [] := rfl
  have hlays := runDirective_lays rfl hm rfl (List.cons_ne_nil _ _) hdenotes (b := b) rfl
  rw [hstart, hnone] at hlays
  refine ⟨rfl, hm, rfl, hdenotes, hlays.resolve_left fun hall => ?_⟩
  rw [hall.2] at herrors
  exact absurd herrors (by decide)

end Assembler
end MipsImage
