/-
Refused writes.

A write of one word is refused before anything is touched.  `StoreFault` and
`StatementFault` list the reasons, and a write fails for one of them and leaves memory as
it was: no word, no statement and no block of it has changed, and no listener was called.

A doubleword is two words, and there is nothing that would take the first back when the
second is refused.  Listeners hear of the first word before the second is tried, and what they
do then may decide what becomes of it.  If they are passive, memory before the call already
tells whether the second word may be written, since the first changes neither the regions nor
what code may do.  `HalfDone` says what such a store leaves behind.
-/
import MipsImage.Assembler
import MipsImage.Proofs.Memory.Notice

namespace MipsImage
namespace Memory

/-! ## Reasons -/

/-- Why the low `length` bytes of a value cannot be put at an address. -/
inductive StoreFault (m : Memory) (address : Address) (value : Word) (length : Nat) :
    AddressFault → Prop where
  | misaligned (odd : address.toNat % alignment length ≠ 0) :
      StoreFault m address value length (.misaligned (alignment length))
  | outOfRange (aligned : address.toNat % alignment length = 0)
      (area : m.areaOf? (Word.containing address) = none) :
      StoreFault m address value length .outOfRange
  | textWriteProtected {which : TextArea} (aligned : address.toNat % alignment length = 0)
      (area : m.areaOf? (Word.containing address) = some (.text which))
      (off : m.selfModifying = false) : StoreFault m address value length .textWriteProtected
  | undecodable {which : TextArea} {word : Word} (aligned : address.toNat % alignment length = 0)
      (area : m.areaOf? (Word.containing address) = some (.text which))
      (on : m.selfModifying = true)
      (spliced : word = m.order.splice (m.wordIn (.text which) (Word.containing address)) value
        address length)
      (unknown : EncodedStatement.decode? word (Word.containing address) = none) :
      StoreFault m address value length (.undecodable word)

/-- Why a statement cannot be put at an address. -/
inductive StatementFault (m : Memory) (address : Address) : AddressFault → Prop where
  | misaligned (odd : address.toNat % 4 ≠ 0) : StatementFault m address (.misaligned 4)
  | outOfRange (aligned : address.toNat % 4 = 0) (area : m.areaOf? address = none) :
      StatementFault m address .outOfRange
  | codeOutsideText {which : DataArea} (aligned : address.toNat % 4 = 0)
      (area : m.areaOf? address = some (.data which)) (off : m.selfModifying = false) :
      StatementFault m address .codeOutsideText

theorem updateWord_text_off {m : Memory} {w : Address} {which : TextArea} {f : Word → Word}
    (harea : m.areaOf? w = some (.text which)) (off : m.selfModifying = false) :
    m.updateWord (.text which) w f = .error .textWriteProtected := by
  simp only [updateWord_text harea, off]
  rfl

theorem updateWord_text_on {m : Memory} {w : Address} {which : TextArea} {f : Word → Word}
    {word : Word} (harea : m.areaOf? w = some (.text which)) (on : m.selfModifying = true)
    (hword : f (m.wordIn (.text which) w) = word) :
    m.updateWord (.text which) w f = (recode w word).map fun s =>
      (m.wordIn (.text which) w, m.setTextRegion which ((m.textRegion which).store w s)) := by
  subst hword
  simp only [updateWord_text harea, on, if_true]

theorem recode_eq_error {w : Address} {v : Word} (h : EncodedStatement.decode? v w = none) :
    recode w v = .error (.undecodable v) := by
  rw [recode, h]

theorem StoreFault.poke {m : Memory} {a : Address} {v : Word} {n : Nat} {fault : AddressFault}
    (h : m.StoreFault a v n fault) : m.poke a v n = .error (.store a fault) := by
  cases h with
  | misaligned odd => simp only [Memory.poke, misalignment?, if_neg odd]
  | outOfRange aligned area => simp only [Memory.poke, misalignment?, if_pos aligned, area]
  | textWriteProtected aligned area off =>
    simp only [Memory.poke, misalignment?, if_pos aligned, area, updateWord_text_off area off]
  | undecodable aligned area on spliced unknown =>
    have hrefused := updateWord_text_on (f := fun old => m.order.splice old v a n) area on
      spliced.symm
    rw [recode_eq_error unknown] at hrefused
    simp only [Memory.poke, misalignment?, if_pos aligned, area, hrefused]
    rfl

theorem exists_storeFault {m : Memory} {a : Address} {v : Word} {n : Nat} {e : AddressError}
    (h : m.poke a v n = .error e) : ∃ fault, m.StoreFault a v n fault ∧ e = .store a fault := by
  by_cases halign : a.toNat % alignment n = 0
  · simp only [Memory.poke, misalignment?, if_pos halign] at h
    cases harea : m.areaOf? (Word.containing a) with
    | none =>
      rw [harea] at h
      cases h
      exact ⟨_, .outOfRange halign harea, rfl⟩
    | some area =>
      rw [harea] at h
      dsimp only at h
      cases area with
      | data which =>
        rw [updateWord_data harea] at h
        cases h
      | text which =>
        cases hallowed : m.selfModifying with
        | false =>
          rw [updateWord_text_off harea hallowed] at h
          cases h
          exact ⟨_, .textWriteProtected halign harea hallowed, rfl⟩
        | true =>
          generalize hword : m.order.splice (m.wordIn (.text which) (Word.containing a)) v a n =
            word
          have hupdate := updateWord_text_on (f := fun old => m.order.splice old v a n) harea
            hallowed hword
          cases hdecode : EncodedStatement.decode? word (Word.containing a) with
          | none =>
            rw [hupdate, recode_eq_error hdecode] at h
            cases h
            exact ⟨_, .undecodable halign harea hallowed hword.symm hdecode, rfl⟩
          | some s =>
            rw [hupdate, recode, hdecode] at h
            cases h
  · simp only [Memory.poke, misalignment?, if_neg halign] at h
    cases h
    exact ⟨_, .misaligned halign, rfl⟩

/-- A store is refused for one of the reasons, and then nothing has happened. -/
theorem store_eq_error_iff {m m' : Memory} {a : Address} {v : Word} {n : Nat} {notify : Bool}
    {e : AddressError} : m.store a v n notify = (.error e, m') ↔
      (∃ fault, m.StoreFault a v n fault ∧ e = .store a fault) ∧ m' = m := by
  rw [store]
  constructor
  · intro h
    cases hpoke : m.poke a v n with
    | error e' =>
      rw [hpoke] at h
      cases h
      exact ⟨exists_storeFault hpoke, rfl⟩
    | ok stored =>
      rw [hpoke] at h
      cases h
  · rintro ⟨⟨fault, hfault, rfl⟩, rfl⟩
    rw [hfault.poke]

theorem StatementFault.pokeStatement {m : Memory} {a : Address} {fault : AddressFault}
    (h : m.StatementFault a fault) (s : EncodedStatement) :
    m.pokeStatement a s = .error (.store a fault) := by
  cases h with
  | misaligned odd =>
    have hmis : misalignment? a 4 = some (.misaligned 4) := if_neg odd
    simp only [Memory.pokeStatement, hmis]
  | outOfRange aligned area =>
    have hmis : misalignment? a 4 = none := if_pos aligned
    simp only [Memory.pokeStatement, hmis, area]
  | codeOutsideText aligned area off =>
    have hmis : misalignment? a 4 = none := if_pos aligned
    simp only [Memory.pokeStatement, hmis, area, off]
    rfl

theorem exists_statementFault {m : Memory} {a : Address} {s : EncodedStatement} {e : AddressError}
    (h : m.pokeStatement a s = .error e) :
    ∃ fault, m.StatementFault a fault ∧ e = .store a fault := by
  by_cases halign : a.toNat % 4 = 0
  · have hmis : misalignment? a 4 = none := if_pos halign
    simp only [pokeStatement, hmis] at h
    cases harea : m.areaOf? a with
    | none =>
      rw [harea] at h
      cases h
      exact ⟨_, .outOfRange halign harea, rfl⟩
    | some area =>
      rw [harea] at h
      cases area with
      | text which => cases h
      | data which =>
        cases hallowed : m.selfModifying with
        | true =>
          rw [hallowed] at h
          cases h
        | false =>
          rw [hallowed] at h
          cases h
          exact ⟨_, .codeOutsideText halign harea hallowed, rfl⟩
  · have hmis : misalignment? a 4 = some (.misaligned 4) := if_neg halign
    simp only [pokeStatement, hmis] at h
    cases h
    exact ⟨_, .misaligned halign, rfl⟩

theorem storeStatement_eq_error_iff {m m' : Memory} {a : Address} {s : EncodedStatement}
    {notify : Bool} {e : AddressError} : m.storeStatement a s notify = (.error e, m') ↔
      (∃ fault, m.StatementFault a fault ∧ e = .store a fault) ∧ m' = m := by
  rw [storeStatement]
  constructor
  · intro h
    cases hpoke : m.pokeStatement a s with
    | error e' =>
      rw [hpoke] at h
      cases h
      exact ⟨exists_statementFault hpoke, rfl⟩
    | ok left =>
      rw [hpoke] at h
      cases h
  · rintro ⟨⟨fault, hfault, rfl⟩, rfl⟩
    rw [hfault.pokeStatement]

/-- Writing bytes, placing a statement and updating a word of a region each fail for their
reasons and no other, and leave everything as it was when they do: words, statements, blocks,
heap and journal.  A region runs the update of a word wherever its directory reaches, which is
everywhere in its range. -/
theorem write_refused (m : Memory) (notify : Bool) :
    (∀ address value (width : Width) e m',
      m.store address value width.bytes notify = (.error e, m') ↔
        (∃ fault, m.StoreFault address value width.bytes fault ∧ e = .store address fault) ∧
          m' = m) ∧
    (∀ address s e m', m.storeStatement address s notify = (.error e, m') ↔
      (∃ fault, m.StatementFault address fault ∧ e = .store address fault) ∧ m' = m) ∧
    ∀ (α ε : Type) (r r' : Region α) address (f : α → Except ε α) e,
      (r.contains address = true → r.tableIndex address < r.tables.size) ∧
      (r.update address f = (.error e, r') ↔
        r.tableIndex address < r.tables.size ∧ f (r.fetch address) = .error e ∧ r' = r) :=
  ⟨fun _ _ _ _ _ => store_eq_error_iff, fun _ _ _ _ => storeStatement_eq_error_iff,
    fun _ _ _ _ _ _ _ => ⟨Region.tableIndex_lt, Region.update_eq_error_iff⟩⟩

/-! ## One word written -/

/-- `m'` is `m` with the word `v` at `w`.  What else there is in memory is as it was, up to the
rest of the block of `w`, which is now present. -/
structure OneWord (m : Memory) (w : Address) (v : Word) (m' : Memory) : Prop where
  frame : Frame m m'
  word : (m'.fetch w 4 false).1 = .ok v
  words : ∀ x, x ≠ w → (m'.fetch x 4 false).1 = (m.fetch x 4 false).1
  statements : ∀ x, x ≠ w → (m'.fetchStatement x false).1 = (m.fetchStatement x false).1
  dataBlocks : ∀ which x, (m.dataRegion which).contains x = true →
    w.toNat / 4096 ≠ x.toNat / 4096 →
      (m'.dataRegion which).fetchOrAbsent x = (m.dataRegion which).fetchOrAbsent x
  textBlocks : ∀ which x, (m.textRegion which).contains x = true →
    w.toNat / 4096 ≠ x.toNat / 4096 →
      (m'.textRegion which).fetchOrAbsent x = (m.textRegion which).fetchOrAbsent x

/-- What a word reads as, and as which statement, depends on its place in the regions. -/
theorem fetch_congr {m m' : Memory} (hframe : Frame m m') {x : Address}
    (hdata : x.toNat % 4 = 0 → ∀ which, (m.dataRegion which).contains x = true →
      (m'.dataRegion which).fetch x = (m.dataRegion which).fetch x)
    (htext : x.toNat % 4 = 0 → ∀ which, (m.textRegion which).contains x = true →
      (m'.textRegion which).fetch x = (m.textRegion which).fetch x) :
    (m'.fetch x 4 false).1 = (m.fetch x 4 false).1 ∧
      (m'.fetchStatement x false).1 = (m.fetchStatement x false).1 := by
  by_cases halign : x.toNat % 4 = 0
  · have hmis : misalignment? x 4 = none := if_pos halign
    simp only [fetch, peek, fetchStatement, peekStatement, hmis, Word.containing_eq_self halign,
      hframe.area, hframe.order, hframe.selfModifying, wordIn]
    cases harea : m.areaOf? x with
    | none => exact ⟨rfl, rfl⟩
    | some area =>
      cases area with
      | data which =>
        dsimp only
        rw [hdata halign which (contains_of_areaOf?_data harea)]
        refine ⟨rfl, ?_⟩
        split_ifs
        · rfl
        · rfl
      | text which =>
        dsimp only
        rw [htext halign which (contains_of_areaOf?_text harea)]
        exact ⟨rfl, rfl⟩
  · have hmis : misalignment? x 4 = some (.misaligned 4) := if_neg halign
    simp only [fetch, peek, fetchStatement, peekStatement, hmis, and_self]

theorem Deposit.oneWord {m m' : Memory} {w : Address} {v : Word} (hw : w.toNat % 4 = 0)
    (h : Deposit m w v m') : OneWord m w v m' where
  frame := h.frame
  word := by
    obtain ⟨area, harea, rfl⟩ := wordAt_eq_some_iff.mp h.wordAt_self
    exact fetch_word hw harea
  words x hx := (fetch_congr h.frame (fun halign => (h.fetch_of_ne hw halign hx).1)
    fun halign => (h.fetch_of_ne hw halign hx).2).1
  statements x hx := (fetch_congr h.frame (fun halign => (h.fetch_of_ne hw halign hx).1)
    fun halign => (h.fetch_of_ne hw halign hx).2).2
  dataBlocks k x hx hblock := by
    rcases h.dataRegion k with hsame | ⟨harea, hstored⟩
    · rw [hsame]
    · rw [hstored, Region.fetchOrAbsent_store (contains_of_areaOf?_data harea) hx, if_neg hblock]
  textBlocks k x hx hblock := by
    rcases h.textRegion k with hsame | ⟨s, -, harea, hstored⟩
    · rw [hsame]
    · rw [hstored, Region.fetchOrAbsent_store (contains_of_areaOf?_text harea) hx, if_neg hblock]

/-- Passive listeners leave it at that. -/
theorem OneWord.told {m m₁ m₂ : Memory} {w : Address} {v : Word} (h : OneWord m w v m₁)
    (k : Told m₁ m₂) : OneWord m w v m₂ := by
  have hsame (x : Address) := fetch_congr k.frame (x := x)
    (fun _ which _ => by rw [k.sameData which]) (fun _ which _ => by rw [k.sameText which])
  exact
    { frame := h.frame.trans k.frame
      word := (hsame w).1.trans h.word
      words := fun x hx => (hsame x).1.trans (h.words x hx)
      statements := fun x hx => (hsame x).2.trans (h.statements x hx)
      dataBlocks := fun which x hx hblock => by
        rw [k.sameData which, h.dataBlocks which x hx hblock]
      textBlocks := fun which x hx hblock => by
        rw [k.sameText which, h.textBlocks which x hx hblock] }

/-- A quiet store of a word is told as what it is. -/
theorem poke_word {m : Memory} {a : Address} {v : Word} {stored : Stored}
    (h : m.poke a v 4 = .ok stored) :
    a.toNat % 4 = 0 ∧ stored.access = wordAccess a v := by
  obtain ⟨halign, word, -, -, haccess, -⟩ := poke_eq_ok h
  have ha : a.toNat % 4 = 0 := aligned_of_misalignment? halign
  rw [Word.containing_eq_self ha, ByteOrder.splice_word _ ha, ByteOrder.truncate_word] at haccess
  exact ⟨ha, haccess⟩

theorem oneWord_poke {m : Memory} {a : Address} {v : Word} {stored : Stored}
    (h : m.poke a v 4 = .ok stored) : OneWord m a v stored.memory := by
  obtain ⟨ha, haccess⟩ := poke_word h
  have hdeposit := deposit_of_poke h
  rw [Word.containing_eq_self ha, haccess] at hdeposit
  exact hdeposit.oneWord ha

/-! ## Two words in a row -/

/-- Whether a whole word can be stored does not depend on what is in memory. -/
theorem StoreFault.congr {m m' : Memory} (hframe : Frame m m') {a : Address} {v : Word}
    {fault : AddressFault} (h : m.StoreFault a v 4 fault) : m'.StoreFault a v 4 fault := by
  cases h with
  | misaligned odd => exact .misaligned odd
  | outOfRange aligned area => exact .outOfRange aligned ((hframe.area _).trans area)
  | textWriteProtected aligned area off =>
    exact .textWriteProtected aligned ((hframe.area _).trans area)
      (hframe.selfModifying.trans off)
  | undecodable aligned area on spliced unknown =>
    refine .undecodable aligned ((hframe.area _).trans area) (hframe.selfModifying.trans on) ?_
      unknown
    rw [spliced, ByteOrder.splice_word _ aligned, ByteOrder.splice_word _ aligned]

theorem store_word_of_poke {m : Memory} {a : Address} {v : Word} {stored : Stored}
    (h : m.poke a v 4 = .ok stored) (notify : Bool) :
    m.store a v 4 notify =
      (.ok stored.replaced, stored.memory.announceIf notify (.write (wordAccess a v))) := by
  rw [store, h, ← (poke_word h).2]

/-- The calls that a write of one word makes: those whom it concerns, once each. -/
def calls (m : Memory) (notify : Bool) (address : Address) (value : Word) : List Delivery :=
  if notify then
    let notice := Notice.write (wordAccess address value)
    (notice.recipients m.watches).map fun listener => ⟨listener, notice⟩
  else []

/-- With passive listeners a store of a word that goes through leaves that word, and the calls
for it in the journal. -/
theorem store_word_leaves {m m' : Memory} (hm : m.Passive) {a : Address} {v old : Word}
    {notify : Bool} (h : m.store a v 4 notify = (.ok old, m')) :
    OneWord m a v m' ∧ m'.journal.toList = m.journal.toList ++ m.calls notify a v := by
  cases hpoke : m.poke a v 4 with
  | error e =>
    rw [store, hpoke] at h
    cases h
  | ok stored =>
    rw [store_word_of_poke hpoke] at h
    cases h
    have hone := oneWord_poke hpoke
    have hdeposit := deposit_of_poke hpoke
    have hpassive : stored.memory.Passive := hdeposit.frame.within hm
    refine ⟨hone.told (told_announceIf hpassive notify _), ?_⟩
    cases notify with
    | false =>
      rw [calls, if_neg Bool.false_ne_true, List.append_nil]
      exact congrArg Array.toList hdeposit.journal
    | true =>
      rw [calls, if_pos rfl, announceIf, if_pos rfl, journal_announce, hdeposit.journal,
        hdeposit.watches]

/-- What a refused doubleword leaves: if its first word is refused, all as it was; if the second
is, what a store of the first word alone leaves, and that is this word and the calls for it. -/
inductive HalfDone (m : Memory) (address : Address) (value : UInt64) (notify : Bool) :
    AddressError → Memory → Prop where
  | nothing {fault : AddressFault}
      (refused : m.StoreFault address (m.order.split value).1 4 fault) :
      HalfDone m address value notify (.store address fault) m
  | firstWord {fault : AddressFault} {old : Word} {m' : Memory}
      (first : m.store address (m.order.split value).1 4 notify = (.ok old, m'))
      (word : OneWord m address (m.order.split value).1 m')
      (journal : m'.journal.toList =
        m.journal.toList ++ m.calls notify address (m.order.split value).1)
      (refused : m.StoreFault (address + 4) (m.order.split value).2 4 fault) :
      HalfDone m address value notify (.store (address + 4) fault) m'

/-- Whatever listeners do, they are not called if the first word is refused. -/
theorem StoreFault.storeDoubleword {m : Memory} {a : Address} {v : UInt64} {fault : AddressFault}
    (h : m.StoreFault a (m.order.split v).1 4 fault) (notify : Bool) :
    m.storeDoubleword a v notify = (.error (.store a fault), m) := by
  by_cases halign : a.toNat % 4 = 0
  · have hmis : misalignment? a 8 = none := if_pos halign
    simp only [Memory.storeDoubleword, hmis, store, h.poke]
  · have hmis : misalignment? a 8 = some (.misaligned 4) := if_neg halign
    have hodd : m.StoreFault a (m.order.split v).1 4 (.misaligned 4) := .misaligned halign
    simp only [Memory.storeDoubleword, hmis]
    rw [Except.error.inj (hodd.poke.symm.trans h.poke)]

theorem halfDone_of_storeDoubleword {m m' : Memory} (hm : m.Passive) {a : Address} {v : UInt64}
    {notify : Bool} {e : AddressError} (h : m.storeDoubleword a v notify = (.error e, m')) :
    m.HalfDone a v notify e m' := by
  by_cases halign : a.toNat % 4 = 0
  · have hmis : misalignment? a 8 = none := if_pos halign
    simp only [Memory.storeDoubleword, hmis] at h
    rcases hfirst : m.store a (m.order.split v).1 4 notify with ⟨_ | old, m₁⟩
    · rw [hfirst] at h
      cases h
      obtain ⟨⟨fault, hfault, rfl⟩, rfl⟩ := store_eq_error_iff.mp hfirst
      exact .nothing hfault
    · rw [hfirst] at h
      dsimp only at h
      obtain ⟨hword, hjournal⟩ := store_word_leaves hm hfirst
      rcases hsecond : m₁.store (a + 4) (m.order.split v).2 4 notify with ⟨_ | old', m₂⟩
      · rw [hsecond] at h
        cases h
        obtain ⟨⟨fault, hfault, rfl⟩, rfl⟩ := store_eq_error_iff.mp hsecond
        -- the second word is refused by the memory the first was stored into, hence by `m`
        exact .firstWord hfirst hword hjournal (hfault.congr hword.frame.symm)
      · rw [hsecond] at h
        cases h
  · have hmis : misalignment? a 8 = some (.misaligned 4) := if_neg halign
    simp only [Memory.storeDoubleword, hmis] at h
    cases h
    exact .nothing (.misaligned halign)

theorem HalfDone.storeDoubleword {m m' : Memory} {a : Address} {v : UInt64} {notify : Bool}
    {e : AddressError} (h : m.HalfDone a v notify e m') :
    m.storeDoubleword a v notify = (.error e, m') := by
  cases h with
  | nothing refused => exact refused.storeDoubleword notify
  | firstWord first word journal refused =>
    have halign : a.toNat % 4 = 0 := by
      by_contra hodd
      have hfault : m.StoreFault a (m.order.split v).1 4 (.misaligned 4) := .misaligned hodd
      rw [store_eq_error_iff.mpr ⟨⟨_, hfault, rfl⟩, rfl⟩] at first
      cases first
    have hmis : misalignment? a 8 = none := if_pos halign
    simp only [Memory.storeDoubleword, hmis, first]
    rw [store_eq_error_iff.mpr ⟨⟨_, refused.congr word.frame, rfl⟩, rfl⟩]

theorem storeDoubleword_eq_error_iff {m m' : Memory} (hm : m.Passive) {a : Address} {v : UInt64}
    {notify : Bool} {e : AddressError} :
    m.storeDoubleword a v notify = (.error e, m') ↔ m.HalfDone a v notify e m' :=
  ⟨halfDone_of_storeDoubleword hm, HalfDone.storeDoubleword⟩

end Memory

/-- A doubleword that cannot be stored is reported, and only the memory and the log of the
assembler change. -/
theorem Assembler.writeDoubleword_eq_false_iff {a b : Assembler} {location : Location}
    {value : UInt64} : a.writeDoubleword location value = (false, b) ↔
      ∃ e memory, a.memory.storeDoubleword a.segments.cursor value true = (.error e, memory) ∧
        b = { a with memory, log := a.log.add ⟨.error, some location, e.message⟩ } := by
  rw [writeDoubleword]
  rcases a.memory.storeDoubleword a.segments.cursor value true with ⟨e | old, memory⟩
  · constructor
    · intro h
      cases h
      exact ⟨e, memory, rfl, rfl⟩
    · rintro ⟨e', memory', h, rfl⟩
      cases h
      rfl
  · constructor
    · intro h
      cases h
    · rintro ⟨e', memory', h, -⟩
      cases h

namespace Memory

theorem eq_error_of_refusal? {α : Type} {result : Except AddressError α × Memory}
    {e : AddressError} (h : refusal? result.1 = some e) : result = (.error e, result.2) := by
  obtain ⟨outcome, m⟩ := result
  cases outcome with
  | ok v => cases h
  | error e' =>
    cases h
    rfl

/-- A doubleword whose first word is refused changes nothing, whoever listens.  If listeners
are passive, a doubleword is refused if one of its words is, and if that is only the second, the
first stays, with its block and what listeners were told of it, and that is all.  So an element
of a data directive that cannot be stored leaves the cursor where it was, and of memory no more
than the first of its words has changed. -/
theorem storeDoubleword_refused (value : UInt64) :
    (∀ (m : Memory) address notify fault,
      m.StoreFault address (m.order.split value).1 4 fault →
        m.storeDoubleword address value notify = (.error (.store address fault), m)) ∧
    (∀ m : Memory, m.Passive → ∀ address notify e m',
      m.storeDoubleword address value notify = (.error e, m') ↔
        m.HalfDone address value notify e m') ∧
    ∀ (a b : Assembler) location, a.memory.Passive →
      (a.writeDoubleword location value = (false, b) ↔
        ∃ e memory, a.memory.HalfDone a.segments.cursor value true e memory ∧
          b = { a with memory, log := a.log.add ⟨.error, some location, e.message⟩ }) := by
  refine ⟨fun m address notify fault h => h.storeDoubleword notify,
    fun m hm address notify e m' => storeDoubleword_eq_error_iff hm, fun a b location hm => ?_⟩
  rw [Assembler.writeDoubleword_eq_false_iff]
  simp only [storeDoubleword_eq_error_iff hm]

/-- The last word of data takes the first half and kernel text refuses the second; the listener
hears of the half that was stored.  A data directive there reports it and goes no further. -/
theorem storeDoubleword_refused_at_kernel_text :
    let m := ((ofSettings ⟨Layout.standard, .big, false⟩).addListener
      ⟨1, fun _ => []⟩).watchEverywhere 0
    let after := (m.storeDoubleword 0x7ffffffc 0x0000000200000001 true).2
    let e := AddressError.store 0x80000000 .textWriteProtected
    let segments := ((Segments.ofLayout m.layout).switchTo .data).setCursor 0x7ffffffc
    let a := { Assembler.start ⟨none, false⟩ m with segments }
    let location : Location := ⟨"half.s", 1, 18⟩
    m.HalfDone 0x7ffffffc 0x0000000200000001 true e after ∧
      after.journal.toList = [⟨0, .write (wordAccess 0x7ffffffc 2)⟩] ∧
      a.writeDoubleword location 0x0000000200000001 =
        (false,
          { a with memory := after, log := a.log.add ⟨.error, some location, e.message⟩ }) := by
  intro m after e segments a location
  obtain ⟨hrefused, hjournal⟩ :
      refusal? (m.storeDoubleword 0x7ffffffc 0x0000000200000001 true).1 = some e ∧
      after.journal.toList = [⟨0, .write (wordAccess 0x7ffffffc 2)⟩] := by
    decide +kernel
  have hm : m.Passive := (passive_ofSettings _).addListener (Listener.within_idle _ 1)
  obtain ⟨-, hstore, hwrite⟩ := storeDoubleword_refused 0x0000000200000001
  have hhalf : m.HalfDone 0x7ffffffc 0x0000000200000001 true e after :=
    (hstore m hm _ _ _ _).mp (eq_error_of_refusal? hrefused)
  exact ⟨hhalf, hjournal, (hwrite a _ location hm).mpr ⟨e, after, hhalf, rfl⟩⟩

/-- A doubleword at the last word of data is refused and has changed that word, in a block that
was not there before. -/
theorem storeDoubleword_not_undone :
    let m := ofSettings ⟨Layout.standard, .little, false⟩
    let result := m.storeDoubleword 0x7ffffffc 0x0000000200000001 false
    refusal? result.1 = some (.store 0x80000000 .textWriteProtected) ∧
      (m.fetch 0x7ffffffc 4 false).1.toOption = some 0 ∧
      (result.2.fetch 0x7ffffffc 4 false).1.toOption = some 1 ∧
      m.data.allocatedBlocks = 0 ∧ result.2.data.allocatedBlocks = 1 := by
  decide +kernel

end Memory
end MipsImage
