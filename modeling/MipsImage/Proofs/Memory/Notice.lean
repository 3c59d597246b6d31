/-
What listeners are told is true.

The description of an access is made up by whoever carries it out, from what is at hand,
and never read back.  It is `Truthful` if it could have been read back: the word it speaks
of is the one memory now holds there, and the value is the part of that word at the
address.  Memory now is memory as the access left it, before the first listener is called,
and that is what the same access leaves when it is a quiet one.

One access is told wrongly.  Fetching a statement from data decodes the word there, and if
no instruction has that word, it is announced as zero.
-/
import MipsImage.Proofs.Memory.Coherence

namespace MipsImage

/-- An access that describes what is in memory. -/
structure Access.Truthful (access : Access) (m : Memory) : Prop where
  wordAddress : access.wordAddress.toNat = access.address.toNat / 4 * 4
  wordValue : (m.fetch access.wordAddress 4 false).1 = .ok access.wordValue
  /-- The bytes of the word from the address on, as many as the access is long. -/
  value : access.value.toNat = m.order.ofBytes
    (((m.order.toBytes 4 access.wordValue.toNat).drop (access.address.toNat % 4)).take
      access.length)

namespace Memory

/-! ## Requests -/

namespace Request

/-- The requests for single words that a request comes down to. -/
def parts (order : ByteOrder) : Request → List Request
  | fetchDoubleword a => [fetch a .word, fetch (a + 4) .word]
  | storeDoubleword a v => [store a (order.split v).1 .word, store (a + 4) (order.split v).2 .word]
  | r => [r]

/-- Whether one access to one word is all there is to it. -/
def single : Request → Bool
  | fetchDoubleword _ | storeDoubleword _ _ => false
  | _ => true

def address : Request → Address
  | fetch a _ | store a _ _ | fetchStatement a | storeStatement a _ | fetchDoubleword a
  | storeDoubleword a _ => a

def length : Request → Nat
  | fetch _ width | store _ _ width => width.bytes
  | fetchStatement _ | storeStatement _ _ => 4
  | fetchDoubleword _ | storeDoubleword _ _ => 8

/-- What listeners are told of an access made for a request. -/
def notice (access : Access) : Request → Notice
  | fetch _ _ | fetchStatement _ | fetchDoubleword _ => .read access
  | store _ _ _ | storeStatement _ _ | storeDoubleword _ _ => .write access

/-- A statement is wanted from data, and the word there is none. -/
def Undecoded (m : Memory) : Request → Prop
  | fetchStatement a => ∃ which, m.areaOf? a = some (.data which) ∧
      EncodedStatement.decode? ((m.dataRegion which).fetch a) a = none
  | _ => False

end Request

/-! ## Single words -/

/-- A request that goes through.  It leaves `left`, and if listeners are told, then of
`access`. -/
structure Granted (m : Memory) (r : Request) (left : Memory) (access : Access) : Prop where
  run : ∀ notify, r.run m notify = (none, left.announceIf notify (r.notice access))
  journal : left.journal = m.journal
  address : access.address = r.address
  length : access.length = r.length
  truthful : access.Truthful left ↔ ¬ r.Undecoded m
  undecoded : r.Undecoded m → access = wordAccess r.address 0

/-- A request that is refused, and nothing has happened. -/
def Refused (m : Memory) (r : Request) : Prop :=
  ∃ e, ∀ notify, r.run m notify = (some e, m)

theorem fetch_word {m : Memory} {w : Address} {area : Area} (hw : w.toNat % 4 = 0)
    (harea : m.areaOf? w = some area) : (m.fetch w 4 false).1 = .ok (m.wordIn area w) := by
  have halign : misalignment? w 4 = none := if_pos hw
  refine fetch_eq_ok_iff.mpr ⟨halign, m.wordIn area w, ?_, ?_⟩
  · rw [Word.containing_eq_self hw, wordAt, harea, Option.map_some]
  · rw [ByteOrder.extract_word _ hw]

/-- To describe an access truly it is enough to know the word around it. -/
theorem truthful_part {m : Memory} {a : Address} {n : Nat} {area : Area}
    (hfits : ByteOrder.Fits a n) (harea : m.areaOf? (Word.containing a) = some area) :
    Access.Truthful ⟨a, n, m.order.extract (m.wordIn area (Word.containing a)) a n,
      Word.containing a, m.wordIn area (Word.containing a)⟩ m where
  wordAddress := Word.toNat_containing a
  wordValue := fetch_word (Word.containing_aligned a) harea
  value := by
    rw [← ByteOrder.toBytes_extract _ hfits, ByteOrder.ofBytes_toBytes,
      Nat.mod_eq_of_lt (toNat_extract_lt _ hfits _)]

theorem truthful_wordAccess {m : Memory} {a : Address} {area : Area} {v : Word}
    (ha : a.toNat % 4 = 0) (harea : m.areaOf? a = some area) :
    (wordAccess a v).Truthful m ↔ m.wordIn area a = v := by
  constructor
  · intro h
    exact Except.ok.inj ((fetch_word ha harea).symm.trans h.wordValue)
  · rintro rfl
    have hfits : ByteOrder.Fits a 4 := fits_of_misalignment? (.inr (.inr rfl)) (if_pos ha)
    have hpart := truthful_part hfits (by rwa [Word.containing_eq_self ha])
    rwa [Word.containing_eq_self ha, ByteOrder.extract_word _ ha] at hpart

/-- A word is the encoding of what it decodes to, if it decodes at all: zero, which stands for
the others, is itself an instruction. -/
theorem eq_encoding_decode?_iff (w : Word) (a : Address) :
    w = encoding (EncodedStatement.decode? w a) ↔ EncodedStatement.decode? w a ≠ none := by
  have hzero : EncodedStatement.decode? 0 a ≠ none := by
    rw [EncodedStatement.decode?, Ne, Option.map_eq_none_iff]
    decide
  constructor
  · intro hw hnone
    rw [hnone] at hw
    rw [show w = 0 from hw] at hnone
    exact hzero hnone
  · intro hsome
    obtain ⟨s, hdecode⟩ := Option.ne_none_iff_exists'.mp hsome
    rw [hdecode]
    exact (binary_of_decode? hdecode).symm

theorem undecoded_iff {m : Memory} {a : Address} {which : DataArea}
    (harea : m.areaOf? a = some (.data which)) : (Request.fetchStatement a).Undecoded m ↔
      EncodedStatement.decode? ((m.dataRegion which).fetch a) a = none := by
  refine ⟨?_, fun h => ⟨which, harea, h⟩⟩
  rintro ⟨k, hk, h⟩
  cases harea.symm.trans hk
  exact h

theorem not_undecoded {m : Memory} {a : Address} {which : TextArea}
    (harea : m.areaOf? a = some (.text which)) : ¬ (Request.fetchStatement a).Undecoded m := by
  rintro ⟨k, hk, -⟩
  cases harea.symm.trans hk

theorem fetch_outcome (m : Memory) (a : Address) (width : Width) :
    Refused m (.fetch a width) ∨ ∃ left access, Granted m (.fetch a width) left access := by
  cases hpeek : m.peek a width.bytes with
  | error e =>
    refine .inl ⟨e, fun notify => ?_⟩
    rw [Request.run, fetch, hpeek]
    rfl
  | ok access =>
    obtain ⟨halign, area, harea, rfl⟩ := peek_eq_ok hpeek
    have hfits := fits_of_misalignment? width.bytes_cases halign
    refine .inr ⟨m, _, fun notify => ?_, rfl, rfl, rfl,
      ⟨fun _ h => h, fun _ => truthful_part hfits harea⟩, fun h => h.elim⟩
    rw [Request.run, fetch, hpeek]
    rfl

theorem store_outcome (m : Memory) (a : Address) (v : Word) (width : Width) :
    Refused m (.store a v width) ∨ ∃ left access, Granted m (.store a v width) left access := by
  cases hpoke : m.poke a v width.bytes with
  | error e =>
    refine .inl ⟨e, fun notify => ?_⟩
    rw [Request.run, store, hpoke]
    rfl
  | ok stored =>
    obtain ⟨halign, word, -, -, haccess, hupdated⟩ := poke_eq_ok hpoke
    have hfits := fits_of_misalignment? width.bytes_cases halign
    have hdeposit := hupdated.deposit
    obtain ⟨area, harea, hword⟩ := wordAt_eq_some_iff.mp hdeposit.wordAt_self
    have htrue : stored.access.Truthful stored.memory := by
      have hpart := truthful_part hfits harea
      rwa [hword, hdeposit.frame.order, ByteOrder.extract_splice _ hfits, ← haccess] at hpart
    refine .inr ⟨stored.memory, stored.access, fun notify => ?_, hdeposit.journal,
      by rw [haccess]; rfl, by rw [haccess]; rfl, ⟨fun _ h => h, fun _ => htrue⟩, fun h => h.elim⟩
    rw [Request.run, store, hpoke]
    rfl

theorem fetchStatement_outcome (m : Memory) (a : Address) :
    Refused m (.fetchStatement a) ∨ ∃ left access, Granted m (.fetchStatement a) left access := by
  cases halign : misalignment? a 4 with
  | some fault =>
    refine .inl ⟨.load a fault, fun notify => ?_⟩
    simp only [Request.run, fetchStatement, peekStatement, halign]
    rfl
  | none =>
    have ha : a.toNat % 4 = 0 := aligned_of_misalignment? halign
    cases harea : m.areaOf? a with
    | none =>
      refine .inl ⟨.load a .outOfRange, fun notify => ?_⟩
      simp only [Request.run, fetchStatement, peekStatement, halign, harea]
      rfl
    | some area =>
      cases area with
      | text which =>
        have htrue : (wordAccess a (encoding ((m.textRegion which).fetch a))).Truthful m :=
          (truthful_wordAccess ha harea).mpr rfl
        refine .inr ⟨m, _, fun notify => ?_, rfl, rfl, rfl,
          iff_of_true htrue (not_undecoded harea), fun h => absurd h (not_undecoded harea)⟩
        simp only [Request.run, fetchStatement, peekStatement, halign, harea]
        rfl
      | data which =>
        cases hallowed : m.selfModifying with
        | false =>
          refine .inl ⟨.load a .codeOutsideText, fun notify => ?_⟩
          simp only [Request.run, fetchStatement, peekStatement, halign, harea, hallowed]
          rfl
        | true =>
          refine .inr ⟨m, wordAccess a
            (encoding (EncodedStatement.decode? ((m.dataRegion which).fetch a) a)),
            fun notify => ?_, rfl, rfl, rfl, ?_, fun h => ?_⟩
          · simp only [Request.run, fetchStatement, peekStatement, halign, harea, hallowed]
            rfl
          · rw [truthful_wordAccess ha harea, undecoded_iff harea]
            exact eq_encoding_decode?_iff _ a
          · rw [(undecoded_iff harea).mp h]
            rfl

theorem storeStatement_outcome (m : Memory) (a : Address) (s : EncodedStatement) :
    Refused m (.storeStatement a s) ∨
      ∃ left access, Granted m (.storeStatement a s) left access := by
  cases hpoke : m.pokeStatement a s with
  | error e =>
    refine .inl ⟨e, fun notify => ?_⟩
    rw [Request.run, storeStatement, hpoke]
    rfl
  | ok left =>
    obtain ⟨ha, hdeposit⟩ := pokeStatement_eq_ok hpoke
    obtain ⟨area, harea, hword⟩ := wordAt_eq_some_iff.mp hdeposit.wordAt_self
    have htrue : (wordAccess a s.binary).Truthful left :=
      (truthful_wordAccess ha harea).mpr hword
    refine .inr ⟨left, wordAccess a s.binary, fun notify => ?_, hdeposit.journal, rfl, rfl,
      ⟨fun _ h => h, fun _ => htrue⟩, fun h => h.elim⟩
    rw [Request.run, storeStatement, hpoke]
    rfl

theorem single_outcome (m : Memory) {r : Request} (hr : r.single = true) :
    Refused m r ∨ ∃ left access, Granted m r left access := by
  cases r with
  | fetch a width => exact fetch_outcome m a width
  | store a v width => exact store_outcome m a v width
  | fetchStatement a => exact fetchStatement_outcome m a
  | storeStatement a s => exact storeStatement_outcome m a s
  | fetchDoubleword a => cases hr
  | storeDoubleword a v => cases hr

/-! ## Two words in a row -/

theorem andThen_of_refused {m : Memory} {first : Request} (h : Refused m first)
    (second : Request) : ∃ e, ∀ notify, first.andThen second m notify = (some e, m) := by
  obtain ⟨e, hrun⟩ := h
  refine ⟨e, fun notify => ?_⟩
  rw [Request.andThen, hrun]

theorem andThen_of_granted {m left : Memory} {first : Request} {access : Access}
    (h : Granted m first left access) (second : Request) (notify : Bool) :
    first.andThen second m notify =
      second.run (left.announceIf notify (first.notice access)) notify := by
  rw [Request.andThen, h.run]

/-- Every request is for a single word, or two requests for single words. -/
theorem parts_outcome (m : Memory) (r : Request) :
    r.single = true ∧ r.parts m.order = [r] ∨ r.single = false ∧
      ∃ first second, first.single = true ∧ second.single = true ∧
        r.parts m.order = [first, second] ∧
        ∀ notify, r.run m notify = first.andThen second m notify := by
  cases r with
  | fetchDoubleword a => exact .inr ⟨rfl, _, _, rfl, rfl, rfl, run_fetchDoubleword m a⟩
  | storeDoubleword a v => exact .inr ⟨rfl, _, _, rfl, rfl, rfl, run_storeDoubleword m a v⟩
  | _ => exact .inl ⟨rfl, rfl⟩

/-! ## Whole runs -/

/-- What requests for single words keep is kept by all of them. -/
theorem run_of_single {P : Memory → Prop} {notify : Bool}
    (hP : ∀ {m : Memory} {r : Request}, P m → r.single = true → P (r.run m notify).2)
    {m : Memory} (hm : P m) (r : Request) : P (r.run m notify).2 := by
  rcases parts_outcome m r with ⟨hr, -⟩ | ⟨-, first, second, hfirst, hsecond, -, hrun⟩
  · exact hP hm hr
  · rw [hrun]
    exact andThen_keeps (hP hm hfirst) fun _ _ hone => hP hone hsecond

theorem journal_run_quiet (m : Memory) (r : Request) :
    (r.run m false).2.journal = m.journal := by
  refine run_of_single (P := fun k => k.journal = m.journal) (fun {k r} hk hr => ?_) rfl r
  rcases single_outcome k hr with ⟨e, hrun⟩ | ⟨left, access, hgranted⟩
  · rw [hrun]
    exact hk
  · rw [hgranted.run]
    exact hgranted.journal.trans hk

/-- One round of calls: the request it is for, memory as the access left it, and what the
listeners are told. -/
structure Call where
  request : Request
  left : Memory
  access : Access

namespace Call

def notice (c : Call) : Notice :=
  c.request.notice c.access

/-- Memory after the listeners have been called. -/
def after (c : Call) : Memory :=
  c.left.announce c.notice

/-- The entries of the journal that the calls make. -/
def deliveries (c : Call) : List Delivery :=
  (c.notice.recipients c.left.watches).map fun listener => ⟨listener, c.notice⟩

end Call

/-- From one memory to another by granted requests, each of them told to listeners once. -/
inductive Leads : Memory → List Call → Memory → Prop where
  | done (m : Memory) : Leads m [] m
  | call {m m' : Memory} {c : Call} {rest : List Call}
      (granted : Granted m c.request c.left c.access) (next : Leads c.after rest m') :
      Leads m (c :: rest) m'

/-- Nobody is told anything else. -/
theorem Leads.journal {m m' : Memory} {calls : List Call} (h : Leads m calls m') :
    m'.journal.toList = m.journal.toList ++ calls.flatMap Call.deliveries := by
  induction h with
  | done m => rw [List.flatMap_nil, List.append_nil]
  | call granted next ih =>
    rw [ih, Call.after, journal_announce, granted.journal, List.flatMap_cons, List.append_assoc,
      Call.deliveries]

theorem run_leads (m : Memory) (r : Request) :
    ∃ calls, Leads m calls (r.run m true).2 ∧ calls.map Call.request <+: r.parts m.order ∧
      ((r.run m true).1 = none → calls.map Call.request = r.parts m.order) ∧
      (r.single = true → (r.run m true).1 ≠ none → calls = []) := by
  have hfails {e : AddressError} {P : Prop} (h : some e = none) : P :=
    absurd h (Option.some_ne_none e)
  have hdouble {P : Prop} (h : false = true) : P := absurd h Bool.false_ne_true
  rcases parts_outcome m r with
    ⟨hr, hparts⟩ | ⟨hr, first, second, hfirst, hsecond, hparts, hrun⟩
  · rw [hparts]
    rcases single_outcome m hr with ⟨e, hrun⟩ | ⟨left, access, hgranted⟩
    · rw [hrun]
      exact ⟨[], .done m, List.nil_prefix, hfails, fun _ _ => rfl⟩
    · rw [hgranted.run]
      exact ⟨[⟨r, left, access⟩], .call hgranted (.done _), List.prefix_refl _, fun _ => rfl,
        fun _ h => absurd rfl h⟩
  · rw [hparts, hrun, hr]
    rcases single_outcome m hfirst with hrefused | ⟨left, access, hgranted⟩
    · obtain ⟨e, hstop⟩ := andThen_of_refused hrefused second
      rw [hstop]
      exact ⟨[], .done m, List.nil_prefix, hfails, hdouble⟩
    · rw [andThen_of_granted hgranted]
      rcases single_outcome (left.announce (first.notice access)) hsecond with
        ⟨e, hstop⟩ | ⟨left', access', hgranted'⟩
      · refine ⟨[⟨first, left, access⟩], ?_, ⟨[second], rfl⟩, ?_, hdouble⟩
        · rw [announceIf, if_pos rfl, hstop]
          exact .call hgranted (.done _)
        · rw [announceIf, if_pos rfl, hstop]
          exact hfails
      · refine ⟨[⟨first, left, access⟩, ⟨second, left', access'⟩], ?_, List.prefix_refl _,
          fun _ => rfl, hdouble⟩
        rw [announceIf, if_pos rfl, hgranted'.run]
        exact .call hgranted (.call hgranted' (.done _))

/-- A quiet access is told to nobody, and any other is told once for each word it
gets to, as soon as that word is read or written.  What is told then is what is in memory, but
for a word of data that was wanted as a statement and is none. -/
theorem run_told (m : Memory) (r : Request) :
    (r.run m false).2.journal = m.journal ∧
    ∃ calls, Leads m calls (r.run m true).2 ∧
      (r.run m true).2.journal.toList = m.journal.toList ++ calls.flatMap Call.deliveries ∧
      calls.map Call.request <+: r.parts m.order ∧
      ((r.run m true).1 = none → calls.map Call.request = r.parts m.order) ∧
      (r.single = true → (r.run m true).1 ≠ none → calls = []) := by
  obtain ⟨calls, hleads, hparts, hall, hnone⟩ := run_leads m r
  exact ⟨journal_run_quiet m r, calls, hleads, hleads.journal, hparts, hall, hnone⟩

/-- The listener overwrites the word as soon as it hears of the byte stored there; what it was
told is still what the store had left. -/
theorem run_told_overwritten :
    let m := ((ofSettings ⟨Layout.standard, .big, false⟩).addListener
      ⟨1, fun _ => [.store 0x10010000 7 4]⟩).watchEverywhere 0
    let r := Request.store 0x10010001 0xab .byte
    let access : Access := ⟨0x10010001, 1, 0xab, 0x10010000, 0x00ab0000⟩
    (r.run m true).2.journal.toList = [⟨0, .write access⟩] ∧
      ((r.run m true).2.fetch 0x10010000 4 false).1.toOption = some 7 ∧
      access.Truthful (r.run m false).2 := by
  intro m r access
  obtain ⟨hgoes, hjournal, hword⟩ : (r.run m true).1.isNone = true ∧
      (r.run m true).2.journal.toList = [⟨0, .write access⟩] ∧
      ((r.run m true).2.fetch 0x10010000 4 false).1.toOption = some 7 := by
    decide +kernel
  obtain ⟨-, calls, hleads, hnoted, -, hall, -⟩ := run_told m r
  refine ⟨hjournal, hword, ?_⟩
  have hone : calls.map Call.request = [r] := hall (Option.isNone_iff_eq_none.mp hgoes)
  obtain ⟨⟨request, left, told⟩, rfl, rfl⟩ := List.map_eq_singleton_iff.mp hone
  obtain - | ⟨hgranted, -⟩ := hleads
  have htold : told = access := by
    have hentries : Call.deliveries ⟨r, left, told⟩ = [⟨0, .write access⟩] := by
      have hsame := hnoted.symm.trans hjournal
      rwa [List.flatMap_singleton, show m.journal.toList = [] from rfl, List.nil_append] at hsame
    have hmem : ⟨0, .write access⟩ ∈ Call.deliveries ⟨r, left, told⟩ :=
      hentries ▸ List.mem_singleton_self _
    obtain ⟨listener, -, hentry⟩ := List.mem_map.mp hmem
    exact Notice.write.inj (Delivery.mk.inj hentry).2
  subst htold
  rw [hgranted.run]
  exact hgranted.truthful.mpr id

/-- A word of data that is no instruction is read as a statement and announced as zero. -/
theorem fetchStatement_told_zero :
    let stored := (Request.store 0x10010000 0xffffffff .word).run
      (ofSettings ⟨Layout.standard, .little, true⟩) false
    let m := (stored.2.addListener ⟨1, fun _ => []⟩).watchEverywhere 0
    let after := ((Request.fetchStatement 0x10010000).run m true).2
    after.journal.toList = [⟨0, .read (wordAccess 0x10010000 0)⟩] ∧
      (after.fetch 0x10010000 4 false).1.toOption = some 0xffffffff := by
  decide +kernel

end Memory
end MipsImage
