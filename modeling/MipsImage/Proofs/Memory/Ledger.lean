/-
Which words were written, told from the stores that were made.

Memory keeps no account of its stores, so one is kept beside it.  A `Ledger` is a memory with
the addresses of the stores that went through since it was last cleared.  Whatever is done to
a memory is done to a ledger as well, and `memory_ofCommands` says that the memory in it is
none other for that.  Each single store is entered: a doubleword is two of them, and what a
listener stores when it is called is entered too.  A listener that clears memory clears the
account.

The account is enough to tell which words are there.  A store makes the whole of its block
present if it goes into data, and no more than its word if it goes into text.  That is the
invariant, `Balanced`, and with it the search for the first unwritten word becomes one for
the first word that no store has hit.
-/
import MipsImage.Proofs.Memory.Unwritten

namespace MipsImage

/-- How many bytes come into being with the first store into one of them: a block of data, but
only a word of text. -/
def Area.grain : Area → Nat
  | .data _ => 4096
  | .text _ => 4

namespace Memory

/-! ## Keeping account -/

structure Ledger where
  memory : Memory
  /-- Where the stores went that were not refused, the latest first. -/
  stores : List Address

namespace Ledger

/-- Enter a store that has left memory like this. -/
def enter (l : Ledger) (address : Address) (left : Memory) : Ledger :=
  { memory := left, stores := address :: l.stores }

def act (l : Ledger) : Act → Ledger
  | .store address value length =>
    match l.memory.poke address value length with
    | .ok stored => l.enter address stored.memory
    | .error _ => l
  | .storeStatement address s =>
    match l.memory.pokeStatement address s with
    | .ok left => l.enter address left
    | .error _ => l
  | .clear layout => { memory := l.memory.cleared layout, stores := [] }
  | x => { l with memory := l.memory.act x }

def deliver (l : Ledger) (notice : Notice) (listener : ListenerId) : Ledger :=
  let noted : Ledger :=
    { l with memory := { l.memory with journal := l.memory.journal.push { listener, notice } } }
  match l.memory.listeners[listener]? with
  | some known => (known.acts l.memory.journal.size).foldl act noted
  | none => noted

def announce (l : Ledger) (notice : Notice) : Ledger :=
  (notice.recipients l.memory.watches).foldl (fun l listener => l.deliver notice listener) l

def announceIf (l : Ledger) (notify : Bool) (notice : Notice) : Ledger :=
  if notify then l.announce notice else l

def fetch (l : Ledger) (address : Address) (length : Nat) (notify : Bool) :
    Option AddressError × Ledger :=
  match l.memory.peek address length with
  | .error e => (some e, l)
  | .ok access => (none, l.announceIf notify (.read access))

def store (l : Ledger) (address : Address) (value : Word) (length : Nat) (notify : Bool) :
    Option AddressError × Ledger :=
  match l.memory.poke address value length with
  | .error e => (some e, l)
  | .ok stored =>
    (none, (l.enter address stored.memory).announceIf notify (.write stored.access))

/-- Carry out a request.  Of a doubleword the first half may be entered alone. -/
def run (l : Ledger) (notify : Bool) : Request → Option AddressError × Ledger
  | .fetch a width => l.fetch a width.bytes notify
  | .store a v width => l.store a v width.bytes notify
  | .fetchStatement a =>
    match l.memory.peekStatement a with
    | .error e => (some e, l)
    | .ok s => (none, l.announceIf notify (.read (wordAccess a (encoding s))))
  | .storeStatement a s =>
    match l.memory.pokeStatement a s with
    | .error e => (some e, l)
    | .ok left => (none, (l.enter a left).announceIf notify (.write (wordAccess a s.binary)))
  | .fetchDoubleword a =>
    match l.fetch a 4 notify with
    | (some e, after) => (some e, after)
    | (none, after) => after.fetch (a + 4) 4 notify
  | .storeDoubleword a v =>
    match l.store a (l.memory.order.split v).1 4 notify with
    | (some e, after) => (some e, after)
    | (none, after) => after.store (a + 4) (l.memory.order.split v).2 4 notify

/-- Start over.  What listeners store when they hear of it counts already. -/
def resetWith (l : Ledger) (layout : Layout) : Ledger :=
  announce { memory := l.memory.cleared layout, stores := [] } .reset

/-- Carry out a command.  Nothing is stored but on request or by those who hear of a reset. -/
def carryOut (l : Ledger) : Command → Ledger
  | .request r notify => (l.run notify r).2
  | .resetWith layout => l.resetWith layout
  | c => { l with memory := c.run l.memory }

/-- The account of a run. -/
def ofCommands (s : MemorySettings) (commands : List Command) : Ledger :=
  commands.foldl carryOut { memory := ofSettings s, stores := [] }

/-! ## The memory in a ledger -/

theorem memory_act (l : Ledger) (x : Act) : (l.act x).memory = l.memory.act x := by
  cases x with
  | store address value length =>
    rw [act, Memory.act]
    cases l.memory.poke address value length with
    | error e => rfl
    | ok stored => rfl
  | storeStatement address s =>
    rw [act, Memory.act]
    cases l.memory.pokeStatement address s with
    | error e => rfl
    | ok left => rfl
  | _ => rfl

theorem memory_deliver (l : Ledger) (notice : Notice) (listener : ListenerId) :
    (l.deliver notice listener).memory = l.memory.deliver notice listener := by
  simp only [deliver, Memory.deliver]
  cases l.memory.listeners[listener]? with
  | none => rfl
  | some known => exact (List.foldl_hom memory fun l x => (memory_act l x).symm).symm

theorem memory_announce (l : Ledger) (notice : Notice) :
    (l.announce notice).memory = l.memory.announce notice := by
  rw [announce, Memory.announce]
  exact (List.foldl_hom memory fun l listener => (memory_deliver l notice listener).symm).symm

theorem memory_announceIf (l : Ledger) (notify : Bool) (notice : Notice) :
    (l.announceIf notify notice).memory = l.memory.announceIf notify notice := by
  cases notify with
  | false => rfl
  | true => exact memory_announce l notice

theorem memory_fetch (l : Ledger) (a : Address) (n : Nat) (notify : Bool) :
    (l.fetch a n notify).map id memory = (l.memory.fetch a n notify).map refusal? id := by
  rw [fetch, Memory.fetch]
  cases l.memory.peek a n with
  | error e => rfl
  | ok access => exact congrArg (Prod.mk none) (memory_announceIf l notify _)

theorem memory_store (l : Ledger) (a : Address) (v : Word) (n : Nat) (notify : Bool) :
    (l.store a v n notify).map id memory = (l.memory.store a v n notify).map refusal? id := by
  rw [store, Memory.store]
  cases l.memory.poke a v n with
  | error e => rfl
  | ok stored => exact congrArg (Prod.mk none) (memory_announceIf _ notify _)

theorem memory_run (l : Ledger) (notify : Bool) (r : Request) :
    (l.run notify r).map id memory = r.run l.memory notify := by
  cases r with
  | fetch a width => exact memory_fetch l a width.bytes notify
  | store a v width => exact memory_store l a v width.bytes notify
  | fetchStatement a =>
    rw [run, Request.run, Memory.fetchStatement]
    cases l.memory.peekStatement a with
    | error e => rfl
    | ok s => exact congrArg (Prod.mk none) (memory_announceIf l notify _)
  | storeStatement a s =>
    rw [run, Request.run, Memory.storeStatement]
    cases l.memory.pokeStatement a s with
    | error e => rfl
    | ok left => exact congrArg (Prod.mk none) (memory_announceIf (l.enter a left) notify _)
  | fetchDoubleword a =>
    have hfirst : _ = (Request.fetch a .word).run l.memory notify := memory_fetch l a 4 notify
    rw [run_fetchDoubleword, Request.andThen, ← hfirst, run]
    rcases l.fetch a 4 notify with ⟨_ | e, after⟩
    · exact memory_fetch after (a + 4) 4 notify
    · rfl
  | storeDoubleword a v =>
    have hfirst : _ = (Request.store a (l.memory.order.split v).1 .word).run l.memory notify :=
      memory_store l a _ 4 notify
    rw [run_storeDoubleword, Request.andThen, ← hfirst, run]
    rcases l.store a (l.memory.order.split v).1 4 notify with ⟨_ | e, after⟩
    · exact memory_store after (a + 4) _ 4 notify
    · rfl

theorem memory_carryOut (l : Ledger) (c : Command) :
    (l.carryOut c).memory = c.run l.memory := by
  cases c with
  | request r notify => exact congrArg Prod.snd (memory_run l notify r)
  | resetWith layout => exact memory_announce _ .reset
  | _ => rfl

/-- The account is one of the run itself. -/
theorem memory_ofCommands (s : MemorySettings) (commands : List Command) :
    (ofCommands s commands).memory = commands.foldl Command.run (ofSettings s) :=
  (List.foldl_hom memory fun l c => (memory_carryOut l c).symm).symm

end Ledger

/-! ## Words that come to be there -/

theorem isSome_present?_data {m : Memory} {a : Address} {which : DataArea} (ha : a.toNat % 4 = 0)
    (harea : m.areaOf? a = some (.data which)) :
    (m.present? a).isSome = ((m.dataRegion which).fetchOrAbsent a).isSome := by
  rw [present?, fetchWordOrAbsent_data ha harea]

/-- A word of text in a block that was never stored into, and one without a statement in it, are
both not there. -/
theorem isSome_present?_text {m : Memory} {a : Address} {which : TextArea} (ha : a.toNat % 4 = 0)
    (harea : m.areaOf? a = some (.text which)) (hblank : (m.textRegion which).blank = none) :
    (m.present? a).isSome = ((m.textRegion which).fetch a).isSome := by
  rw [present?, fetchWordOrAbsent_text ha harea, Region.fetch, hblank]
  cases (m.textRegion which).fetchOrAbsent a with
  | none => rfl
  | some s => exact Option.isSome_map

theorem Deposit.blank {m left : Memory} {w : Address} {v : Word} (h : Deposit m w v left)
    (k : TextArea) : (left.textRegion k).blank = (m.textRegion k).blank := by
  cases h with
  | data harea v => rw [textRegion_setDataRegion]
  | text harea s =>
    rw [textRegion_setTextRegion]
    split_ifs with hk
    · rw [Region.store_blank, hk]
    · rfl

/-- What a store makes present: its block of data, or its word of text. -/
theorem Deposit.isSome_present? {m left : Memory}
    (hblank : ∀ which, (m.textRegion which).blank = none) {w : Address} {v : Word}
    (h : Deposit m w v left) {a : Address} (ha : a.toNat % 4 = 0) {area : Area}
    (harea : m.areaOf? a = some area) : (left.present? a).isSome = true ↔
      m.areaOf? w = some area ∧ w.toNat / area.grain = a.toNat / area.grain ∨
        (m.present? a).isSome = true := by
  have hleft : left.areaOf? a = some area := (h.frame.area a).trans harea
  cases area with
  | data k =>
    rw [isSome_present?_data ha hleft, isSome_present?_data ha harea]
    cases h with
    | @data which hw v =>
      rw [dataRegion_setDataRegion, hw]
      by_cases hk : k = which
      · subst hk
        rw [if_pos rfl, Region.isSome_fetchOrAbsent_store (contains_of_areaOf?_data hw)
          (contains_of_areaOf?_data harea)]
        simp [Area.grain]
      · simp [hk, Ne.symm hk]
    | text hw s =>
      rw [dataRegion_setTextRegion, hw]
      simp
  | text k =>
    rw [isSome_present?_text ha hleft ((h.blank k).trans (hblank k)),
      isSome_present?_text ha harea (hblank k)]
    cases h with
    | data hw v =>
      rw [textRegion_setDataRegion, hw]
      simp
    | @text which hw s =>
      rw [textRegion_setTextRegion, hw]
      by_cases hk : k = which
      · subst hk
        rw [if_pos rfl, Region.fetch_store (contains_of_areaOf?_text hw)
          (contains_of_areaOf?_text harea)]
        split_ifs with hword
        · simp [Area.grain, hword]
        · simp [Area.grain, hword]
      · simp [hk, Ne.symm hk]

namespace Ledger

/-! ## Hits -/

/-- Some store went into a region, and there into the same block or word as `a`. -/
def Hit (l : Ledger) (area : Area) (a : Address) : Prop :=
  ∃ b ∈ l.stores, l.memory.areaOf? (Word.containing b) = some area ∧
    b.toNat / area.grain = a.toNat / area.grain

theorem hit_enter {l : Ledger} {left : Memory} (hleft : Frame l.memory left) (b : Address)
    (area : Area) (a : Address) : (l.enter b left).Hit area a ↔
      l.memory.areaOf? (Word.containing b) = some area ∧
        b.toNat / area.grain = a.toNat / area.grain ∨ l.Hit area a := by
  simp only [Hit, enter, List.exists_mem_cons_iff, hleft.area]

/-- The words that are there are those that were hit. -/
structure Balanced (l : Ledger) : Prop where
  blank : ∀ which, (l.memory.textRegion which).blank = none
  present {a : Address} (ha : a.toNat % 4 = 0) {area : Area}
    (harea : l.memory.areaOf? a = some area) :
    (l.memory.present? a).isSome = true ↔ l.Hit area a

theorem balanced_cleared (m : Memory) (layout : Layout) :
    Balanced { memory := m.cleared layout, stores := [] } where
  blank which := by cases which <;> rfl
  present {a} ha {area} harea := by
    have hnone : ¬ Hit { memory := m.cleared layout, stores := [] } area a := by
      rintro ⟨b, hb, -⟩
      exact List.not_mem_nil hb
    refine iff_of_false (Bool.eq_false_iff.mp ?_) hnone
    cases area with
    | data which =>
      rw [isSome_present?_data ha harea, Region.fetchOrAbsent, Option.isSome_map]
      cases which <;> exact congrArg Option.isSome (Region.block?_empty _ _ a)
    | text which =>
      rw [isSome_present?_text ha harea (by cases which <;> rfl)]
      cases which <;> exact congrArg Option.isSome (Region.fetch_empty _ _ a)

/-- A store is entered for what it does to the regions. -/
theorem Balanced.enter {l : Ledger} (h : l.Balanced) {b : Address} {v : Word} {left : Memory}
    (hdeposit : Deposit l.memory (Word.containing b) v left) : (l.enter b left).Balanced where
  blank which := (hdeposit.blank which).trans (h.blank which)
  present {a} ha {area} harea := by
    have hbefore : l.memory.areaOf? a = some area := (hdeposit.frame.area a).symm.trans harea
    -- neither a block nor a word ends inside the word that was stored
    have hgrain : (Word.containing b).toNat / area.grain = b.toNat / area.grain := by
      rw [Word.toNat_containing]
      cases area <;> simp only [Area.grain] <;> omega
    rw [hit_enter hdeposit.frame, ← h.present ha hbefore, ← hgrain]
    exact hdeposit.isSome_present? h.blank ha hbefore

/-! ## Runs -/

/-- Nothing but the regions matters. -/
theorem Balanced.congr {l : Ledger} (h : l.Balanced) {m : Memory}
    (hdata : ∀ which, m.dataRegion which = l.memory.dataRegion which)
    (htext : SameText l.memory m) : Balanced { l with memory := m } := by
  have harea : m.areaOf? = l.memory.areaOf? :=
    funext (areaOf?_congr (fun k => congrArg _ (hdata k)) fun k => congrArg _ (htext k))
  have hpresent (a : Address) : m.present? a = l.memory.present? a := by
    have htext' : ∀ k, m.textRegion k = l.memory.textRegion k := htext
    simp only [present?, fetchWordOrAbsent, harea, hdata, htext']
  refine ⟨fun which => ?_, fun {a} ha {area} hm => ?_⟩
  · rw [htext]
    exact h.blank which
  · simp only [Hit, hpresent, harea] at hm ⊢
    exact h.present ha hm

theorem Balanced.told {l : Ledger} (h : l.Balanced) (watches : List Watch)
    (journal : Array Delivery) : Balanced { l with memory := { l.memory with watches, journal } } :=
  h.congr (fun which => by cases which <;> rfl) (fun which => by cases which <;> rfl)

theorem Balanced.allocateHeap {l : Ledger} (h : l.Balanced) (bytes : Word) :
    Balanced { l with memory := (l.memory.allocateHeap bytes).2 } := by
  obtain ⟨heap, heq⟩ := l.memory.allocateHeap_memory bytes
  rw [heq]
  exact h.congr (fun which => by cases which <;> rfl) (fun which => by cases which <;> rfl)

/-- A statement is stored at a word, so it is entered for that word. -/
theorem Balanced.enterStatement {l : Ledger} (h : l.Balanced) {a : Address} {s : EncodedStatement}
    {left : Memory} (hpoke : l.memory.pokeStatement a s = .ok left) :
    (l.enter a left).Balanced := by
  obtain ⟨ha, hdeposit⟩ := pokeStatement_eq_ok hpoke
  rw [← Word.containing_eq_self ha] at hdeposit
  exact h.enter hdeposit

theorem Balanced.act {l : Ledger} (h : l.Balanced) (x : Act) : (l.act x).Balanced := by
  have hwatch (hx : x.isWatch = true) : Balanced { l with memory := l.memory.act x } := by
    obtain ⟨watches, heq⟩ := act_of_isWatch l.memory hx
    rw [heq]
    exact h.told watches l.memory.journal
  cases x with
  | store address value length =>
    rw [Ledger.act]
    cases hpoke : l.memory.poke address value length with
    | error e => exact h
    | ok stored => exact h.enter (deposit_of_poke hpoke)
  | storeStatement address s =>
    rw [Ledger.act]
    cases hpoke : l.memory.pokeStatement address s with
    | error e => exact h
    | ok left => exact h.enterStatement hpoke
  | clear layout => exact balanced_cleared l.memory layout
  | setOrder order | setSelfModifying allowed =>
    exact h.congr (fun which => by cases which <;> rfl) (fun which => by cases which <;> rfl)
  | allocateHeap bytes => exact h.allocateHeap bytes
  | watch name first last => exact hwatch rfl
  | unwatch name => exact hwatch rfl

theorem Balanced.foldl_act {l : Ledger} (h : l.Balanced) (acts : List Act) :
    (acts.foldl Ledger.act l).Balanced := by
  induction acts generalizing l with
  | nil => exact h
  | cons x rest ih => exact ih (h.act x)

theorem Balanced.deliver {l : Ledger} (h : l.Balanced) (notice : Notice) (listener : ListenerId) :
    (l.deliver notice listener).Balanced := by
  have hnoted := h.told l.memory.watches (l.memory.journal.push { listener, notice })
  simp only [Ledger.deliver]
  cases l.memory.listeners[listener]? with
  | none => exact hnoted
  | some known => exact hnoted.foldl_act _

theorem Balanced.announce {l : Ledger} (h : l.Balanced) (notice : Notice) :
    (l.announce notice).Balanced := by
  rw [Ledger.announce]
  generalize notice.recipients l.memory.watches = recipients
  induction recipients generalizing l with
  | nil => exact h
  | cons listener rest ih => exact ih (h.deliver notice listener)

theorem Balanced.announceIf {l : Ledger} (h : l.Balanced) (notify : Bool) (notice : Notice) :
    (l.announceIf notify notice).Balanced := by
  cases notify with
  | false => exact h
  | true => exact h.announce notice

theorem Balanced.fetch {l : Ledger} (h : l.Balanced) (a : Address) (n : Nat) (notify : Bool) :
    (l.fetch a n notify).2.Balanced := by
  rw [Ledger.fetch]
  cases l.memory.peek a n with
  | error e => exact h
  | ok access => exact h.announceIf notify _

theorem Balanced.store {l : Ledger} (h : l.Balanced) (a : Address) (v : Word) (n : Nat)
    (notify : Bool) : (l.store a v n notify).2.Balanced := by
  rw [Ledger.store]
  cases hpoke : l.memory.poke a v n with
  | error e => exact h
  | ok stored => exact (h.enter (deposit_of_poke hpoke)).announceIf notify _

theorem Balanced.run {l : Ledger} (h : l.Balanced) (notify : Bool) (r : Request) :
    (l.run notify r).2.Balanced := by
  cases r with
  | fetch a width => exact h.fetch a width.bytes notify
  | store a v width => exact h.store a v width.bytes notify
  | fetchStatement a =>
    rw [Ledger.run]
    cases l.memory.peekStatement a with
    | error e => exact h
    | ok s => exact h.announceIf notify _
  | storeStatement a s =>
    rw [Ledger.run]
    cases hpoke : l.memory.pokeStatement a s with
    | error e => exact h
    | ok left => exact (h.enterStatement hpoke).announceIf notify _
  | fetchDoubleword a =>
    have hfirst := h.fetch a 4 notify
    rw [Ledger.run]
    rcases hone : l.fetch a 4 notify with ⟨_ | e, after⟩
    · rw [hone] at hfirst
      exact Balanced.fetch hfirst (a + 4) 4 notify
    · rw [hone] at hfirst
      exact hfirst
  | storeDoubleword a v =>
    have hfirst := h.store a (l.memory.order.split v).1 4 notify
    rw [Ledger.run]
    rcases hone : l.store a (l.memory.order.split v).1 4 notify with ⟨_ | e, after⟩
    · rw [hone] at hfirst
      exact Balanced.store hfirst (a + 4) _ 4 notify
    · rw [hone] at hfirst
      exact hfirst

theorem Balanced.carryOut {l : Ledger} (h : l.Balanced) (c : Command) :
    (l.carryOut c).Balanced := by
  have hwatch (hc : c.isWatch = true) : Balanced { l with memory := c.run l.memory } := by
    obtain ⟨watches, heq⟩ := Command.run_of_isWatch l.memory hc
    rw [heq]
    exact h.told watches l.memory.journal
  cases c with
  | request r notify => exact h.run notify r
  | resetWith layout => exact (balanced_cleared l.memory layout).announce .reset
  | setOrder order | setSelfModifying allowed | addListener listener =>
    exact h.congr (fun which => by cases which <;> rfl) (fun which => by cases which <;> rfl)
  | allocateHeap bytes => exact h.allocateHeap bytes
  | watch listener first last => exact hwatch rfl
  | watchEverywhere listener => exact hwatch rfl
  | unwatch listener => exact hwatch rfl

theorem balanced_ofCommands (s : MemorySettings) (commands : List Command) :
    (ofCommands s commands).Balanced := by
  have hrun {l : Ledger} (h : l.Balanced) : (commands.foldl carryOut l).Balanced := by
    induction commands generalizing l with
    | nil => exact h
    | cons c rest ih => exact ih (h.carryOut c)
  exact hrun (balanced_cleared (ofSettings s) s.layout)

end Ledger

/-! ## The search -/

/-- In every run the search from a word on gives the least candidate that is not there, if all
below it are.  It fails at a candidate that no region has, if all below it are there, and
otherwise comes to its end.  A word is there exactly if some store since the last reset went
into the same region, and there into the same block of data or the same word of text. -/
theorem firstUnwritten_least (s : MemorySettings) (commands : List Command) {first : Address}
    (hfirst : first.toNat % 4 = 0) (limit : Address) :
    let l := Ledger.ofCommands s commands
    let m := commands.foldl Command.run (ofSettings s)
    l.memory = m ∧
    (∀ a, m.firstUnwritten first limit = .ok (some a) ↔ Candidate first limit a ∧
      m.fetchWordOrAbsent a = .ok none ∧
      ∀ b, Candidate first limit b → b < a → (m.present? b).isSome = true) ∧
    (∀ e, m.firstUnwritten first limit = .error e ↔ ∃ a, Candidate first limit a ∧
      (m.areaOf? a = none ∧ e = .load a .outOfRange) ∧
      ∀ b, Candidate first limit b → b < a → (m.present? b).isSome = true) ∧
    (m.firstUnwritten first limit = .ok none ↔
      ∀ a, Candidate first limit a → (m.present? a).isSome = true) ∧
    ∀ a area, a.toNat % 4 = 0 → m.areaOf? a = some area →
      ((m.present? a).isSome = true ↔ l.Hit area a) := by
  intro l m
  have hmemory : l.memory = m := Ledger.memory_ofCommands s commands
  refine ⟨hmemory, fun a => firstUnwritten_eq_some_iff, fun e => ?_, firstUnwritten_eq_none_iff,
    fun a area ha harea => ?_⟩
  · rw [firstUnwritten_eq_error_iff]
    refine exists_congr fun a => and_congr_right fun hcandidate => ?_
    obtain ⟨⟨i, hi⟩, -⟩ := hcandidate
    rw [fetchWordOrAbsent_eq_error_iff (by omega)]
  · rw [← hmemory] at harea ⊢
    exact (Ledger.balanced_ofCommands s commands).present ha harea

/-- Half of a doubleword is stored before the rest is refused, and a listener that hears of it
stores into a device.  What was stored before the reset no longer counts. -/
theorem firstUnwritten_least_half_stored :
    let commands : List Command :=
      [.request (.store 0x5000 1 .word) false, .resetWith Layout.compactData,
        .addListener ⟨1, fun _ => [.store 0x7ffc 7 4]⟩, .watchEverywhere 0,
        .request (.storeDoubleword 0x2ffc 5) true]
    let m := commands.foldl Command.run (ofSettings ⟨Layout.compactData, .little, false⟩)
    m.firstUnwritten 0x2000 0xffffffff = .ok (some 0x3000) ∧
      m.firstUnwritten 0x7f00 0xffffffff = .error (.load 0x8000 .outOfRange) ∧
      m.firstUnwritten 0x5000 0xffffffff = .ok (some 0x5000) := by
  intro commands m
  have hleast {first : Address} (h : first.toNat % 4 = 0) :=
    firstUnwritten_least ⟨Layout.compactData, .little, false⟩ commands h 0xffffffff
  obtain ⟨-, hdata, -, -, hpresent⟩ := hleast (show (0x2000 : Address).toNat % 4 = 0 from rfl)
  obtain ⟨-, -, hdevice, -⟩ := hleast (show (0x7f00 : Address).toNat % 4 = 0 from rfl)
  obtain ⟨-, hkernel, -⟩ := hleast (show (0x5000 : Address).toNat % 4 = 0 from rfl)
  obtain ⟨hstores, huser, hsystem, hmmio⟩ :
      (Ledger.ofCommands ⟨Layout.compactData, .little, false⟩ commands).stores = [0x7ffc, 0x2ffc] ∧
      m.data.range = ⟨0x0000, 0x2fff⟩ ∧ m.kernelData.range = ⟨0x5000, 0x7eff⟩ ∧
      m.mmio.range = ⟨0x7f00, 0x7fff⟩ := by
    decide +kernel
  have hranges (b : Address) : (m.data.contains b = true ↔ b.toNat ≤ 0x2fff) ∧
      (m.kernelData.contains b = true ↔ 0x5000 ≤ b.toNat ∧ b.toNat ≤ 0x7eff) ∧
      (m.mmio.contains b = true ↔ 0x7f00 ≤ b.toNat ∧ b.toNat ≤ 0x7fff) := by
    simp [Region.contains_iff, huser, hsystem, hmmio]
  refine ⟨(hdata _).mpr ⟨⟨⟨0x400, rfl⟩, by decide⟩, by decide +kernel, fun b hb hlt => ?_⟩,
    (hdevice _).mpr ⟨0x8000, ⟨⟨0x40, rfl⟩, by decide⟩, by decide +kernel, fun b hb hlt => ?_⟩,
    (hkernel _).mpr ⟨⟨⟨0, rfl⟩, by decide⟩, by decide +kernel, fun b hb hlt => ?_⟩⟩
  · -- the last block of data, which the first half of the doubleword went into
    obtain ⟨⟨i, hi⟩, -⟩ := hb
    have hhigh : b.toNat < 0x3000 := hlt
    have hlow : b.toNat = 0x2000 + 4 * i := hi
    have harea : m.areaOf? b = some (.data .user) := if_pos ((hranges b).1.mpr (by omega))
    refine (hpresent b _ (by omega) harea).mpr ⟨0x2ffc, by simp [hstores], by decide +kernel, ?_⟩
    show 0x2ffc / 4096 = b.toNat / 4096
    omega
  · -- the devices, which share their 4 KiB with kernel data but not the block
    obtain ⟨⟨i, hi⟩, -⟩ := hb
    have hhigh : b.toNat < 0x8000 := hlt
    have hlow : b.toNat = 0x7f00 + 4 * i := hi
    have harea : m.areaOf? b = some (.data .mmio) := by
      obtain ⟨hdata, hkernel, hdevice⟩ := hranges b
      rw [areaOf?, if_neg (mt hdata.mp (by omega)), if_neg (mt hkernel.mp (by omega)),
        if_pos (hdevice.mpr (by omega))]
    refine (hpresent b _ (by omega) harea).mpr ⟨0x7ffc, by simp [hstores], by decide +kernel, ?_⟩
    show 0x7ffc / 4096 = b.toNat / 4096
    omega
  · obtain ⟨⟨i, hi⟩, -⟩ := hb
    rw [UInt32.lt_iff_toNat_lt, hi] at hlt
    exact absurd hlt (Nat.not_lt.mpr (Nat.le_add_right _ _))

end Memory
end MipsImage
