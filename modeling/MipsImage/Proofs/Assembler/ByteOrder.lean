/-
Byte order has no say in what is assembled.

Data is written while a program is read, and the order of bytes decides what is then in
memory.  But nothing is ever read back, and as long as text is protected a store goes
through or is refused by its address alone.  So the memories of two runs that differ in
byte order are `Twin`s at every step: they agree in their regions and in their text, and
differ at most in what data they hold.  By `Simulation` the rest of the assembler agrees
altogether.

Listeners are told other words in the other run, and may do other things for that.  It makes no
difference, as long as they spare text in both.
-/
import MipsImage.Proofs.Assembler.Gates
import MipsImage.Proofs.Memory.Refusal

namespace MipsImage
namespace Memory

/-! ## Memories that differ in data -/

/-- Two memories with the same protected text, which differ at most in byte order, in what the
regions of data hold, in the heap, and in who listens and was told what. -/
structure Twin (m m' : Memory) : Prop where
  off : m.selfModifying = false
  off' : m'.selfModifying = false
  layout : m'.layout = m.layout
  text : SameText m m'
  ranges : ∀ which, (m'.dataRegion which).range = (m.dataRegion which).range
  listeners : m.Within fun x => x.sparesText = true
  listeners' : m'.Within fun x => x.sparesText = true

namespace Twin

variable {m m' : Memory}

theorem symm (h : Twin m m') : Twin m' m :=
  ⟨h.off', h.off, h.layout.symm, fun which => (h.text which).symm,
    fun which => (h.ranges which).symm, h.listeners', h.listeners⟩

theorem area (h : Twin m m') (x : Address) : m'.areaOf? x = m.areaOf? x :=
  areaOf?_congr h.ranges (fun which => congrArg Region.range (h.text which)) x

/-- A store into protected memory is refused for its address, whatever the value. -/
theorem storeFault (h : Twin m m') {a : Address} {v : Word} {n : Nat} {fault : AddressFault}
    (hfault : m.StoreFault a v n fault) (v' : Word) : m'.StoreFault a v' n fault := by
  cases hfault with
  | misaligned odd => exact .misaligned odd
  | outOfRange aligned area => exact .outOfRange aligned ((h.area _).trans area)
  | textWriteProtected aligned area off =>
    exact .textWriteProtected aligned ((h.area _).trans area) h.off'
  | undecodable aligned area on spliced unknown => cases h.off.symm.trans on

theorem statementFault (h : Twin m m') {a : Address} {fault : AddressFault}
    (hfault : m.StatementFault a fault) : m'.StatementFault a fault := by
  cases hfault with
  | misaligned odd => exact .misaligned odd
  | outOfRange aligned area => exact .outOfRange aligned ((h.area _).trans area)
  | codeOutsideText aligned area off =>
    exact .codeOutsideText aligned ((h.area _).trans area) h.off'

theorem poke_error (h : Twin m m') {a : Address} {v : Word} {n : Nat} {e : AddressError}
    (hpoke : m.poke a v n = .error e) (v' : Word) : m'.poke a v' n = .error e := by
  obtain ⟨fault, hfault, rfl⟩ := exists_storeFault hpoke
  exact (h.storeFault hfault v').poke

/-- What is left by a store that goes through, which is one into data. -/
theorem poke_right (h : Twin m m') {a : Address} {v : Word} {n : Nat} {stored : Stored}
    (hpoke : m'.poke a v n = .ok stored) : Twin m stored.memory := by
  have hdeposit := deposit_of_poke hpoke
  have hframe := hdeposit.frame
  refine ⟨h.off, hframe.selfModifying.trans h.off', hframe.layout.trans h.layout, ?_, fun k => ?_,
    h.listeners, hframe.within h.listeners'⟩
  · rcases poke_text hpoke with hsame | ⟨hon, -⟩
    · exact h.text.trans hsame
    · cases h.off'.symm.trans hon
  · rw [← h.ranges k]
    rcases hdeposit.dataRegion k with hsame | ⟨-, hstored⟩
    · rw [hsame]
    · rw [hstored, Region.store_range]

theorem poke_ok (h : Twin m m') {a : Address} {v : Word} {n : Nat} {stored : Stored}
    (hpoke : m.poke a v n = .ok stored) (v' : Word) :
    ∃ stored', m'.poke a v' n = .ok stored' ∧ Twin stored.memory stored'.memory := by
  cases hpoke' : m'.poke a v' n with
  | error e => cases hpoke.symm.trans (h.symm.poke_error hpoke' v)
  | ok stored' => exact ⟨stored', rfl, ((h.poke_right hpoke').symm.poke_right hpoke).symm⟩

/-! ## Listeners -/

/-- The other fields have no say in it. -/
theorem with_right (h : Twin m m') (order : ByteOrder) (heap : Address) (watches : List Watch)
    (journal : Array Delivery) : Twin m { m' with order, heap, watches, journal } where
  off := h.off
  off' := h.off'
  layout := h.layout
  text := h.text.trans (sameText_with m' order _ heap watches journal)
  ranges which := by
    cases which <;> [exact h.ranges .user; exact h.ranges .kernel; exact h.ranges .mmio]
  listeners := h.listeners
  listeners' := h.listeners'

theorem closed_right (m : Memory) : Closed (fun x => x.sparesText = true) (Twin m) where
  store h _ hpoke := h.poke_right hpoke
  storeStatement _ hx _ := absurd hx Bool.false_ne_true
  setOrder h _ := h.with_right _ _ _ _
  setSelfModifying {m' allowed} h hx := by
    obtain rfl : allowed = false := Bool.not_eq_true' allowed ▸ hx
    have hsame : { m' with selfModifying := false } = m' := by rw [← h.off']
    rwa [hsame]
  clear _ hx := absurd hx Bool.false_ne_true
  allocateHeap h _ _ := h.with_right _ _ _ _
  told h _ _ := h.with_right _ _ _ _

/-- Listeners are called on either side by themselves. -/
theorem announceIf (h : Twin m m') (notice notice' : Notice) (notify : Bool) :
    Twin (m.announceIf notify notice) (m'.announceIf notify notice') := by
  have hright : Twin m (m'.announceIf notify notice') :=
    (closed_right m).announceIf h h.listeners' notify notice'
  exact ((closed_right _).announceIf hright.symm h.listeners notify notice).symm

/-! ## Accesses -/

/-- The two values need not agree: the halves of a doubleword do not. -/
theorem store (h : Twin m m') (a : Address) (v v' : Word) (n : Nat) (notify : Bool) :
    Alike Twin (m.store a v n notify) (m'.store a v' n notify) := by
  rw [Memory.store, Memory.store]
  cases hpoke : m.poke a v n with
  | error e =>
    rw [h.poke_error hpoke v']
    exact .error e h
  | ok stored =>
    obtain ⟨stored', hpoke', hstored⟩ := h.poke_ok hpoke v'
    rw [hpoke']
    exact .ok _ _ (hstored.announceIf _ _ notify)

/-- The two halves change places with the byte order, but not where they go. -/
theorem storeDoubleword (h : Twin m m') (a : Address) (v : UInt64) (notify : Bool) :
    Alike Twin (m.storeDoubleword a v notify) (m'.storeDoubleword a v notify) := by
  simp only [Memory.storeDoubleword]
  cases misalignment? a 8 with
  | some fault => exact .error _ h
  | none =>
    have hfirst := h.store a (m.order.split v).1 (m'.order.split v).1 4 notify
    generalize m.order.split v = halves at hfirst ⊢
    generalize m'.order.split v = halves' at hfirst ⊢
    dsimp only
    generalize m.store a halves.1 4 notify = x at hfirst ⊢
    generalize m'.store a halves'.1 4 notify = y at hfirst ⊢
    cases hfirst with
    | error e h₁ => exact .error e h₁
    | @ok _ _ m₁ m₁' h₁ =>
      have hsecond := h₁.store (a + 4) halves.2 halves'.2 4 notify
      dsimp only
      generalize m₁.store (a + 4) halves.2 4 notify = x at hsecond ⊢
      generalize m₁'.store (a + 4) halves'.2 4 notify = y at hsecond ⊢
      cases hsecond with
      | error e h₂ => exact .error e h₂
      | ok old old' h₂ => exact .ok _ _ h₂

theorem setTextRegion (h : Twin m m') (which : TextArea) (r : Region (Option EncodedStatement)) :
    Twin (m.setTextRegion which r) (m'.setTextRegion which r) where
  off := by rw [selfModifying_setTextRegion, h.off]
  off' := by rw [selfModifying_setTextRegion, h.off']
  layout := by rw [layout_setTextRegion, layout_setTextRegion, h.layout]
  text k := by rw [textRegion_setTextRegion, textRegion_setTextRegion, h.text k]
  ranges k := by rw [dataRegion_setTextRegion, dataRegion_setTextRegion, h.ranges k]
  listeners := by rw [Within, listeners_setTextRegion]; exact h.listeners
  listeners' := by rw [Within, listeners_setTextRegion]; exact h.listeners'

theorem pokeStatement_ok (h : Twin m m') {a : Address} {s : EncodedStatement} {left : Memory}
    (hpoke : m.pokeStatement a s = .ok left) :
    ∃ left', m'.pokeStatement a s = .ok left' ∧ Twin left left' := by
  obtain ⟨ha, hinserted⟩ := inserted_of_pokeStatement hpoke
  have halign : misalignment? a 4 = none := if_pos ha
  cases hinserted with
  | data harea on => cases h.off.symm.trans on
  | @text which harea =>
    refine ⟨m'.setTextRegion which ((m.textRegion which).store a (some s)), ?_,
      h.setTextRegion which _⟩
    simp only [Memory.pokeStatement, halign, h.area, harea, ← h.text which]
    rfl

theorem storeStatement (h : Twin m m') (a : Address) (s : EncodedStatement) (notify : Bool) :
    Alike Twin (m.storeStatement a s notify) (m'.storeStatement a s notify) := by
  rw [Memory.storeStatement, Memory.storeStatement]
  cases hpoke : m.pokeStatement a s with
  | error e =>
    obtain ⟨fault, hfault, rfl⟩ := exists_statementFault hpoke
    rw [(h.statementFault hfault).pokeStatement]
    exact .error _ h
  | ok left =>
    obtain ⟨left', hpoke', hleft⟩ := h.pokeStatement_ok hpoke
    rw [hpoke']
    exact .ok _ _ (hleft.announceIf _ _ notify)

end Twin

/-- Twins to start from: two memories that differ in byte order and in who listens, once they
are cleared. -/
theorem twin_reset {m : Memory} (hoff : m.selfModifying = false)
    (hm : m.Within fun x => x.sparesText = true) (order : ByteOrder) {listeners : Array Listener}
    (hlisteners : ∀ l ∈ listeners, l.Within fun x => x.sparesText = true) :
    Twin m.reset { m with order, listeners }.reset := by
  have hcleared : Twin (m.cleared m.layout) (Memory.cleared { m with order, listeners } m.layout) :=
    ⟨hoff, hoff, rfl, fun which => by cases which <;> rfl, fun which => by cases which <;> rfl, hm,
      hlisteners⟩
  exact hcleared.announceIf .reset .reset true

/-- Twins have the same words and statements in text. -/
theorem Twin.word {m m' : Memory} (h : Twin m m') {x : Address} {which : TextArea}
    (harea : m.areaOf? x = some (.text which)) (notify : Bool) :
    (m'.fetch x 4 notify).1 = (m.fetch x 4 notify).1 ∧
      (m'.fetchStatement x notify).1 = (m.fetchStatement x notify).1 := by
  have harea' : m'.areaOf? x = some (.text which) := (h.area x).trans harea
  rw [fetch_text harea, fetch_text harea', fetchStatement_text harea, fetchStatement_text harea',
    h.text which]
  exact ⟨rfl, rfl⟩

end Memory

/-! ## Runs with one verdict -/

namespace Assembler

open Memory (Twin twin_reset)

variable {S : Simulation} {a b : Assembler}

/-- Two runs with the same verdict that left related assemblers. -/
def Agree (S : Simulation) (x y : Option AssemblyError × Assembler) : Prop :=
  y.1 = x.1 ∧ Related S x.2 y.2

section Verdict

variable (hsettings : ∀ {s s' : AssemblerSettings}, S.settings s s' → s' = s)
  (hlog : ∀ {l l' : Log}, S.log l l' → l' = l)
include hlog

theorem agree_failure (pass : Pass) (h : Related S a b) :
    Agree S (a.failure pass, a) (b.failure pass, b) := by
  refine ⟨?_, h⟩
  rw [failure, failure, hlog h.log]

theorem gated_agree {next : Assembler → Option AssemblyError × Assembler} (pass : Pass)
    (hnext : Related S a b → Agree S (next a) (next b)) (h : Related S a b) :
    Agree S (gated pass next a) (gated pass next b) := by
  rw [gated_eq, gated_eq, hlog h.log]
  split_ifs
  · exact agree_failure hlog pass h
  · exact hnext h

include hsettings

theorem judge_agree (h : Related S a b) : Agree S a.judge b.judge := by
  rw [judge, judge, hsettings h.settings, hlog h.log]
  split_ifs
  · exact agree_failure hlog .place h
  · exact ⟨rfl, h⟩

/-- Where settings and logs are the same, every gate decides alike. -/
theorem assemble_agree (hS : S.Lasting) (files : List SourceFile) (h : Related S a b) :
    Agree S (a.assemble files) (b.assemble files) := by
  cases hempty : files.isEmpty with
  | true =>
    rw [assemble_of_isEmpty hempty, assemble_of_isEmpty hempty]
    exact agree_failure hlog .parse (preserves_report none .noFiles h)
  | false =>
    rw [assemble_eq_gated hempty, assemble_eq_gated hempty]
    refine gated_agree hlog .parse (fun h => ?_) (parseFiles_related hlog files h)
    refine gated_agree hlog .resolve (fun h => ?_) (resolvePass_related hlog hS.resolves h)
    exact gated_agree hlog .place (judge_agree hsettings hlog) (placePass_related hlog hS.places h)

end Verdict

/-! ## Runs that differ in byte order -/

/-- A run, and the same run on a memory with another byte order. -/
def byteOrders : Simulation where
  settings s s' := s' = s
  log l l' := l' = l
  memory := Twin
  results _ _ := True
  add := by
    rintro l _ rfl d
    rfl
  store h address value length := h.store address value value length true
  storeDoubleword h address value := h.storeDoubleword address value true

theorem lasting_byteOrders : byteOrders.Lasting where
  resolves := ⟨fun _ _ _ => trivial⟩
  places := ⟨fun _ _ _ => trivial, fun h address s => h.storeStatement address s true⟩

theorem reset_byteOrders {a : Assembler} {memory : Memory} (h : Twin a.memory.reset memory.reset) :
    Related byteOrders a.reset { a with memory }.reset := by
  have hstart (memory : Memory) (h : Twin a.memory.reset memory) :
      Related byteOrders a.reset (start a.settings memory) := by
    -- all cursors start where the layout says
    have hsame : start a.settings memory = { a.reset with memory } := by
      simp only [reset, start, h.layout]
    rw [hsame]
    exact ⟨rfl, rfl, h, trivial⟩
  exact hstart _ h

/-- If text is protected and listeners spare it, the order of bytes in memory changes neither the
verdict on a program nor anything in the assembler but its memory, and there it changes no word
of text.  What listeners do may depend on the words they are told, so in the other run they may
be others. -/
theorem assembleSources_byteOrder (a : Assembler) (hoff : a.memory.selfModifying = false)
    (hspared : a.memory.Within fun x => x.sparesText = true) (order : ByteOrder)
    {listeners : Array Listener}
    (hlisteners : ∀ l ∈ listeners, l.Within fun x => x.sparesText = true)
    (sources : List (String × String)) :
    let one := a.assembleSources sources
    let other := { a with memory := { a.memory with order, listeners } }.assembleSources sources
    other.1 = one.1 ∧ (∃ memory, other.2 = { one.2 with memory }) ∧
      ∀ x, other.2.memory.areaOf? x = one.2.memory.areaOf? x ∧
        ∀ which notify, one.2.memory.areaOf? x = some (.text which) →
          (other.2.memory.fetch x 4 notify).1 = (one.2.memory.fetch x 4 notify).1 ∧
          (other.2.memory.fetchStatement x notify).1 =
            (one.2.memory.fetchStatement x notify).1 := by
  intro one other
  have hstart := reset_byteOrders (twin_reset hoff hspared order hlisteners)
  obtain ⟨hfiles, hread⟩ := readSources_related hstart sources
  obtain ⟨hverdict, hrelated⟩ : Agree byteOrders one other := by
    simp only [one, other, assembleSources]
    rw [← hfiles]
    exact assemble_agree id id lasting_byteOrders _ hread
  have htwin : Twin one.2.memory other.2.memory := hrelated.memory
  refine ⟨hverdict, ?_, fun x => ⟨htwin.area x, fun which notify harea => htwin.word harea notify⟩⟩
  generalize one.2 = left at hrelated
  generalize other.2 = right at hrelated
  obtain ⟨hsettings, hlog, -, -⟩ := hrelated
  cases hsettings
  cases hlog
  exact ⟨_, rfl⟩

set_option maxRecDepth 10000 in
/-- Data that lies the other way round in memory, beside text that does not. -/
theorem assembleSources_byteOrder_bytes :
    let a := start ⟨none, false⟩ (.ofSettings ⟨Layout.standard, .little, false⟩)
    let sources :=
      [("bytes.s", ".data\nx: .byte 1, 2\n.half 0x0304\n.double 1.5\n.text\nla $t0, x\n")]
    let little := a.assembleSources sources
    let big := { a with memory := { a.memory with order := .big } }.assembleSources sources
    little.1 = none ∧ big.1 = none ∧ big.2.assembled = little.2.assembled ∧
      big.2.locals = little.2.locals ∧
      (little.2.memory.fetch 0x10010000 4 false).1 = .ok 0x03040201 ∧
      (big.2.memory.fetch 0x10010000 4 false).1 = .ok 0x01020304 ∧
      (little.2.memory.fetch 0x00400000 4 false).1 = .ok 0x3c011001 ∧
      (big.2.memory.fetch 0x00400000 4 false).1 = .ok 0x3c011001 := by
  intro a sources little big
  obtain ⟨hok, hlittle, hbig, htext, harea⟩ : little.1 = none ∧
      (little.2.memory.fetch 0x10010000 4 false).1 = .ok 0x03040201 ∧
      (big.2.memory.fetch 0x10010000 4 false).1 = .ok 0x01020304 ∧
      (little.2.memory.fetch 0x00400000 4 false).1 = .ok 0x3c011001 ∧
      little.2.memory.areaOf? 0x00400000 = some (.text .user) := by
    decide +kernel
  have hnobody : a.memory.Within fun x => x.sparesText = true := Memory.within_ofSettings _ _
  obtain ⟨hverdict, ⟨memory, hstate⟩, hwords⟩ :=
    assembleSources_byteOrder a rfl hnobody .big hnobody sources
  have hbigState : big.2 = { little.2 with memory } := hstate
  have hword := ((hwords 0x00400000).2 .user false harea).1
  refine ⟨hok, hverdict.trans hok, ?_, ?_, hlittle, hbig, htext, hword.trans htext⟩
  · rw [hbigState]
  · rw [hbigState]

end Assembler
end MipsImage
