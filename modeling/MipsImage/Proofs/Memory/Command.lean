/-
Everything that can be done to a memory.

A `Request` reads or writes, and a `Command` is a request or anything else that the interface
of a memory offers.  A run is a list of commands, and `Reachable` memories are those that some
run ends with.  A doubleword is no request of its own kind: it comes down to two requests for
words, of which the second is made if the first goes through.

There is one step lemma, `Closed.command`.  What acts of a kind keep is kept by every command
that stays within that kind, and it is by it that the invariants of runs are proved.
-/
import MipsImage.Proofs.Memory.Listener

namespace MipsImage
namespace Memory

inductive Width where
  | byte
  | halfword
  | word
  deriving DecidableEq, Repr

def Width.bytes : Width → Nat
  | byte => 1
  | halfword => 2
  | word => 4

theorem Width.bytes_cases (w : Width) : w.bytes = 1 ∨ w.bytes = 2 ∨ w.bytes = 4 := by
  cases w
  · exact .inl rfl
  · exact .inr (.inl rfl)
  · exact .inr (.inr rfl)

/-! ## Requests -/

/-- Every way to read and write, whether or not listeners are told. -/
inductive Request where
  | fetch (address : Address) (width : Width)
  | store (address : Address) (value : Word) (width : Width)
  | fetchStatement (address : Address)
  | storeStatement (address : Address) (s : EncodedStatement)
  | fetchDoubleword (address : Address)
  | storeDoubleword (address : Address) (value : UInt64)

def refusal? {α : Type} : Except AddressError α → Option AddressError
  | .ok _ => none
  | .error e => some e

namespace Request

/-- Carry out a request: why it was refused, if it was, and the memory after it. -/
def run (m : Memory) (notify : Bool) : Request → Option AddressError × Memory
  | fetch a width => (m.fetch a width.bytes notify).map refusal? id
  | store a v width => (m.store a v width.bytes notify).map refusal? id
  | fetchStatement a => (m.fetchStatement a notify).map refusal? id
  | storeStatement a s => (m.storeStatement a s notify).map refusal? id
  | fetchDoubleword a => (m.fetchDoubleword a notify).map refusal? id
  | storeDoubleword a v => (m.storeDoubleword a v notify).map refusal? id

/-- The second request is made only if the first goes through. -/
def andThen (first second : Request) (m : Memory) (notify : Bool) : Option AddressError × Memory :=
  match first.run m notify with
  | (some e, m) => (some e, m)
  | (none, m) => second.run m notify

/-- What a request does itself is of some kind.  The halves of a doubleword go where byte
order says. -/
def Within (A : Act → Prop) : Request → Prop
  | fetch _ _ | fetchStatement _ | fetchDoubleword _ => True
  | store a v width => A (.store a v width.bytes)
  | storeStatement a s => A (.storeStatement a s)
  | storeDoubleword a v => ∀ order : ByteOrder,
      A (.store a (order.split v).1 4) ∧ A (.store (a + 4) (order.split v).2 4)

end Request

/-- A doubleword that is not aligned is refused for its first word already. -/
theorem run_fetchDoubleword (m : Memory) (a : Address) (notify : Bool) :
    (Request.fetchDoubleword a).run m notify =
      (Request.fetch a .word).andThen (.fetch (a + 4) .word) m notify := by
  cases halign : misalignment? a 8 with
  | some fault =>
    have hword : misalignment? a 4 = some fault := halign
    simp only [Request.run, fetchDoubleword, halign, Request.andThen, Width.bytes, fetch, peek,
      hword]
    rfl
  | none =>
    simp only [Request.run, fetchDoubleword, halign, Request.andThen, Width.bytes]
    rcases m.fetch a 4 notify with ⟨_ | first, m₁⟩
    · rfl
    · dsimp only [Prod.map, id, refusal?]
      rcases m₁.fetch (a + 4) 4 notify with ⟨_ | second, m₂⟩
      · rfl
      · rfl

theorem run_storeDoubleword (m : Memory) (a : Address) (v : UInt64) (notify : Bool) :
    (Request.storeDoubleword a v).run m notify =
      (Request.store a (m.order.split v).1 .word).andThen
        (.store (a + 4) (m.order.split v).2 .word) m notify := by
  cases halign : misalignment? a 8 with
  | some fault =>
    have hword : misalignment? a 4 = some fault := halign
    simp only [Request.run, storeDoubleword, halign, Request.andThen, Width.bytes, store, poke,
      hword]
    rfl
  | none =>
    simp only [Request.run, storeDoubleword, halign, Request.andThen, Width.bytes]
    rcases m.store a (m.order.split v).1 4 notify with ⟨_ | first, m₁⟩
    · rfl
    · dsimp only [Prod.map, id, refusal?]
      rcases m₁.store (a + 4) (m.order.split v).2 4 notify with ⟨_ | second, m₂⟩
      · rfl
      · rfl

namespace Closed

variable {A : Act → Prop} {P : Memory → Prop} {m : Memory}

theorem of_fetch (hP : Closed A P) (hm : P m) (hA : m.Within A) (a : Address) (n : Nat)
    (notify : Bool) : P (m.fetch a n notify).2 := by
  rw [Memory.fetch]
  cases m.peek a n with
  | error e => exact hm
  | ok access => exact hP.announceIf hm hA notify _

theorem of_store (hP : Closed A P) (hm : P m) (hA : m.Within A) {a : Address} {v : Word} {n : Nat}
    (hx : A (.store a v n)) (notify : Bool) : P (m.store a v n notify).2 := by
  rw [Memory.store]
  cases hpoke : m.poke a v n with
  | error e => exact hm
  | ok stored =>
    exact hP.announceIf (hP.store hm hx hpoke) ((deposit_of_poke hpoke).frame.within hA) notify _

theorem of_fetchStatement (hP : Closed A P) (hm : P m) (hA : m.Within A) (a : Address)
    (notify : Bool) : P (m.fetchStatement a notify).2 := by
  rw [Memory.fetchStatement]
  cases m.peekStatement a with
  | error e => exact hm
  | ok s => exact hP.announceIf hm hA notify _

theorem of_storeStatement (hP : Closed A P) (hm : P m) (hA : m.Within A) {a : Address}
    {s : EncodedStatement} (hx : A (.storeStatement a s)) (notify : Bool) :
    P (m.storeStatement a s notify).2 := by
  rw [Memory.storeStatement]
  cases hpoke : m.pokeStatement a s with
  | error e => exact hm
  | ok left =>
    have hframe := (pokeStatement_eq_ok hpoke).2.frame
    exact hP.announceIf (hP.storeStatement hm hx hpoke) (hframe.within hA) notify _

end Closed

@[simp] theorem listeners_fetch (m : Memory) (a : Address) (n : Nat) (notify : Bool) :
    (m.fetch a n notify).2.listeners = m.listeners :=
  (closed_listeners m.listeners).of_fetch rfl m.within_true a n notify

@[simp] theorem listeners_store (m : Memory) (a : Address) (v : Word) (n : Nat) (notify : Bool) :
    (m.store a v n notify).2.listeners = m.listeners :=
  (closed_listeners m.listeners).of_store rfl m.within_true trivial notify

theorem Within.store {A : Act → Prop} {m : Memory} (hA : m.Within A) (a : Address) (v : Word)
    (n : Nat) (notify : Bool) : (m.store a v n notify).2.Within A := by
  rwa [Within, listeners_store]

/-- Two requests in a row keep what both of them keep. -/
theorem andThen_keeps {P : Memory → Prop} {m : Memory} {first second : Request} {notify : Bool}
    (hfirst : P (first.run m notify).2)
    (hsecond : ∀ m₁, first.run m notify = (none, m₁) → P m₁ → P (second.run m₁ notify).2) :
    P (first.andThen second m notify).2 := by
  rw [Request.andThen]
  rcases hrun : first.run m notify with ⟨_ | e, m₁⟩
  · rw [hrun] at hfirst
    exact hsecond m₁ hrun hfirst
  · rw [hrun] at hfirst
    exact hfirst

namespace Closed

variable {A : Act → Prop} {P : Memory → Prop} {m : Memory}

theorem request (hP : Closed A P) (hm : P m) (hA : m.Within A) {r : Request} (hr : r.Within A)
    (notify : Bool) : P (r.run m notify).2 := by
  have hlisteners {m₁ : Memory} (h : m₁.listeners = m.listeners) : m₁.Within A := by
    rwa [Memory.Within, h]
  cases r with
  | fetch a width => exact hP.of_fetch hm hA a width.bytes notify
  | store a v width => exact hP.of_store hm hA hr notify
  | fetchStatement a => exact hP.of_fetchStatement hm hA a notify
  | storeStatement a s => exact hP.of_storeStatement hm hA hr notify
  | fetchDoubleword a =>
    rw [run_fetchDoubleword]
    refine andThen_keeps (hP.of_fetch hm hA a 4 notify) fun m₁ hrun hm₁ => ?_
    have hsame : m₁.listeners = m.listeners :=
      (congrArg (·.2.listeners) hrun).symm.trans (listeners_fetch m a 4 notify)
    exact hP.of_fetch hm₁ (hlisteners hsame) (a + 4) 4 notify
  | storeDoubleword a v =>
    obtain ⟨hfirst, hsecond⟩ := hr m.order
    rw [run_storeDoubleword]
    refine andThen_keeps (hP.of_store hm hA hfirst notify) fun m₁ hrun hm₁ => ?_
    have hsame : m₁.listeners = m.listeners :=
      (congrArg (·.2.listeners) hrun).symm.trans (listeners_store m a _ 4 notify)
    exact hP.of_store hm₁ (hlisteners hsame) hsecond notify

end Closed

/-! ## Commands -/

/-- Everything that can be done to a memory. -/
inductive Command where
  | request (r : Request) (notify : Bool)
  | resetWith (layout : Layout)
  | setOrder (order : ByteOrder)
  | setSelfModifying (allowed : Bool)
  | allocateHeap (bytes : Word)
  | addListener (listener : Listener)
  | watch (listener : ListenerId) (first last : Address)
  | watchEverywhere (listener : ListenerId)
  | unwatch (listener : ListenerId)

namespace Command

/-- Carry out a command, whether it succeeds or not. -/
def run (m : Memory) : Command → Memory
  | request r notify => (r.run m notify).2
  | resetWith layout => m.resetWith layout
  | setOrder order => { m with order }
  | setSelfModifying allowed => { m with selfModifying := allowed }
  | allocateHeap bytes => (m.allocateHeap bytes).2
  | addListener listener => m.addListener listener
  | watch listener first last =>
    match m.watch listener first last with
    | .ok m => m
    | .error _ => m
  | watchEverywhere listener => m.watchEverywhere listener
  | unwatch listener => m.unwatch listener

/-- What a command does itself is of some kind, and so is what a new listener does. -/
def Within (A : Act → Prop) : Command → Prop
  | request r _ => r.Within A
  | resetWith layout => A (.clear layout)
  | setOrder order => A (.setOrder order)
  | setSelfModifying allowed => A (.setSelfModifying allowed)
  | allocateHeap bytes => A (.allocateHeap bytes)
  | addListener listener => listener.Within A
  | watch _ _ _ | watchEverywhere _ | unwatch _ => True

/-- Commands to do with who listens. -/
def isWatch : Command → Bool
  | watch _ _ _ | watchEverywhere _ | unwatch _ => true
  | _ => false

theorem run_of_isWatch (m : Memory) {c : Command} (hc : c.isWatch = true) :
    ∃ watches, c.run m = { m with watches } := by
  cases c with
  | watch listener first last =>
    simp only [run, Memory.watch]
    cases Watch.add m.watches listener first last with
    | error e => exact ⟨m.watches, rfl⟩
    | ok watches => exact ⟨watches, rfl⟩
  | watchEverywhere listener | unwatch listener => exact ⟨_, rfl⟩
  | _ => cases hc

end Command

/-- The step lemma: what acts of a kind keep, commands within that kind keep. -/
theorem Closed.command {A : Act → Prop} {P : Memory → Prop} {m : Memory} (hP : Closed A P)
    (hadd : ∀ {m : Memory} (l : Listener), P m → P (m.addListener l)) (hm : P m)
    (hA : m.Within A) {c : Command} (hc : c.Within A) : P (c.run m) := by
  have hwatch (h : c.isWatch = true) : P (c.run m) := by
    obtain ⟨watches, heq⟩ := Command.run_of_isWatch m h
    rw [heq]
    exact hP.told hm watches m.journal
  cases c with
  | request r notify => exact hP.request hm hA hc notify
  | resetWith layout => exact hP.announce (hP.clear hm hc) hA .reset
  | setOrder order => exact hP.setOrder hm hc
  | setSelfModifying allowed => exact hP.setSelfModifying hm hc
  | allocateHeap bytes =>
    obtain ⟨heap, heq⟩ := m.allocateHeap_memory bytes
    rw [Command.run, heq]
    exact hP.allocateHeap hm hc heap
  | addListener l => exact hadd l hm
  | watch listener first last => exact hwatch rfl
  | watchEverywhere listener => exact hwatch rfl
  | unwatch listener => exact hwatch rfl

/-- A listener is known from the time it is added on. -/
theorem Within.command {A : Act → Prop} {m : Memory} (hA : m.Within A) {c : Command}
    (hc : ∀ l, c = .addListener l → l.Within A) : (c.run m).Within A := by
  have hclosed := closed_listeners m.listeners
  have hsame {m' : Memory} (h : m'.listeners = m.listeners) : m'.Within A := by
    rwa [Memory.Within, h]
  cases c with
  | addListener l => exact hA.addListener (hc l rfl)
  | request r notify =>
    refine hsame (hclosed.request rfl m.within_true ?_ notify)
    cases r <;> simp [Request.Within]
  | resetWith layout => exact hsame (hclosed.announce (m := m.cleared layout) rfl m.within_true _)
  | allocateHeap bytes =>
    obtain ⟨heap, heq⟩ := m.allocateHeap_memory bytes
    exact hsame (by rw [Command.run, heq])
  | watch listener first last =>
    obtain ⟨watches, heq⟩ := Command.run_of_isWatch m (c := .watch listener first last) rfl
    exact hsame (by rw [heq])
  | setOrder order | setSelfModifying allowed | watchEverywhere listener | unwatch listener =>
    exact hA

theorem Within.foldl_run {A : Act → Prop} {m : Memory} (hA : m.Within A) {commands : List Command}
    (hcommands : ∀ l, .addListener l ∈ commands → l.Within A) :
    (commands.foldl Command.run m).Within A := by
  induction commands generalizing m with
  | nil => exact hA
  | cons c rest ih =>
    refine ih (hA.command fun l hl => hcommands l ?_) fun l hl => hcommands l (.tail c hl)
    rw [hl]
    exact .head rest

/-- The run lemma. -/
theorem Closed.foldl_run {A : Act → Prop} {P : Memory → Prop} {m : Memory} (hP : Closed A P)
    (hadd : ∀ {m : Memory} (l : Listener), P m → P (m.addListener l)) (hm : P m)
    (hA : m.Within A) {commands : List Command} (hcommands : ∀ c ∈ commands, c.Within A) :
    P (commands.foldl Command.run m) ∧ (commands.foldl Command.run m).Within A := by
  induction commands generalizing m with
  | nil => exact ⟨hm, hA⟩
  | cons c rest ih =>
    obtain ⟨hc, hrest⟩ := List.forall_mem_cons.mp hcommands
    have hnew (l : Listener) (hl : c = .addListener l) : l.Within A := by
      subst hl
      exact hc
    exact ih (hP.command hadd hm hA hc) (hA.command hnew) hrest

theorem Command.within_true (c : Command) : c.Within fun _ => True := by
  cases c with
  | request r notify => cases r <;> simp [Within, Request.Within]
  | addListener l => exact fun _ _ _ => trivial
  | _ => trivial

/-- The memories of a run: some settings, and then anything that can be done. -/
def Reachable (m : Memory) : Prop :=
  ∃ (s : MemorySettings) (commands : List Command), commands.foldl Command.run (ofSettings s) = m

/-- What every act keeps holds of all of them. -/
theorem Reachable.closed {P : Memory → Prop} {m : Memory} (h : m.Reachable)
    (hP : Closed (fun _ => True) P)
    (hadd : ∀ {m : Memory} (l : Listener), P m → P (m.addListener l))
    (hstart : ∀ s, P (ofSettings s)) : P m := by
  obtain ⟨s, commands, rfl⟩ := h
  exact (hP.foldl_run hadd (hstart s) (within_true _) fun c _ => c.within_true).1

end Memory
end MipsImage
