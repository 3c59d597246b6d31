/-
What calling listeners can do to a memory.

A listener that is called is noted in the journal, and then it acts on memory in ways that
nobody knows beforehand.  Something can be said all the same.  A property is `Closed` under a
kind of acts if each of them keeps it, and then it outlasts every call to listeners that stay
`Within` that kind.  The journal itself only grows, by one entry for each listener that a
notice concerns, whatever they do.

Listeners that act on watches alone are `Passive`.  With them memory holds after the calls
what it held before, and `Told` says so.
-/
import MipsImage.Proofs.Memory.Content

namespace MipsImage

/-- Acts that change nothing but who listens. -/
def Act.isWatch : Act → Bool
  | .watch _ _ _ | .unwatch _ => true
  | _ => false

/-- Everything a listener does is of some kind. -/
def Listener.Within (A : Act → Prop) (l : Listener) : Prop :=
  ∀ n, ∀ x ∈ l.acts n, A x

/-- A listener that only follows what it is told. -/
theorem Listener.within_idle (A : Act → Prop) (name : ListenerName) :
    Listener.Within A ⟨name, fun _ => []⟩ :=
  fun _ _ hx => absurd hx List.not_mem_nil

namespace Memory

/-- Everything the listeners do is of some kind. -/
def Within (A : Act → Prop) (m : Memory) : Prop :=
  ∀ l ∈ m.listeners, l.Within A

/-- No listener acts on memory, but for its watches. -/
def Passive (m : Memory) : Prop :=
  m.Within fun x => x.isWatch = true

theorem Within.mono {A B : Act → Prop} {m : Memory} (h : m.Within A) (hAB : ∀ x, A x → B x) :
    m.Within B :=
  fun l hl n x hx => hAB x (h l hl n x hx)

theorem within_ofSettings (A : Act → Prop) (s : MemorySettings) : (ofSettings s).Within A :=
  fun l hl => absurd hl (Array.not_mem_empty l)

theorem passive_ofSettings (s : MemorySettings) : (ofSettings s).Passive :=
  within_ofSettings _ s

theorem Frame.within {A : Act → Prop} {m m' : Memory} (h : Frame m m') (hA : m.Within A) :
    m'.Within A := by
  rwa [Within, h.listeners]

theorem Within.addListener {A : Act → Prop} {m : Memory} (hA : m.Within A) {l : Listener}
    (hl : l.Within A) : (m.addListener l).Within A := by
  intro k hk
  rcases Array.mem_push.mp hk with hold | rfl
  · exact hA k hold
  · exact hl

/-! ## Single acts -/

/-- A property of memories that acts of a kind keep, and that watches and journal have no say
in. -/
structure Closed (A : Act → Prop) (P : Memory → Prop) : Prop where
  store {m : Memory} {a : Address} {v : Word} {n : Nat} {stored : Stored} (hm : P m)
    (hx : A (.store a v n)) (h : m.poke a v n = .ok stored) : P stored.memory
  storeStatement {m left : Memory} {a : Address} {s : EncodedStatement} (hm : P m)
    (hx : A (.storeStatement a s)) (h : m.pokeStatement a s = .ok left) : P left
  setOrder {m : Memory} {order : ByteOrder} (hm : P m) (hx : A (.setOrder order)) :
    P { m with order }
  setSelfModifying {m : Memory} {allowed : Bool} (hm : P m) (hx : A (.setSelfModifying allowed)) :
    P { m with selfModifying := allowed }
  clear {m : Memory} {layout : Layout} (hm : P m) (hx : A (.clear layout)) : P (m.cleared layout)
  allocateHeap {m : Memory} {bytes : Word} (hm : P m) (hx : A (.allocateHeap bytes))
    (heap : Address) : P { m with heap }
  told {m : Memory} (hm : P m) (watches : List Watch) (journal : Array Delivery) :
    P { m with watches, journal }

/-- An act on watches does not depend on anything else. -/
theorem act_of_isWatch (m : Memory) {x : Act} (hx : x.isWatch = true) :
    ∃ watches, m.act x = { m with watches } := by
  cases x with
  | watch name first last =>
    rw [act]
    cases m.listenerNamed? name with
    | none => exact ⟨m.watches, rfl⟩
    | some listener =>
      simp only [watch]
      cases Watch.add m.watches listener first last with
      | error e => exact ⟨m.watches, rfl⟩
      | ok watches => exact ⟨watches, rfl⟩
  | unwatch name =>
    rw [act]
    cases m.listenerNamed? name with
    | none => exact ⟨m.watches, rfl⟩
    | some listener => exact ⟨_, rfl⟩
  | _ => cases hx

theorem allocateHeap_memory (m : Memory) (bytes : Word) :
    ∃ heap, (m.allocateHeap bytes).2 = { m with heap } := by
  simp only [allocateHeap]
  split_ifs
  · exact ⟨_, rfl⟩
  · exact ⟨m.heap, rfl⟩

namespace Closed

variable {A : Act → Prop} {P : Memory → Prop} {m : Memory}

theorem act (hP : Closed A P) (hm : P m) {x : Act} (hx : A x) : P (m.act x) := by
  cases x with
  | store a v n =>
    rw [Memory.act]
    cases hpoke : m.poke a v n with
    | error e => exact hm
    | ok stored => exact hP.store hm hx hpoke
  | storeStatement a s =>
    rw [Memory.act]
    cases hpoke : m.pokeStatement a s with
    | error e => exact hm
    | ok left => exact hP.storeStatement hm hx hpoke
  | setOrder order => exact hP.setOrder hm hx
  | setSelfModifying allowed => exact hP.setSelfModifying hm hx
  | clear layout => exact hP.clear hm hx
  | allocateHeap bytes =>
    obtain ⟨heap, heq⟩ := m.allocateHeap_memory bytes
    rw [Memory.act, heq]
    exact hP.allocateHeap hm hx heap
  | watch name first last =>
    obtain ⟨watches, heq⟩ := act_of_isWatch m (x := .watch name first last) rfl
    rw [heq]
    exact hP.told hm watches m.journal
  | unwatch name =>
    obtain ⟨watches, heq⟩ := act_of_isWatch m (x := .unwatch name) rfl
    rw [heq]
    exact hP.told hm watches m.journal

theorem foldl_act (hP : Closed A P) (hm : P m) {acts : List Act} (hacts : ∀ x ∈ acts, A x) :
    P (acts.foldl Memory.act m) := by
  induction acts generalizing m with
  | nil => exact hm
  | cons x rest ih =>
    obtain ⟨hx, hrest⟩ := List.forall_mem_cons.mp hacts
    exact ih (hP.act hm hx) hrest

end Closed

/-- No act makes a listener known. -/
theorem closed_listeners (listeners : Array Listener) :
    Closed (fun _ => True) fun m => m.listeners = listeners where
  store hm _ h := (deposit_of_poke h).frame.listeners.trans hm
  storeStatement hm _ h := (pokeStatement_eq_ok h).2.frame.listeners.trans hm
  setOrder hm _ := hm
  setSelfModifying hm _ := hm
  clear hm _ := hm
  allocateHeap hm _ _ := hm
  told hm _ _ := hm

theorem journal_act (m : Memory) (x : Act) : (m.act x).journal = m.journal := by
  cases x with
  | store a v n =>
    rw [act]
    cases hpoke : m.poke a v n with
    | error e => rfl
    | ok stored => exact (deposit_of_poke hpoke).journal
  | storeStatement a s =>
    rw [act]
    cases hpoke : m.pokeStatement a s with
    | error e => rfl
    | ok left => exact (pokeStatement_eq_ok hpoke).2.journal
  | allocateHeap bytes =>
    obtain ⟨heap, heq⟩ := m.allocateHeap_memory bytes
    rw [act, heq]
  | watch name first last =>
    obtain ⟨watches, heq⟩ := act_of_isWatch m (x := .watch name first last) rfl
    rw [heq]
  | unwatch name =>
    obtain ⟨watches, heq⟩ := act_of_isWatch m (x := .unwatch name) rfl
    rw [heq]
  | setOrder order | setSelfModifying allowed | clear layout => rfl

/-! ## Calls -/

namespace Closed

variable {A : Act → Prop} {P : Memory → Prop} {m : Memory}

theorem deliver (hP : Closed A P) (hm : P m) (hA : m.Within A) (notice : Notice)
    (listener : ListenerId) : P (m.deliver notice listener) := by
  have hnoted : P { m with journal := m.journal.push ⟨listener, notice⟩ } :=
    hP.told hm m.watches _
  simp only [Memory.deliver]
  cases hl : m.listeners[listener]? with
  | none => exact hnoted
  | some l => exact hP.foldl_act hnoted (hA l (Array.mem_of_getElem? hl) _)

/-- The listeners are the same after the calls as before, so all of them stay within `A`. -/
theorem announce (hP : Closed A P) (hm : P m) (hA : m.Within A) (notice : Notice) :
    P (m.announce notice) := by
  rw [Memory.announce]
  generalize notice.recipients m.watches = recipients
  induction recipients generalizing m with
  | nil => exact hm
  | cons listener rest ih =>
    have hsame : (m.deliver notice listener).listeners = m.listeners :=
      (closed_listeners m.listeners).deliver rfl (hA.mono fun _ _ => trivial) notice listener
    exact ih (hP.deliver hm hA notice listener) (by rwa [Within, hsame])

theorem announceIf (hP : Closed A P) (hm : P m) (hA : m.Within A) (notify : Bool)
    (notice : Notice) : P (m.announceIf notify notice) := by
  cases notify with
  | false => exact hm
  | true => exact hP.announce hm hA notice

end Closed

theorem within_true (m : Memory) : m.Within fun _ => True :=
  fun _ _ _ _ _ => trivial

theorem journal_deliver (m : Memory) (notice : Notice) (listener : ListenerId) :
    (m.deliver notice listener).journal = m.journal.push ⟨listener, notice⟩ := by
  have hacts (acts : List Act) (m : Memory) : (acts.foldl act m).journal = m.journal := by
    induction acts generalizing m with
    | nil => rfl
    | cons x rest ih => rw [List.foldl_cons, ih, journal_act]
  simp only [deliver]
  cases m.listeners[listener]? with
  | none => rfl
  | some l => exact hacts _ _

/-- Everyone whom a notice concerns is called once, whatever those before have done. -/
theorem journal_announce (m : Memory) (notice : Notice) :
    (m.announce notice).journal.toList =
      m.journal.toList ++ (notice.recipients m.watches).map fun listener => ⟨listener, notice⟩ := by
  rw [announce]
  generalize notice.recipients m.watches = recipients
  induction recipients generalizing m with
  | nil => simp
  | cons listener rest ih =>
    rw [List.foldl_cons, ih, journal_deliver, Array.toList_push, List.append_assoc, List.map_cons,
      List.singleton_append]

/-! ## Passive listeners -/

/-- `m'` is `m` after listeners were told something that did not act on it. -/
def Told (m m' : Memory) : Prop :=
  ∃ watches journal, m' = { m with watches, journal }

namespace Told

variable {m m' : Memory}

theorem refl (m : Memory) : Told m m :=
  ⟨m.watches, m.journal, rfl⟩

theorem trans {m₁ m₂ m₃ : Memory} (h : Told m₁ m₂) (k : Told m₂ m₃) : Told m₁ m₃ := by
  obtain ⟨w, j, rfl⟩ := h
  obtain ⟨w', j', rfl⟩ := k
  exact ⟨w', j', rfl⟩

theorem frame (h : Told m m') : Frame m m' := by
  obtain ⟨w, j, rfl⟩ := h
  exact ⟨rfl, rfl, rfl, rfl, rfl, fun _ => rfl⟩

theorem sameData (h : Told m m') : SameData m m' := by
  obtain ⟨w, j, rfl⟩ := h
  intro which
  cases which <;> rfl

theorem sameText (h : Told m m') : SameText m m' := by
  obtain ⟨w, j, rfl⟩ := h
  intro which
  cases which <;> rfl

theorem wordAt (h : Told m m') (x : Address) : m'.wordAt x = m.wordAt x := by
  obtain ⟨w, j, rfl⟩ := h
  rfl

end Told

theorem told_announceIf {m : Memory} (hm : m.Passive) (notify : Bool) (notice : Notice) :
    Told m (m.announceIf notify notice) := by
  have hclosed : Closed (fun x => x.isWatch = true) (Told m) :=
    { store := fun _ hx _ => absurd hx Bool.false_ne_true
      storeStatement := fun _ hx _ => absurd hx Bool.false_ne_true
      setOrder := fun _ hx => absurd hx Bool.false_ne_true
      setSelfModifying := fun _ hx => absurd hx Bool.false_ne_true
      clear := fun _ hx => absurd hx Bool.false_ne_true
      allocateHeap := fun _ hx _ => absurd hx Bool.false_ne_true
      told := fun h watches journal => h.trans ⟨watches, journal, rfl⟩ }
  exact hclosed.announceIf (.refl m) hm notify notice

/-- `m'` is `m` with the word at `w` replaced by `v`. -/
structure Wrote (m : Memory) (w : Address) (v : Word) (m' : Memory) : Prop extends Frame m m' where
  words : ∀ x, x.toNat % 4 = 0 → m'.wordAt x = if x = w then some v else m.wordAt x

theorem Deposit.wrote {m m' : Memory} {w : Address} {v : Word} (h : Deposit m w v m')
    (hw : w.toNat % 4 = 0) : Wrote m w v m' where
  toFrame := h.frame
  words x hx := by
    by_cases hxw : x = w
    · rw [if_pos hxw, hxw, h.wordAt_self]
    · rw [if_neg hxw, h.wordAt_of_ne hw hx hxw]

theorem Wrote.told {m m₁ m₂ : Memory} {w : Address} {v : Word} (h : Wrote m w v m₁)
    (k : Told m₁ m₂) : Wrote m w v m₂ where
  toFrame := h.toFrame.trans k.frame
  words x hx := by rw [k.wordAt, h.words x hx]

/-- A store replaces the word around its bytes by that word with the bytes spliced in, and
gives back the bytes that were there. -/
theorem store_wrote {m m' : Memory} (hm : m.Passive) {a : Address} {v old : Word} {n : Nat}
    {notify : Bool} (h : m.store a v n notify = (.ok old, m')) :
    misalignment? a n = none ∧
      ∃ word, m.wordAt (Word.containing a) = some word ∧ old = m.order.extract word a n ∧
        Wrote m (Word.containing a) (m.order.splice word v a n) m' := by
  rw [store] at h
  cases hpoke : m.poke a v n with
  | error e =>
    rw [hpoke] at h
    cases h
  | ok stored =>
    rw [hpoke] at h
    cases h
    obtain ⟨halign, word, hword, hold, -, hupdated⟩ := poke_eq_ok hpoke
    have hwrote := hupdated.deposit.wrote (Word.containing_aligned a)
    exact ⟨halign, word, hword, hold, hwrote.told (told_announceIf (hwrote.within hm) _ _)⟩

theorem storeStatement_wrote {m m' : Memory} (hm : m.Passive) {a : Address} {s : EncodedStatement}
    {notify : Bool} (h : m.storeStatement a s notify = (.ok (), m')) :
    a.toNat % 4 = 0 ∧ (∃ word, m.wordAt a = some word) ∧ Wrote m a s.binary m' := by
  rw [storeStatement] at h
  cases hpoke : m.pokeStatement a s with
  | error e =>
    rw [hpoke] at h
    cases h
  | ok left =>
    rw [hpoke] at h
    cases h
    obtain ⟨ha, hdeposit⟩ := pokeStatement_eq_ok hpoke
    have hwrote := hdeposit.wrote ha
    refine ⟨ha, ?_, hwrote.told (told_announceIf (hwrote.within hm) _ _)⟩
    obtain ⟨area, harea, -⟩ := wordAt_eq_some_iff.mp hdeposit.wordAt_self
    exact ⟨_, wordAt_eq_some_iff.mpr ⟨area, (hwrote.area a).symm.trans harea, rfl⟩⟩

theorem told_fetch {m : Memory} (hm : m.Passive) (a : Address) (n : Nat) (notify : Bool) :
    Told m (m.fetch a n notify).2 := by
  rw [fetch]
  cases m.peek a n with
  | error e => exact .refl m
  | ok access => exact told_announceIf hm _ _

end Memory
end MipsImage
