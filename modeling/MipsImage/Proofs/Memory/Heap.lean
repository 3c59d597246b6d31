/-
The heap: dynamic data, given out from its first address upwards.

A request is rounded up to whole words and gets the addresses that follow the last block, if
dynamic data has that many left.  Only a reset takes anything back.  `Issued m blocks` says
that some run has come to the memory `m` and was given these blocks since the last reset,
whatever else was done in between.  The blocks of a run lie on top of each other, and where
they end is all that decides about the next request.

Listeners may do anything but ask for heap and start over, since blocks that they were given
or have taken back would be missing from the list.
-/
import MipsImage.Proofs.Memory.Command

namespace MipsImage

/-- Dynamic data is there, and neither the first nor the last address belongs to it, so that
no address next to it wraps. -/
structure Layout.Spaced (l : Layout) : Prop where
  low : 0 < l.dynamicData.first.toNat
  nonempty : l.dynamicData.first.toNat ≤ l.dynamicData.last.toNat
  high : l.dynamicData.last.toNat < 2 ^ 32 - 1

/-- Neither a request for heap nor a reset. -/
def Act.sparesHeap : Act → Bool
  | .clear _ | .allocateHeap _ => false
  | _ => true

namespace Memory

/-- As many bytes as the words have that `bytes` bytes take up. -/
def roundUp (bytes : Word) : Nat :=
  (bytes.toNat + 3) / 4 * 4

/-! ## Blocks -/

/-- A block of heap: where it begins and how many bytes were asked for. -/
structure HeapBlock where
  first : Address
  bytes : Word
  deriving DecidableEq, Repr

namespace HeapBlock

/-- The address after the last of the block. -/
def past (b : HeapBlock) : Nat :=
  b.first.toNat + roundUp b.bytes

def Within (b : HeapBlock) (range : AddressRange) : Prop :=
  range.first.toNat ≤ b.first.toNat ∧ b.past ≤ range.last.toNat + 1

end HeapBlock

/-- Blocks that lie on top of each other, from `base` up to `top`. -/
def Stacked (base : Nat) : List HeapBlock → Nat → Prop
  | [], top => top = base
  | b :: rest, top => b.first.toNat = base ∧ Stacked b.past rest top

theorem Stacked.concat {base top : Nat} {blocks : List HeapBlock} (h : Stacked base blocks top)
    {b : HeapBlock} (hb : b.first.toNat = top) : Stacked base (blocks ++ [b]) b.past := by
  induction blocks generalizing base with
  | nil => exact ⟨hb.trans h, rfl⟩
  | cons c rest ih => exact ⟨h.1, ih h.2⟩

theorem Stacked.le {base top : Nat} {blocks : List HeapBlock} (h : Stacked base blocks top) :
    base ≤ top := by
  induction blocks generalizing base with
  | nil => exact Nat.le_of_eq h.symm
  | cons b rest ih =>
    have hrest := ih h.2
    have hfirst := h.1
    rw [HeapBlock.past] at hrest
    omega

theorem Stacked.bounds {base top : Nat} {blocks : List HeapBlock} (h : Stacked base blocks top) :
    ∀ b ∈ blocks, base ≤ b.first.toNat ∧ b.past ≤ top := by
  induction blocks generalizing base with
  | nil => exact fun b hb => absurd hb List.not_mem_nil
  | cons c rest ih =>
    intro b hb
    rcases List.mem_cons.mp hb with rfl | hlater
    · exact ⟨Nat.le_of_eq h.1.symm, h.2.le⟩
    · obtain ⟨hlow, hhigh⟩ := ih h.2 b hlater
      have hfirst := h.1
      rw [HeapBlock.past] at hlow
      exact ⟨by omega, hhigh⟩

theorem Stacked.apart {base top : Nat} {blocks : List HeapBlock} (h : Stacked base blocks top) :
    blocks.Pairwise fun b c => b.past ≤ c.first.toNat := by
  induction blocks generalizing base with
  | nil => exact .nil
  | cons b rest ih =>
    exact List.pairwise_cons.mpr ⟨fun c hc => (h.2.bounds c hc).1, ih h.2⟩

/-! ## One request -/

/-- How many addresses of dynamic data have not been given out. -/
def heapLeft (m : Memory) : Nat :=
  m.layout.dynamicData.last.toNat + 1 - m.heap.toNat

/-- The heap has got no further than the end of dynamic data. -/
structure Bounded (m : Memory) : Prop where
  spaced : m.layout.Spaced
  low : m.layout.dynamicData.first.toNat ≤ m.heap.toNat
  high : m.heap.toNat ≤ m.layout.dynamicData.last.toNat + 1

/-- The sum of the heap and a request is compared only if it does not wrap, and if what is left
is enough it does not. -/
theorem Bounded.fits_iff {m : Memory} (hm : m.Bounded) (bytes : Word) :
    (bytes.toNat + 3 < 0x100000000 ∧ m.heap.toNat + roundUp bytes < 0x100000000 ∧
      UInt32.ofNat (m.heap.toNat + roundUp bytes) - 1 ≤ m.layout.dynamicData.last) ↔
    roundUp bytes ≤ m.heapLeft := by
  have hlow := hm.spaced.low
  have hhigh := hm.spaced.high
  have hfirst := hm.low
  have hlast := hm.high
  -- one less than the sum does not wrap either, since the heap is not at address 0
  have hlast_iff (h : m.heap.toNat + roundUp bytes < 0x100000000) :
      UInt32.ofNat (m.heap.toNat + roundUp bytes) - 1 ≤ m.layout.dynamicData.last ↔
        m.heap.toNat + roundUp bytes ≤ m.layout.dynamicData.last.toNat + 1 := by
    rw [UInt32.le_iff_toNat_le, UInt32.toNat_sub, UInt32.toNat_ofNat', UInt32.toNat_one]
    omega
  unfold heapLeft
  constructor
  · rintro ⟨-, hsum, hle⟩
    have := (hlast_iff hsum).mp hle
    omega
  · intro h
    have hsum : m.heap.toNat + roundUp bytes < 0x100000000 := by omega
    refine ⟨?_, hsum, (hlast_iff hsum).mpr (by omega)⟩
    unfold roundUp at h hsum
    omega

theorem Bounded.allocateHeap_of_le {m : Memory} (hm : m.Bounded) {bytes : Word}
    (h : roundUp bytes ≤ m.heapLeft) : m.allocateHeap bytes =
      (.ok m.heap, { m with heap := UInt32.ofNat (m.heap.toNat + roundUp bytes) }) :=
  if_pos ((hm.fits_iff bytes).mpr h)

theorem Bounded.allocateHeap_of_lt {m : Memory} (hm : m.Bounded) {bytes : Word}
    (h : m.heapLeft < roundUp bytes) :
    m.allocateHeap bytes = (.error (.store m.heap .outOfRange), m) :=
  if_neg (mt (hm.fits_iff bytes).mp (Nat.not_le_of_lt h))

/-! ## Runs -/

/-- The memory `m` comes about in some run, and `blocks` is the heap given out in it since the
last reset, in order. -/
inductive Issued : Memory → List HeapBlock → Prop where
  | start {s : MemorySettings} (hs : s.layout.Spaced) : Issued (ofSettings s) []
  | reset {m : Memory} {blocks : List HeapBlock} (hm : Issued m blocks) : Issued m.reset []
  | resetWith {m : Memory} {blocks : List HeapBlock} (hm : Issued m blocks) {layout : Layout}
      (hl : layout.Spaced) : Issued (m.resetWith layout) []
  | granted {m m' : Memory} {blocks : List HeapBlock} (hm : Issued m blocks) {bytes : Word}
      {first : Address} (h : m.allocateHeap bytes = (.ok first, m')) :
      Issued m' (blocks ++ [⟨first, bytes⟩])
  | refused {m m' : Memory} {blocks : List HeapBlock} (hm : Issued m blocks) {bytes : Word}
      {e : AddressError} (h : m.allocateHeap bytes = (.error e, m')) : Issued m' blocks
  | handled {m : Memory} {blocks : List HeapBlock} (hm : Issued m blocks) {c : Command}
      (hc : c.Within fun x => x.sparesHeap = true) : Issued (c.run m) blocks

/-- The layout and the heap are left alone by everything that goes on in the regions. -/
theorem closed_heap (layout : Layout) (heap : Address) :
    Closed (fun x => x.sparesHeap = true) fun m => m.layout = layout ∧ m.heap = heap where
  store hm _ h :=
    ⟨(deposit_of_poke h).frame.layout.trans hm.1, (deposit_of_poke h).frame.heap.trans hm.2⟩
  storeStatement hm _ h :=
    ⟨(pokeStatement_eq_ok h).2.frame.layout.trans hm.1,
      (pokeStatement_eq_ok h).2.frame.heap.trans hm.2⟩
  setOrder hm _ := hm
  setSelfModifying hm _ := hm
  clear _ hx := absurd hx Bool.false_ne_true
  allocateHeap _ hx := absurd hx Bool.false_ne_true
  told hm _ _ := hm

theorem heap_resetWith {m : Memory} (hm : m.Within fun x => x.sparesHeap = true)
    (layout : Layout) :
    (m.resetWith layout).layout = layout ∧ (m.resetWith layout).heap = layout.heapBase :=
  (closed_heap layout layout.heapBase).announce (m := m.cleared layout) ⟨rfl, rfl⟩ hm .reset

/-- The blocks of a run reach from the bottom of dynamic data to the heap, and listeners leave
them alone. -/
structure Filled (m : Memory) (blocks : List HeapBlock) : Prop extends m.Bounded where
  listeners : m.Within fun x => x.sparesHeap = true
  stacked : Stacked m.layout.heapBase.toNat blocks m.heap.toNat

theorem Filled.congr {m m' : Memory} {blocks : List HeapBlock} (h : m.Filled blocks)
    (hm' : m'.Within fun x => x.sparesHeap = true) (hlayout : m'.layout = m.layout)
    (hheap : m'.heap = m.heap) : m'.Filled blocks := by
  obtain ⟨⟨hspaced, hlow, hhigh⟩, -, hstacked⟩ := h
  refine ⟨⟨?_, ?_, ?_⟩, hm', ?_⟩
  all_goals rw [hlayout]
  · exact hspaced
  · rwa [hheap]
  · rwa [hheap]
  · rwa [hheap]

theorem filled_nil {m : Memory} (hm : m.Within fun x => x.sparesHeap = true)
    (hl : m.layout.Spaced) (hheap : m.heap = m.layout.heapBase) : m.Filled [] := by
  have hnonempty := hl.nonempty
  refine ⟨⟨hl, ?_, ?_⟩, hm, ?_⟩
  · rw [hheap]
    exact Nat.le_refl _
  · rw [hheap, Layout.heapBase]
    omega
  · rw [hheap]
    rfl

/-- Starting over gives everything back. -/
theorem filled_resetWith {m : Memory} (hm : m.Within fun x => x.sparesHeap = true)
    {layout : Layout} (hl : layout.Spaced) : (m.resetWith layout).Filled [] := by
  obtain ⟨hlayout, hheap⟩ := heap_resetWith hm layout
  have hkept : (m.resetWith layout).Within fun x => x.sparesHeap = true :=
    hm.command (c := .resetWith layout) fun _ h => Command.noConfusion h
  exact filled_nil hkept (by rwa [hlayout]) (by rw [hheap, hlayout])

theorem Filled.granted {m m' : Memory} {blocks : List HeapBlock} (hm : m.Filled blocks)
    {bytes : Word} {first : Address} (h : m.allocateHeap bytes = (.ok first, m')) :
    m'.Filled (blocks ++ [⟨first, bytes⟩]) := by
  by_cases hfits : roundUp bytes ≤ m.heapLeft
  · rw [hm.allocateHeap_of_le hfits] at h
    cases h
    have hhigh := hm.spaced.high
    have hlow := hm.low
    have hlast := hm.high
    rw [heapLeft] at hfits
    have hsum : (UInt32.ofNat (m.heap.toNat + roundUp bytes)).toNat =
        m.heap.toNat + roundUp bytes := by
      rw [UInt32.toNat_ofNat']
      omega
    refine ⟨⟨hm.spaced, ?_, ?_⟩, hm.listeners, ?_⟩
    · show m.layout.dynamicData.first.toNat ≤ (UInt32.ofNat (m.heap.toNat + roundUp bytes)).toNat
      omega
    · show (UInt32.ofNat (m.heap.toNat + roundUp bytes)).toNat ≤
        m.layout.dynamicData.last.toNat + 1
      omega
    · show Stacked _ _ (UInt32.ofNat (m.heap.toNat + roundUp bytes)).toNat
      rw [hsum]
      exact hm.stacked.concat rfl
  · rw [hm.allocateHeap_of_lt (Nat.lt_of_not_le hfits)] at h
    cases h

theorem Filled.handled {m : Memory} {blocks : List HeapBlock} (hm : m.Filled blocks) {c : Command}
    (hc : c.Within fun x => x.sparesHeap = true) : (c.run m).Filled blocks := by
  obtain ⟨hlayout, hheap⟩ :=
    (closed_heap m.layout m.heap).command (fun _ h => h) ⟨rfl, rfl⟩ hm.listeners hc
  refine hm.congr (hm.listeners.command fun l hl => ?_) hlayout hheap
  subst hl
  exact hc

theorem Issued.filled {m : Memory} {blocks : List HeapBlock} (h : Issued m blocks) :
    m.Filled blocks := by
  induction h with
  | start hs => exact filled_nil (within_ofSettings _ _) hs rfl
  | reset _ ih => exact filled_resetWith ih.listeners ih.spaced
  | resetWith _ hl ih => exact filled_resetWith ih.listeners hl
  | granted _ h ih => exact ih.granted h
  | @refused m m' _ _ bytes e h ih =>
    by_cases hfits : roundUp bytes ≤ m.heapLeft
    · rw [ih.allocateHeap_of_le hfits] at h
      cases h
    · rw [ih.allocateHeap_of_lt (Nat.lt_of_not_le hfits)] at h
      cases h
      exact ih
  | handled _ hc ih => exact ih.handled hc

/-- In every run the blocks given out since the last reset lie on top of each other from the
bottom of dynamic data up, inside it and apart.  A request is granted the addresses after them
if it is no larger than what is left, and if it is larger, it is refused and has no effect. -/
theorem Issued.blocks_safe {m : Memory} {blocks : List HeapBlock} (h : Issued m blocks) :
    Stacked m.layout.heapBase.toNat blocks m.heap.toNat ∧
    (∀ b ∈ blocks, b.Within m.layout.dynamicData) ∧
    blocks.Pairwise (fun b c => b.past ≤ c.first.toNat) ∧
    ∀ bytes, (roundUp bytes ≤ m.heapLeft → ∃ m', m.allocateHeap bytes = (.ok m.heap, m') ∧
        Issued m' (blocks ++ [⟨m.heap, bytes⟩])) ∧
      (m.heapLeft < roundUp bytes →
        m.allocateHeap bytes = (.error (.store m.heap .outOfRange), m)) := by
  have hm := h.filled
  refine ⟨hm.stacked, fun b hb => ?_, hm.stacked.apart, fun bytes => ⟨fun hfits => ?_,
    hm.allocateHeap_of_lt⟩⟩
  · obtain ⟨hlow, hhigh⟩ := hm.stacked.bounds b hb
    exact ⟨hlow, Nat.le_trans hhigh hm.high⟩
  · have hgranted := hm.allocateHeap_of_le hfits
    exact ⟨_, hgranted, h.granted hgranted⟩

/-- A request that would wrap is refused in between, and then one takes exactly what is left.
After it there is room for nothing but an empty block. -/
theorem Issued.blocks_safe_exact_fit :
    ∃ m, Issued m [⟨0x2000, 5⟩, ⟨0x2008, 0xff5⟩] ∧ m.layout = Layout.compactData ∧
      HeapBlock.Within ⟨0x2008, 0xff5⟩ m.layout.dynamicData ∧
      m.allocateHeap 1 = (.error (.store 0x3000 .outOfRange), m) ∧
      ∃ m', m.allocateHeap 0 = (.ok 0x3000, m') := by
  let m₀ := ofSettings ⟨Layout.compactData, .little, false⟩
  let m₁ : Memory := { m₀ with heap := UInt32.ofNat (m₀.heap.toNat + roundUp 5) }
  let m₂ : Memory := { m₁ with heap := UInt32.ofNat (m₁.heap.toNat + roundUp 0xff5) }
  have hstart : Issued m₀ [] := .start ⟨by decide, by decide, by decide⟩
  have hfirst : Issued m₁ [⟨0x2000, 5⟩] :=
    hstart.granted (hstart.filled.allocateHeap_of_le (by decide))
  have hwraps : m₁.heapLeft < roundUp 0xfffffffe := by decide
  have hrun : Issued m₂ [⟨0x2000, 5⟩, ⟨0x2008, 0xff5⟩] :=
    (hfirst.refused (hfirst.filled.allocateHeap_of_lt hwraps)).granted
      (hfirst.filled.allocateHeap_of_le (by decide))
  obtain ⟨-, hwithin, -, hnext⟩ := hrun.blocks_safe
  obtain ⟨m', hempty, -⟩ := (hnext 0).1 (by decide)
  exact ⟨m₂, hrun, rfl, hwithin _ (by decide), (hnext 1).2 (by decide), m', hempty⟩

end Memory
end MipsImage
