/-
Text holds code.

A word of text is kept as a statement, and the statement is always one that its own
encoding stands for.  It may have been assembled, or it may be what a store into text was
decoded to; either way it is built for the address it is at, and that is the invariant.
What a store can do to text is said once, in `poke_text`: nothing at all, or, if code may
modify itself, put a decoded statement in place.  So while it may not, text stays as it
is, whatever is stored and however often byte order is changed.

Both hold whether it is a caller or a listener that acts, as long as statements go where they
were built for (`Act.Legal`), or nobody touches text itself (`Act.sparesText`).
-/
import MipsImage.Proofs.Instruction.RoundTrip
import MipsImage.Proofs.Memory.Bytes

namespace MipsImage

namespace EncodedStatement

open BasicInstruction

/-- A statement that encoding could have made for this address: its operands lie in their
ranges and its word is their encoding. -/
structure Built (address : Address) (s : EncodedStatement) : Prop where
  known : s.instruction ∈ table
  inRange : List.Forall₂ OperandKind.InRange s.instruction.operandKinds s.operands
  encoded : s.instruction.encode s.operands address = .ok s.binary

instance (address : Address) (s : EncodedStatement) : Decidable (Built address s) :=
  decidable_of_iff (s.instruction ∈ table ∧
      List.Forall₂ OperandKind.InRange s.instruction.operandKinds s.operands ∧
      s.instruction.encode s.operands address = .ok s.binary)
    ⟨fun h => ⟨h.1, h.2.1, h.2.2⟩, fun h => ⟨h.known, h.inRange, h.encoded⟩⟩

theorem built_of_decode? {w : Word} {address : Address} {s : EncodedStatement}
    (h : decode? w address = some s) : Built address s := by
  obtain ⟨i, hi, rfl⟩ := Option.map_eq_some_iff.mp h
  obtain ⟨hknown, hrange, hencoded⟩ := encode_of_ofWord? hi address
  exact ⟨hknown, hrange, hencoded⟩

/-- The word of `s` decodes to `s` itself, up to the aliases. -/
def Decodes (address : Address) (s : EncodedStatement) : Prop :=
  ∃ t, decode? s.binary address = some t ∧ t.binary = s.binary ∧
    ReadsAs s.instruction s.operands t.instruction t.operands

theorem Built.decodes {address : Address} {s : EncodedStatement} (h : Built address s) :
    Decodes address s := by
  obtain ⟨j, hj, hreads⟩ := readsAs_of_encode h.known h.inRange h.encoded
  refine ⟨⟨j, j.decodeOperands s.binary address, s.binary, none⟩, ?_, rfl, hreads⟩
  rw [decode?, hj]
  rfl

end EncodedStatement

open EncodedStatement (Built built_of_decode?)

/-- Statements are stored at the addresses they are built for. -/
def Act.Legal : Act → Prop
  | .storeStatement address s => Built address s
  | _ => True

/-- Neither a statement nor a reset, and code still may not modify itself afterwards. -/
def Act.sparesText : Act → Bool
  | .storeStatement _ _ | .clear _ => false
  | .setSelfModifying allowed => !allowed
  | _ => true

namespace Memory

/-! ## Changes of text -/

/-- `m'` has the text of `m`, but for the statement `s` at the word `w`. -/
structure Put (w : Address) (s : EncodedStatement) (m m' : Memory) : Prop where
  aligned : w.toNat % 4 = 0
  regions : ∃ which, (m.textRegion which).contains w = true ∧
    ∀ k, m'.textRegion k =
      if k = which then (m.textRegion which).store w (some s) else m.textRegion k

theorem put_setTextRegion {m : Memory} {w : Address} {which : TextArea} (hw : w.toNat % 4 = 0)
    (harea : m.areaOf? w = some (.text which)) (s : EncodedStatement) :
    Put w s m (m.setTextRegion which ((m.textRegion which).store w (some s))) :=
  ⟨hw, which, contains_of_areaOf?_text harea, fun _ => textRegion_setTextRegion ..⟩

/-- A quiet store puts a decoded statement into text if it may, and otherwise leaves text
alone. -/
theorem poke_text {m : Memory} {a : Address} {v : Word} {n : Nat} {stored : Stored}
    (h : m.poke a v n = .ok stored) :
    SameText m stored.memory ∨
      m.selfModifying = true ∧ ∃ w s, Built w s ∧ Put w s m stored.memory := by
  have hupdated := updated_of_poke h
  generalize stored.memory = m' at hupdated ⊢
  cases hupdated with
  | data harea => exact .inl fun _ => textRegion_setDataRegion ..
  | text harea on decodes =>
    exact .inr ⟨on, _, _, built_of_decode? decodes,
      put_setTextRegion (Word.containing_aligned a) harea _⟩

theorem pokeStatement_text {m left : Memory} {a : Address} {s : EncodedStatement}
    (h : m.pokeStatement a s = .ok left) : SameText m left ∨ Put a s m left := by
  obtain ⟨ha, hinserted⟩ := inserted_of_pokeStatement h
  cases hinserted with
  | text harea => exact .inr (put_setTextRegion ha harea s)
  | data harea on => exact .inl fun _ => textRegion_setDataRegion ..

/-- Text is in none of the other fields. -/
theorem sameText_with (m : Memory) (order : ByteOrder) (selfModifying : Bool) (heap : Address)
    (watches : List Watch) (journal : Array Delivery) :
    SameText m { m with order, selfModifying, heap, watches, journal } :=
  fun which => by cases which <;> rfl

/-! ## Coherence -/

/-- Every statement in text is built for the address it is at. -/
def Coherent (m : Memory) : Prop :=
  ∀ which a s, a.toNat % 4 = 0 → (m.textRegion which).contains a = true →
    (m.textRegion which).fetch a = some s → Built a s

theorem SameText.coherent {m m' : Memory} (h : SameText m m') (hm : Coherent m) : Coherent m' := by
  intro which a s ha hinside hs
  rw [h which] at hinside hs
  exact hm which a s ha hinside hs

theorem Put.coherent {w : Address} {s : EncodedStatement} {m m' : Memory} (h : Put w s m m')
    (hs : Built w s) (hm : Coherent m) : Coherent m' := by
  obtain ⟨which, hinside, hregions⟩ := h.regions
  intro k a s' ha hcontains hfetch
  rw [hregions] at hcontains hfetch
  by_cases hk : k = which
  · subst hk
    rw [if_pos rfl] at hcontains hfetch
    rw [Region.contains, Region.store_range] at hcontains
    rw [Region.fetch_store hinside hcontains] at hfetch
    split_ifs at hfetch with hword
    · have haw : a = w := (toNat_div_eq_iff h.aligned ha).mp hword
      cases hfetch
      exact haw ▸ hs
    · exact hm k a s' ha hcontains hfetch
  · rw [if_neg hk] at hcontains hfetch
    exact hm k a s' ha hcontains hfetch

theorem coherent_ofSettings (s : MemorySettings) : Coherent (ofSettings s) := by
  intro which a st _ _ hst
  have hblank : ((ofSettings s).textRegion which).fetch a = none := by
    cases which <;> exact Region.fetch_empty _ _ _
  rw [hblank] at hst
  cases hst

theorem coherent_cleared (m : Memory) (layout : Layout) : Coherent (m.cleared layout) := by
  have hsame : SameText (ofSettings { layout, order := m.order, selfModifying := m.selfModifying })
      (m.cleared layout) := fun which => by cases which <;> rfl
  exact hsame.coherent (coherent_ofSettings _)

theorem closed_coherent : Closed Act.Legal Coherent where
  store hm _ h := by
    rcases poke_text h with hsame | ⟨-, w, s, hbuilt, hput⟩
    · exact hsame.coherent hm
    · exact hput.coherent hbuilt hm
  storeStatement hm hx h := by
    rcases pokeStatement_text h with hsame | hput
    · exact hsame.coherent hm
    · exact hput.coherent hx hm
  setOrder {m order} hm _ := (sameText_with m order _ _ _ _).coherent hm
  setSelfModifying {m allowed} hm _ := (sameText_with m _ allowed _ _ _).coherent hm
  clear {m layout} _ _ := coherent_cleared m layout
  allocateHeap {m _} hm _ heap := (sameText_with m _ _ heap _ _).coherent hm
  told {m} hm watches journal := (sameText_with m _ _ _ watches journal).coherent hm

theorem coherent_foldl_run (s : MemorySettings) {commands : List Command}
    (hlegal : ∀ c ∈ commands, c.Within Act.Legal) :
    Coherent (commands.foldl Command.run (ofSettings s)) := by
  refine (closed_coherent.foldl_run ?_ (coherent_ofSettings s) (within_ofSettings _ s) hlegal).1
  intro m l hm
  have hsame : SameText m (m.addListener l) := fun which => by cases which <;> rfl
  exact hsame.coherent hm

/-! ## Protection -/

/-- From `m` to `m'` text stays as it is, and is still protected. -/
structure Protected (m m' : Memory) : Prop where
  off : m'.selfModifying = false
  area : ∀ x, m'.areaOf? x = m.areaOf? x
  text : SameText m m'

theorem Protected.refl {m : Memory} (hoff : m.selfModifying = false) : Protected m m :=
  ⟨hoff, fun _ => rfl, fun _ => rfl⟩

theorem closed_protected (m : Memory) :
    Closed (fun x => x.sparesText = true) (Protected m) where
  store hm _ h := by
    have hframe := (deposit_of_poke h).frame
    refine ⟨hframe.selfModifying.trans hm.off, fun x => (hframe.area x).trans (hm.area x), ?_⟩
    rcases poke_text h with hsame | ⟨hon, -⟩
    · exact hm.text.trans hsame
    · rw [hm.off] at hon
      cases hon
  storeStatement _ hx _ := absurd hx Bool.false_ne_true
  setOrder {m' order} hm _ := ⟨hm.off, hm.area, hm.text.trans (sameText_with m' order _ _ _ _)⟩
  setSelfModifying {m' allowed} hm hx :=
    ⟨Bool.not_eq_true' allowed ▸ hx, hm.area, hm.text.trans (sameText_with m' _ allowed _ _ _)⟩
  clear _ hx := absurd hx Bool.false_ne_true
  allocateHeap {m' _} hm _ heap :=
    ⟨hm.off, hm.area, hm.text.trans (sameText_with m' _ _ heap _ _)⟩
  told {m'} hm watches journal :=
    ⟨hm.off, hm.area, hm.text.trans (sameText_with m' _ _ _ watches journal)⟩

theorem protected_foldl_run {m : Memory} (hoff : m.selfModifying = false)
    (hm : m.Within fun x => x.sparesText = true) {commands : List Command}
    (hspares : ∀ c ∈ commands, c.Within fun x => x.sparesText = true) :
    Protected m (commands.foldl Command.run m) := by
  refine ((closed_protected m).foldl_run ?_ (.refl hoff) hm hspares).1
  intro m' l h
  have hsame : SameText m' (m'.addListener l) := fun which => by cases which <;> rfl
  exact ⟨h.off, h.area, h.text.trans hsame⟩

/-! ## What is found in text -/

/-- Statements are at word addresses of text. -/
theorem fetchStatement_text {m : Memory} {a : Address} {which : TextArea}
    (harea : m.areaOf? a = some (.text which)) (notify : Bool) :
    (m.fetchStatement a notify).1 =
      if a.toNat % 4 = 0 then .ok ((m.textRegion which).fetch a)
      else .error (.load a (.misaligned 4)) := by
  simp only [fetchStatement, peekStatement, misalignment?, harea, alignment]
  split_ifs with halign
  · rfl
  · rfl

theorem fetch_text {m : Memory} {a : Address} {which : TextArea}
    (harea : m.areaOf? a = some (.text which)) (notify : Bool) :
    (m.fetch a 4 notify).1 =
      if a.toNat % 4 = 0 then .ok (encoding ((m.textRegion which).fetch a))
      else .error (.load a (.misaligned 4)) := by
  simp only [fetch, peek, misalignment?, alignment]
  split_ifs with halign
  · rw [Word.containing_eq_self halign, harea]
    simp only [wordIn, ByteOrder.extract_word _ halign]
  · rfl

/-- In every run text holds code: a statement in it decodes from its own word to itself, up
to the aliases.  As long as code may not modify itself, only storing statements and starting
over can change it. -/
theorem foldl_run_text (s : MemorySettings) {commands : List Command}
    (hlegal : ∀ c ∈ commands, c.Within Act.Legal) :
    (∀ a which notify,
      (commands.foldl Command.run (ofSettings s)).areaOf? a = some (.text which) →
      let found := ((commands.foldl Command.run (ofSettings s)).fetchStatement a notify).1
      a.toNat % 4 ≠ 0 ∧ found = .error (.load a (.misaligned 4)) ∨ found = .ok none ∨
        ∃ st, found = .ok (some st) ∧ st.Decodes a) ∧
    ∀ before stretch after, commands = before ++ (stretch ++ after) →
      let m := before.foldl Command.run (ofSettings s)
      let m' := stretch.foldl Command.run m
      m.selfModifying = false → (m.Within fun x => x.sparesText = true) →
      (∀ c ∈ stretch, c.Within fun x => x.sparesText = true) →
      ∀ a which notify, m.areaOf? a = some (.text which) →
        m'.areaOf? a = some (.text which) ∧
        (m'.fetchStatement a notify).1 = (m.fetchStatement a notify).1 ∧
        (m'.fetch a 4 notify).1 = (m.fetch a 4 notify).1 := by
  constructor
  · intro a which notify harea found
    have hcoherent := coherent_foldl_run s hlegal
    have hfound : found = _ := fetchStatement_text harea notify
    split_ifs at hfound with halign
    · cases hst : ((commands.foldl Command.run (ofSettings s)).textRegion which).fetch a with
      | none =>
        rw [hst] at hfound
        exact .inr (.inl hfound)
      | some st =>
        rw [hst] at hfound
        have hbuilt := hcoherent which a st halign (contains_of_areaOf?_text harea) hst
        exact .inr (.inr ⟨st, hfound, hbuilt.decodes⟩)
    · exact .inl ⟨halign, hfound⟩
  · intro before stretch after _ m m' hoff hlisteners hspares a which notify harea
    have hprotected : Protected m m' := protected_foldl_run hoff hlisteners hspares
    have harea' : m'.areaOf? a = some (.text which) := (hprotected.area a).trans harea
    refine ⟨harea', ?_, ?_⟩
    · rw [fetchStatement_text harea', fetchStatement_text harea, hprotected.text]
    · rw [fetch_text harea', fetch_text harea, hprotected.text]

/-- A store without an offset gets one by a byte written over its word; once text is
protected, the next byte is refused. -/
theorem foldl_run_text_overwritten :
    let word : EncodedStatement := ⟨BasicInstruction.swBase, [8, 29], 0xafa80000, none⟩
    let before : List Command := [.request (.storeStatement 0x00400000 word) true,
      .request (.store 0x00400000 0x10 .byte) true, .setSelfModifying false]
    let stretch : List Command := [.request (.store 0x00400000 0xff .byte) true]
    let m := before.foldl Command.run (ofSettings ⟨Layout.standard, .little, true⟩)
    let changed : EncodedStatement := ⟨BasicInstruction.sw, [8, 16, 29], 0xafa80010, none⟩
    ((stretch.foldl Command.run m).fetchStatement 0x00400000 false).1 = .ok (some changed) ∧
      changed.Decodes 0x00400000 := by
  intro word before stretch m changed
  have hlegal : ∀ c ∈ before ++ (stretch ++ []), c.Within Act.Legal := by
    simp only [before, stretch, List.cons_append, List.nil_append, List.forall_mem_cons]
    exact ⟨(by decide : Built 0x00400000 word), trivial, trivial, trivial, by simp⟩
  have hstart : m.selfModifying = false ∧ m.areaOf? 0x00400000 = some (.text .user) ∧
      (m.fetchStatement 0x00400000 false).1.toOption = some (some changed) := by
    decide +kernel
  have hfound := congrArg Prod.fst (eq_ok_of_toOption hstart.2.2)
  have hnobody : m.Within fun x => x.sparesText = true :=
    (within_ofSettings _ _).foldl_run (by simp [before])
  obtain ⟨hcode, hkept⟩ := foldl_run_text ⟨Layout.standard, .little, true⟩ hlegal
  obtain ⟨harea, hsame, -⟩ := hkept before stretch [] rfl hstart.1 hnobody
    (List.forall_mem_cons.mpr ⟨rfl, by simp⟩) _ _ false hstart.2.1
  have hafter := hsame.trans hfound
  refine ⟨hafter, ?_⟩
  rw [List.append_nil, List.foldl_append] at hcode
  rcases hcode _ _ false harea with ⟨hodd, -⟩ | hnone | ⟨st, hst, hdecodes⟩
  · exact absurd rfl hodd
  · rw [hafter] at hnone
    cases hnone
  · rw [hafter] at hst
    cases hst
    exact hdecodes

end Memory
end MipsImage
