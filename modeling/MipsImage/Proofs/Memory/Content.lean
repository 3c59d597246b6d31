/-
What memory holds, word by word.

Whatever region an address falls into, memory is observed here through one
function, `wordAt`.  Every way of writing comes down to putting one word into one
region, and `Deposit` says so: the word written reads as the new one, every other
aligned word reads as before, and what is not content stays.  The quiet accesses are
taken apart here once, so that nothing later has to look into them.
-/
import Mathlib
import MipsImage.Memory
import MipsImage.Proofs.Memory.Lane
import MipsImage.Proofs.Memory.Region

namespace MipsImage

namespace Word

theorem toNat_containing (a : Address) : (containing a).toNat = a.toNat / 4 * 4 := by
  have ha := a.toNat_lt
  rw [containing, UInt32.toNat_ofNat']
  omega

theorem containing_aligned (a : Address) : (containing a).toNat % 4 = 0 := by
  rw [toNat_containing]
  omega

theorem containing_eq_self {a : Address} (h : a.toNat % 4 = 0) : containing a = a := by
  apply UInt32.toNat_inj.mp
  rw [toNat_containing]
  omega

end Word

namespace Memory

/-! ## Regions of a memory -/

section Fields

variable (m : Memory) (which k : DataArea) (r : Region Word) (kind l : TextArea)
  (t : Region (Option EncodedStatement))

@[simp] theorem layout_setDataRegion : (m.setDataRegion which r).layout = m.layout := by
  cases which <;> rfl

@[simp] theorem order_setDataRegion : (m.setDataRegion which r).order = m.order := by
  cases which <;> rfl

@[simp] theorem selfModifying_setDataRegion :
    (m.setDataRegion which r).selfModifying = m.selfModifying := by
  cases which <;> rfl

@[simp] theorem heap_setDataRegion : (m.setDataRegion which r).heap = m.heap := by
  cases which <;> rfl

@[simp] theorem watches_setDataRegion : (m.setDataRegion which r).watches = m.watches := by
  cases which <;> rfl

@[simp] theorem listeners_setDataRegion : (m.setDataRegion which r).listeners = m.listeners := by
  cases which <;> rfl

@[simp] theorem journal_setDataRegion : (m.setDataRegion which r).journal = m.journal := by
  cases which <;> rfl

@[simp] theorem dataRegion_setDataRegion :
    (m.setDataRegion which r).dataRegion k = if k = which then r else m.dataRegion k := by
  cases which <;> cases k <;> rfl

@[simp] theorem textRegion_setDataRegion :
    (m.setDataRegion which r).textRegion l = m.textRegion l := by
  cases which <;> cases l <;> rfl

@[simp] theorem layout_setTextRegion : (m.setTextRegion kind t).layout = m.layout := by
  cases kind <;> rfl

@[simp] theorem order_setTextRegion : (m.setTextRegion kind t).order = m.order := by
  cases kind <;> rfl

@[simp] theorem selfModifying_setTextRegion :
    (m.setTextRegion kind t).selfModifying = m.selfModifying := by
  cases kind <;> rfl

@[simp] theorem heap_setTextRegion : (m.setTextRegion kind t).heap = m.heap := by
  cases kind <;> rfl

@[simp] theorem watches_setTextRegion : (m.setTextRegion kind t).watches = m.watches := by
  cases kind <;> rfl

@[simp] theorem listeners_setTextRegion : (m.setTextRegion kind t).listeners = m.listeners := by
  cases kind <;> rfl

@[simp] theorem journal_setTextRegion : (m.setTextRegion kind t).journal = m.journal := by
  cases kind <;> rfl

@[simp] theorem dataRegion_setTextRegion :
    (m.setTextRegion kind t).dataRegion k = m.dataRegion k := by
  cases kind <;> cases k <;> rfl

@[simp] theorem textRegion_setTextRegion :
    (m.setTextRegion kind t).textRegion l = if l = kind then t else m.textRegion l := by
  cases kind <;> cases l <;> rfl

end Fields

/-- The regions of data are the same. -/
def SameData (m m' : Memory) : Prop :=
  ∀ which, m'.dataRegion which = m.dataRegion which

def SameText (m m' : Memory) : Prop :=
  ∀ which, m'.textRegion which = m.textRegion which

theorem SameText.trans {m₁ m₂ m₃ : Memory} (h : SameText m₁ m₂) (k : SameText m₂ m₃) :
    SameText m₁ m₃ :=
  fun which => (k which).trans (h which)

/-- Two memories that differ at most in what their regions hold, in their watches
and in their journals. -/
structure Frame (m m' : Memory) : Prop where
  layout : m'.layout = m.layout
  order : m'.order = m.order
  selfModifying : m'.selfModifying = m.selfModifying
  heap : m'.heap = m.heap
  listeners : m'.listeners = m.listeners
  area : ∀ x, m'.areaOf? x = m.areaOf? x

theorem Frame.refl (m : Memory) : Frame m m :=
  ⟨rfl, rfl, rfl, rfl, rfl, fun _ => rfl⟩

theorem Frame.trans {m₁ m₂ m₃ : Memory} (h : Frame m₁ m₂) (k : Frame m₂ m₃) : Frame m₁ m₃ :=
  ⟨k.layout.trans h.layout, k.order.trans h.order, k.selfModifying.trans h.selfModifying,
    k.heap.trans h.heap, k.listeners.trans h.listeners, fun x => (k.area x).trans (h.area x)⟩

theorem Frame.symm {m m' : Memory} (h : Frame m m') : Frame m' m :=
  ⟨h.layout.symm, h.order.symm, h.selfModifying.symm, h.heap.symm, h.listeners.symm,
    fun x => (h.area x).symm⟩

theorem contains_of_areaOf?_data {m : Memory} {x : Address} {which : DataArea}
    (h : m.areaOf? x = some (.data which)) : (m.dataRegion which).contains x = true := by
  unfold areaOf? at h
  repeat' split at h
  all_goals cases h <;> assumption

theorem contains_of_areaOf?_text {m : Memory} {x : Address} {which : TextArea}
    (h : m.areaOf? x = some (.text which)) : (m.textRegion which).contains x = true := by
  unfold areaOf? at h
  repeat' split at h
  all_goals cases h <;> assumption

/-- Which region an address falls into depends on the ranges alone. -/
theorem areaOf?_congr {m m' : Memory}
    (hd : ∀ which, (m'.dataRegion which).range = (m.dataRegion which).range)
    (ht : ∀ which, (m'.textRegion which).range = (m.textRegion which).range) (x : Address) :
    m'.areaOf? x = m.areaOf? x := by
  have h1 : m'.data.contains x = m.data.contains x := congrArg (·.contains x) (hd .user)
  have h2 : m'.kernelData.contains x = m.kernelData.contains x :=
    congrArg (·.contains x) (hd .kernel)
  have h3 : m'.mmio.contains x = m.mmio.contains x := congrArg (·.contains x) (hd .mmio)
  have h4 : m'.text.contains x = m.text.contains x := congrArg (·.contains x) (ht .user)
  have h5 : m'.kernelText.contains x = m.kernelText.contains x :=
    congrArg (·.contains x) (ht .kernel)
  rw [areaOf?, areaOf?, h1, h2, h3, h4, h5]

theorem frame_setDataRegion (m : Memory) (which : DataArea) {r : Region Word}
    (hr : r.range = (m.dataRegion which).range) : Frame m (m.setDataRegion which r) where
  layout := layout_setDataRegion m which r
  order := order_setDataRegion m which r
  selfModifying := selfModifying_setDataRegion m which r
  heap := heap_setDataRegion m which r
  listeners := listeners_setDataRegion m which r
  area := by
    refine areaOf?_congr (fun k => ?_) (fun k => ?_)
    · rw [dataRegion_setDataRegion]
      by_cases hk : k = which
      · rw [if_pos hk, hr, hk]
      · rw [if_neg hk]
    · rw [textRegion_setDataRegion]

theorem frame_setTextRegion (m : Memory) (which : TextArea) {r : Region (Option EncodedStatement)}
    (hr : r.range = (m.textRegion which).range) : Frame m (m.setTextRegion which r) where
  layout := layout_setTextRegion m which r
  order := order_setTextRegion m which r
  selfModifying := selfModifying_setTextRegion m which r
  heap := heap_setTextRegion m which r
  listeners := listeners_setTextRegion m which r
  area := by
    refine areaOf?_congr (fun k => ?_) (fun k => ?_)
    · rw [dataRegion_setTextRegion]
    · rw [textRegion_setTextRegion]
      by_cases hk : k = which
      · rw [if_pos hk, hr, hk]
      · rw [if_neg hk]

/-! ## Words -/

/-- The word at an address, if it falls into a region. -/
def wordAt (m : Memory) (x : Address) : Option Word :=
  (m.areaOf? x).map fun area => m.wordIn area x

theorem wordAt_eq_some_iff {m : Memory} {x : Address} {v : Word} :
    m.wordAt x = some v ↔ ∃ area, m.areaOf? x = some area ∧ m.wordIn area x = v :=
  Option.map_eq_some_iff

theorem toNat_div_eq_iff {a b : Address} (ha : a.toNat % 4 = 0) (hb : b.toNat % 4 = 0) :
    a.toNat / 4 = b.toNat / 4 ↔ b = a := by
  rw [← UInt32.toNat_inj]
  omega

/-- `m'` is `m` with the word `v` put where `w` falls, into text as a statement. -/
inductive Deposit (m : Memory) (w : Address) : Word → Memory → Prop where
  | data {which : DataArea} (harea : m.areaOf? w = some (.data which)) (v : Word) :
      Deposit m w v (m.setDataRegion which ((m.dataRegion which).store w v))
  | text {which : TextArea} (harea : m.areaOf? w = some (.text which)) (s : EncodedStatement) :
      Deposit m w s.binary (m.setTextRegion which ((m.textRegion which).store w (some s)))

namespace Deposit

variable {m m' : Memory} {w : Address} {v : Word}

theorem frame (h : Deposit m w v m') : Frame m m' := by
  cases h with
  | data harea v => exact frame_setDataRegion m _ (Region.store_range _ w v)
  | text harea s => exact frame_setTextRegion m _ (Region.store_range _ w (some s))

theorem watches (h : Deposit m w v m') : m'.watches = m.watches := by
  cases h with
  | data harea v => exact watches_setDataRegion m _ _
  | text harea s => exact watches_setTextRegion m _ _

theorem journal (h : Deposit m w v m') : m'.journal = m.journal := by
  cases h with
  | data harea v => exact journal_setDataRegion m _ _
  | text harea s => exact journal_setTextRegion m _ _

/-- What each region of data then holds, and where. -/
theorem dataRegion (h : Deposit m w v m') (k : DataArea) :
    m'.dataRegion k = m.dataRegion k ∨
      m.areaOf? w = some (.data k) ∧ m'.dataRegion k = (m.dataRegion k).store w v := by
  cases h with
  | @data which harea v =>
    rw [dataRegion_setDataRegion]
    by_cases hk : k = which
    · subst hk
      exact .inr ⟨harea, if_pos rfl⟩
    · exact .inl (if_neg hk)
  | text harea s => exact .inl (dataRegion_setTextRegion m k _ _)

theorem textRegion (h : Deposit m w v m') (k : TextArea) :
    m'.textRegion k = m.textRegion k ∨
      ∃ s : EncodedStatement, s.binary = v ∧ m.areaOf? w = some (.text k) ∧
        m'.textRegion k = (m.textRegion k).store w (some s) := by
  cases h with
  | data harea v => exact .inl (textRegion_setDataRegion m _ _ k)
  | @text which harea s =>
    rw [textRegion_setTextRegion]
    by_cases hk : k = which
    · subst hk
      exact .inr ⟨s, rfl, harea, if_pos rfl⟩
    · exact .inl (if_neg hk)

theorem wordAt_self (h : Deposit m w v m') : m'.wordAt w = some v := by
  rw [wordAt_eq_some_iff]
  cases h with
  | @data which harea v =>
    have hinside := contains_of_areaOf?_data harea
    refine ⟨_, ((Deposit.data harea v).frame.area w).trans harea, ?_⟩
    rw [wordIn, dataRegion_setDataRegion, if_pos rfl, Region.fetch_store hinside hinside,
      if_pos rfl]
  | @text which harea s =>
    have hinside := contains_of_areaOf?_text harea
    refine ⟨_, ((Deposit.text harea s).frame.area w).trans harea, ?_⟩
    rw [wordIn, textRegion_setTextRegion, if_pos rfl, Region.fetch_store hinside hinside,
      if_pos rfl]
    rfl

/-- Other words read as before, in whatever region they are. -/
theorem fetch_of_ne (h : Deposit m w v m') (hw : w.toNat % 4 = 0) {x : Address}
    (hx : x.toNat % 4 = 0) (hne : x ≠ w) :
    (∀ k, (m.dataRegion k).contains x = true →
      (m'.dataRegion k).fetch x = (m.dataRegion k).fetch x) ∧
    ∀ k, (m.textRegion k).contains x = true →
      (m'.textRegion k).fetch x = (m.textRegion k).fetch x := by
  have hother : ¬ w.toNat / 4 = x.toNat / 4 := mt (toNat_div_eq_iff hw hx).mp hne
  constructor
  · intro k hinside
    rcases h.dataRegion k with hsame | ⟨harea, hstored⟩
    · rw [hsame]
    · rw [hstored, Region.fetch_store (contains_of_areaOf?_data harea) hinside, if_neg hother]
  · intro k hinside
    rcases h.textRegion k with hsame | ⟨s, -, harea, hstored⟩
    · rw [hsame]
    · rw [hstored, Region.fetch_store (contains_of_areaOf?_text harea) hinside, if_neg hother]

theorem wordAt_of_ne (h : Deposit m w v m') (hw : w.toNat % 4 = 0) {x : Address}
    (hx : x.toNat % 4 = 0) (hne : x ≠ w) : m'.wordAt x = m.wordAt x := by
  obtain ⟨hdata, htext⟩ := h.fetch_of_ne hw hx hne
  rw [wordAt, wordAt, h.frame.area]
  cases harea : m.areaOf? x with
  | none => rw [Option.map_none, Option.map_none]
  | some area =>
    cases area with
    | data k => simp only [Option.map_some, wordIn, hdata k (contains_of_areaOf?_data harea)]
    | text k => simp only [Option.map_some, wordIn, htext k (contains_of_areaOf?_text harea)]

end Deposit

/-! ## Quiet accesses -/

theorem aligned_of_misalignment? {a : Address} {n : Nat} (h : misalignment? a n = none) :
    a.toNat % alignment n = 0 := by
  rw [misalignment?] at h
  split at h
  · assumption
  · cases h

/-- Aligned accesses of one, two and four bytes lie in one word. -/
theorem fits_of_misalignment? {a : Address} {n : Nat} (hn : n = 1 ∨ n = 2 ∨ n = 4)
    (h : misalignment? a n = none) : ByteOrder.Fits a n := by
  have ha := aligned_of_misalignment? h
  rcases hn with rfl | rfl | rfl <;> simp only [alignment] at ha <;> constructor <;> omega

theorem binary_of_decode? {w : Word} {a : Address} {s : EncodedStatement}
    (h : EncodedStatement.decode? w a = some s) : s.binary = w := by
  rw [EncodedStatement.decode?, Option.map_eq_some_iff] at h
  obtain ⟨i, -, rfl⟩ := h
  rfl

/-- All that a quiet read consists of. -/
theorem peek_eq_ok {m : Memory} {a : Address} {n : Nat} {access : Access}
    (h : m.peek a n = .ok access) :
    misalignment? a n = none ∧ ∃ area, m.areaOf? (Word.containing a) = some area ∧
      access = ⟨a, n, m.order.extract (m.wordIn area (Word.containing a)) a n, Word.containing a,
        m.wordIn area (Word.containing a)⟩ := by
  simp only [peek] at h
  split at h
  · cases h
  · rename_i halign
    split at h
    · cases h
    · rename_i area harea
      cases h
      exact ⟨halign, area, harea, rfl⟩

/-- What a read gives, in terms of the word around its bytes. -/
theorem fetch_eq_ok_iff {m : Memory} {a : Address} {n : Nat} {notify : Bool} {v : Word} :
    (m.fetch a n notify).1 = .ok v ↔
      misalignment? a n = none ∧
        ∃ word, m.wordAt (Word.containing a) = some word ∧ v = m.order.extract word a n := by
  simp only [fetch, peek, wordAt]
  cases misalignment? a n with
  | some fault => simp
  | none =>
    cases m.areaOf? (Word.containing a) with
    | none => simp
    | some area => simp [eq_comm]

/-- Data takes every word. -/
theorem updateWord_data {m : Memory} {w : Address} {which : DataArea}
    (harea : m.areaOf? w = some (.data which)) (f : Word → Word) :
    let old := m.wordIn (.data which) w
    m.updateWord (.data which) w f =
      .ok (old, m.setDataRegion which ((m.dataRegion which).store w (f old))) := by
  intro old
  have hupdate : (m.dataRegion which).update w (fun old => .ok (f old)) =
      ((.ok old : Except AddressFault Word), (m.dataRegion which).store w (f old)) :=
    Region.update_ok (contains_of_areaOf?_data harea) rfl
  rw [updateWord, hupdate]
  rfl

/-- Text takes a word that decodes, if code may modify itself. -/
theorem updateWord_text {m : Memory} {w : Address} {which : TextArea}
    (harea : m.areaOf? w = some (.text which)) (f : Word → Word) :
    let old := m.wordIn (.text which) w
    m.updateWord (.text which) w f =
      if m.selfModifying then
        (recode w (f old)).map fun s =>
          (old, m.setTextRegion which ((m.textRegion which).store w s))
      else .error .textWriteProtected := by
  intro old
  have hinside := contains_of_areaOf?_text harea
  rw [updateWord]
  cases hrecode : recode w (f old) with
  | error fault =>
    rw [Region.update_error hinside hrecode]
    rfl
  | ok s =>
    rw [Region.update_ok hinside hrecode]
    rfl

theorem recode_eq_ok {w : Address} {v : Word} {s : Option EncodedStatement}
    (h : recode w v = .ok s) : ∃ t, s = some t ∧ EncodedStatement.decode? v w = some t := by
  rw [recode] at h
  cases hdecode : EncodedStatement.decode? v w with
  | none =>
    rw [hdecode] at h
    cases h
  | some t =>
    rw [hdecode] at h
    cases h
    exact ⟨t, rfl, rfl⟩

/-- `m'` is `m` with the word `v` stored where `w` falls, into text as what it decodes to. -/
inductive Updated (m : Memory) (w : Address) (v : Word) : Memory → Prop where
  | data {which : DataArea} (harea : m.areaOf? w = some (.data which)) :
      Updated m w v (m.setDataRegion which ((m.dataRegion which).store w v))
  | text {which : TextArea} {s : EncodedStatement} (harea : m.areaOf? w = some (.text which))
      (on : m.selfModifying = true) (decodes : EncodedStatement.decode? v w = some s) :
      Updated m w v (m.setTextRegion which ((m.textRegion which).store w (some s)))

theorem Updated.deposit {m m' : Memory} {w : Address} {v : Word} (h : Updated m w v m') :
    Deposit m w v m' := by
  cases h with
  | data harea => exact .data harea v
  | text harea on decodes =>
    rw [← binary_of_decode? decodes]
    exact .text harea _

theorem updated_of_updateWord {m m' : Memory} {w : Address} {area : Area} {f : Word → Word}
    {old : Word} (harea : m.areaOf? w = some area) (h : m.updateWord area w f = .ok (old, m')) :
    old = m.wordIn area w ∧ Updated m w (f old) m' := by
  cases area with
  | data which =>
    rw [updateWord_data harea] at h
    cases h
    exact ⟨rfl, .data harea⟩
  | text which =>
    simp only [updateWord_text harea] at h
    cases hon : m.selfModifying with
    | false =>
      rw [hon] at h
      cases h
    | true =>
      rw [hon, if_pos rfl] at h
      cases hrecode : recode w (f (m.wordIn (.text which) w)) with
      | error fault =>
        rw [hrecode] at h
        cases h
      | ok s =>
        rw [hrecode] at h
        cases h
        obtain ⟨t, rfl, hdecode⟩ := recode_eq_ok hrecode
        exact ⟨rfl, .text harea hon hdecode⟩

/-- All that a quiet store consists of. -/
theorem poke_eq_ok {m : Memory} {a : Address} {v : Word} {n : Nat} {stored : Stored}
    (h : m.poke a v n = .ok stored) :
    misalignment? a n = none ∧ ∃ word, m.wordAt (Word.containing a) = some word ∧
      stored.replaced = m.order.extract word a n ∧
      stored.access = ⟨a, n, ByteOrder.truncate v n, Word.containing a,
        m.order.splice word v a n⟩ ∧
      Updated m (Word.containing a) (m.order.splice word v a n) stored.memory := by
  simp only [poke] at h
  split at h
  · cases h
  · rename_i halign
    split at h
    · cases h
    · rename_i area harea
      split at h
      · cases h
      · rename_i old memory hupdate
        cases h
        obtain ⟨rfl, hupdated⟩ := updated_of_updateWord harea hupdate
        exact ⟨halign, _, wordAt_eq_some_iff.mpr ⟨area, harea, rfl⟩, rfl, rfl, hupdated⟩

theorem updated_of_poke {m : Memory} {a : Address} {v : Word} {n : Nat} {stored : Stored}
    (h : m.poke a v n = .ok stored) :
    Updated m (Word.containing a) stored.access.wordValue stored.memory := by
  obtain ⟨-, word, -, -, haccess, hupdated⟩ := poke_eq_ok h
  rw [haccess]
  exact hupdated

theorem deposit_of_poke {m : Memory} {a : Address} {v : Word} {n : Nat} {stored : Stored}
    (h : m.poke a v n = .ok stored) :
    Deposit m (Word.containing a) stored.access.wordValue stored.memory :=
  (updated_of_poke h).deposit

/-- `m'` is `m` with the statement `s` at `a`, or with its encoding if that is data. -/
inductive Inserted (m : Memory) (a : Address) (s : EncodedStatement) : Memory → Prop where
  | text {which : TextArea} (harea : m.areaOf? a = some (.text which)) :
      Inserted m a s (m.setTextRegion which ((m.textRegion which).store a (some s)))
  | data {which : DataArea} (harea : m.areaOf? a = some (.data which))
      (on : m.selfModifying = true) :
      Inserted m a s (m.setDataRegion which ((m.dataRegion which).store a s.binary))

theorem Inserted.deposit {m m' : Memory} {a : Address} {s : EncodedStatement}
    (h : Inserted m a s m') : Deposit m a s.binary m' := by
  cases h with
  | text harea => exact .text harea s
  | data harea on => exact .data harea s.binary

theorem inserted_of_pokeStatement {m left : Memory} {a : Address} {s : EncodedStatement}
    (h : m.pokeStatement a s = .ok left) : a.toNat % 4 = 0 ∧ Inserted m a s left := by
  simp only [pokeStatement] at h
  split at h
  · cases h
  · rename_i halign
    refine ⟨aligned_of_misalignment? halign, ?_⟩
    split at h
    · cases h
    · rename_i which harea
      cases h
      exact .text harea
    · rename_i which harea
      split at h
      · rename_i hon
        cases h
        exact .data harea hon
      · cases h

/-- All that placing a statement quietly consists of. -/
theorem pokeStatement_eq_ok {m left : Memory} {a : Address} {s : EncodedStatement}
    (h : m.pokeStatement a s = .ok left) : a.toNat % 4 = 0 ∧ Deposit m a s.binary left := by
  obtain ⟨ha, hinserted⟩ := inserted_of_pokeStatement h
  exact ⟨ha, hinserted.deposit⟩

end Memory
end MipsImage
