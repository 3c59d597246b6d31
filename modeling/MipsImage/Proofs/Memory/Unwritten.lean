/-
Words that were never written, and the search for the first of them.

The search goes from word to word until it comes to its limit or to the end of the address
space, whichever is first.  So it is a search of a list, `candidates`, and what it finds is
said about that list.  The list is increasing, so the first gap in it is the least.  Data
counts as written by whole blocks.
-/
import MipsImage.Memory.Inspect
import MipsImage.Proofs.Memory.Notice

namespace MipsImage

/-! ## Consecutive words -/

theorem add_words_succ (first : Address) (i : Nat) :
    first + 4 * UInt32.ofNat (i + 1) = first + 4 + 4 * UInt32.ofNat i := by
  have hone : UInt32.ofNat 1 = 1 := rfl
  rw [UInt32.ofNat_add, hone, UInt32.mul_add, UInt32.mul_one, UInt32.add_comm (4 * _),
    UInt32.add_assoc]

theorem wordsFrom_succ (first : Address) (count : Nat) :
    wordsFrom first (count + 1) = first :: wordsFrom (first + 4) count := by
  rw [wordsFrom, List.range_succ_eq_map, List.map_cons, List.map_map, wordsFrom]
  congr 1
  · simp
  · exact List.map_congr_left fun i _ => add_words_succ first i

theorem length_wordsFrom (first : Address) (count : Nat) :
    (wordsFrom first count).length = count := by
  rw [wordsFrom, List.length_map, List.length_range]

/-- The words between two ends, if they do not wrap. -/
theorem bounds_of_mem_wordsFrom {first a : Address} {count : Nat}
    (hspace : first.toNat + 4 * count ≤ 2 ^ 32) (ha : a ∈ wordsFrom first count) :
    first.toNat ≤ a.toNat ∧ a.toNat + 4 ≤ first.toNat + 4 * count ∧
      a.toNat % 4 = first.toNat % 4 := by
  obtain ⟨i, hi, rfl⟩ := mem_wordsFrom.mp ha
  rw [toNat_add_words]
  omega

theorem take_wordsFrom (first : Address) (n count : Nat) :
    (wordsFrom first count).take n = wordsFrom first (min n count) := by
  rw [wordsFrom, ← List.map_take, List.take_range, wordsFrom]

theorem drop_wordsFrom (first : Address) (n count : Nat) :
    (wordsFrom first count).drop n = wordsFrom (first + 4 * UInt32.ofNat n) (count - n) := by
  induction n generalizing first count with
  | zero => simp
  | succ n ih =>
    cases count with
    | zero => simp [wordsFrom]
    | succ count =>
      rw [wordsFrom_succ, List.drop_succ_cons, ih, Nat.succ_sub_succ, add_words_succ]

namespace Memory

/-! ## The search -/

/-- The words that a search from `first` up to `limit` may come to. -/
def candidates (first limit : Address) : List Address :=
  wordsFrom first ((limit.toNat + 3 - first.toNat) / 4)

/-- The first of some words that was never written. -/
def firstAbsent (m : Memory) : List Address → Except AddressError (Option Address)
  | [] => .ok none
  | a :: rest =>
    match m.fetchWordOrAbsent a with
    | .error e => .error e
    | .ok none => .ok (some a)
    | .ok (some _) => m.firstAbsent rest

theorem candidates_of_le {first limit : Address} (h : limit ≤ first) :
    candidates first limit = [] := by
  have hle := UInt32.le_iff_toNat_le.mp h
  have hcount : (limit.toNat + 3 - first.toNat) / 4 = 0 := by omega
  rw [candidates, hcount]
  rfl

theorem candidates_of_lt {first limit : Address} (h : first < limit) :
    candidates first limit = first ::
      if first.toNat + 4 < 0x100000000 then candidates (first + 4) limit else [] := by
  have hlt := UInt32.lt_iff_toNat_lt.mp h
  have hlimit := limit.toNat_lt
  rw [candidates]
  split_ifs with hnext
  · have hadd : (first + 4).toNat = first.toNat + 4 := by
      rw [UInt32.toNat_add]
      exact Nat.mod_eq_of_lt hnext
    have hcount : (limit.toNat + 3 - first.toNat) / 4 =
        (limit.toNat + 3 - (first + 4).toNat) / 4 + 1 := by omega
    rw [hcount, wordsFrom_succ, candidates]
  · have hcount : (limit.toNat + 3 - first.toNat) / 4 = 0 + 1 := by omega
    rw [hcount, wordsFrom_succ]
    rfl

/-- The loop over addresses searches the list of candidates. -/
theorem firstUnwritten_eq (m : Memory) (first limit : Address) :
    m.firstUnwritten first limit = m.firstAbsent (candidates first limit) := by
  fun_induction firstUnwritten m first limit with
  | case1 first hlt e hfetch => rw [candidates_of_lt hlt, firstAbsent, hfetch]
  | case2 first hlt hfetch => rw [candidates_of_lt hlt, firstAbsent, hfetch]
  | case3 first hlt w hfetch hnext ih =>
    rw [candidates_of_lt hlt, firstAbsent, hfetch, if_pos hnext, ih]
  | case4 first hlt w hfetch hnext =>
    rw [candidates_of_lt hlt, firstAbsent, hfetch, if_neg hnext]
    rfl
  | case5 first hlt =>
    rw [candidates_of_le (UInt32.not_lt.mp hlt)]
    rfl

/-! ## Words that are there -/

/-- The word at an address, if there is one and it was written. -/
def present? (m : Memory) (a : Address) : Option Word :=
  match m.fetchWordOrAbsent a with
  | .ok word => word
  | .error _ => none

/-- The word at an address, as far as it was written. -/
def word (m : Memory) (a : Address) : Word :=
  (m.present? a).getD 0

/-- Whether a word is there can be told. -/
def Readable (m : Memory) (a : Address) : Prop :=
  m.fetchWordOrAbsent a = .ok (m.present? a)

theorem firstAbsent_of_readable {m : Memory} {written : Address → Bool} {as : List Address}
    (h : ∀ a ∈ as, m.Readable a ∧ (m.present? a).isSome = written a) :
    m.firstAbsent as = .ok (as.dropWhile written).head? := by
  induction as with
  | nil => rfl
  | cons a rest ih =>
    obtain ⟨⟨ha, hwritten⟩, hrest⟩ := List.forall_mem_cons.mp h
    rw [firstAbsent, ha]
    cases hpresent : m.present? a with
    | none => rw [List.dropWhile_cons_of_neg (by simp [← hwritten, hpresent]), List.head?_cons]
    | some w => rw [List.dropWhile_cons_of_pos (by simp [← hwritten, hpresent]), ← ih hrest]

theorem fetchWordOrAbsent_data {m : Memory} {a : Address} {which : DataArea}
    (ha : a.toNat % 4 = 0) (harea : m.areaOf? a = some (.data which)) :
    m.fetchWordOrAbsent a = .ok ((m.dataRegion which).fetchOrAbsent a) := by
  have halign : misalignment? a 4 = none := if_pos ha
  simp only [fetchWordOrAbsent, halign, harea]

theorem fetchWordOrAbsent_text {m : Memory} {a : Address} {which : TextArea}
    (ha : a.toNat % 4 = 0) (harea : m.areaOf? a = some (.text which)) :
    m.fetchWordOrAbsent a =
      .ok (((m.textRegion which).fetchOrAbsent a).join.map (·.binary)) := by
  have halign : misalignment? a 4 = none := if_pos ha
  simp only [fetchWordOrAbsent, halign, harea]

theorem fetchWordOrAbsent_outside {m : Memory} {a : Address} (ha : a.toNat % 4 = 0)
    (harea : m.areaOf? a = none) : m.fetchWordOrAbsent a = .error (.load a .outOfRange) := by
  have halign : misalignment? a 4 = none := if_pos ha
  simp only [fetchWordOrAbsent, halign, harea]

theorem fetchWordOrAbsent_misaligned (m : Memory) {a : Address} (ha : a.toNat % 4 ≠ 0) :
    m.fetchWordOrAbsent a = .error (.load a (.misaligned 4)) := by
  have halign : misalignment? a 4 = some (.misaligned 4) := if_neg ha
  simp only [fetchWordOrAbsent, halign]

/-- At a word, the only thing that can go wrong is that no region has it. -/
theorem fetchWordOrAbsent_eq_error_iff {m : Memory} {a : Address} (ha : a.toNat % 4 = 0)
    {e : AddressError} : m.fetchWordOrAbsent a = .error e ↔
      m.areaOf? a = none ∧ e = .load a .outOfRange := by
  cases harea : m.areaOf? a with
  | none => simp [fetchWordOrAbsent_outside ha harea, eq_comm]
  | some area =>
    cases area with
    | data which => simp [fetchWordOrAbsent_data ha harea]
    | text which => simp [fetchWordOrAbsent_text ha harea]

theorem present?_eq_some_iff {m : Memory} {a : Address} {w : Word} :
    m.present? a = some w ↔ m.fetchWordOrAbsent a = .ok (some w) := by
  rw [present?]
  cases m.fetchWordOrAbsent a with
  | error e => simp
  | ok word => simp

/-- A word that is there is what memory has at its address. -/
theorem wordIn_of_present {m : Memory} {a : Address} {w : Word} (h : m.present? a = some w) :
    a.toNat % 4 = 0 ∧ ∃ area, m.areaOf? a = some area ∧ m.wordIn area a = w := by
  rw [present?_eq_some_iff] at h
  by_cases ha : a.toNat % 4 = 0
  · refine ⟨ha, ?_⟩
    cases harea : m.areaOf? a with
    | none =>
      rw [fetchWordOrAbsent_outside ha harea] at h
      cases h
    | some area =>
      refine ⟨area, rfl, ?_⟩
      cases area with
      | data which =>
        rw [fetchWordOrAbsent_data ha harea] at h
        rw [wordIn, Region.fetch, Except.ok.inj h, Option.getD_some]
      | text which =>
        rw [fetchWordOrAbsent_text ha harea] at h
        obtain ⟨s, hs, hbinary⟩ := Option.map_eq_some_iff.mp (Except.ok.inj h)
        rw [wordIn, Region.fetch, Option.join_eq_some_iff.mp hs, Option.getD_some]
        exact hbinary
  · rw [fetchWordOrAbsent_misaligned m ha] at h
    cases h

theorem peek_of_present {m : Memory} {a : Address} {w : Word} (h : m.present? a = some w) :
    m.peek a 4 = .ok (wordAccess a w) := by
  obtain ⟨ha, area, harea, hword⟩ := wordIn_of_present h
  have halign : misalignment? a 4 = none := if_pos ha
  simp only [peek, halign, Word.containing_eq_self ha, harea, hword, ByteOrder.extract_word _ ha,
    wordAccess]

theorem fetch_of_present {m : Memory} {a : Address} (h : (m.present? a).isSome = true) :
    (m.fetch a 4 false).1 = .ok (m.word a) := by
  obtain ⟨w, hw⟩ := Option.isSome_iff_exists.mp h
  rw [fetch, peek_of_present hw, word, hw]
  rfl

theorem peek_outside {m : Memory} {a : Address} (ha : a.toNat % 4 = 0)
    (harea : m.areaOf? a = none) : m.peek a 4 = .error (.load a .outOfRange) := by
  have halign : misalignment? a 4 = none := if_pos ha
  simp only [peek, halign, Word.containing_eq_self ha, harea]

/-! ## The least gap -/

/-- The addresses `first`, `first + 4` and so on, as far as they lie below `limit` and do not
wrap. -/
def Candidate (first limit a : Address) : Prop :=
  (∃ i, a.toNat = first.toNat + 4 * i) ∧ a.toNat < limit.toNat

theorem mem_candidates {first limit a : Address} :
    a ∈ candidates first limit ↔ Candidate first limit a := by
  have hlimit := limit.toNat_lt
  rw [candidates, mem_wordsFrom]
  constructor
  · rintro ⟨i, hi, rfl⟩
    have hword := toNat_add_words first i
    exact ⟨⟨i, by omega⟩, by omega⟩
  · rintro ⟨⟨i, hi⟩, hbelow⟩
    refine ⟨i, by omega, UInt32.toNat_inj.mp ?_⟩
    rw [toNat_add_words]
    omega

theorem pairwise_candidates (first limit : Address) :
    (candidates first limit).Pairwise (· < ·) := by
  have hlimit := limit.toNat_lt
  rw [candidates, wordsFrom, List.pairwise_map]
  refine List.Pairwise.imp_of_mem (fun {i j} hi hj hij => ?_) List.pairwise_lt_range
  rw [List.mem_range] at hi hj
  rw [UInt32.lt_iff_toNat_lt, toNat_add_words, toNat_add_words]
  omega

/-- In an increasing list, what is found first is found at the least address where there is
anything to be found. -/
theorem findSome?_eq_some_iff_least {β : Type} {f : Address → Option β} {as : List Address}
    (has : as.Pairwise (· < ·)) {answer : β} : as.findSome? f = some answer ↔
      ∃ a ∈ as, f a = some answer ∧ ∀ b ∈ as, b < a → f b = none := by
  rw [List.findSome?_eq_some_iff]
  constructor
  · rintro ⟨before, a, after, rfl, ha, hbefore⟩
    refine ⟨a, List.mem_append_right _ List.mem_cons_self, ha, fun b hb hlt => ?_⟩
    rcases List.mem_append.mp hb with hb | hb
    · exact hbefore b hb
    · rcases List.mem_cons.mp hb with rfl | hb
      · exact absurd hlt (UInt32.lt_irrefl b)
      · have hgt := (List.pairwise_cons.mp (List.pairwise_append.mp has).2.1).1 b hb
        exact absurd hlt (UInt32.lt_asymm hgt)
  · rintro ⟨a, hmem, ha, hleast⟩
    obtain ⟨before, after, rfl⟩ := List.append_of_mem hmem
    refine ⟨before, a, after, rfl, ha, fun b hb => hleast b (List.mem_append_left _ hb) ?_⟩
    exact (List.pairwise_append.mp has).2.2 b hb a List.mem_cons_self

/-- What a search answers if it comes to an address, unless it goes on from there. -/
def stop? (m : Memory) (a : Address) : Option (Except AddressError (Option Address)) :=
  match m.fetchWordOrAbsent a with
  | .error e => some (.error e)
  | .ok none => some (.ok (some a))
  | .ok (some _) => none

theorem firstAbsent_eq_findSome? (m : Memory) (as : List Address) :
    m.firstAbsent as = (as.findSome? m.stop?).getD (.ok none) := by
  induction as with
  | nil => rfl
  | cons a rest ih =>
    rw [firstAbsent, List.findSome?_cons, stop?]
    cases m.fetchWordOrAbsent a with
    | error e => rfl
    | ok word =>
      cases word with
      | none => rfl
      | some w => exact ih

theorem stop?_eq_none_iff {m : Memory} {a : Address} :
    m.stop? a = none ↔ (m.present? a).isSome = true := by
  rw [stop?, present?]
  cases m.fetchWordOrAbsent a with
  | error e => simp
  | ok word => cases word <;> simp

theorem stop?_eq_absent_iff {m : Memory} {a b : Address} :
    m.stop? b = some (.ok (some a)) ↔ b = a ∧ m.fetchWordOrAbsent a = .ok none := by
  constructor
  · intro h
    rw [stop?] at h
    cases hfetch : m.fetchWordOrAbsent b with
    | error e =>
      rw [hfetch] at h
      cases h
    | ok word =>
      rw [hfetch] at h
      cases word with
      | none =>
        cases h
        exact ⟨rfl, hfetch⟩
      | some w => cases h
  · rintro ⟨rfl, hfetch⟩
    rw [stop?, hfetch]

theorem stop?_eq_error_iff {m : Memory} {a : Address} {e : AddressError} :
    m.stop? a = some (.error e) ↔ m.fetchWordOrAbsent a = .error e := by
  rw [stop?]
  cases m.fetchWordOrAbsent a with
  | error e' => simp
  | ok word => cases word <;> simp

/-- A search that does not come to its end stops at the least candidate where it has to. -/
theorem firstUnwritten_eq_iff {m : Memory} {first limit : Address}
    {answer : Except AddressError (Option Address)} (hanswer : answer ≠ .ok none) :
    m.firstUnwritten first limit = answer ↔ ∃ a, Candidate first limit a ∧
      m.stop? a = some answer ∧
      ∀ b, Candidate first limit b → b < a → (m.present? b).isSome = true := by
  have hfound : m.firstUnwritten first limit = answer ↔
      (candidates first limit).findSome? m.stop? = some answer := by
    rw [firstUnwritten_eq, firstAbsent_eq_findSome?]
    cases (candidates first limit).findSome? m.stop? with
    | none => exact iff_of_false (Ne.symm hanswer) (Option.some_ne_none _).symm
    | some found => rw [Option.getD_some, Option.some_inj]
  rw [hfound, findSome?_eq_some_iff_least (pairwise_candidates first limit)]
  simp only [mem_candidates, stop?_eq_none_iff]

theorem firstUnwritten_eq_some_iff {m : Memory} {first limit a : Address} :
    m.firstUnwritten first limit = .ok (some a) ↔ Candidate first limit a ∧
      m.fetchWordOrAbsent a = .ok none ∧
      ∀ b, Candidate first limit b → b < a → (m.present? b).isSome = true := by
  rw [firstUnwritten_eq_iff (by simp)]
  simp only [stop?_eq_absent_iff]
  constructor
  · rintro ⟨b, hb, ⟨rfl, habsent⟩, hleast⟩
    exact ⟨hb, habsent, hleast⟩
  · rintro ⟨ha, habsent, hleast⟩
    exact ⟨a, ha, ⟨rfl, habsent⟩, hleast⟩

theorem firstUnwritten_eq_error_iff {m : Memory} {first limit : Address} {e : AddressError} :
    m.firstUnwritten first limit = .error e ↔ ∃ a, Candidate first limit a ∧
      m.fetchWordOrAbsent a = .error e ∧
      ∀ b, Candidate first limit b → b < a → (m.present? b).isSome = true := by
  rw [firstUnwritten_eq_iff (by simp)]
  simp only [stop?_eq_error_iff]

theorem firstUnwritten_eq_none_iff {m : Memory} {first limit : Address} :
    m.firstUnwritten first limit = .ok none ↔
      ∀ a, Candidate first limit a → (m.present? a).isSome = true := by
  have hnever (a : Address) : m.stop? a ≠ some (.ok none) := by
    rw [stop?]
    cases m.fetchWordOrAbsent a with
    | error e => simp
    | ok word => cases word <;> simp
  have hend : m.firstUnwritten first limit = .ok none ↔
      (candidates first limit).findSome? m.stop? = none := by
    rw [firstUnwritten_eq, firstAbsent_eq_findSome?]
    cases hfound : (candidates first limit).findSome? m.stop? with
    | none => simp
    | some found =>
      obtain ⟨a, -, ha⟩ := List.exists_of_findSome?_eq_some hfound
      rw [Option.getD_some]
      refine iff_of_false ?_ (Option.some_ne_none _)
      rintro rfl
      exact hnever a ha
  rw [hend, List.findSome?_eq_none_iff]
  simp only [mem_candidates, stop?_eq_none_iff]

/-! ## Data -/

end Memory

/-- The range of a region of data. -/
def Layout.dataRange (l : Layout) : DataArea → AddressRange
  | .user => l.data
  | .kernel => l.kernelData
  | .mmio => l.mmio

namespace Memory

/-- The regions of data are where the layout says. -/
def Situated (m : Memory) : Prop :=
  ∀ which, (m.dataRegion which).range = m.layout.dataRange which

theorem Situated.congr {m m' : Memory} (hm : m.Situated) (hlayout : m'.layout = m.layout)
    (hdata : ∀ which, m'.dataRegion which = m.dataRegion which) : m'.Situated := by
  intro which
  rw [hdata, hlayout]
  exact hm which

theorem Deposit.situated {m m' : Memory} {w : Address} {v : Word} (h : Deposit m w v m')
    (hm : m.Situated) : m'.Situated := by
  intro k
  rw [h.frame.layout, ← hm k]
  rcases h.dataRegion k with hsame | ⟨-, hstored⟩
  · rw [hsame]
  · rw [hstored, Region.store_range]

theorem closed_situated : Closed (fun _ => True) Situated where
  store hm _ h := (deposit_of_poke h).situated hm
  storeStatement hm _ h := (pokeStatement_eq_ok h).2.situated hm
  setOrder hm _ := hm.congr rfl fun which => by cases which <;> rfl
  setSelfModifying hm _ := hm.congr rfl fun which => by cases which <;> rfl
  clear _ _ which := by cases which <;> rfl
  allocateHeap hm _ _ := hm.congr rfl fun which => by cases which <;> rfl
  told hm _ _ := hm.congr rfl fun which => by cases which <;> rfl

theorem Reachable.situated {m : Memory} (h : m.Reachable) : m.Situated :=
  h.closed closed_situated (fun _ hm => hm.congr rfl fun which => by cases which <;> rfl)
    fun _ which => by cases which <;> rfl

/-- Whether the block of data that an address falls into was ever written. -/
def isWritten (m : Memory) (a : Address) : Bool :=
  match m.areaOf? a with
  | some (.data which) => ((m.dataRegion which).block? a).isSome
  | _ => false

/-- An address of data is data, though another region of data may have it as well. -/
theorem exists_data_area {m : Memory} {which : DataArea} {a : Address}
    (h : (m.dataRegion which).contains a = true) : ∃ k, m.areaOf? a = some (.data k) := by
  unfold areaOf?
  split_ifs with huser hkernel hmmio
  · exact ⟨.user, rfl⟩
  · exact ⟨.kernel, rfl⟩
  · exact ⟨.mmio, rfl⟩
  all_goals
    cases which with
    | user => exact absurd h huser
    | kernel => exact absurd h hkernel
    | mmio => exact absurd h hmmio

theorem readable_of_data {m : Memory} {which : DataArea} {a : Address} (ha : a.toNat % 4 = 0)
    (h : (m.dataRegion which).contains a = true) :
    m.Readable a ∧ (m.present? a).isSome = m.isWritten a := by
  obtain ⟨k, harea⟩ := exists_data_area h
  rw [Readable, present?, fetchWordOrAbsent_data ha harea, isWritten, harea]
  exact ⟨rfl, Option.isSome_map⟩

end Memory
end MipsImage
