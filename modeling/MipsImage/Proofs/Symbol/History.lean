/-
A symbol table after any history.

Whatever is done to a table, its two views agree and no address is kept without a
name, which is `WellKept`.  A listing walks the view by address and looks every name
up in the view by name, so it is from this invariant that a listing shows each symbol
once, and from the order of both trees that it shows them by address and then by name.
Realignment works from the names found in the padding before anything is moved; they are
the names of the listed symbols that lie there, and so they can be counted in the listing.
-/
import MipsImage.Proofs.Symbol

namespace MipsImage

/-- By address, and at one address by identifier. -/
def Symbol.Precedes (s s' : Symbol) : Prop :=
  s.address < s'.address ∨ s.address = s'.address ∧ s.identifier < s'.identifier

/-- Whether a symbol is at an address from `first` up to, and not with, `limit`. -/
def Symbol.inPadding (first limit : Address) (s : Symbol) : Bool :=
  first ≤ s.address && s.address < limit

namespace SymbolTable

/-! ## Histories -/

inductive Operation where
  | define (s : Symbol)
  | remove (identifier : String)
  | realign (old new : Address)
  | clear
  deriving DecidableEq, Repr

/-- The table after an operation; one that is refused changes nothing. -/
def perform (t : SymbolTable) : Operation → SymbolTable
  | .define s =>
    match t.define s with
    | .ok t => t
    | .error _ => t
  | .remove identifier =>
    match t.remove? identifier with
    | some (_, t) => t
    | none => t
  | .realign old new => (t.realignCounted old new).2
  | .clear => t.clear

/-- What an operation does to the symbols, as a map from identifiers. -/
def Operation.effect (symbols : String → Option Symbol) : Operation → String → Option Symbol
  | .define s, x => if x = s.identifier ∧ symbols x = none then some s else symbols x
  | .remove identifier, x => if x = identifier then none else symbols x
  | .realign old new, x =>
    (symbols x).map fun s => if s.inPadding old new then { s with address := new } else s
  | .clear, _ => none

/-! ## The invariant -/

/-- The two views agree, and an address is only kept for the names at it. -/
structure WellKept (t : SymbolTable) : Prop extends Indexed t where
  inhabited : ∀ {address : Address} {names : Std.TreeSet String},
    t.byAddress[address]? = some names → names.isEmpty = false

theorem inhabited_index {t : SymbolTable} {identifier : String} {address b : Address}
    {names : Std.TreeSet String}
    (ht : ∀ {b : Address} {names : Std.TreeSet String},
      t.byAddress[b]? = some names → names.isEmpty = false)
    (h : (t.index identifier address).byAddress[b]? = some names) : names.isEmpty = false := by
  rw [index, getElem?_insert_eq_ite] at h
  split_ifs at h with hb
  · cases h
    exact Std.TreeSet.isEmpty_insert
  · exact ht h

theorem inhabited_unindex {t : SymbolTable} {identifier : String} {address b : Address}
    {names : Std.TreeSet String}
    (ht : ∀ {b : Address} {names : Std.TreeSet String},
      t.byAddress[b]? = some names → names.isEmpty = false)
    (h : (t.unindex identifier address).byAddress[b]? = some names) : names.isEmpty = false := by
  rw [unindex] at h
  dsimp only at h
  split_ifs at h with hempty
  · rw [getElem?_erase_eq_ite] at h
    split_ifs at h
    exact ht h
  · rw [getElem?_insert_eq_ite] at h
    split_ifs at h
    · cases h
      exact Bool.eq_false_iff.mpr hempty
    · exact ht h

namespace WellKept

variable {t t' : SymbolTable}

theorem empty (name : String) : (SymbolTable.empty name).WellKept where
  toIndexed := indexed_empty name
  inhabited h := by
    rw [SymbolTable.empty, Std.TreeMap.getElem?_emptyc] at h
    cases h

theorem define (ht : t.WellKept) {s : Symbol} (h : t.define s = .ok t') : t'.WellKept where
  toIndexed := ht.toIndexed.define h
  inhabited {address names} hnames := by
    rw [SymbolTable.define, (lookup?_define h s.identifier).1] at h
    cases h
    exact inhabited_index ht.inhabited hnames

theorem remove? (ht : t.WellKept) {identifier : String} {s : Symbol}
    (h : t.remove? identifier = some (s, t')) : t'.WellKept where
  toIndexed := ht.toIndexed.remove? h
  inhabited {address names} hnames := by
    rw [SymbolTable.remove?, (lookup?_remove? h identifier).1] at h
    cases h
    exact inhabited_unindex ht.inhabited hnames

theorem move (ht : t.WellKept) (identifier : String) (address : Address) :
    (t.move identifier address).WellKept where
  toIndexed := ht.toIndexed.move identifier address
  inhabited {b names} hnames := by
    rw [SymbolTable.move] at hnames
    cases hs : t.lookup? identifier with
    | none =>
      rw [hs] at hnames
      exact ht.inhabited hnames
    | some s =>
      rw [hs] at hnames
      exact inhabited_index (inhabited_unindex ht.inhabited) hnames

theorem realign (ht : t.WellKept) (old new : Address) : (t.realign old new).WellKept := by
  rw [SymbolTable.realign]
  induction t.identifiersIn old new generalizing t with
  | nil => exact ht
  | cons identifier rest ih => exact ih (ht.move identifier new)

end WellKept

/-! ## Listings -/

section Listing

variable {t : SymbolTable}

theorem mem_identifiersAt {address : Address} {x : String} :
    x ∈ t.identifiersAt address ↔ ∃ names, t.byAddress[address]? = some names ∧ x ∈ names := by
  rw [identifiersAt]
  cases t.byAddress[address]? with
  | none => simp
  | some names => simp

/-- The names kept for an address are those of the symbols at it. -/
theorem Indexed.mem_names (ht : t.Indexed) {address : Address} {names : Std.TreeSet String}
    (h : t.byAddress[address]? = some names) {x : String} :
    x ∈ names ↔ ∃ s, t.lookup? x = some s ∧ s.address = address := by
  rw [← ht.names, identifiersAt, h, Option.getD_some]

theorem Indexed.mem_filterMap_lookup? (ht : t.Indexed) {address : Address}
    {names : Std.TreeSet String} (hnames : t.byAddress[address]? = some names) {s : Symbol} :
    s ∈ names.toList.filterMap t.lookup? ↔
      t.lookup? s.identifier = some s ∧ s.address = address := by
  rw [List.mem_filterMap]
  constructor
  · rintro ⟨x, hx, hs⟩
    obtain ⟨s', hs', haddress⟩ := (ht.mem_names hnames).mp (Std.TreeSet.mem_toList.mp hx)
    rw [hs] at hs'
    cases hs'
    rw [ht.identifier hs]
    exact ⟨hs, haddress⟩
  · rintro ⟨hs, haddress⟩
    refine ⟨s.identifier, ?_, hs⟩
    rw [Std.TreeSet.mem_toList, ht.mem_names hnames]
    exact ⟨s, hs, haddress⟩

theorem Indexed.mem_all (ht : t.Indexed) {s : Symbol} :
    s ∈ t.all ↔ t.lookup? s.identifier = some s := by
  rw [all, List.mem_flatMap]
  constructor
  · rintro ⟨entry, hentry, hs⟩
    have hnames := Std.TreeMap.mem_toList_iff_getElem?_eq_some.mp hentry
    exact ((ht.mem_filterMap_lookup? hnames).mp hs).1
  · intro hs
    obtain ⟨names, hnames, -⟩ := mem_identifiersAt.mp ((ht.names _ _).mpr ⟨s, hs, rfl⟩)
    have hentry := Std.TreeMap.mem_toList_iff_getElem?_eq_some.mpr hnames
    exact ⟨(s.address, names), hentry, (ht.mem_filterMap_lookup? hnames).mpr ⟨hs, rfl⟩⟩

/-- Names at one address come in their own order, and so do the addresses. -/
theorem Indexed.pairwise_all (ht : t.Indexed) : t.all.Pairwise Symbol.Precedes := by
  have haddress : ∀ entry ∈ t.byAddress.toList, ∀ s ∈ entry.2.toList.filterMap t.lookup?,
      s.address = entry.1 := by
    intro entry hentry s hs
    have hnames := Std.TreeMap.mem_toList_iff_getElem?_eq_some.mp hentry
    exact ((ht.mem_filterMap_lookup? hnames).mp hs).2
  rw [all, List.pairwise_flatMap]
  constructor
  · intro entry hentry
    rw [List.pairwise_filterMap]
    have hordered : entry.2.toList.Pairwise fun x y => compare x y = .lt :=
      Std.TreeSet.ordered_toList
    refine hordered.imp_of_mem ?_
    intro x y hx hy hxy s hs s' hs'
    have hat := haddress entry hentry s (List.mem_filterMap.mpr ⟨x, hx, hs⟩)
    have hat' := haddress entry hentry s' (List.mem_filterMap.mpr ⟨y, hy, hs'⟩)
    refine .inr ⟨hat.trans hat'.symm, ?_⟩
    rw [ht.identifier hs, ht.identifier hs']
    exact compare_lt_iff_lt.mp hxy
  · have hordered : t.byAddress.toList.Pairwise fun e e' => compare e.1 e'.1 = .lt :=
      Std.TreeMap.ordered_keys_toList
    refine hordered.imp_of_mem ?_
    intro e e' he he' hlt s hs s' hs'
    left
    rw [haddress e he s hs, haddress e' he' s' hs']
    exact compareOfLessAndEq_eq_lt.mp hlt

theorem Symbol.Precedes.ne {s s' : Symbol} (h : s.Precedes s') : s ≠ s' := by
  rintro rfl
  rcases h with haddress | ⟨-, hidentifier⟩
  · exact UInt32.lt_irrefl _ haddress
  · exact String.lt_irrefl _ hidentifier

theorem Indexed.count_all (ht : t.Indexed) (s : Symbol) :
    t.all.count s = if t.lookup? s.identifier = some s then 1 else 0 := by
  have hnodup : t.all.Nodup := ht.pairwise_all.imp Symbol.Precedes.ne
  rw [hnodup.count]
  simp only [ht.mem_all]

/-- The symbols listed for an address have the names kept for it, in the same order. -/
theorem Indexed.map_identifier (ht : t.Indexed) {address : Address} {names : Std.TreeSet String}
    (hnames : t.byAddress[address]? = some names) :
    (names.toList.filterMap t.lookup?).map (·.identifier) = names.toList := by
  have hkept : ∀ x ∈ names.toList, (t.lookup? x).map (·.identifier) = some x := by
    intro x hx
    obtain ⟨s, hs, -⟩ := (ht.mem_names hnames).mp (Std.TreeSet.mem_toList.mp hx)
    rw [hs, Option.map_some, ht.identifier hs]
  rw [List.map_filterMap, List.filterMap_congr hkept, List.filterMap_some]

/-- The names in the padding, in the order in which they are moved, are those of the listed
symbols that lie there. -/
theorem Indexed.identifiersIn_eq (ht : t.Indexed) (first limit : Address) :
    t.identifiersIn first limit =
      (t.all.filter (Symbol.inPadding first limit)).map (·.identifier) := by
  have hkept : ∀ entry ∈ t.byAddress.toList, t.byAddress[entry.1]? = some entry.2 :=
    fun _ hentry => Std.TreeMap.mem_toList_iff_getElem?_eq_some.mp hentry
  rw [identifiersIn, all]
  revert hkept
  generalize t.byAddress.toList = entries
  intro hkept
  induction entries with
  | nil => rfl
  | cons entry rest ih =>
    obtain ⟨hentry, hrest⟩ := List.forall_mem_cons.mp hkept
    -- All symbols of the entry are at its address, so they lie in the padding or none does.
    have hat : ∀ s ∈ entry.2.toList.filterMap t.lookup?, s.inPadding first limit =
        (first ≤ entry.1 && entry.1 < limit : Bool) := by
      intro s hs
      rw [Symbol.inPadding, ((ht.mem_filterMap_lookup? hentry).mp hs).2]
    rw [List.flatMap_cons, List.filter_append, List.map_append, ← ih hrest, List.filter_congr hat,
      List.filter_cons]
    cases first ≤ entry.1 && entry.1 < limit with
    | true => rw [if_pos rfl, List.flatMap_cons, List.filter_true, ht.map_identifier hentry]
    | false =>
      rw [if_neg Bool.false_ne_true, List.filter_false]
      rfl

theorem Indexed.length_identifiersIn (ht : t.Indexed) (first limit : Address) :
    (t.identifiersIn first limit).length = t.all.countP (Symbol.inPadding first limit) := by
  rw [ht.identifiersIn_eq, List.length_map, List.countP_eq_length_filter]

end Listing

/-! ## Runs -/

theorem WellKept.perform {t : SymbolTable} (ht : t.WellKept) (op : Operation) :
    (t.perform op).WellKept := by
  cases op with
  | define s =>
    rw [SymbolTable.perform]
    cases h : t.define s with
    | ok t' => exact ht.define h
    | error d => exact ht
  | remove identifier =>
    rw [SymbolTable.perform]
    cases h : t.remove? identifier with
    | some removed => exact ht.remove? (s := removed.1) h
    | none => exact ht
  | realign old new => exact ht.realign old new
  | clear => exact .empty t.name

theorem WellKept.lookup?_perform {t : SymbolTable} (ht : t.WellKept) (op : Operation) :
    (t.perform op).lookup? = op.effect t.lookup? := by
  funext x
  cases op with
  | define s =>
    rw [SymbolTable.perform, Operation.effect]
    cases h : t.define s with
    | ok t' =>
      obtain ⟨hnew, hlookup⟩ := lookup?_define h x
      rw [hlookup]
      by_cases hx : x = s.identifier
      · rw [if_pos hx, if_pos ⟨hx, hx ▸ hnew⟩]
      · rw [if_neg hx, if_neg fun h => hx h.1]
    | error d =>
      rw [if_neg]
      rintro ⟨rfl, hnone⟩
      rw [SymbolTable.define, hnone] at h
      cases h
  | remove identifier =>
    rw [SymbolTable.perform, Operation.effect]
    cases h : t.remove? identifier with
    | some removed => exact (lookup?_remove? (s := removed.1) h x).2
    | none =>
      have hnone : t.lookup? identifier = none := Option.map_eq_none_iff.mp h
      by_cases hx : x = identifier
      · rw [if_pos hx, hx, hnone]
      · rw [if_neg hx]
  | realign old new =>
    refine (ht.lookup?_realign old new x).trans ?_
    simp only [Operation.effect, Symbol.inPadding, Bool.and_eq_true, decide_eq_true_eq]
  | clear => exact lookup?_empty t.name x

theorem foldl_perform {t : SymbolTable} (ht : t.WellKept) (history : List Operation) :
    (history.foldl perform t).WellKept ∧
      (history.foldl perform t).lookup? = history.foldl Operation.effect t.lookup? := by
  induction history generalizing t with
  | nil => exact ⟨ht, rfl⟩
  | cons op rest ih =>
    obtain ⟨hkept, hlookup⟩ := ih (ht.perform op)
    refine ⟨hkept, hlookup.trans ?_⟩
    rw [ht.lookup?_perform, List.foldl_cons]

theorem define_eq_error_iff {t : SymbolTable} {s : Symbol} {d : DuplicateSymbol} :
    t.define s = .error d ↔
      ∃ existing, t.lookup? s.identifier = some existing ∧
        d = ⟨s.identifier, existing.address⟩ := by
  rw [define]
  cases t.lookup? s.identifier with
  | none => simp
  | some existing => simp [eq_comm]

theorem realignCounted_of_le (t : SymbolTable) {old new : Address} (h : new ≤ old) :
    t.realignCounted old new = (0, t) := by
  have hnone : t.identifiersIn old new = [] := by
    rw [identifiersIn, List.filter_eq_nil_iff.mpr]
    · rfl
    · intro entry _
      simp only [Bool.and_eq_true, decide_eq_true_eq, not_and, UInt32.not_lt]
      exact fun hold => UInt32.le_trans h hold
  rw [realignCounted, realign, hnone]
  rfl

/-- After any history the names kept for an address are those of the symbols at it, no
address is kept without names, and a listing shows every symbol once, by address and then by
name.  A name that is taken is refused, and realigning moves the symbols in the padding and
no others. -/
theorem foldl_perform_represents (name : String) (history : List Operation) :
    let t := history.foldl perform (empty name)
    (∀ x : String, t.symbols[x]? = history.foldl Operation.effect (fun _ => none) x) ∧
    (∀ (address : Address) (x : String),
      (∃ names, t.byAddress[address]? = some names ∧ x ∈ names) ↔
        ∃ s : Symbol, t.symbols[x]? = some s ∧ s.address = address) ∧
    (∀ (address : Address) (names : Std.TreeSet String),
      t.byAddress[address]? = some names → names.isEmpty = false) ∧
    (∀ (x : String) (s : Symbol), t.symbols[x]? = some s → s.identifier = x ∧ t.all.count s = 1) ∧
    (∀ s ∈ t.all, t.symbols[s.identifier]? = some s) ∧
    t.all.Pairwise Symbol.Precedes ∧
    (∀ (s : Symbol) d, t.define s = .error d ↔ ∃ existing : Symbol,
      t.symbols[s.identifier]? = some existing ∧ d = ⟨s.identifier, existing.address⟩) ∧
    (∀ s : Symbol, s.identifier ∈ t.symbols → t.perform (.define s) = t) ∧
    (∀ old new, old < new →
      (t.realignCounted old new).1 =
        t.all.countP (fun s => old ≤ s.address ∧ s.address < new) ∧
      ∀ x : String, (t.realignCounted old new).2.symbols[x]? = t.symbols[x]?.map fun s =>
        if old ≤ s.address ∧ s.address < new then { s with address := new } else s) ∧
    ∀ old new, new ≤ old → t.realignCounted old new = (0, t) := by
  intro t
  obtain ⟨ht, hlookup⟩ := foldl_perform (.empty name) history
  refine ⟨fun x => ?_, fun address x => ?_, fun _ _ => ht.inhabited, fun x s hs => ?_,
    fun s hs => ht.mem_all.mp hs, ht.pairwise_all, fun s d => define_eq_error_iff, fun s hs => ?_,
    fun old new _ => ⟨?_, ht.lookup?_realign old new⟩, fun old new => t.realignCounted_of_le⟩
  · have hempty : (empty name).lookup? = fun _ => none := funext (lookup?_empty name)
    rw [← hempty, ← hlookup]
    rfl
  · exact mem_identifiersAt.symm.trans (ht.names address x)
  · have hidentifier := ht.identifier hs
    refine ⟨hidentifier, (ht.count_all s).trans (if_pos ?_)⟩
    rw [hidentifier]
    exact hs
  · obtain ⟨existing, hexisting⟩ :=
      Option.isSome_iff_exists.mp (Std.TreeMap.isSome_getElem?_iff_mem.mpr hs)
    rw [perform, define_eq_error_iff.mpr ⟨existing, hexisting, rfl⟩]
  · refine (ht.length_identifiersIn old new).trans ?_
    simp only [Bool.decide_and]
    rfl

set_option maxRecDepth 10000 in
/-- Three symbols in the padding move up to a fourth that is at its end already, and a name
that was removed can be defined again. -/
theorem foldl_perform_represents_padding :
    let history : List Operation :=
      [.define ⟨"before", 0x10010000, true⟩, .define ⟨"pad", 0x10010002, false⟩,
        .define ⟨"after", 0x10010004, true⟩, .remove "pad", .define ⟨"pad", 0x10010002, true⟩,
        .define ⟨"edge", 0x10010001, true⟩, .define ⟨"edge", 0x10010003, true⟩,
        .define ⟨"again", 0x10010002, false⟩]
    let t := history.foldl perform (empty "table.s")
    (0x10010001 : Address) < 0x10010004 ∧ (t.realignCounted 0x10010001 0x10010004).1 = 3 ∧
      (t.realignCounted 0x10010001 0x10010004).2.symbols["again"]? =
        some ⟨"again", 0x10010004, false⟩ ∧
      t.define ⟨"edge", 0x10010003, true⟩ = .error ⟨"edge", 0x10010001⟩ := by
  intro history t
  obtain ⟨-, -, -, -, -, -, hdefine, -, hrealign, -⟩ := foldl_perform_represents "table.s" history
  obtain ⟨hcount, hmoved⟩ := hrealign 0x10010001 0x10010004 (by decide)
  have hheld : t.all.countP (fun s => 0x10010001 ≤ s.address ∧ s.address < 0x10010004) = 3 ∧
      t.symbols["again"]? = some ⟨"again", 0x10010002, false⟩ ∧
      t.symbols["edge"]? = some ⟨"edge", 0x10010001, true⟩ := by
    decide +kernel
  refine ⟨by decide, hcount.trans hheld.1, (hmoved "again").trans ?_, ?_⟩
  · rw [hheld.2.1]
    rfl
  · exact (hdefine _ _).mpr ⟨_, hheld.2.2, rfl⟩

end SymbolTable
end MipsImage
