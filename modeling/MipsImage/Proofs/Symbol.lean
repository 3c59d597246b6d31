/-
Symbol tables.

A table holds its symbols twice, by name and by address, and alignment finds the
labels to move through the second.  That it moves exactly the symbols whose
addresses lie in the padding rests on the two views agreeing, which is `Indexed`.
-/
import Mathlib
import MipsImage.Symbol

namespace MipsImage

/-! ## Tables by equality of keys -/

section

variable {α β : Type} [Ord α] [Std.TransOrd α] [Std.LawfulEqOrd α] [DecidableEq α]

theorem getElem?_insert_eq_ite (t : Std.TreeMap α β) (k k' : α) (v : β) :
    (t.insert k v)[k']? = if k' = k then some v else t[k']? := by
  rw [Std.TreeMap.getElem?_insert]
  by_cases h : k' = k
  · rw [if_pos h, if_pos (by rw [h]; exact Std.ReflCmp.compare_self)]
  · rw [if_neg h, if_neg fun hcompare => h (Std.LawfulEqCmp.eq_of_compare hcompare).symm]

theorem getElem?_erase_eq_ite (t : Std.TreeMap α β) (k k' : α) :
    (t.erase k)[k']? = if k' = k then none else t[k']? := by
  rw [Std.TreeMap.getElem?_erase]
  by_cases h : k' = k
  · rw [if_pos h, if_pos (by rw [h]; exact Std.ReflCmp.compare_self)]
  · rw [if_neg h, if_neg fun hcompare => h (Std.LawfulEqCmp.eq_of_compare hcompare).symm]

end

namespace SymbolTable

/-! ## The names at an address -/

theorem mem_identifiersAt_index {t : SymbolTable} {identifier x : String} {address b : Address} :
    x ∈ (t.index identifier address).identifiersAt b ↔
      (b = address ∧ identifier = x) ∨ x ∈ t.identifiersAt b := by
  rw [identifiersAt, index, getElem?_insert_eq_ite]
  by_cases hb : b = address
  · rw [if_pos hb, Option.getD_some, Std.TreeSet.mem_insert, Std.LawfulEqCmp.compare_eq_iff_eq, hb]
    simp only [true_and]
  · rw [if_neg hb]
    simp only [hb, false_and, false_or]
    rfl

theorem mem_identifiersAt_unindex {t : SymbolTable} {identifier x : String} {address b : Address} :
    x ∈ (t.unindex identifier address).identifiersAt b ↔
      ¬ (b = address ∧ identifier = x) ∧ x ∈ t.identifiersAt b := by
  have hrest : x ∈ (t.identifiersAt address).erase identifier ↔
      identifier ≠ x ∧ x ∈ t.identifiersAt address := by
    rw [Std.TreeSet.mem_erase, Ne, Std.LawfulEqCmp.compare_eq_iff_eq]
  by_cases hb : b = address
  · subst hb
    simp only [true_and]
    rw [← Ne, ← hrest, identifiersAt, unindex]
    dsimp only
    split_ifs with hempty
    · rw [getElem?_erase_eq_ite, if_pos rfl, Option.getD_none]
      have hnone := Std.TreeSet.isEmpty_iff_forall_not_mem.mp hempty x
      exact iff_of_false Std.TreeSet.not_mem_emptyc hnone
    · rw [getElem?_insert_eq_ite, if_pos rfl, Option.getD_some]
  · have hsame : (t.unindex identifier address).byAddress[b]? = t.byAddress[b]? := by
      rw [unindex]
      dsimp only
      split_ifs
      · rw [getElem?_erase_eq_ite, if_neg hb]
      · rw [getElem?_insert_eq_ite, if_neg hb]
    rw [identifiersAt, hsame]
    simp only [hb, false_and, not_false_eq_true, true_and]
    rfl

theorem mem_identifiersIn {t : SymbolTable} {first limit : Address} {x : String} :
    x ∈ t.identifiersIn first limit ↔
      ∃ address, first ≤ address ∧ address < limit ∧ x ∈ t.identifiersAt address := by
  simp only [identifiersIn, List.mem_flatMap, List.mem_filter, Bool.and_eq_true, decide_eq_true_eq,
    Std.TreeSet.mem_toList]
  constructor
  · rintro ⟨⟨address, names⟩, ⟨hentry, hfirst, hlimit⟩, hx⟩
    refine ⟨address, hfirst, hlimit, ?_⟩
    rw [identifiersAt, Std.TreeMap.mem_toList_iff_getElem?_eq_some.mp hentry]
    exact hx
  · rintro ⟨address, hfirst, hlimit, hx⟩
    rw [identifiersAt] at hx
    cases hnames : t.byAddress[address]? with
    | none =>
      rw [hnames] at hx
      exact absurd hx Std.TreeSet.not_mem_emptyc
    | some names =>
      rw [hnames] at hx
      exact ⟨(address, names),
        ⟨Std.TreeMap.mem_toList_iff_getElem?_eq_some.mpr hnames, hfirst, hlimit⟩, hx⟩

/-! ## Both views agree -/

/-- The names at an address are those of the symbols that have it, and a symbol is
kept under its own name. -/
structure Indexed (t : SymbolTable) : Prop where
  names : ∀ address x, x ∈ t.identifiersAt address ↔ ∃ s, t.lookup? x = some s ∧ s.address = address
  identifier : ∀ {x s}, t.lookup? x = some s → s.identifier = x

theorem lookup?_empty (name x : String) : (empty name).lookup? x = none :=
  Std.TreeMap.getElem?_emptyc

theorem indexed_empty (name : String) : (empty name).Indexed := by
  refine ⟨fun address x => ?_, fun {x s} hs => ?_⟩
  · have hnames : (empty name).byAddress[address]? = none := Std.TreeMap.getElem?_emptyc
    rw [identifiersAt, hnames, lookup?_empty]
    refine iff_of_false Std.TreeSet.not_mem_emptyc ?_
    rintro ⟨s, hs, -⟩
    cases hs
  · rw [lookup?_empty] at hs
    cases hs

theorem lookup?_define {t t' : SymbolTable} {s : Symbol} (h : t.define s = .ok t') (x : String) :
    t.lookup? s.identifier = none ∧
      t'.lookup? x = if x = s.identifier then some s else t.lookup? x := by
  rw [define] at h
  cases hexisting : t.lookup? s.identifier with
  | some existing =>
    rw [hexisting] at h
    cases h
  | none =>
    rw [hexisting] at h
    cases h
    exact ⟨rfl, getElem?_insert_eq_ite _ _ _ _⟩

theorem lookup?_define_of_some {t t' : SymbolTable} {s s' : Symbol} (h : t.define s = .ok t')
    {x : String} (hx : t.lookup? x = some s') : t'.lookup? x = some s' := by
  obtain ⟨hnew, hlookup⟩ := lookup?_define h x
  rw [hlookup, if_neg]
  · exact hx
  · rintro rfl
    rw [hnew] at hx
    cases hx

theorem Indexed.define {t t' : SymbolTable} (ht : t.Indexed) {s : Symbol}
    (h : t.define s = .ok t') : t'.Indexed := by
  refine ⟨fun address x => ?_, fun {x s'} hs' => ?_⟩
  · obtain ⟨hnew, hlookup⟩ := lookup?_define h x
    have hnames : x ∈ t'.identifiersAt address ↔
        x ∈ (t.index s.identifier s.address).identifiersAt address := by
      rw [SymbolTable.define, hnew] at h
      cases h
      rfl
    rw [hnames, mem_identifiersAt_index, ht.names address x, hlookup]
    by_cases hx : x = s.identifier
    · subst hx
      rw [if_pos rfl, hnew]
      simp [eq_comm]
    · rw [if_neg hx]
      simp [Ne.symm hx]
  · rw [(lookup?_define h x).2] at hs'
    split_ifs at hs' with hx
    · cases hs'
      exact hx.symm
    · exact ht.identifier hs'

theorem lookup?_move (t : SymbolTable) (identifier : String) (address : Address) (x : String) :
    (t.move identifier address).lookup? x =
      (t.lookup? x).map fun s => if x = identifier then { s with address } else s := by
  rw [move]
  cases hs : t.lookup? identifier with
  | none =>
    by_cases hx : x = identifier
    · rw [hx, hs]
      rfl
    · simp only [hx, if_false, Option.map_id']
  | some s =>
    have hinsert := getElem?_insert_eq_ite t.symbols identifier x { s with address }
    refine hinsert.trans ?_
    by_cases hx : x = identifier
    · rw [if_pos hx, hx, hs, Option.map_some, if_pos rfl]
    · rw [if_neg hx]
      simp only [hx, if_false, Option.map_id']
      rfl

theorem Indexed.move {t : SymbolTable} (ht : t.Indexed) (identifier : String) (address : Address) :
    (t.move identifier address).Indexed := by
  cases hs : t.lookup? identifier with
  | none =>
    have hsame : t.move identifier address = t := by
      rw [SymbolTable.move, hs]
    rwa [hsame]
  | some s =>
    refine ⟨fun b x => ?_, fun {x s'} hs' => ?_⟩
    · have hnames : x ∈ (t.move identifier address).identifiersAt b ↔
          x ∈ ((t.unindex identifier s.address).index identifier address).identifiersAt b := by
        rw [SymbolTable.move, hs]
        rfl
      rw [hnames, mem_identifiersAt_index, mem_identifiersAt_unindex, ht.names b x, lookup?_move]
      by_cases hx : x = identifier
      · subst hx
        rw [hs]
        simp only [and_true, Option.some.injEq, Option.map_some, if_true]
        constructor
        · rintro (rfl | ⟨hb, s', rfl, hs'⟩)
          · exact ⟨_, rfl, rfl⟩
          · exact absurd hs'.symm hb
        · rintro ⟨s', rfl, hb⟩
          exact .inl hb.symm
      · simp only [Ne.symm hx, and_false, false_or, not_false_eq_true, true_and, hx, if_false,
          Option.map_id']
    · rw [lookup?_move] at hs'
      obtain ⟨old, hold, rfl⟩ := Option.map_eq_some_iff.mp hs'
      have hname := ht.identifier hold
      split_ifs
      · exact hname
      · exact hname

theorem lookup?_foldl_move (identifiers : List String) (t : SymbolTable) (address : Address)
    (x : String) :
    (identifiers.foldl (fun t identifier => t.move identifier address) t).lookup? x =
      (t.lookup? x).map fun s => if x ∈ identifiers then { s with address } else s := by
  induction identifiers generalizing t with
  | nil => simp
  | cons identifier rest ih =>
    rw [List.foldl_cons, ih, lookup?_move, Option.map_map]
    congr 1
    funext s
    by_cases hx : x = identifier
    · simp [hx]
    · simp [hx]

/-- Alignment moves the symbols in the padding to its end and no others. -/
theorem Indexed.lookup?_realign {t : SymbolTable} (ht : t.Indexed) (old new : Address)
    (x : String) :
    (t.realign old new).lookup? x =
      (t.lookup? x).map fun s =>
        if old ≤ s.address ∧ s.address < new then { s with address := new } else s := by
  rw [realign, lookup?_foldl_move]
  cases hs : t.lookup? x with
  | none => rfl
  | some s =>
    rw [Option.map_some, Option.map_some]
    congr 1
    have hmem : x ∈ t.identifiersIn old new ↔ old ≤ s.address ∧ s.address < new := by
      rw [mem_identifiersIn]
      constructor
      · rintro ⟨address, hold, hnew, hx⟩
        obtain ⟨s', hs', rfl⟩ := (ht.names address x).mp hx
        rw [hs] at hs'
        cases hs'
        exact ⟨hold, hnew⟩
      · rintro ⟨hold, hnew⟩
        exact ⟨s.address, hold, hnew, (ht.names s.address x).mpr ⟨s, hs, rfl⟩⟩
    simp only [hmem]

theorem Indexed.realign {t : SymbolTable} (ht : t.Indexed) (old new : Address) :
    (t.realign old new).Indexed := by
  rw [SymbolTable.realign]
  induction t.identifiersIn old new generalizing t with
  | nil => exact ht
  | cons identifier rest ih => exact ih (ht.move identifier new)

theorem lookup?_remove? {t t' : SymbolTable} {identifier : String} {s : Symbol}
    (h : t.remove? identifier = some (s, t')) (x : String) :
    t.lookup? identifier = some s ∧
      t'.lookup? x = if x = identifier then none else t.lookup? x := by
  obtain ⟨s', hs', heq⟩ := Option.map_eq_some_iff.mp h
  cases heq
  exact ⟨hs', getElem?_erase_eq_ite _ _ _⟩

theorem Indexed.remove? {t t' : SymbolTable} (ht : t.Indexed) {identifier : String} {s : Symbol}
    (h : t.remove? identifier = some (s, t')) : t'.Indexed := by
  refine ⟨fun b x => ?_, fun {x s'} hs' => ?_⟩
  · obtain ⟨hs, hlookup⟩ := lookup?_remove? h x
    have hnames : x ∈ t'.identifiersAt b ↔
        x ∈ (t.unindex identifier s.address).identifiersAt b := by
      rw [SymbolTable.remove?, hs] at h
      cases h
      rfl
    rw [hnames, mem_identifiersAt_unindex, ht.names b x, hlookup]
    by_cases hx : x = identifier
    · subst hx
      rw [hs, if_pos rfl]
      simp [eq_comm]
    · rw [if_neg hx]
      simp only [Ne.symm hx, and_false, not_false_eq_true, true_and]
  · rw [(lookup?_remove? h x).2] at hs'
    split_ifs at hs'
    exact ht.identifier hs'

end SymbolTable
end MipsImage
