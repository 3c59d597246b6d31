/-
What watches cover.

The ranges of a listener are kept in a list in which its ranges neither overlap nor adjoin,
whatever else stands between them.  `Tidy` says so.  A new range is merged with those it
touches, one after the other, and each merge may make the range touch another one; so the
one lemma about the loop, `merge_spec`, gives the invariant and the union together.  From
both it follows that the ranges of a listener are the longest runs of the addresses it has
asked for, and nothing is left of the order in which it did.
-/
import MipsImage.Proofs.Memory.Listener

namespace MipsImage

namespace AddressRange

def addresses (r : AddressRange) : Set Address :=
  { x | r.first ≤ x ∧ x ≤ r.last }

theorem mem_addresses {r : AddressRange} {x : Address} :
    x ∈ r.addresses ↔ r.first.toNat ≤ x.toNat ∧ x.toNat ≤ r.last.toNat := by
  rw [addresses, Set.mem_ofPred_eq, UInt32.le_iff_toNat_le, UInt32.le_iff_toNat_le]

theorem intersects_iff {r : AddressRange} {first last : Address} :
    r.intersects first last = true ↔
      r.first.toNat ≤ last.toNat ∧ first.toNat ≤ r.last.toNat := by
  rw [intersects, Bool.and_eq_true, decide_eq_true_eq, decide_eq_true_eq, UInt32.le_iff_toNat_le,
    UInt32.le_iff_toNat_le]

/-- There is at least one address between the two ranges. -/
def Clear (r s : AddressRange) : Prop :=
  r.last.toNat + 1 < s.first.toNat ∨ s.last.toNat + 1 < r.first.toNat

theorem Clear.symm {r s : AddressRange} (h : r.Clear s) : s.Clear r :=
  Or.symm h

/-- A longest run of addresses in `u`. -/
structure IsRun (u : Set Address) (r : AddressRange) : Prop where
  ordered : r.first ≤ r.last
  inside : r.addresses ⊆ u
  maximal : ∀ x ∈ u, x.toNat + 1 ≠ r.first.toNat ∧ r.last.toNat + 1 ≠ x.toNat

theorem IsRun.within {u : Set Address} {r s : AddressRange} (hr : IsRun u r) (hs : IsRun u s)
    {x : Address} (hxr : x ∈ r.addresses) (hxs : x ∈ s.addresses) :
    s.first.toNat ≤ r.first.toNat ∧ r.last.toNat ≤ s.last.toNat := by
  rw [mem_addresses] at hxr hxs
  have hlast := r.last.toNat_lt
  constructor
  · by_contra hlt
    have hbefore : (UInt32.ofNat (s.first.toNat - 1)).toNat = s.first.toNat - 1 := by
      rw [UInt32.toNat_ofNat']
      omega
    have hinside : UInt32.ofNat (s.first.toNat - 1) ∈ u :=
      hr.inside (mem_addresses.mpr (by omega))
    have := (hs.maximal _ hinside).1
    omega
  · by_contra hlt
    have hafter : (UInt32.ofNat (s.last.toNat + 1)).toNat = s.last.toNat + 1 := by
      rw [UInt32.toNat_ofNat']
      omega
    have hinside : UInt32.ofNat (s.last.toNat + 1) ∈ u :=
      hr.inside (mem_addresses.mpr (by omega))
    have := (hs.maximal _ hinside).2
    omega

/-- Longest runs that have an address in common are the same. -/
theorem IsRun.eq {u : Set Address} {r s : AddressRange} (hr : IsRun u r) (hs : IsRun u s)
    {x : Address} (hxr : x ∈ r.addresses) (hxs : x ∈ s.addresses) : r = s := by
  obtain ⟨hfirst, hlast⟩ := hr.within hs hxr hxs
  obtain ⟨hfirst', hlast'⟩ := hs.within hr hxs hxr
  have hfirsts : r.first = s.first := UInt32.toNat_inj.mp (le_antisymm hfirst' hfirst)
  have hlasts : r.last = s.last := UInt32.toNat_inj.mp (le_antisymm hlast hlast')
  cases r
  cases s
  cases hfirsts
  cases hlasts
  rfl

end AddressRange

namespace Watch

open AddressRange (addresses mem_addresses intersects_iff IsRun)

/-- No range is inverted, and no two ranges of a listener overlap or adjoin. -/
structure Tidy (ws : List Watch) : Prop where
  ordered : ∀ w ∈ ws, w.range.first ≤ w.range.last
  clear : ws.Pairwise fun v w => v.listener = w.listener → v.range.Clear w.range

/-- The addresses in the ranges of a listener. -/
def covered (ws : List Watch) (listener : ListenerId) : Set Address :=
  { x | ∃ w ∈ ws, w.listener = listener ∧ x ∈ w.range.addresses }

theorem Tidy.perm {ws vs : List Watch} (h : Tidy ws) (hperm : ws.Perm vs) : Tidy vs where
  ordered w hw := h.ordered w (hperm.mem_iff.mpr hw)
  clear := by
    have hsymm : ∀ {v w : Watch}, (v.listener = w.listener → v.range.Clear w.range) →
        w.listener = v.listener → w.range.Clear v.range := fun hvw hsame => (hvw hsame.symm).symm
    exact (hperm.pairwise_iff hsymm).mp h.clear

theorem covered_perm {ws vs : List Watch} (h : ws.Perm vs) (listener : ListenerId) :
    covered ws listener = covered vs listener := by
  ext x
  exact exists_congr fun w => and_congr_left' h.mem_iff

theorem covered_cons (w : Watch) (ws : List Watch) (listener : ListenerId) :
    covered (w :: ws) listener =
      if w.listener = listener then w.range.addresses ∪ covered ws listener
      else covered ws listener := by
  ext x
  split_ifs with hown
  · simp [covered, hown]
  · simp [covered, hown]

/-! ## Merging -/

theorem perm_swapRemove {ws : List Watch} {i : Nat} (hi : i < ws.length) :
    ws.Perm (ws[i] :: swapRemove ws i) := by
  rcases List.eq_nil_or_concat ws with rfl | ⟨init, last, rfl⟩
  · cases hi
  · rw [List.length_concat] at hi
    simp only [List.concat_eq_append, swapRemove, List.getLast?_concat, List.set_append]
    have hlast : (init ++ [last]).Perm (last :: init) := List.perm_append_singleton last init
    by_cases hinit : i < init.length
    · rw [if_pos hinit, List.dropLast_concat, List.getElem_append_left hinit]
      calc List.Perm (init ++ [last]) (last :: init) := hlast
        List.Perm _ (last :: init[i] :: init.eraseIdx i) :=
          (List.getElem_cons_eraseIdx_perm hinit).symm.cons last
        List.Perm _ (init[i] :: last :: init.eraseIdx i) := .swap _ _ _
        List.Perm _ (init[i] :: init.set i last) :=
          (List.set_perm_cons_eraseIdx hinit last).symm.cons _
    · have hend : i = init.length := by omega
      subst hend
      rw [if_neg hinit, Nat.sub_self, List.getElem_append_right le_rfl]
      simp [hlast]

/-- Taking out what was found leaves the rest. -/
theorem perm_of_find? {ws : List Watch} {p : Watch → Bool} {w : Watch} (h : ws.find? p = some w) :
    ws.Perm (w :: swapRemove ws (ws.findIdx p)) := by
  obtain ⟨hp, i, hi, hw, hbefore⟩ := List.find?_eq_some_iff_getElem.mp h
  have hidx : ws.findIdx p = i := by
    refine (List.findIdx_eq hi).mpr ⟨hw ▸ hp, fun j hj => ?_⟩
    simpa using hbefore j hj
  rw [hidx, ← hw]
  exact perm_swapRemove hi

theorem touches_eq_true_iff {w : Watch} {first last : Address} :
    w.touches first last = true ↔
      (w.range.first.toNat ≤ last.toNat ∧ first.toNat ≤ w.range.last.toNat) ∨
        w.range.last.toNat + 1 = first.toNat ∨ last.toNat + 1 = w.range.first.toNat := by
  simp only [touches, Bool.or_eq_true, beq_iff_eq, intersects_iff, or_assoc]

/-- Two ranges that touch make up the range from the lower first to the higher last address. -/
theorem addresses_merged {w : Watch} {first last : Address} (hw : w.range.first ≤ w.range.last)
    (h : first ≤ last) (htouch : w.touches first last = true) :
    addresses ⟨min first w.range.first, max last w.range.last⟩ =
      addresses ⟨first, last⟩ ∪ w.range.addresses := by
  rw [touches_eq_true_iff] at htouch
  rw [UInt32.le_iff_toNat_le] at hw h
  ext x
  simp only [Set.mem_union, mem_addresses, UInt32.toNat_min, UInt32.toNat_max]
  omega

theorem clear_of_not_touches {w : Watch} {first last : Address}
    (hnot : ¬ w.touches first last = true) : w.range.Clear ⟨first, last⟩ := by
  rw [touches_eq_true_iff] at hnot
  show _ + 1 < first.toNat ∨ last.toNat + 1 < _
  omega

theorem Tidy.of_cons {w : Watch} {ws : List Watch} (h : Tidy (w :: ws)) : Tidy ws :=
  ⟨(List.forall_mem_cons.mp h.ordered).2, (List.pairwise_cons.mp h.clear).2⟩

/-- A range that touches none of its listener's can be put in as it is. -/
theorem Tidy.concat {ws : List Watch} {listener : ListenerId} {first last : Address} (hws : Tidy ws)
    (h : first ≤ last) (hnone : ws.find? (joins listener first last) = none) :
    Tidy (ws ++ [⟨listener, ⟨first, last⟩⟩]) where
  ordered w hw := by
    rcases List.mem_append.mp hw with hold | hnew
    · exact hws.ordered w hold
    · cases List.mem_singleton.mp hnew
      exact h
  clear := by
    refine List.pairwise_append.mpr ⟨hws.clear, List.pairwise_singleton _ _, ?_⟩
    intro w hw new hnew hsame
    cases List.mem_singleton.mp hnew
    have hnot : ¬ w.touches first last = true := by
      intro htouch
      refine List.find?_eq_none.mp hnone w hw ?_
      rw [joins, Bool.and_eq_true, beq_iff_eq]
      exact ⟨hsame, htouch⟩
    exact clear_of_not_touches hnot

/-- Merging keeps ranges apart, and adds exactly the addresses of the new range. -/
theorem merge_spec (listener : ListenerId) {ws : List Watch} {first last : Address}
    (h : first ≤ last) (hws : Tidy ws) :
    Tidy (merge listener first last ws) ∧ ∀ k, covered (merge listener first last ws) k =
      if listener = k then covered ws k ∪ addresses ⟨first, last⟩ else covered ws k := by
  -- Each round takes one range out of the list and widens the new one by it.
  fun_induction merge listener first last ws with
  | case1 first last ws hnone =>
    refine ⟨hws.concat h hnone, fun k => ?_⟩
    rw [covered_perm (List.perm_append_singleton _ ws), covered_cons, Set.union_comm]
  | case2 first last ws w hfound ih =>
    have hperm := perm_of_find? hfound
    obtain ⟨hown, htouch⟩ : w.listener = listener ∧ w.touches first last = true := by
      simpa [joins] using List.find?_some hfound
    have hw : w.range.first ≤ w.range.last := hws.ordered w (List.mem_of_find?_eq_some hfound)
    have hwide : min first w.range.first ≤ max last w.range.last := by
      rw [UInt32.le_iff_toNat_le] at h ⊢
      rw [UInt32.toNat_min, UInt32.toNat_max]
      omega
    obtain ⟨htidy, hcovered⟩ := ih hwide (hws.perm hperm).of_cons
    refine ⟨htidy, fun k => ?_⟩
    rw [hcovered, covered_perm hperm, covered_cons, hown, addresses_merged hw h htouch]
    split_ifs
    · ac_rfl
    · rfl

theorem Tidy.remove {ws : List Watch} (hws : Tidy ws) (listener : ListenerId) :
    Tidy (remove ws listener) :=
  ⟨fun w hw => hws.ordered w (List.mem_of_mem_filter hw), hws.clear.filter _⟩

theorem covered_remove (ws : List Watch) (listener k : ListenerId) :
    covered (remove ws listener) k = if listener = k then ∅ else covered ws k := by
  ext x
  by_cases hk : listener = k
  · rw [if_pos hk]
    refine iff_of_false ?_ (Set.notMem_empty x)
    rintro ⟨w, hw, hown, -⟩
    have hother := List.of_mem_filter hw
    simp [hown, hk] at hother
  · rw [if_neg hk]
    refine exists_congr fun w => and_congr_left ?_
    rintro ⟨hown, -⟩
    have hkeep : (w.listener != listener) = true := by simpa [hown] using Ne.symm hk
    simp [Watch.remove, hkeep]

/-! ## Ranges as runs -/

theorem mem_rangesOf {ws : List Watch} {listener : ListenerId} {r : AddressRange} :
    r ∈ rangesOf ws listener ↔ ∃ w ∈ ws, w.listener = listener ∧ w.range = r := by
  simp [rangesOf, and_assoc]

/-- The ranges of a listener, by address, with a gap after each. -/
theorem Tidy.pairwise_rangesOf {ws : List Watch} (hws : Tidy ws) (listener : ListenerId) :
    (rangesOf ws listener).Pairwise fun r s => r.last.toNat + 1 < s.first.toNat := by
  have hclear : (rangesOf ws listener).Pairwise AddressRange.Clear := by
    refine ((List.mergeSort_perm _ _).pairwise_iff AddressRange.Clear.symm).mpr ?_
    rw [List.pairwise_map]
    refine (hws.clear.filter _).imp_of_mem fun {v w} hv hw hvw => hvw ?_
    have hv : (v.listener == listener) = true := (List.mem_filter.mp hv).2
    have hw : (w.listener == listener) = true := (List.mem_filter.mp hw).2
    exact (beq_iff_eq.mp hv).trans (beq_iff_eq.mp hw).symm
  have hsorted : (rangesOf ws listener).Pairwise fun r s => r.first.toNat ≤ s.first.toNat := by
    refine (List.pairwise_mergeSort (fun a b c => ?_) (fun a b => ?_) _).imp fun {a b} hab => ?_
    all_goals
      simp only [Bool.or_eq_true, Bool.and_eq_true, decide_eq_true_eq, beq_iff_eq,
        UInt32.lt_iff_toNat_lt, UInt32.le_iff_toNat_le, ← UInt32.toNat_inj] at *
      omega
  refine (hsorted.and hclear).imp_of_mem fun {r s} hr hs hrs => ?_
  obtain ⟨w, hw, -, rfl⟩ := mem_rangesOf.mp hs
  have hordered := UInt32.le_iff_toNat_le.mp (hws.ordered w hw)
  rcases hrs.2 with hbefore | hafter
  · exact hbefore
  · have := hrs.1
    omega

/-- Two ranges of a listener are the same or have a gap between them. -/
theorem Tidy.eq_or_clear {ws : List Watch} (hws : Tidy ws) {v w : Watch} (hv : v ∈ ws)
    (hw : w ∈ ws) (hsame : v.listener = w.listener) :
    v.range = w.range ∨ v.range.Clear w.range := by
  have hsymm : Std.Symm fun v w : Watch => v.listener = w.listener → v.range.Clear w.range :=
    ⟨fun _ _ hvw hsame => (hvw hsame.symm).symm⟩
  by_cases heq : v = w
  · exact .inl (congrArg Watch.range heq)
  · exact .inr (hws.clear.forall hv hw heq hsame)

theorem Tidy.isRun {ws : List Watch} (hws : Tidy ws) {w : Watch} (hw : w ∈ ws) :
    IsRun (covered ws w.listener) w.range where
  ordered := hws.ordered w hw
  inside x hx := ⟨w, hw, rfl, hx⟩
  maximal := by
    rintro x ⟨v, hv, hsame, hx⟩
    rw [mem_addresses] at hx
    have hordered := UInt32.le_iff_toNat_le.mp (hws.ordered w hw)
    rcases hws.eq_or_clear hv hw hsame with heq | hclear
    · rw [heq] at hx
      omega
    · rw [AddressRange.Clear] at hclear
      omega

theorem Tidy.mem_rangesOf_iff {ws : List Watch} (hws : Tidy ws) {listener : ListenerId}
    {r : AddressRange} : r ∈ rangesOf ws listener ↔ IsRun (covered ws listener) r := by
  constructor
  · intro hr
    obtain ⟨w, hw, rfl, rfl⟩ := mem_rangesOf.mp hr
    exact hws.isRun hw
  · intro hr
    have hfirst : r.first ∈ r.addresses :=
      mem_addresses.mpr ⟨le_rfl, UInt32.le_iff_toNat_le.mp hr.ordered⟩
    obtain ⟨w, hw, rfl, hx⟩ := hr.inside hfirst
    exact mem_rangesOf.mpr ⟨w, hw, rfl, (hws.isRun hw).eq hr hx hfirst⟩

/-- The ranges of a listener are determined by what they cover. -/
theorem rangesOf_eq_of_covered {ws vs : List Watch} (hws : Tidy ws) (hvs : Tidy vs)
    {listener k : ListenerId} (h : covered ws listener = covered vs k) :
    rangesOf ws listener = rangesOf vs k := by
  have hnodup : ∀ {us : List Watch} (_ : Tidy us) (l : ListenerId), (rangesOf us l).Nodup := by
    intro us hus l
    refine (hus.pairwise_rangesOf l).imp_of_mem fun {r s} hr _ hgap heq => ?_
    have hordered := UInt32.le_iff_toNat_le.mp (hus.mem_rangesOf_iff.mp hr).ordered
    rw [← heq] at hgap
    omega
  refine List.Perm.eq_of_pairwise ?_ (hws.pairwise_rangesOf listener) (hvs.pairwise_rangesOf k) ?_
  · intro r s hr hs hrs hsr
    have hr := UInt32.le_iff_toNat_le.mp (hws.mem_rangesOf_iff.mp hr).ordered
    have hs := UInt32.le_iff_toNat_le.mp (hvs.mem_rangesOf_iff.mp hs).ordered
    omega
  · refine (List.perm_ext_iff_of_nodup (hnodup hws listener) (hnodup hvs k)).mpr fun r => ?_
    rw [hws.mem_rangesOf_iff, hvs.mem_rangesOf_iff, h]

/-! ## Who is called -/

/-- Each listener of a list of watches stands in `listeners` once. -/
theorem listeners_spec (ws : List Watch) :
    (listeners ws).Nodup ∧
      ∀ listener, listener ∈ listeners ws ↔ ∃ w ∈ ws, w.listener = listener := by
  have hfold : ∀ ids : List ListenerId, ids.Nodup →
      (ws.foldl (fun ids w => if ids.contains w.listener then ids else ids ++ [w.listener])
        ids).Nodup ∧ ∀ listener, listener ∈ ws.foldl
          (fun ids w => if ids.contains w.listener then ids else ids ++ [w.listener]) ids ↔
        listener ∈ ids ∨ ∃ w ∈ ws, w.listener = listener := by
    induction ws with
    | nil => exact fun ids h => ⟨h, fun listener => by simp⟩
    | cons w rest ih =>
      intro ids h
      rw [List.foldl_cons]
      by_cases hknown : w.listener ∈ ids
      · rw [if_pos (List.contains_iff_mem.mpr hknown)]
        obtain ⟨hnodup, hmem⟩ := ih ids h
        refine ⟨hnodup, fun listener => (hmem listener).trans ?_⟩
        rw [List.exists_mem_cons_iff, ← or_assoc]
        refine or_congr_left ⟨.inl, fun hold => hold.elim id fun heq => heq ▸ hknown⟩
      · rw [if_neg (mt List.contains_iff_mem.mp hknown)]
        obtain ⟨hnodup, hmem⟩ := ih (ids ++ [w.listener])
          (h.append (List.nodup_singleton _) (List.disjoint_singleton.mpr hknown))
        refine ⟨hnodup, fun listener => (hmem listener).trans ?_⟩
        rw [List.exists_mem_cons_iff, ← or_assoc, List.mem_append, List.mem_singleton,
          eq_comm (a := listener)]
  obtain ⟨hnodup, hmem⟩ := hfold [] List.nodup_nil
  refine ⟨hnodup, fun listener => (hmem listener).trans ?_⟩
  rw [or_iff_right List.not_mem_nil]

theorem toNat_lastAddress (a : Access) :
    a.lastAddress.toNat = min 0xffffffff (a.address.toNat + (a.length - 1)) := by
  rw [Access.lastAddress, UInt32.toNat_ofNat']
  omega

end Watch

/-- Whether a notice is for a listener to the addresses `u`.  An access to no bytes counts as
one to the byte it stands at. -/
def Notice.Concerns (u : Set Address) : Notice → Prop
  | .read a | .write a =>
    ∃ x ∈ u, a.address.toNat ≤ x.toNat ∧ x.toNat ≤ a.address.toNat + (a.length - 1)
  | .reset => u.Nonempty

namespace Watch

open AddressRange (addresses mem_addresses intersects_iff)

theorem Tidy.mem_interested {ws : List Watch} (hws : Tidy ws) (a : Access) (listener : ListenerId) :
    listener ∈ interested ws a.address a.lastAddress ↔ ∃ x ∈ covered ws listener,
      a.address.toNat ≤ x.toNat ∧ x.toNat ≤ a.address.toNat + (a.length - 1) := by
  have hlast := toNat_lastAddress a
  have haddress := a.address.toNat_lt
  rw [interested, (listeners_spec _).2]
  constructor
  · rintro ⟨w, hw, hown⟩
    obtain ⟨hw, hmeets⟩ := List.mem_filter.mp hw
    rw [intersects_iff] at hmeets
    have hordered := UInt32.le_iff_toNat_le.mp (hws.ordered w hw)
    have hfirst := UInt32.toNat_max a.address w.range.first
    exact ⟨max a.address w.range.first, ⟨w, hw, hown, mem_addresses.mpr (by omega)⟩, by omega⟩
  · rintro ⟨x, ⟨w, hw, hown, hx⟩, hmeets⟩
    rw [mem_addresses] at hx
    have := x.toNat_lt
    exact ⟨w, List.mem_filter.mpr ⟨hw, intersects_iff.mpr (by omega)⟩, hown⟩

theorem Tidy.mem_recipients {ws : List Watch} (hws : Tidy ws) (notice : Notice)
    (listener : ListenerId) :
    listener ∈ notice.recipients ws ↔ notice.Concerns (covered ws listener) := by
  cases notice with
  | read a => exact hws.mem_interested a listener
  | write a => exact hws.mem_interested a listener
  | reset =>
    refine ((listeners_spec ws).2 listener).trans ⟨?_, ?_⟩
    · rintro ⟨w, hw, hown⟩
      exact ⟨w.range.first, w, hw, hown, mem_addresses.mpr
        ⟨le_rfl, UInt32.le_iff_toNat_le.mp (hws.ordered w hw)⟩⟩
    · rintro ⟨x, w, hw, hown, -⟩
      exact ⟨w, hw, hown⟩

theorem nodup_recipients (ws : List Watch) (notice : Notice) : (notice.recipients ws).Nodup := by
  cases notice with
  | read a => exact (listeners_spec _).1
  | write a => exact (listeners_spec _).1
  | reset => exact (listeners_spec _).1

/-! ## Any sequence of changes -/

/-- What can be done to watches. -/
inductive Change where
  | add (listener : ListenerId) (first last : Address)
  | remove (listener : ListenerId)

/-- Carry out a change.  A range that is refused changes nothing. -/
def change (ws : List Watch) : Change → List Watch
  | .add listener first last =>
    match Watch.add ws listener first last with
    | .ok ws => ws
    | .error _ => ws
  | .remove listener => Watch.remove ws listener

/-- What a change means for the addresses `u` of a listener. -/
def accept (listener : ListenerId) (u : Set Address) : Change → Set Address
  | .add other first last =>
    if other = listener ∧ first ≤ last then u ∪ addresses ⟨first, last⟩ else u
  | .remove other => if other = listener then ∅ else u

/-- The union of the ranges accepted for a listener since it was last removed. -/
def accepted (listener : ListenerId) (changes : List Change) : Set Address :=
  changes.foldl (accept listener) ∅

theorem add_eq (ws : List Watch) (listener : ListenerId) (first last : Address) :
    Watch.add ws listener first last =
      if first ≤ last then .ok (merge listener first last ws) else .error ⟨first, last⟩ := by
  have hlt : last < first ↔ ¬ first ≤ last := by
    rw [UInt32.lt_iff_toNat_lt, UInt32.le_iff_toNat_le]
    omega
  simp only [Watch.add, hlt, ite_not]

theorem change_spec {ws : List Watch} (hws : Tidy ws) (c : Change) :
    Tidy (change ws c) ∧
      ∀ listener, covered (change ws c) listener = accept listener (covered ws listener) c := by
  cases c with
  | add other first last =>
    by_cases hle : first ≤ last
    · have hmerged : change ws (.add other first last) = merge other first last ws := by
        rw [change, add_eq, if_pos hle]
      obtain ⟨htidy, hcovered⟩ := merge_spec other hle hws
      rw [hmerged]
      refine ⟨htidy, fun listener => (hcovered listener).trans ?_⟩
      simp only [accept, hle, and_true]
    · have hrefused : change ws (.add other first last) = ws := by
        rw [change, add_eq, if_neg hle]
      rw [hrefused]
      exact ⟨hws, fun listener => (if_neg fun h => hle h.2).symm⟩
  | remove other => exact ⟨hws.remove other, covered_remove ws other⟩

theorem foldl_change_spec {ws : List Watch} (hws : Tidy ws) (changes : List Change) :
    Tidy (changes.foldl change ws) ∧ ∀ listener, covered (changes.foldl change ws) listener =
      changes.foldl (accept listener) (covered ws listener) := by
  induction changes generalizing ws with
  | nil => exact ⟨hws, fun _ => rfl⟩
  | cons c rest ih =>
    obtain ⟨hone, hcovered⟩ := change_spec hws c
    obtain ⟨hall, hrest⟩ := ih hone
    exact ⟨hall, fun listener => by rw [List.foldl_cons, List.foldl_cons, hrest, hcovered]⟩

theorem tidy_nil : Tidy [] :=
  ⟨fun _ hw => absurd hw List.not_mem_nil, List.Pairwise.nil⟩

theorem covered_nil (listener : ListenerId) : covered [] listener = ∅ := by
  simp [covered]

theorem foldl_change_accepted (changes : List Change) :
    Tidy (changes.foldl change []) ∧
      ∀ listener, covered (changes.foldl change []) listener = accepted listener changes := by
  obtain ⟨htidy, hcovered⟩ := foldl_change_spec tidy_nil changes
  exact ⟨htidy, fun listener => by rw [hcovered, covered_nil, accepted]⟩

end Watch

namespace Memory

open AddressRange (IsRun)
open Watch

/-- However its watches came about, the ranges of a listener are the longest runs of the
addresses accepted for it, in order, and it is called once for every notice that concerns
these addresses. -/
theorem watches_runs (changes : List Change) {m : Memory}
    (hm : m.watches = changes.foldl change []) :
    (∀ listener first last, m.watch listener first last =
      if first ≤ last then
        .ok { m with watches := (changes ++ [Change.add listener first last]).foldl change [] }
      else .error ⟨first, last⟩) ∧
    (∀ listener, m.unwatch listener =
      { m with watches := (changes ++ [Change.remove listener]).foldl change [] }) ∧
    Tidy m.watches ∧
    (∀ listener, covered m.watches listener = accepted listener changes) ∧
    (∀ listener, (rangesOf m.watches listener).Pairwise
      fun r s => r.last.toNat + 1 < s.first.toNat) ∧
    (∀ listener r, r ∈ rangesOf m.watches listener ↔ IsRun (accepted listener changes) r) ∧
    (∀ listener others k, accepted k others = accepted listener changes →
      rangesOf (others.foldl change []) k = rangesOf m.watches listener) ∧
    ∀ notice, ∃ called : List ListenerId, called.Nodup ∧
      (∀ listener, listener ∈ called ↔ notice.Concerns (accepted listener changes)) ∧
      (m.announce notice).journal.toList =
        m.journal.toList ++ called.map fun listener => ⟨listener, notice⟩ := by
  obtain ⟨htidy, hcovered⟩ := foldl_change_accepted changes
  rw [← hm] at htidy hcovered
  refine ⟨fun listener first last => ?_, fun listener => ?_, htidy, hcovered,
    htidy.pairwise_rangesOf, fun listener r => ?_, fun listener others k hsame => ?_,
    fun notice => ⟨notice.recipients m.watches, nodup_recipients _ _, fun listener => ?_,
      journal_announce m notice⟩⟩
  · rw [List.foldl_concat, ← hm, change, Memory.watch, add_eq]
    split_ifs
    · rfl
    · rfl
  · rw [List.foldl_concat, ← hm]
    rfl
  · rw [htidy.mem_rangesOf_iff, hcovered]
  · obtain ⟨htidy', hcovered'⟩ := foldl_change_accepted others
    refine rangesOf_eq_of_covered htidy' htidy ?_
    rw [hcovered', hcovered, hsame]
  · rw [htidy.mem_recipients, hcovered]

/-- A range that fills the gap between two others joins them.  The listener is called once
for an access that meets them; another one, whose range adjoins the access, is not. -/
theorem watches_runs_filled_gap :
    let changes := [Change.add 0 0x1000 0x1fff, .add 0 0x3000 0x3fff, .add 1 0x2004 0x2fff,
      .add 0 0x1800 0x2fff, .add 1 9 8]
    let access : Access := ⟨0x2000, 4, 0, 0x2000, 0⟩
    let m := { ofSettings ⟨Layout.standard, .little, false⟩ with
      watches := changes.foldl change [] }
    rangesOf m.watches 0 = [⟨0x1000, 0x3fff⟩] ∧ IsRun (accepted 0 changes) ⟨0x1000, 0x3fff⟩ ∧
      (m.announce (.read access)).journal.toList = [⟨0, .read access⟩] ∧
      (Notice.read access).Concerns (accepted 0 changes) ∧
      ¬ (Notice.read access).Concerns (accepted 1 changes) := by
  intro changes access m
  obtain ⟨-, -, -, -, -, hruns, -, hcalled⟩ := watches_runs changes (m := m) rfl
  obtain ⟨called, -, hconcerns, hjournal⟩ := hcalled (.read access)
  obtain ⟨hranges, hnoted⟩ : rangesOf m.watches 0 = [⟨0x1000, 0x3fff⟩] ∧
      (m.announce (.read access)).journal.toList = [⟨0, .read access⟩] := by
    decide +kernel
  have hcalled : called = [0] := by
    have hsame : [] ++ called.map (fun listener => Delivery.mk listener (.read access)) =
        [⟨0, .read access⟩] := hjournal.symm.trans hnoted
    have hone := congrArg (List.map Delivery.listener) hsame
    simpa using hone
  rw [hcalled] at hconcerns
  refine ⟨hranges, (hruns 0 _).mp (hranges ▸ List.mem_singleton_self _), hnoted,
    (hconcerns 0).mp (List.mem_singleton_self 0), fun hother => ?_⟩
  have := (hconcerns 1).mpr hother
  simp at this

/-- An access to no bytes is announced to the listeners of the byte it stands at, though no
address lies in its span. -/
theorem announce_empty_access :
    let changes := [Change.add 0 16 16]
    let access : Access := ⟨16, 0, 0, 16, 0⟩
    let m := { ofSettings ⟨Layout.standard, .little, false⟩ with
      watches := changes.foldl change [] }
    (m.announce (.read access)).journal.toList = [⟨0, .read access⟩] ∧
      ¬ ∃ x ∈ accepted 0 changes,
        access.address.toNat ≤ x.toNat ∧ x.toNat + 1 ≤ access.address.toNat + access.length := by
  intro changes access m
  have hwatches : changes.foldl change [] = [⟨0, ⟨16, 16⟩⟩] := by
    simp [changes, change, Watch.add, merge]
  refine ⟨?_, ?_⟩
  · rw [journal_announce]
    show [] ++ List.map _ (Notice.recipients (changes.foldl change []) (.read access)) = _
    rw [hwatches]
    rfl
  · rintro ⟨x, -, hfirst, hlast⟩
    exact absurd (Nat.lt_of_le_of_lt hfirst hlast) (lt_irrefl _)

end Memory
end MipsImage
