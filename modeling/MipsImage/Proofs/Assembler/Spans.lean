/-
The bytes that the items of a program take up.

Within a segment an item begins where the one before has ended or later, until the cursor
comes round to zero.  The cursor is a word, so how far it has come is counted beside it.
Items of different segments are kept apart by the ranges of the segments.  Neither is
checked by the assembler: a cursor may come round, and a segment that runs past its range
may get into that of another.
-/
import MipsImage.Proofs.Assembler.Placement
import MipsImage.Proofs.Source.Coverage

namespace MipsImage

/-- The bytes of one item, and the segment it was put into. -/
structure Span where
  segment : SegmentKind
  address : Address
  length : Nat
  deriving DecidableEq, Repr

namespace Assembler

/-! ## Spans of a run -/

/-- What `f` finds at each step of a run, in order. -/
def collect {β : Type} (f : Assembler → Step → List β) : List Step → Assembler → List β
  | [], _ => []
  | x :: xs, a => f a x ++ collect f xs (a.step x)

/-- The span of the value that a step stores, if it stores any. -/
def storedSpans (a : Assembler) : Step → List Span
  | .act x =>
    if x.stored = 0 then []
    else [{ segment := a.segments.active, address := a.segments.cursor, length := x.stored }]
  | _ => []

/-- The spans of what a step puts into the program: the words of a statement, a
stored value, or reserved space.  External data that is there already is not
reserved again. -/
def itemSpans (a : Assembler) : Step → List Span
  | .act (.statement s) =>
    (wordsFrom a.segments.cursor (s.size / 4)).map fun address =>
      { segment := a.segments.active, address, length := 4 }
  | .act (.reserve size) =>
    if size = 0 then []
    else [{ segment := a.segments.active, address := a.segments.cursor, length := size.toNat }]
  | .act (.external token size) =>
    if size = 0 ∨ a.globals.contains token.literal then []
    else
      [{ segment := .external, address := a.segments.external.cursor, length := size.toNat }]
  | x => a.storedSpans x

end Assembler

/-! ## Ranges -/

def Layout.segmentRange (l : Layout) : SegmentKind → AddressRange
  | .text => l.text
  | .data => l.staticData
  | .kernelText => l.kernelText
  | .kernelData => l.kernelData
  | .external => l.externalData

namespace Span

def Within (r : AddressRange) (z : Span) : Prop :=
  r.first.toNat ≤ z.address.toNat ∧ z.address.toNat + z.length ≤ r.last.toNat + 1

instance (r : AddressRange) (z : Span) : Decidable (z.Within r) :=
  inferInstanceAs (Decidable (_ ∧ _))

def Before (z z' : Span) : Prop :=
  z.address.toNat + z.length ≤ z'.address.toNat

theorem apart_of_before {z z' : Span} (h : z.Before z')
    (hend : z'.address.toNat + z'.length ≤ 4294967296) :
    Apart z.address z.length z'.address z'.length := by
  intro i hi j hj hsame
  have hbefore : z.address.toNat + z.length ≤ z'.address.toNat := h
  have hfirst : (z.address + UInt32.ofNat i).toNat = z.address.toNat + i := by
    rw [toNat_add_ofNat]
    omega
  have hsecond : (z'.address + UInt32.ofNat j).toNat = z'.address.toNat + j := by
    rw [toNat_add_ofNat]
    omega
  rw [hsame, hsecond] at hfirst
  omega

end Span

namespace LayoutPreset

theorem ranges_apart (p : LayoutPreset) {kind kind' : SegmentKind} (h : kind ≠ kind') :
    (p.layout.segmentRange kind).last.toNat < (p.layout.segmentRange kind').first.toNat ∨
      (p.layout.segmentRange kind').last.toNat < (p.layout.segmentRange kind).first.toNat := by
  revert h
  cases p <;> cases kind <;> cases kind' <;> decide

theorem apart_of_within (p : LayoutPreset) {z z' : Span} (h : z.segment ≠ z'.segment)
    (hz : z.Within (p.layout.segmentRange z.segment))
    (hz' : z'.Within (p.layout.segmentRange z'.segment)) :
    Apart z.address z.length z'.address z'.length := by
  obtain ⟨hfirst, hend⟩ := hz
  obtain ⟨hfirst', hend'⟩ := hz'
  have hlast := (p.layout.segmentRange z.segment).last.toNat_lt
  have hlast' := (p.layout.segmentRange z'.segment).last.toNat_lt
  rcases p.ranges_apart h with hbelow | habove
  · refine Span.apart_of_before ?_ (by omega)
    rw [Span.Before]
    omega
  · refine (Span.apart_of_before ?_ (by omega)).symm
    rw [Span.Before]
    omega

end LayoutPreset

theorem Instruction.size_of_mem (i : Instruction) (hi : i ∈ all) : 0 < i.size ∧ i.size ≤ 16 := by
  revert i
  decide

namespace Segments

theorem get_modify (s : Segments) (kind k : SegmentKind) (f : Segment → Segment) :
    (s.modify kind f).get k = if k = kind then f (s.get k) else s.get k := by
  cases kind <;> cases k <;> rfl

end Segments

/-! ## Cursors -/

namespace Assembler

def cursorOf (a : Assembler) (k : SegmentKind) : Address :=
  (a.segments.get k).cursor

/-- How far a step takes the cursor of segment `k`. -/
def moved (a : Assembler) (x : Step) (k : SegmentKind) : Nat :=
  ((a.step x).cursorOf k - a.cursorOf k).toNat

/-- How far a run takes the cursor of segment `k`, every time round counted. -/
def travelled (k : SegmentKind) : List Step → Assembler → Nat
  | [], _ => 0
  | x :: xs, a => a.moved x k + travelled k xs (a.step x)

theorem cursorOf_start (settings : AssemblerSettings) (ms : MemorySettings) (k : SegmentKind) :
    (start settings (.ofSettings ms)).cursorOf k =
      UInt32.ofNat (ms.layout.segmentRange k).first.toNat := by
  rw [UInt32.ofNat_toNat]
  cases k <;> rfl

/-- The place of a cursor is a number that cannot come round. -/
theorem cursorOf_step {k : SegmentKind} {place : Nat} {a : Assembler} {x : Step}
    (h : a.cursorOf k = UInt32.ofNat place) :
    (a.step x).cursorOf k = UInt32.ofNat (place + a.moved x k) := by
  rw [UInt32.ofNat_add, ← h, moved, UInt32.ofNat_toNat, UInt32.add_comm, UInt32.sub_add_cancel]

/-! ## Order inside a segment -/

/-- Spans of segment `k` that lie in order in the `n` bytes from `place` on. -/
structure Fills (k : SegmentKind) (place n : Nat) (spans : List Span) : Prop where
  between : ∀ z ∈ spans, z.segment = k →
    place ≤ z.address.toNat ∧ z.address.toNat + z.length ≤ place + n
  ordered : spans.Pairwise fun z z' => z.segment = k → z'.segment = k → z.Before z'

section

variable {k : SegmentKind} {place n n' : Nat} {spans spans' : List Span}

theorem fills_of_other (h : ∀ z ∈ spans, z.segment ≠ k) : Fills k place n spans :=
  ⟨fun z hz hk => absurd hk (h z hz),
    List.pairwise_of_forall_mem_list fun z hz _ _ hk => absurd hk (h z hz)⟩

theorem fills_nil : Fills k place n [] :=
  fills_of_other fun _ hz => absurd hz List.not_mem_nil

theorem Fills.append (h : Fills k place n spans) (h' : Fills k (place + n) n' spans') :
    Fills k place (n + n') (spans ++ spans') := by
  refine ⟨List.forall_mem_append.mpr ⟨fun z hz hk => ?_, fun z hz hk => ?_⟩,
    List.pairwise_append.mpr ⟨h.ordered, h'.ordered, fun z hz z' hz' hk hk' => ?_⟩⟩
  · have hin := h.between z hz hk
    omega
  · have hin := h'.between z hz hk
    omega
  · exact Nat.le_trans (h.between z hz hk).2 (h'.between z' hz' hk').1

end

section

variable {k kind : SegmentKind} {place : Nat} {a : Assembler} {x : Action}

theorem moved_modify {n : Word} (h : (a.act x).segments = a.segments.modify kind (·.advance n)) :
    a.moved (.act x) kind = n.toNat := by
  have hcursor : (a.step (.act x)).cursorOf kind = a.cursorOf kind + n := by
    rw [cursorOf, step, h, Segments.get_modify, if_pos rfl]
    rfl
  rw [moved, hcursor, UInt32.add_comm, UInt32.add_sub_cancel]

theorem fills_item {n : Word} {spans : List Span} (hcursor : a.cursorOf k = UInt32.ofNat place)
    (hroom : place + a.moved (.act x) k ≤ 4294967296)
    (hsegments : (a.act x).segments = a.segments.modify kind (·.advance n))
    (hspans : spans = if n = 0 then [] else [⟨kind, a.cursorOf kind, n.toNat⟩]) :
    Fills k place (a.moved (.act x) k) spans := by
  by_cases hn : n = 0
  · rw [hspans, if_pos hn]
    exact fills_nil
  · rw [hspans, if_neg hn]
    by_cases hk : kind = k
    · subst hk
      rw [moved_modify hsegments] at hroom ⊢
      have hpos : n.toNat ≠ 0 := fun hzero => hn (UInt32.toNat_inj.mp hzero)
      have hplace : (a.cursorOf kind).toNat = place := by
        rw [hcursor, UInt32.toNat_ofNat']
        omega
      refine ⟨fun z hz _ => ?_, List.pairwise_singleton _ _⟩
      rw [List.mem_singleton.mp hz, hplace]
      exact ⟨Nat.le_refl _, Nat.le_refl _⟩
    · exact fills_of_other fun z hz => by rwa [List.mem_singleton.mp hz]

theorem fills_stored (hcursor : a.cursorOf k = UInt32.ofNat place)
    (hroom : place + a.moved (.act x) k ≤ 4294967296) (hpos : x.stored ≠ 0) (hsmall : x.stored ≤ 8)
    (hsegments : (a.act x).segments = a.segments.advance (UInt32.ofNat x.stored)) :
    Fills k place (a.moved (.act x) k) (a.storedSpans (.act x)) := by
  have hlength : (UInt32.ofNat x.stored).toNat = x.stored := by
    rw [UInt32.toNat_ofNat']
    omega
  have hnonzero : UInt32.ofNat x.stored ≠ 0 := by
    intro hzero
    rw [hzero] at hlength
    exact hpos hlength.symm
  refine fills_item hcursor hroom hsegments ?_
  rw [storedSpans, if_neg hpos, if_neg hnonzero, hlength]
  rfl

theorem fills_statement {s : ParsedStatement} (hs : s.instruction ∈ Instruction.all)
    (hcursor : a.cursorOf k = UInt32.ofNat place)
    (hroom : place + a.moved (.act (.statement s)) k ≤ 4294967296)
    (hsegments : (a.act (.statement s)).segments = a.segments.advance (UInt32.ofNat s.size)) :
    Fills k place (a.moved (.act (.statement s)) k) (a.itemSpans (.act (.statement s))) := by
  by_cases hk : a.segments.active = k
  · subst hk
    have hsize : s.size = 4 * (s.size / 4) := s.instruction.size_eq
    have hmoved : a.moved (.act (.statement s)) a.segments.active = s.size := by
      have hsmall : s.size ≤ 16 := (s.instruction.size_of_mem hs).2
      rw [moved_modify hsegments, UInt32.toNat_ofNat']
      omega
    rw [hmoved] at hroom ⊢
    have hword (i : Nat) (hi : i < s.size / 4) :
        (a.segments.cursor + 4 * UInt32.ofNat i).toNat = place + 4 * i := by
      have hstart : a.segments.cursor = UInt32.ofNat place := hcursor
      rw [toNat_add_words, hstart, UInt32.toNat_ofNat']
      omega
    constructor
    · intro z hz _
      obtain ⟨address, haddress, rfl⟩ := List.mem_map.mp hz
      obtain ⟨i, hi, rfl⟩ := mem_wordsFrom.mp haddress
      show place ≤ (a.segments.cursor + 4 * UInt32.ofNat i).toNat ∧
        (a.segments.cursor + 4 * UInt32.ofNat i).toNat + 4 ≤ place + s.size
      rw [hword i hi]
      omega
    · rw [itemSpans, wordsFrom, List.map_map, List.pairwise_map]
      refine List.Pairwise.imp_of_mem ?_ List.pairwise_lt_range
      intro i j hi hj hlt _ _
      show (a.segments.cursor + 4 * UInt32.ofNat i).toNat + 4 ≤
        (a.segments.cursor + 4 * UInt32.ofNat j).toNat
      rw [hword i (List.mem_range.mp hi), hword j (List.mem_range.mp hj)]
      omega
  · refine fills_of_other fun z hz => ?_
    obtain ⟨address, -, rfl⟩ := List.mem_map.mp hz
    exact hk

/-- An action puts its spans where the cursor is, and not beyond where it comes to. -/
theorem fills_act (hknown : ∀ s, x = .statement s → s.instruction ∈ Instruction.all)
    (hclean : (a.act x).Clean) (hcursor : a.cursorOf k = UInt32.ofNat place)
    (hroom : place + a.moved (.act x) k ≤ 4294967296) :
    Fills k place (a.moved (.act x) k) (a.itemSpans (.act x)) := by
  have hsegments := (act_effect hclean).segments
  cases x with
  | statement s => exact fills_statement (hknown s rfl) hcursor hroom hsegments
  | integer location value width =>
    refine fills_stored hcursor hroom ?_ ?_ hsegments <;> rcases width with _ | _ | _ <;>
      simp [Action.stored, Memory.Width.bytes]
  | reference token width =>
    refine fills_stored hcursor hroom ?_ ?_ hsegments <;> rcases width with _ | _ | _ <;>
      simp [Action.stored, Memory.Width.bytes]
  | double location bits =>
    refine fills_stored (x := .double location bits) hcursor hroom ?_ ?_ hsegments <;>
      simp [Action.stored]
  | reserve size => exact fills_item hcursor hroom hsegments rfl
  | external token size =>
    rw [movedSegments] at hsegments
    split_ifs at hsegments with htaken
    · rw [itemSpans, if_pos (.inr htaken)]
      exact fills_nil
    · refine fills_item hcursor hroom hsegments ?_
      rw [itemSpans]
      simp only [htaken, Bool.false_eq_true, or_false]
      rfl
  | _ => exact fills_nil

end

/-- The items of a segment lie in order for as long as its cursor does not come round. -/
theorem fills_collect {k : SegmentKind} {steps : List Step} {place : Nat} {a : Assembler}
    (hknown : ∀ s, .act (.statement s) ∈ steps → s.instruction ∈ Instruction.all)
    (hclean : (a.stepAll steps).Clean) (hcursor : a.cursorOf k = UInt32.ofNat place)
    (hroom : place + travelled k steps a ≤ 4294967296) :
    Fills k place (travelled k steps a) (collect itemSpans steps a) := by
  induction steps generalizing a place with
  | nil => exact fills_nil
  | cons x rest ih =>
    rw [travelled] at hroom ⊢
    rw [stepAll_cons] at hclean
    have hone : Fills k place (a.moved x k) (a.itemSpans x) := by
      cases x with
      | act x =>
        exact fills_act (fun s hs => hknown s (hs ▸ List.mem_cons_self))
          (clean_of_stepAll hclean) hcursor (by omega)
      | _ => exact fills_nil
    refine hone.append (ih (fun s hs => hknown s (List.mem_cons_of_mem x hs)) hclean ?_ (by omega))
    exact cursorOf_step hcursor

end Assembler

/-! ## Items -/

def Directive.isSegment : Directive → Bool
  | .text | .data | .kernelText | .kernelData => true
  | _ => false

/-- A segment directive that says where to continue. -/
def Item.Outcome.hasAddress : Item.Outcome → Bool
  | .item (.directive d _ content) => d.isSegment && !content.isEmpty
  | _ => false

/-- The directives that put values at the active cursor, or leave room for them. -/
def Directive.isData : Directive → Bool
  | .byte | .half | .word | .float | .double | .ascii | .asciiz | .space => true
  | _ => false

/-- An action that stays in the active segment and goes on from its cursor. -/
def Action.InPlace : Action → Prop
  | .statement s => s.instruction ∈ Instruction.all
  | .activate _ | .moveTo _ | .external _ _ => False
  | _ => True

namespace DataEntry

theorem inPlace_integerActions {directive : Token} {width : Memory.Width} {e : DataEntry}
    {x : Action} (h : x ∈ e.integerActions directive width) : x.InPlace := by
  cases e with
  | invalid t => exact absurd h List.not_mem_nil
  | value t repetition =>
    rw [integerActions] at h
    split at h
    · rcases List.mem_append.mp h with hwarning | hvalue
      · rw [truncationActions] at hwarning
        split_ifs at hwarning
        · exact absurd hwarning List.not_mem_nil
        · rw [List.mem_singleton.mp hwarning]
          trivial
      · rw [List.eq_of_mem_replicate hvalue]
        trivial
    · rw [List.eq_of_mem_replicate h]
      trivial

theorem inPlace_realActions {double : Bool} {e : DataEntry} {x : Action}
    (h : x ∈ e.realActions double) : x.InPlace := by
  cases e with
  | invalid t => exact absurd h List.not_mem_nil
  | value t repetition =>
    simp only [realActions] at h
    split_ifs at h
    · rw [List.eq_of_mem_replicate h]
      trivial
    · rcases List.mem_append.mp h with hwarning | hvalue
      · rw [overflowActions] at hwarning
        split_ifs at hwarning
        · rw [List.mem_singleton.mp hwarning]
          trivial
        · exact absurd hwarning List.not_mem_nil
      · rw [List.eq_of_mem_replicate hvalue]
        trivial

end DataEntry

namespace Directive

theorem inPlace_integersActions {width : Memory.Width} {directive : Token}
    {content : List Token} {x : Action} (h : x ∈ integersActions width directive content) :
    x.InPlace := by
  rcases List.mem_cons.mp h with rfl | h
  · trivial
  · obtain ⟨e, -, he⟩ := List.mem_flatMap.mp h
    exact DataEntry.inPlace_integerActions he

theorem inPlace_realsActions {double : Bool} {content : List Token} {x : Action}
    (h : x ∈ realsActions double content) : x.InPlace := by
  rcases List.mem_cons.mp h with rfl | h
  · trivial
  · obtain ⟨e, -, he⟩ := List.mem_flatMap.mp h
    exact DataEntry.inPlace_realActions he

theorem inPlace_stringActions {terminated : Bool} {content : List Token} {x : Action}
    (h : x ∈ content.flatMap (stringActions terminated)) : x.InPlace := by
  obtain ⟨t, -, ht⟩ := List.mem_flatMap.mp h
  rw [stringActions] at ht
  split at ht
  · obtain ⟨b, -, rfl⟩ := List.mem_map.mp ht
    trivial
  · exact absurd ht List.not_mem_nil

theorem inPlace_actions {d : Directive} (hd : d.isData = true) {token : Token}
    {content : List Token} {x : Action} (h : x ∈ d.actions token content) : x.InPlace := by
  cases d with
  | byte => exact inPlace_integersActions h
  | half => exact inPlace_integersActions h
  | word => exact inPlace_integersActions h
  | float => exact inPlace_realsActions h
  | double => exact inPlace_realsActions h
  | ascii => exact inPlace_stringActions h
  | asciiz => exact inPlace_stringActions h
  | space =>
    obtain ⟨size, -, rfl⟩ := Option.map_eq_some_iff.mp (Option.mem_toList.mp h)
    trivial
  | _ => cases hd

theorem not_mem_switchActions (s : ParsedStatement) (kind : SegmentKind) (content : List Token) :
    .statement s ∉ switchActions kind content := by
  rw [switchActions.eq_def]
  split
  · split <;> simp
  · simp

theorem known_of_mem_actions {d : Directive} {token : Token} {content : List Token}
    {s : ParsedStatement} (h : .statement s ∈ d.actions token content) :
    s.instruction ∈ Instruction.all := by
  cases hdata : d.isData with
  | true => exact inPlace_actions hdata h
  | false =>
    -- The other directives make no statements at all.
    refine absurd h ?_
    cases d with
    | text => exact not_mem_switchActions s _ content
    | data => exact not_mem_switchActions s _ content
    | kernelText => exact not_mem_switchActions s _ content
    | kernelData => exact not_mem_switchActions s _ content
    | align =>
      rw [actions, alignActions]
      split <;> simp
    | external =>
      rw [actions, externalActions.eq_def]
      split
      · split <;> simp
      · simp
    | global => simp [actions]
    | set => simp [actions, Action.reportAt]
    | constant => simp [actions, Action.reportAt]
    | macroStart => simp [actions, Action.reportAt]
    | macroEnd => simp [actions, Action.reportAt]
    | inclusion => simp [actions, Action.reportAt]
    | _ => cases hdata

end Directive

/-- A program has statements of known instructions only. -/
theorem known_of_mem_programSteps {sources : List (String × String)} {s : ParsedStatement}
    (h : .act (.statement s) ∈ programSteps sources) : s.instruction ∈ Instruction.all := by
  obtain ⟨f, hf, hstep⟩ := List.mem_flatMap.mp h
  have hmem : .statement s ∈ f.actions := by
    simpa [SourceFile.steps] using hstep
  obtain ⟨o, ho, hact⟩ := List.mem_flatMap.mp hmem
  cases o with
  | problem d => simp [Item.Outcome.actions] at hact
  | item i =>
    cases i with
    | label token => simp [Item.Outcome.actions, Item.actions] at hact
    | directive d token content => exact Directive.known_of_mem_actions hact
    | statement s' =>
      cases List.mem_singleton.mp hact
      exact Item.known_of_statement ho

/-! ## Disjointness -/

namespace Assembler

def programSpans (settings : AssemblerSettings) (ms : MemorySettings)
    (sources : List (String × String)) : List Span :=
  collect itemSpans (programSteps sources) (start settings (.ofSettings ms))

/-- Two items of a program share no byte.  Of the same segment, this takes that its cursor
has not come round; of different segments, that both lie in the ranges of theirs.  The
program is taken up to any point, since what comes after two items does not matter to them. -/
theorem programSpans_apart {settings : AssemblerSettings} {preset : LayoutPreset}
    {order : ByteOrder} {selfModifying : Bool} {sources : List (String × String)} {a : Assembler}
    (h : (start settings (.ofSettings ⟨preset.layout, order, selfModifying⟩)).assembleSources
      sources = (none, a)) {steps : List Step} (hsteps : steps <+: programSteps sources) :
    let fresh := start settings (.ofSettings ⟨preset.layout, order, selfModifying⟩)
    (collect itemSpans steps fresh).Pairwise fun z z' =>
      (z.segment = z'.segment →
        (preset.layout.segmentRange z.segment).first.toNat + travelled z.segment steps fresh ≤
          4294967296 →
        Apart z.address z.length z'.address z'.length) ∧
      (z.segment ≠ z'.segment → z.Within (preset.layout.segmentRange z.segment) →
        z'.Within (preset.layout.segmentRange z'.segment) →
        Apart z.address z.length z'.address z'.length) := by
  intro fresh
  obtain ⟨-, hall, -, -⟩ := assembleSources_eq_none h
  have hclean : (fresh.stepAll steps).Clean := by
    obtain ⟨later, hlater⟩ := hsteps
    have hrun : (fresh.stepAll (steps ++ later)).Clean := hlater ▸ clean_of_finishAll hall
    rw [stepAll_append] at hrun
    exact clean_of_stepAll hrun
  rw [List.pairwise_iff_getElem]
  intro i j hi hj hij
  refine ⟨fun hsame hroom => ?_, preset.apart_of_within⟩
  have hfills := fills_collect (fun s hs => known_of_mem_programSteps (hsteps.subset hs)) hclean
    (cursorOf_start settings _ _) hroom
  have hend := (hfills.between _ (List.getElem_mem hj) hsame.symm).2
  refine Span.apart_of_before ?_ (Nat.le_trans hend hroom)
  exact List.pairwise_iff_getElem.mp hfills.ordered i j hi hj hij rfl hsame.symm

set_option maxRecDepth 10000 in
/-- A byte, a word that is aligned behind it, reserved space and an instruction. -/
theorem programSpans_apart_mixed :
    let ms : MemorySettings := ⟨LayoutPreset.standard.layout, .little, false⟩
    let sources := [("mixed.s",
      ".data\n.byte 1\nx: .word x\n.space 3\n.extern y 4\n.text\nla $t0, x\n")]
    let spans := programSpans ⟨none, false⟩ ms sources
    spans = [⟨.data, 0x10010000, 1⟩, ⟨.data, 0x10010004, 4⟩, ⟨.data, 0x10010008, 3⟩,
        ⟨.external, 0x10000000, 4⟩, ⟨.text, 0x00400000, 4⟩, ⟨.text, 0x00400004, 4⟩] ∧
      spans.Pairwise fun z z' => Apart z.address z.length z'.address z'.length := by
  intro ms sources spans
  obtain ⟨hspans, hroom, hrun⟩ : spans = [⟨.data, 0x10010000, 1⟩, ⟨.data, 0x10010004, 4⟩,
        ⟨.data, 0x10010008, 3⟩, ⟨.external, 0x10000000, 4⟩, ⟨.text, 0x00400000, 4⟩,
        ⟨.text, 0x00400004, 4⟩] ∧
      (∀ z ∈ spans, (ms.layout.segmentRange z.segment).first.toNat + travelled z.segment
        (programSteps sources) (start ⟨none, false⟩ (.ofSettings ms)) ≤ 4294967296) ∧
      ((start ⟨none, false⟩ (.ofSettings ms)).assembleSources sources).1 = none := by
    decide +kernel
  have hwithin : ∀ w ∈ spans, w.Within (LayoutPreset.standard.layout.segmentRange w.segment) := by
    rw [hspans]
    decide
  refine ⟨hspans,
    (programSpans_apart (eq_of_fst_eq_none hrun) List.prefix_rfl).imp_of_mem ?_⟩
  intro z z' hz hz' happart
  by_cases hsame : z.segment = z'.segment
  · exact happart.1 hsame (hroom z hz)
  · exact happart.2 hsame (hwithin z hz) (hwithin z' hz')

set_option maxRecDepth 10000 in
/-- Nothing stops data from running on into the range of the kernel data. -/
theorem programSpans_shared_past_range :
    let ms : MemorySettings := ⟨LayoutPreset.compactData.layout, .little, false⟩
    let sources :=
      [("past.s", ".data\n.space 0x5000\nx: .word 1\n.kdata\ny: .word 2\n.text\nnop\n")]
    ((start ⟨none, false⟩ (.ofSettings ms)).assembleSources sources).1 = none ∧
      (∀ f ∈ sourceFiles sources, ∀ o ∈ Item.ofFile f, o.hasAddress = false) ∧
      ¬ (programSpans ⟨none, false⟩ ms sources).Pairwise fun z z' =>
        Apart z.address z.length z'.address z'.length := by
  intro ms sources
  obtain ⟨hrun, hsources, hspans⟩ :
      ((start ⟨none, false⟩ (.ofSettings ms)).assembleSources sources).1 = none ∧
      (∀ f ∈ sourceFiles sources, ∀ o ∈ Item.ofFile f, o.hasAddress = false) ∧
      programSpans ⟨none, false⟩ ms sources = [⟨.data, 0x0, 0x5000⟩, ⟨.data, 0x5000, 4⟩,
        ⟨.kernelData, 0x5000, 4⟩, ⟨.text, 0x3000, 4⟩] := by
    decide +kernel
  refine ⟨hrun, hsources, ?_⟩
  intro hpairwise
  rw [hspans] at hpairwise
  have hshared : Apart 0x5000 4 0x5000 4 :=
    List.pairwise_iff_getElem.mp hpairwise 1 2 (by decide) (by decide) (by decide)
  exact absurd hshared (by decide)

end Assembler
end MipsImage
