/-
Labels name what follows them.

A label is entered at the cursor, before anything is known of the alignment of what
follows.  Until that is there, the label goes where the cursor goes; from then on it is
behind the cursor, and an alignment only moves the labels in the padding it skips.  The
cursor is a word and may come round, so a number that cannot is kept beside it: the place
that the cursor has come to.  The padding skipped in another segment is out of reach as
long as every cursor stays in the range of its segment.
-/
import MipsImage.Proofs.Assembler.Lexical

namespace MipsImage

/-- No address is in the ranges of two segments. -/
def Layout.SegmentsApart (l : Layout) : Prop :=
  ∀ k k' address, k ≠ k' → (l.segmentRange k).contains address = true →
    (l.segmentRange k').contains address = false

theorem LayoutPreset.segmentsApart (p : LayoutPreset) : p.layout.SegmentsApart := by
  intro k k' address hk hinside
  rw [Bool.eq_false_iff]
  intro hinside'
  rw [AddressRange.contains_iff] at hinside hinside'
  have hapart := p.ranges_apart hk
  omega

theorem Segments.active_modify (s : Segments) (kind : SegmentKind) (f : Segment → Segment) :
    (s.modify kind f).active = s.active := by
  cases kind <;> rfl

namespace Assembler

/-! ## Places -/

/-- Every cursor stands at its place, which is inside the range of its segment or right
behind it, and the steps `xs` take it no further than that. -/
structure Tracks (l : Layout) (xs : List Step) (place : SegmentKind → Nat) (a : Assembler) :
    Prop where
  cursor : ∀ k, a.cursorOf k = UInt32.ofNat (place k)
  first : ∀ k, (l.segmentRange k).first.toNat ≤ place k
  room : ∀ k, place k + travelled k xs a ≤ (l.segmentRange k).last.toNat + 1

section

variable {l : Layout} {xs ys : List Step} {place : SegmentKind → Nat} {a : Assembler}

theorem Tracks.step {x : Step} (h : Tracks l (x :: xs) place a) :
    Tracks l xs (fun k => place k + a.moved x k) (a.step x) := by
  refine ⟨fun k => ?_, fun k => ?_, fun k => ?_⟩
  · exact cursorOf_step (h.cursor k)
  · exact Nat.le_add_right_of_le (h.first k)
  · have hroom := h.room k
    rw [travelled] at hroom
    omega

theorem Tracks.stepAll (h : Tracks l (xs ++ ys) place a) :
    ∃ place', Tracks l ys place' (a.stepAll xs) := by
  induction xs generalizing a place with
  | nil => exact ⟨place, h⟩
  | cons x rest ih => exact ih h.step

theorem Tracks.le (h : Tracks l xs place a) (k : SegmentKind) :
    place k ≤ (l.segmentRange k).last.toNat + 1 ∧ place k ≤ 4294967296 := by
  have hroom := h.room k
  have hlast := (l.segmentRange k).last.toNat_lt
  omega

/-- A cursor that is not at the very end of memory is the same number as its place. -/
theorem Tracks.toNat (h : Tracks l xs place a) {k : SegmentKind} (hk : place k < 4294967296) :
    (a.cursorOf k).toNat = place k := by
  rw [h.cursor k, UInt32.toNat_ofNat']
  exact Nat.mod_eq_of_lt hk

end

theorem tracks_start {settings : AssemblerSettings} {ms : MemorySettings} {xs : List Step}
    (hroom : ∀ k,
      (ms.layout.segmentRange k).first.toNat + travelled k xs (start settings (.ofSettings ms)) ≤
        (ms.layout.segmentRange k).last.toNat + 1) :
    Tracks ms.layout xs (fun k => (ms.layout.segmentRange k).first.toNat)
      (start settings (.ofSettings ms)) :=
  ⟨cursorOf_start settings ms, fun _ => Nat.le_refl _, hroom⟩

/-! ## Labels that wait and labels that are settled -/

section

variable {l : Layout} {place : SegmentKind → Nat} {a : Assembler} {x : Action} {steps : List Step}

theorem active_act (hx : x.InPlace) (h : (a.act x).Clean) :
    (a.act x).segments.active = a.segments.active := by
  rw [(act_effect h).segments]
  cases x with
  | activate kind => cases hx
  | moveTo address => cases hx
  | external token size => cases hx
  | autoAlign power =>
    rw [movedSegments]
    split_ifs
    · exact Segments.active_modify _ _ _
    · rfl
  | label token => rfl
  | stopAligning => rfl
  | global token => rfl
  | report d => rfl
  | _ => exact Segments.active_modify _ _ _

theorem cursor_act (hx : x.InPlace) (h : (a.act x).Clean) :
    (a.act x).segments.cursor = (a.step (.act x)).cursorOf a.segments.active := by
  rw [Segments.cursor, active_act hx h]
  rfl

/-- A label that the cursor of its segment has left behind is in no padding. -/
theorem not_skipped (hapart : l.SegmentsApart) (h : Tracks l (.act x :: steps) place a)
    (hx : x.InPlace) (hclean : (a.act x).Clean) {k : SegmentKind} {address : Address}
    (hinside : (l.segmentRange k).contains address = true) (hbehind : address.toNat < place k) :
    ¬ (a.segments.cursor ≤ address ∧ address < (a.act x).segments.cursor) := by
  intro ⟨hle, hlt⟩
  rw [cursor_act hx hclean, UInt32.lt_iff_toNat_lt, h.step.cursor, UInt32.toNat_ofNat'] at hlt
  obtain ⟨hend, htop⟩ := h.step.le a.segments.active
  -- At the end of memory the new cursor would be zero.
  have hnext : place a.segments.active + a.moved (.act x) a.segments.active < 4294967296 := by
    omega
  rw [Nat.mod_eq_of_lt hnext] at hlt
  have hcursor : (a.cursorOf a.segments.active).toNat = place a.segments.active :=
    h.toNat (by omega)
  have hplace : place a.segments.active ≤ address.toNat := by
    rw [← hcursor]
    exact UInt32.le_iff_toNat_le.mp hle
  by_cases hk : k = a.segments.active
  · rw [hk] at hbehind
    omega
  · have houtside := hapart k a.segments.active address hk hinside
    have hfirst := h.first a.segments.active
    rw [AddressRange.contains_iff.mpr ⟨by omega, by omega⟩] at houtside
    cases houtside

theorem carry_settled (hapart : l.SegmentsApart) (h : Tracks l (.act x :: steps) place a)
    (hclean : (a.act x).Clean) {k : SegmentKind} {address : Address}
    (hinside : (l.segmentRange k).contains address = true) (hbehind : address.toNat < place k) :
    a.carry x address = address := by
  cases x with
  | align power => exact if_neg (not_skipped hapart h trivial hclean hinside hbehind)
  | autoAlign power => exact if_neg (not_skipped hapart h trivial hclean hinside hbehind)
  | _ => rfl

theorem carryAll_settled (hapart : l.SegmentsApart) {xs : List Action}
    (h : Tracks l (xs.map Step.act ++ steps) place a) (hclean : (a.actAll xs).Clean)
    {k : SegmentKind} {address : Address} (hinside : (l.segmentRange k).contains address = true)
    (hbehind : address.toNat < place k) : carryAll xs a address = address := by
  induction xs generalizing a place with
  | nil => rfl
  | cons x rest ih =>
    rw [carryAll, carry_settled hapart h (clean_of_actAll hclean) hinside hbehind]
    exact ih h.step hclean (Nat.lt_add_right _ hbehind)

/-- An action leaves the cursor where it is and has nothing to put there. -/
def Idle (a : Assembler) (x : Action) : Prop :=
  a.itemSpans (.act x) = [] ∧ (∀ address, a.carry x address = address) ∧
    (a.act x).segments.cursor = a.segments.cursor

/-- An action puts something at the cursor, which moves on. -/
def Puts (a : Assembler) (x : Action) : Prop :=
  (∃ z spans, a.itemSpans (.act x) = z :: spans ∧ z.address = a.segments.cursor) ∧
    (∀ address, a.carry x address = address) ∧ 0 < a.moved (.act x) a.segments.active

theorem idle_or_puts {n : Word} {length : Nat} {spans : List Span}
    (hsegments : (a.act x).segments = a.segments.advance n)
    (hcarry : ∀ address, a.carry x address = address)
    (hspans : a.itemSpans (.act x) =
      if n = 0 then [] else ⟨a.segments.active, a.segments.cursor, length⟩ :: spans) :
    Idle a x ∨ Puts a x := by
  by_cases hn : n = 0
  · rw [if_pos hn] at hspans
    refine .inl ⟨hspans, hcarry, ?_⟩
    rw [hsegments, hn, Segments.cursor, Segments.advance, Segments.active_modify,
      Segments.get_modify, if_pos rfl]
    exact UInt32.add_zero _
  · rw [if_neg hn] at hspans
    refine .inr ⟨⟨_, spans, hspans, rfl⟩, hcarry, ?_⟩
    rw [moved_modify hsegments]
    have hzero : n.toNat ≠ 0 := fun hzero => hn (UInt32.toNat_inj.mp hzero)
    omega

theorem itemSpans_statement (a : Assembler) {s : ParsedStatement}
    (hs : s.instruction ∈ Instruction.all) :
    ∃ spans, a.itemSpans (.act (.statement s)) =
      ⟨a.segments.active, a.segments.cursor, 4⟩ :: spans := by
  have hsize : s.size = 4 * (s.size / 4) := s.instruction.size_eq
  have hpos : 0 < s.size := (s.instruction.size_of_mem hs).1
  obtain ⟨n, hn⟩ : ∃ n, s.size / 4 = n + 1 := ⟨s.size / 4 - 1, by omega⟩
  have hfirst : a.segments.cursor + 4 * UInt32.ofNat 0 = a.segments.cursor := UInt32.add_zero _
  rw [itemSpans, hn, wordsFrom, List.range_succ_eq_map, List.map_cons, List.map_cons, hfirst]
  exact ⟨_, rfl⟩

/-- What an action in place can do: nothing, put something at the cursor, or align it. -/
theorem inPlace_cases (hx : x.InPlace) (hclean : (a.act x).Clean) :
    Idle a x ∨ Puts a x ∨ ∃ power, x = .align power ∨ x = .autoAlign power := by
  have hsegments := (act_effect hclean).segments
  have hidle : (a.act x).segments.cursor = a.segments.cursor → a.itemSpans (.act x) = [] →
      (∀ address, a.carry x address = address) →
      Idle a x ∨ Puts a x ∨ ∃ power, x = .align power ∨ x = .autoAlign power :=
    fun hcursor hnone hcarry => .inl ⟨hnone, hcarry, hcursor⟩
  cases x with
  | label token => exact hidle (congrArg Segments.cursor hsegments) rfl fun _ => rfl
  | statement s =>
    obtain ⟨spans, hspans⟩ := itemSpans_statement a hx
    have hsome : UInt32.ofNat s.size ≠ 0 := by
      obtain ⟨hpos, hsmall⟩ := s.instruction.size_of_mem hx
      intro hzero
      have hsize : s.instruction.size % 4294967296 = 0 := congrArg UInt32.toNat hzero
      omega
    exact or_assoc.mp (.inl (idle_or_puts hsegments (fun _ => rfl)
      (hspans.trans (if_neg hsome).symm)))
  | align power => exact .inr (.inr ⟨power, .inl rfl⟩)
  | autoAlign power => exact .inr (.inr ⟨power, .inr rfl⟩)
  | stopAligning =>
    exact hidle (by rw [hsegments]; cases a.segments.active <;> rfl) rfl fun _ => rfl
  | integer location value width =>
    cases width <;> exact or_assoc.mp (.inl (idle_or_puts hsegments (fun _ => rfl) rfl))
  | reference token width =>
    cases width <;> exact or_assoc.mp (.inl (idle_or_puts hsegments (fun _ => rfl) rfl))
  | double location bits =>
    exact or_assoc.mp (.inl (idle_or_puts hsegments (fun _ => rfl) rfl))
  | reserve size => exact or_assoc.mp (.inl (idle_or_puts hsegments (fun _ => rfl) rfl))
  | global token => exact hidle (congrArg Segments.cursor hsegments) rfl fun _ => rfl
  | report d => exact hidle (congrArg Segments.cursor hsegments) rfl fun _ => rfl
  | activate kind => cases hx
  | moveTo address => cases hx
  | external token size => cases hx

/-- Alignment takes a label at the cursor along. -/
theorem carry_aligned (h : Tracks l (.act x :: steps) place a) (hx : x.InPlace)
    (hclean : (a.act x).Clean)
    (hroom : place a.segments.active + a.moved (.act x) a.segments.active < 4294967296) :
    (if a.segments.cursor ≤ a.segments.cursor ∧ a.segments.cursor < (a.act x).segments.cursor then
      (a.act x).segments.cursor else a.segments.cursor) = (a.act x).segments.cursor := by
  split_ifs with hbelow
  · rfl
  · have hnew : ((a.step (.act x)).cursorOf a.segments.active).toNat =
        place a.segments.active + a.moved (.act x) a.segments.active := h.step.toNat hroom
    have hold : a.segments.cursor.toNat = place a.segments.active := h.toNat (by omega)
    rw [← cursor_act hx hclean] at hnew
    -- The place of the cursor has not gone down, and the cursor has not gone up.
    have hnot : ¬ a.segments.cursor < (a.act x).segments.cursor :=
      fun hlt => hbelow ⟨UInt32.le_refl _, hlt⟩
    rw [UInt32.lt_iff_toNat_lt] at hnot
    exact UInt32.toNat_inj.mp (by omega)

/-- A label at the cursor comes to be the address of the first thing put there, and stays
that. -/
theorem carryAll_cursor (hapart : l.SegmentsApart) {xs ys : List Action}
    (h : Tracks l ((xs ++ ys).map Step.act ++ steps) place a) (hxs : ∀ x ∈ xs, x.InPlace)
    (hclean : (a.actAll (xs ++ ys)).Clean) {z : Span} {spans : List Span}
    (hspans : collect itemSpans (xs.map Step.act) a = z :: spans) :
    place a.segments.active < 4294967296 ∧
      carryAll (xs ++ ys) a a.segments.cursor = z.address := by
  induction xs generalizing a place with
  | nil => cases hspans
  | cons x rest ih =>
    obtain ⟨hx, hrest⟩ := List.forall_mem_cons.mp hxs
    have hone : (a.act x).Clean := clean_of_actAll hclean
    rw [List.map_cons, collect] at hspans
    rw [List.cons_append, carryAll]
    -- With nothing put there yet, the label is where the cursor is after the action.
    have hwaits : a.itemSpans (.act x) = [] →
        (place a.segments.active + a.moved (.act x) a.segments.active < 4294967296 →
          a.carry x a.segments.cursor = (a.act x).segments.cursor) →
        place a.segments.active < 4294967296 ∧
          carryAll (rest ++ ys) (a.act x) (a.carry x a.segments.cursor) = z.address := by
      intro hnone hcarry
      rw [hnone, List.nil_append] at hspans
      obtain ⟨hroom, hcarried⟩ := ih h.step hrest hclean hspans
      have hactive : (a.step (.act x)).segments.active = a.segments.active := active_act hx hone
      rw [hactive] at hroom
      rw [hcarry hroom]
      exact ⟨Nat.lt_of_le_of_lt (Nat.le_add_right _ _) hroom, hcarried⟩
    rcases inPlace_cases hx hone with ⟨hnone, hcarry, hcursor⟩ | ⟨⟨z', more, hsome, haddress⟩,
      hcarry, hmoved⟩ | ⟨power, rfl | rfl⟩
    · exact hwaits hnone fun _ => (hcarry _).trans hcursor.symm
    · rw [hsome] at hspans
      obtain ⟨rfl, -⟩ := List.cons.inj hspans
      obtain ⟨hend, htop⟩ := h.step.le a.segments.active
      have hplace : place a.segments.active < 4294967296 := by omega
      have hcursor : a.segments.cursor.toNat = place a.segments.active := h.toNat hplace
      have hfirst := h.first a.segments.active
      rw [hcarry, haddress]
      refine ⟨hplace, carryAll_settled hapart h.step hclean (k := a.segments.active) ?_ ?_⟩
      · exact AddressRange.contains_iff.mpr ⟨by omega, by omega⟩
      · omega
    · exact hwaits rfl (carry_aligned h hx hone)
    · exact hwaits rfl (carry_aligned h hx hone)

end

/-! ## Where a label is kept -/

theorem declared_finds {a : Assembler} {x : Action} {name : String}
    (h : DeclaresGlobal name [x] ∨ ∃ token ∈ a.pendingGlobals, token.literal = name) :
    ∃ token ∈ a.declared x, token.literal = name := by
  have hkept : ∀ token ∈ a.pendingGlobals, token ∈ a.declared x := by
    intro token htoken
    cases x with
    | global declared =>
      rw [Assembler.declared]
      split_ifs
      · exact htoken
      · exact List.mem_append_left _ htoken
    | _ => exact htoken
  rcases h with ⟨token, htoken, hname⟩ | ⟨token, htoken, hname⟩
  · cases List.mem_singleton.mp htoken
    rw [declared]
    split_ifs with hany
    · obtain ⟨other, hother, hsame⟩ := List.any_eq_true.mp hany
      exact ⟨other, hother, (beq_iff_eq.mp hsame).trans hname⟩
    · exact ⟨token, List.mem_append_right _ List.mem_cons_self, hname⟩
  · exact ⟨token, hkept token htoken, hname⟩

/-- A name that is declared global waits to be made so. -/
theorem pendingGlobals_finds {xs : List Action} {a : Assembler} (h : (a.actAll xs).Clean)
    {name : String}
    (hname : DeclaresGlobal name xs ∨ ∃ token ∈ a.pendingGlobals, token.literal = name) :
    ∃ token ∈ (a.actAll xs).pendingGlobals, token.literal = name := by
  induction xs generalizing a with
  | nil =>
    rcases hname with ⟨token, hnone, -⟩ | hpending
    · exact absurd hnone List.not_mem_nil
    · exact hpending
  | cons x rest ih =>
    have hone := (act_effect (clean_of_actAll h)).pendingGlobals
    rcases hname with ⟨token, htoken, hname⟩ | hpending
    · rcases List.mem_cons.mp htoken with rfl | hlater
      · refine ih h (.inr ?_)
        rw [hone]
        exact declared_finds (.inl ⟨token, List.mem_cons_self, hname⟩)
      · exact ih h (.inl ⟨token, hlater, hname⟩)
    · refine ih h (.inr ?_)
      rw [hone]
      exact declared_finds (.inr hpending)

/-- Of the labels of a table, those that are made global go over, and the others stay. -/
theorem foldl_promote_finds {tokens : List Token} {a : Assembler} {t : SymbolTable} (ht : Open t a)
    (h : (tokens.foldl promote a).Clean) {name : String} {s : Symbol}
    (hs : t.lookup? name = some s) :
    ((∃ token ∈ tokens, token.literal = name) →
      (tokens.foldl promote a).globals.lookup? name = some s) ∧
    ((∀ token ∈ tokens, token.literal ≠ name) →
      (tokens.foldl promote a).currentTable?.bind (·.lookup? name) = some s) := by
  induction tokens generalizing a t with
  | nil =>
    refine ⟨fun ⟨token, hnone, _⟩ => absurd hnone List.not_mem_nil, fun _ => ?_⟩
    rw [List.foldl_nil, ht.table]
    exact hs
  | cons token rest ih =>
    have hone : (a.promote token).Clean := clean_of_foldl_promote h
    obtain ⟨-, ⟨t₁, ht₁, -⟩, -⟩ := promote_scope ht hone
    rcases promote_cases hone with ⟨hnone, -⟩ |
      ⟨t₂, t', symbol, globals, ht₂, -, hremove, hdefine, heq⟩
    · rw [ht.table] at hnone
      cases hnone
    rw [ht.table] at ht₂
    cases ht₂
    have htable : t₁ = t' := by
      have hcurrent : (a.promote token).currentTable? = some t' := by
        rw [heq]
        exact currentTable?_setCurrentTable a t'
      rw [ht₁.table] at hcurrent
      exact Option.some.inj hcurrent
    obtain ⟨hsymbol, hlookup⟩ := SymbolTable.lookup?_remove? hremove name
    by_cases hname : token.literal = name
    · refine ⟨fun _ => ?_, fun hothers => absurd hname (hothers token List.mem_cons_self)⟩
      have hglobal : (a.promote token).globals.lookup? name = some s := by
        rw [heq, (SymbolTable.lookup?_define hdefine name).2, ht.indexed.identifier hsymbol,
          if_pos hname.symm]
        rw [hname] at hsymbol
        exact hsymbol.symm.trans hs
      exact (foldl_promote_scope ht₁ h).1.globals hglobal
    · have hstays : t₁.lookup? name = some s := by
        rw [htable, hlookup, if_neg (Ne.symm hname)]
        exact hs
      obtain ⟨hgoes, hkept⟩ := ih ht₁ h hstays
      refine ⟨fun ⟨other, hother, hsame⟩ => hgoes ⟨other, ?_, hsame⟩, fun hothers =>
        hkept fun other hother => hothers other (List.mem_cons_of_mem token hother)⟩
      rcases List.mem_cons.mp hother with rfl | hlater
      · exact absurd hsame hname
      · exact hlater

/-- The symbol that a label of `f` has: in the global table if `f` declares it global, and
in the table of `f` otherwise. -/
def HasLabel (a : Assembler) (f : SourceFile) (name : String) (symbol : Symbol) : Prop :=
  DeclaresGlobal name f.actions ∧ a.globals.lookup? name = some symbol ∨
    ¬ DeclaresGlobal name f.actions ∧
      (a.locals[f.name]?).bind (·.lookup? name) = some symbol

theorem hasLabel_closeFile {a : Assembler} {f : SourceFile} {t : SymbolTable}
    (ht : Open t ((a.openFile f.name).actAll f.actions))
    (h : (((a.openFile f.name).actAll f.actions).step .closeFile).Clean) {name : String}
    {s : Symbol} (hs : t.lookup? name = some s) :
    HasLabel (((a.openFile f.name).actAll f.actions).step .closeFile) f name s := by
  have hbody := clean_of_step h
  have hopen : Open t { (a.openFile f.name).actAll f.actions with pendingGlobals := [] } :=
    ⟨ht.table, ht.indexed⟩
  obtain ⟨hgoes, hkept⟩ := foldl_promote_finds hopen (clean_of_finishFile h) hs
  by_cases hdeclares : DeclaresGlobal name f.actions
  · exact .inl ⟨hdeclares, hgoes (pendingGlobals_finds hbody (.inl hdeclares))⟩
  · have hfile : (((a.openFile f.name).actAll f.actions).step .closeFile).currentFile = f.name :=
      (closeFile_scope ht h).1.file.trans
        (actAll_scope (open_openFile a f.name) hbody).1.file
    have hothers : ∀ token ∈ ((a.openFile f.name).actAll f.actions).pendingGlobals,
        token.literal ≠ name := by
      intro token htoken hname
      rcases pendingGlobals_actAll hbody htoken with hold | hdeclared
      · exact absurd hold List.not_mem_nil
      · exact hdeclares ⟨token, hdeclared, hname⟩
    have hcurrent : (((a.openFile f.name).actAll f.actions).step .closeFile).currentTable?.bind
        (·.lookup? name) = some s := hkept hothers
    rw [currentTable?, hfile] at hcurrent
    exact .inr ⟨hdeclares, hcurrent⟩

theorem HasLabel.files {a : Assembler} {f : SourceFile} {name : String} {s : Symbol}
    (h : HasLabel a f name s) {files : List SourceFile} (hnames : ∀ g ∈ files, g.name ≠ f.name)
    (hclean : (a.stepAll (files.flatMap SourceFile.steps)).Clean) :
    HasLabel (a.stepAll (files.flatMap SourceFile.steps)) f name s := by
  have hkeeps := keepsFile_files hnames hclean
  rcases h with ⟨hdeclares, hglobal⟩ | ⟨hdeclares, hlocal⟩
  · exact .inl ⟨hdeclares, hkeeps.globals hglobal⟩
  · refine .inr ⟨hdeclares, ?_⟩
    rw [hkeeps.locals]
    exact hlocal

theorem act_label_scope {a : Assembler} {t : SymbolTable} (ht : Open t a) {token : Token}
    (h : (a.act (.label token)).Clean) :
    ∃ t', Open t' (a.act (.label token)) ∧ t'.lookup? token.literal =
      some ⟨token.literal, a.segments.cursor, a.segments.active.isData⟩ := by
  obtain ⟨-, t', ht', hcarried⟩ := act_scope ht h
  refine ⟨t', ht', ?_⟩
  rw [act] at h
  rcases defineLabel_cases h with ⟨hnone, -⟩ | ⟨t₁, t₂, ht₁, hdefine, -⟩
  · rw [ht.table] at hnone
    cases hnone
  · rw [ht.table] at ht₁
    cases ht₁
    have hnew : t.lookup? token.literal = none := (SymbolTable.lookup?_define hdefine "").1
    rw [hcarried, hnew, entered?, if_pos rfl]
    rfl

/-- A label of a program is kept at the address it was carried to. -/
theorem hasLabel_programSteps {sources : List (String × String)} {files₁ files₂ : List SourceFile}
    {f : SourceFile} (hfiles : sourceFiles sources = files₁ ++ f :: files₂)
    (hnames : ∀ g ∈ files₂, g.name ≠ f.name) {xs ys : List Action} {token : Token}
    (hactions : f.actions = xs ++ .label token :: ys) {a : Assembler}
    (h : (a.stepAll (programSteps sources)).Clean) :
    let here := (a.opening files₁ f).actAll xs
    HasLabel (a.stepAll (programSteps sources)) f token.literal
      ⟨token.literal, carryAll ys (here.act (.label token)) here.segments.cursor,
        here.segments.active.isData⟩ := by
  intro here
  rw [stepAll_programSteps hfiles, stepAll_steps] at h ⊢
  refine HasLabel.files ?_ hnames h
  have hclose := clean_of_stepAll h
  have hbody := clean_of_step hclose
  have hend : (a.opening files₁ f).actAll f.actions = (here.act (.label token)).actAll ys := by
    rw [hactions, actAll_append, actAll_cons]
  have hclean : ((here.act (.label token)).actAll ys).Clean := by
    rw [← hend]
    exact hbody
  obtain ⟨-, t, ht, -⟩ :=
    actAll_scope (open_openFile _ f.name) (clean_of_act (clean_of_actAll hclean))
  obtain ⟨t₁, ht₁, hlabel⟩ := act_label_scope ht (clean_of_actAll hclean)
  obtain ⟨-, t₂, ht₂, hcarried⟩ := actAll_scope ht₁ hclean
  refine hasLabel_closeFile (t := t₂) ?_ hclose ?_
  · show Open t₂ ((a.opening files₁ f).actAll f.actions)
    rw [hend]
    exact ht₂
  · rw [hcarried, hlabel]
    rfl

end Assembler

/-! ## Items -/

/-- Labels and alignments, which put nothing at the cursor. -/
def Item.Outcome.keepsPlace : Item.Outcome → Bool
  | .item (.label _) => true
  | .item (.directive .align _ _) => true
  | _ => false

/-- Statements and the directives that hold data. -/
def Item.isPlaced : Item → Bool
  | .statement _ => true
  | .directive d _ _ => d.isData
  | .label _ => false

theorem Item.Outcome.inPlace_actions {o : Item.Outcome} (ho : o.keepsPlace = true) {x : Action}
    (hx : x ∈ o.actions) : x.InPlace ∧ ∀ a : Assembler, a.itemSpans (.act x) = [] := by
  cases o with
  | problem d => cases ho
  | item i =>
    cases i with
    | statement s => cases ho
    | label token =>
      rw [List.mem_singleton.mp hx]
      exact ⟨trivial, fun _ => rfl⟩
    | directive d token content =>
      cases d with
      | align =>
        have hx' : x ∈ Directive.alignActions content := hx
        rw [Directive.alignActions] at hx'
        split at hx'
        iterate 4
          · rw [List.mem_singleton.mp hx']
            exact ⟨trivial, fun _ => rfl⟩
        · exact absurd hx' List.not_mem_nil
      | _ => cases ho

theorem Item.inPlace_of_isPlaced {f : SourceFile} {i : Item} (hi : .item i ∈ Item.ofFile f)
    (hplaced : i.isPlaced = true) {x : Action} (hx : x ∈ i.actions) : x.InPlace := by
  cases i with
  | label token => cases hplaced
  | directive d token content => exact Directive.inPlace_actions hplaced hx
  | statement s =>
    rw [List.mem_singleton.mp hx]
    exact Item.known_of_statement hi

namespace Assembler

theorem collect_itemSpans_eq_nil {xs : List Action}
    (hxs : ∀ x ∈ xs, ∀ a : Assembler, a.itemSpans (.act x) = []) (a : Assembler) :
    collect itemSpans (xs.map Step.act) a = [] := by
  induction xs generalizing a with
  | nil => rfl
  | cons x rest ih =>
    obtain ⟨hx, hrest⟩ := List.forall_mem_cons.mp hxs
    rw [List.map_cons, collect, hx, ih hrest]
    rfl

section

variable {settings : AssemblerSettings} {ms : MemorySettings} {sources : List (String × String)}
  {a : Assembler} {files₁ files₂ : List SourceFile} {f : SourceFile}
  {before between after : List Item.Outcome} {token : Token} {i : Item}

theorem actions_around_label
    (hitems : Item.ofFile f =
      before ++ .item (.label token) :: (between ++ .item i :: after)) :
    f.actions = before.flatMap Item.Outcome.actions ++ .label token ::
      ((between.flatMap Item.Outcome.actions ++ i.actions) ++
        after.flatMap Item.Outcome.actions) := by
  simp [SourceFile.actions, hitems, Item.Outcome.actions, Item.actions]

theorem tracks_label (hfiles : sourceFiles sources = files₁ ++ f :: files₂) {xs ys : List Action}
    (hactions : f.actions = xs ++ .label token :: ys)
    (hroom : ∀ k, (ms.layout.segmentRange k).first.toNat +
      travelled k (programSteps sources) (start settings (.ofSettings ms)) ≤
        (ms.layout.segmentRange k).last.toNat + 1) :
    ∃ place, Tracks ms.layout (stepsFrom ys files₂) place
      ((((start settings (.ofSettings ms)).opening files₁ f).actAll xs).act (.label token)) := by
  have hsteps : programSteps sources =
      (files₁.flatMap SourceFile.steps ++
        .openFile f.name :: (xs ++ [Action.label token]).map .act) ++ stepsFrom ys files₂ := by
    simp [programSteps, hfiles, SourceFile.steps, hactions, stepsFrom]
  have htracks := tracks_start hroom
  rw [hsteps] at htracks
  obtain ⟨place, hplace⟩ := htracks.stepAll
  rw [stepAll_append, stepAll_cons, stepAll_map_act, actAll_append] at hplace
  exact ⟨place, hplace⟩

/-- Where a label is carried to from the state `here` in which it is read, if what follows
it begins with the span `z`. -/
theorem carryAll_label
    (hclean : ((start settings (.ofSettings ms)).stepAll (programSteps sources)).Clean)
    (hapart : ms.layout.SegmentsApart)
    (hroom : ∀ k, (ms.layout.segmentRange k).first.toNat +
      travelled k (programSteps sources) (start settings (.ofSettings ms)) ≤
        (ms.layout.segmentRange k).last.toNat + 1)
    (hfiles : sourceFiles sources = files₁ ++ f :: files₂) {xs ys zs ws : List Action}
    (hactions : f.actions = xs ++ .label token :: ((ys ++ zs) ++ ws))
    (hys : ∀ y ∈ ys, y.InPlace ∧ ∀ b : Assembler, b.itemSpans (.act y) = [])
    (hzs : ∀ x ∈ zs, x.InPlace) {z : Span} {spans : List Span} :
    let here := ((start settings (.ofSettings ms)).opening files₁ f).actAll xs
    collect itemSpans (zs.map Step.act) ((here.act (.label token)).actAll ys) = z :: spans →
    carryAll ((ys ++ zs) ++ ws) (here.act (.label token)) here.segments.cursor = z.address := by
  intro here hspans
  have hbody : ((here.act (.label token)).actAll ((ys ++ zs) ++ ws)).Clean := by
    rw [stepAll_programSteps_act hfiles hactions, stepAll_stepsFrom] at hclean
    exact clean_of_step (clean_of_stepAll hclean)
  have hcursor : (here.act (.label token)).segments.cursor = here.segments.cursor :=
    congrArg Segments.cursor (act_effect (clean_of_actAll hbody)).segments
  have hinPlace : ∀ x ∈ ys ++ zs, x.InPlace :=
    List.forall_mem_append.mpr ⟨fun y hy => (hys y hy).1, hzs⟩
  have hfirst : collect itemSpans ((ys ++ zs).map Step.act) (here.act (.label token)) =
      z :: spans := by
    rw [List.map_append, collect_append, stepAll_map_act,
      collect_itemSpans_eq_nil fun y hy => (hys y hy).2]
    exact hspans
  obtain ⟨place, htracks⟩ := tracks_label hfiles hactions hroom
  obtain ⟨-, hcarried⟩ := carryAll_cursor hapart htracks hinPlace hbody hfirst
  rw [← hcursor]
  exact hcarried

/-- Labels name what follows them.  If every segment keeps to its range, a label that has
only labels and alignments between it and a statement, or a directive that puts data there,
ends up at the first byte of that. -/
theorem assembleSources_labels
    (h : (start settings (.ofSettings ms)).assembleSources sources = (none, a))
    (hnames : (sources.map Prod.fst).Nodup) (hapart : ms.layout.SegmentsApart)
    (hroom : ∀ k, (ms.layout.segmentRange k).first.toNat +
      travelled k (programSteps sources) (start settings (.ofSettings ms)) ≤
        (ms.layout.segmentRange k).last.toNat + 1)
    (hfiles : sourceFiles sources = files₁ ++ f :: files₂)
    (hitems : Item.ofFile f =
      before ++ .item (.label token) :: (between ++ .item i :: after))
    (hbetween : ∀ o ∈ between, o.keepsPlace = true) (hplaced : i.isPlaced = true) :
    let here := ((start settings (.ofSettings ms)).opening files₁ f).actAll
      ((before ++ .item (.label token) :: between).flatMap Item.Outcome.actions)
    let spans := collect itemSpans (i.actions.map Step.act) here
    (∀ s, i = .statement s → a.parsed[here.segments.cursor]? = some s ∧
      ∃ rest, spans = ⟨here.segments.active, here.segments.cursor, 4⟩ :: rest) ∧
    ∀ z ∈ spans.head?, ∃ symbol,
      a.HasLabel f token.literal symbol ∧ symbol.address = z.address := by
  intro here spans
  obtain ⟨hclean, hparsed, hglobals, hlocals⟩ := assembleSources_tables h
  have hall := clean_of_finishAll hclean
  have hi : .item i ∈ Item.ofFile f := by
    rw [hitems]
    simp
  constructor
  · intro s hs
    subst hs
    have hsplit : Item.ofFile f =
        (before ++ .item (.label token) :: between) ++ .item (.statement s) :: after := by
      rw [hitems]
      simp
    obtain ⟨rest, hspans⟩ := itemSpans_statement here (Item.known_of_statement hi)
    refine ⟨?_, rest, ?_⟩
    · rw [hparsed]
      exact parsed_programSteps hfiles hsplit hall
    · show here.itemSpans (.act (.statement s)) ++ [] = _
      rw [List.append_nil, hspans]
  · intro z hz
    obtain ⟨rest, hspans⟩ := List.head?_eq_some_iff.mp hz
    have hactions := actions_around_label hitems
    have hquiet : ∀ x ∈ between.flatMap Item.Outcome.actions,
        x.InPlace ∧ ∀ b : Assembler, b.itemSpans (.act x) = [] := by
      intro x hx
      obtain ⟨o, ho, hmem⟩ := List.mem_flatMap.mp hx
      exact Item.Outcome.inPlace_actions (hbetween o ho) hmem
    let label := ((start settings (.ofSettings ms)).opening files₁ f).actAll
      (before.flatMap Item.Outcome.actions)
    have hfirst : collect itemSpans (i.actions.map Step.act)
        ((label.act (.label token)).actAll (between.flatMap Item.Outcome.actions)) = z :: rest := by
      rw [← hspans]
      show _ = collect itemSpans _ (actAll _ _)
      rw [List.flatMap_append, List.flatMap_cons, actAll_append, actAll_append]
      rfl
    have hkept := hasLabel_programSteps hfiles (names_after hnames hfiles) hactions hall
    rw [HasLabel, ← hglobals, ← hlocals] at hkept
    exact ⟨_, hkept, carryAll_label hall hapart hroom hfiles hactions hquiet
      (fun x hx => Item.inPlace_of_isPlaced hi hplaced hx) hfirst⟩

set_option maxRecDepth 10000 in
/-- Three labels and an alignment before a word.  The first label is global, and it is
found where the word is and not where it was written. -/
theorem assembleSources_labels_aligned :
    let ms : MemorySettings := ⟨LayoutPreset.standard.layout, .little, false⟩
    let text :=
      ".globl x\n.data\n.byte 1\nx: y:\n.align 3\nz: .word 5\n.byte 6\n.align 2\n.text\nnop\n"
    let sources := [("labels.s", text)]
    let run := (start ⟨none, false⟩ (.ofSettings ms)).assembleSources sources
    run.1 = none ∧
      ∃ symbol, run.2.globals.lookup? "x" = some symbol ∧ symbol.address = 0x10010008 := by
  intro ms text sources run
  let fresh := start ⟨none, false⟩ (.ofSettings ms)
  let f := (SourceFile.ofText "labels.s" text).1
  let items := Item.ofFile f
  let token : Token := ⟨.identifier, "x", ⟨"labels.s", 4, 1⟩⟩
  let datum : Item := .directive .word ⟨.directive, ".word", ⟨"labels.s", 6, 4⟩⟩
    [⟨.integer 5, "5", ⟨"labels.s", 6, 10⟩⟩]
  obtain ⟨hrun, hitems, hbetween, hglobal, hroom, hfirst⟩ : run.1 = none ∧
      items = items.take 3 ++ .item (.label token) ::
        ((items.drop 4).take 3 ++ .item datum :: items.drop 8) ∧
      (∀ o ∈ (items.drop 4).take 3, o.keepsPlace = true) ∧
      .global ⟨.identifier, "x", ⟨"labels.s", 1, 8⟩⟩ ∈ f.actions ∧
      (∀ k ∈ SegmentKind.all, (ms.layout.segmentRange k).first.toNat +
        travelled k (programSteps sources) fresh ≤ (ms.layout.segmentRange k).last.toNat + 1) ∧
      (collect itemSpans (datum.actions.map Step.act) ((fresh.opening [] f).actAll
        ((items.take 3 ++ .item (.label token) :: (items.drop 4).take 3).flatMap
          Item.Outcome.actions))).head? = some ⟨.data, 0x10010008, 4⟩ := by
    decide +kernel
  have hfiles : sourceFiles sources = [] ++ f :: [] := rfl
  obtain ⟨-, hlabels⟩ := assembleSources_labels (eq_of_fst_eq_none hrun) (by simp [sources])
    LayoutPreset.standard.segmentsApart (fun k => hroom k (by cases k <;> decide)) hfiles hitems
    hbetween rfl
  obtain ⟨symbol, hkept, haddress⟩ := hlabels _ hfirst
  refine ⟨hrun, symbol, ?_, haddress⟩
  rcases hkept with ⟨-, hfound⟩ | ⟨hlocal, -⟩
  · exact hfound
  · exact absurd ⟨_, hglobal, rfl⟩ hlocal

end

end Assembler
end MipsImage
