/-
Which label a name stands for.

A source defines labels for itself.  A name in it means the label that the source
defines, or else the global symbol, and a global symbol is a label that some source has
declared so, or external data.  This is how references in data are filled in.  Operands
are resolved later, by the table that is kept under the name of their file, and of
several sources of one name that is the table of the last.
-/
import MipsImage.Proofs.Assembler.Reference
import MipsImage.Proofs.Source.Coverage

namespace MipsImage

open Memory (Width)

/-! ## Where statements come from -/

theorem Lexer.file_of_mem_scan {file : String} {line : Nat} {previous : Option TokenKind}
    {column : Nat} {cs : List Char} {tokens : List Token}
    (h : scan file line previous column cs = .ok tokens) {t : Token} (ht : t ∈ tokens) :
    t.location.file = file := by
  fun_induction scan file line previous column cs generalizing tokens with
  | case1 => cases h; cases ht
  | case2 previous column c tail hfront ih => exact ih h ht
  | case3 => cases h; cases ht
  | case4 => cases h
  | case5 => cases h
  | case6 previous column c tail l hfront rest hrest ih =>
    cases h
    rcases List.mem_cons.mp ht with rfl | hlater
    · rfl
    · exact ih hrest hlater

theorem SourceFile.file_of_mem {name text : String} {line : SourceLine}
    (hline : line ∈ (ofText name text).1.lines) {t : Token} (ht : t ∈ line.tokens) :
    t.location.file = name := by
  simp only [ofText, List.mem_map] at hline
  obtain ⟨read, ⟨⟨text, number⟩, -, rfl⟩, rfl⟩ := hline
  simp only [readLine] at ht
  split at ht
  · rename_i hscan
    exact Lexer.file_of_mem_scan hscan ht
  · cases ht

/-- A statement is located in the file it came from. -/
theorem SourceFile.file_of_statement {sources : List (String × String)} {f : SourceFile}
    (hf : f ∈ sourceFiles sources) {s : ParsedStatement}
    (hs : .item (.statement s) ∈ Item.ofFile f) : s.location.file = f.name := by
  obtain ⟨source, -, rfl⟩ := List.mem_map.mp hf
  obtain ⟨line, hline, t, ht, ts, hparse⟩ := Item.parseStatement_of_mem_parseLines hs
  refine file_of_mem hline ?_
  rw [Item.eq_of_parseStatement hparse]
  exact ht

namespace Assembler

theorem parsed_step {a : Assembler} {x : Step} (h : (a.step x).Clean) {k : Address}
    {s : ParsedStatement} (hs : a.parsed[k]? = some s) : (a.step x).parsed[k]? = some s := by
  cases x with
  | openFile name => exact hs
  | act x =>
    show (a.act x).parsed[k]? = some s
    rw [(act_effect h).parsed]
    cases x with
    | statement s' =>
      obtain ⟨-, hfree, -⟩ := addStatement_cases h
      rw [recorded, getElem?_insert_eq_ite, if_neg]
      · exact hs
      · rintro rfl
        rw [hfree] at hs
        cases hs
    | _ => exact hs
  | closeFile =>
    obtain ⟨locals, globals, heq⟩ := promoteGlobals_eq (clean_of_finishFile h)
    rw [step, heq]
    exact hs

/-- A recorded statement stays recorded. -/
theorem parsed_stepAll {xs : List Step} {a : Assembler} (h : (a.stepAll xs).Clean) {k : Address}
    {s : ParsedStatement} (hs : a.parsed[k]? = some s) : (a.stepAll xs).parsed[k]? = some s := by
  induction xs generalizing a with
  | nil => exact hs
  | cons x rest ih => exact ih h (parsed_step (clean_of_stepAll h) hs)

theorem parsed_act_statement {a : Assembler} {s : ParsedStatement}
    (h : (a.act (.statement s)).Clean) :
    (a.act (.statement s)).parsed[a.segments.cursor]? = some s := by
  rw [(act_effect h).parsed, recorded, getElem?_insert_eq_ite, if_pos rfl]

/-! ## Where global symbols come from -/

theorem pendingGlobals_actAll {xs : List Action} {a : Assembler} (h : (a.actAll xs).Clean)
    {token : Token} (ht : token ∈ (a.actAll xs).pendingGlobals) :
    token ∈ a.pendingGlobals ∨ .global token ∈ xs := by
  induction xs generalizing a with
  | nil => exact .inl ht
  | cons x rest ih =>
    rcases ih h ht with hone | hlater
    · rw [(act_effect (clean_of_actAll h)).pendingGlobals] at hone
      cases x with
      | global declared =>
        rw [Assembler.declared] at hone
        split_ifs at hone
        · exact .inl hone
        · rcases List.mem_append.mp hone with hold | hnew
          · exact .inl hold
          · rw [List.mem_singleton.mp hnew]
            exact .inr List.mem_cons_self
      | _ => exact .inl hone
    · exact .inr (List.mem_cons_of_mem x hlater)

/-- Some action of `xs` reserves external data under this name. -/
def ReservesExternal (name : String) (xs : List Action) : Prop :=
  ∃ token size, .external token size ∈ xs ∧ token.literal = name

/-- Some action of `xs` declares this name global. -/
def DeclaresGlobal (name : String) (xs : List Action) : Prop :=
  ∃ token, .global token ∈ xs ∧ token.literal = name

theorem globals_actAll {xs : List Action} {a : Assembler} (h : (a.actAll xs).Clean) {name : String}
    {s : Symbol} (hs : (a.actAll xs).globals.lookup? name = some s) :
    a.globals.lookup? name = some s ∨ ReservesExternal name xs := by
  induction xs generalizing a with
  | nil => exact .inl hs
  | cons x rest ih =>
    rcases ih h hs with hone | ⟨token, size, hmem, hname⟩
    · rcases (act_effect (clean_of_actAll h)).globals with hsame | ⟨token, size, rfl, hdefine⟩
      · rw [hsame] at hone
        exact .inl hone
      · rw [(SymbolTable.lookup?_define hdefine name).2] at hone
        split_ifs at hone with hname
        · exact .inr ⟨token, size, List.mem_cons_self, hname.symm⟩
        · exact .inl hone
    · exact .inr ⟨token, size, List.mem_cons_of_mem x hmem, hname⟩

theorem globals_foldl_promote {tokens : List Token} {a : Assembler} {t : SymbolTable}
    (ht : Open t a) (h : (tokens.foldl promote a).Clean) {name : String} {s : Symbol}
    (hs : (tokens.foldl promote a).globals.lookup? name = some s) :
    a.globals.lookup? name = some s ∨
      (∃ token ∈ tokens, token.literal = name) ∧ t.lookup? name = some s := by
  induction tokens generalizing a t with
  | nil => exact .inl hs
  | cons token rest ih =>
    have hone : (a.promote token).Clean := clean_of_foldl_promote h
    obtain ⟨-, ⟨t₁, ht₁, hsub⟩, -⟩ := promote_scope ht hone
    rcases ih ht₁ h hs with hfirst | ⟨⟨token', hmem, hname⟩, hlocal⟩
    · rcases promote_cases hone with ⟨hnone, -⟩ |
        ⟨t₂, t', symbol, globals, ht₂, -, hremove, hdefine, heq⟩
      · rw [ht.table] at hnone
        cases hnone
      · rw [ht.table] at ht₂
        cases ht₂
        rw [heq] at hfirst
        obtain ⟨hsymbol, -⟩ := SymbolTable.lookup?_remove? hremove name
        have hglobal := (SymbolTable.lookup?_define hdefine name).2
        rw [ht.indexed.identifier hsymbol] at hglobal
        rw [hglobal] at hfirst
        split_ifs at hfirst with hname
        · cases hfirst
          exact .inr ⟨⟨token, List.mem_cons_self, hname.symm⟩, hname ▸ hsymbol⟩
        · exact .inl hfirst
    · exact .inr ⟨⟨token', List.mem_cons_of_mem token hmem, hname⟩, hsub hlocal⟩

/-- A file makes its own labels global, and only those it declares so. -/
theorem globals_steps {f : SourceFile} {a : Assembler} (h : (a.stepAll f.steps).Clean)
    {name : String} {s : Symbol} (hs : (a.stepAll f.steps).globals.lookup? name = some s) :
    a.globals.lookup? name = some s ∨ ReservesExternal name f.actions ∨
      DeclaresGlobal name f.actions ∧
        defined? name f.actions (a.openFile f.name) = some s := by
  rw [SourceFile.steps, stepAll_cons, stepAll_append, stepAll_map_act] at h hs
  have hbody := clean_of_stepAll h
  obtain ⟨-, t, ht, htable⟩ := actAll_scope (open_openFile a f.name) hbody
  have hopen : Open t { (a.openFile f.name).actAll f.actions with pendingGlobals := [] } :=
    ⟨ht.table, ht.indexed⟩
  rcases globals_foldl_promote hopen (clean_of_finishFile h) hs with hinside |
    ⟨⟨token, htoken, hname⟩, hlocal⟩
  · rcases globals_actAll hbody hinside with hold | hexternal
    · exact .inl hold
    · exact .inr (.inl hexternal)
  · rw [htable, SymbolTable.lookup?_empty] at hlocal
    rcases pendingGlobals_actAll hbody htoken with hold | hdeclared
    · exact absurd hold List.not_mem_nil
    · exact .inr (.inr ⟨⟨token, hdeclared, hname⟩, hlocal⟩)

/-- The state in which `f` is opened when `files` have been read. -/
def opening (a : Assembler) (files : List SourceFile) (f : SourceFile) : Assembler :=
  (a.stepAll (files.flatMap SourceFile.steps)).openFile f.name

theorem globals_origin {files : List SourceFile} {a : Assembler}
    (h : (a.stepAll (files.flatMap SourceFile.steps)).Clean) {name : String} {s : Symbol}
    (hs : (a.stepAll (files.flatMap SourceFile.steps)).globals.lookup? name = some s) :
    a.globals.lookup? name = some s ∨ (∃ f ∈ files, ReservesExternal name f.actions) ∨
      ∃ files₁ f files₂, files = files₁ ++ f :: files₂ ∧ DeclaresGlobal name f.actions ∧
        defined? name f.actions (a.opening files₁ f) = some s := by
  induction files generalizing a with
  | nil => exact .inl hs
  | cons f rest ih =>
    rw [List.flatMap_cons, stepAll_append] at h hs
    rcases ih h hs with hfirst | ⟨g, hg, hexternal⟩ | ⟨files₁, g, files₂, rfl, hdeclares, hdefined⟩
    · rcases globals_steps (clean_of_stepAll h) hfirst with hold | hexternal | hown
      · exact .inl hold
      · exact .inr (.inl ⟨f, List.mem_cons_self, hexternal⟩)
      · exact .inr (.inr ⟨[], f, rest, rfl, hown⟩)
    · exact .inr (.inl ⟨g, List.mem_cons_of_mem f hg, hexternal⟩)
    · refine .inr (.inr ⟨f :: files₁, g, files₂, rfl, hdeclares, ?_⟩)
      rw [opening, List.flatMap_cons, stepAll_append]
      exact hdefined

/-! ## What a name means -/

/-- What a name means in the source `f`, which was opened in the state `opened`: the label
that `f` defines, at the address it was carried to, or else the global symbol. -/
def meaning? (a opened : Assembler) (f : SourceFile) (name : String) : Option Symbol :=
  (defined? name f.actions opened).or (a.globals.lookup? name)

theorem stepAll_steps (a : Assembler) (f : SourceFile) :
    a.stepAll f.steps = ((a.openFile f.name).actAll f.actions).step .closeFile := by
  rw [SourceFile.steps, stepAll_cons, stepAll_append, stepAll_map_act]
  rfl

theorem stepAll_programSteps {sources : List (String × String)} {files₁ files₂ : List SourceFile}
    {f : SourceFile} (hfiles : sourceFiles sources = files₁ ++ f :: files₂) (a : Assembler) :
    a.stepAll (programSteps sources) =
      ((a.stepAll (files₁.flatMap SourceFile.steps)).stepAll f.steps).stepAll
        (files₂.flatMap SourceFile.steps) := by
  rw [programSteps, hfiles, List.flatMap_append, List.flatMap_cons, stepAll_append, stepAll_append]

theorem stepAll_programSteps_act {sources : List (String × String)}
    {files₁ files₂ : List SourceFile} {f : SourceFile}
    (hfiles : sourceFiles sources = files₁ ++ f :: files₂) {xs ys : List Action} {x : Action}
    (hactions : f.actions = xs ++ x :: ys) (a : Assembler) :
    a.stepAll (programSteps sources) =
      (((a.opening files₁ f).actAll xs).act x).stepAll (stepsFrom ys files₂) := by
  rw [stepAll_programSteps hfiles, stepAll_steps, hactions, actAll_append, actAll_cons,
    stepAll_stepsFrom]
  rfl

/-- What a source means by a name is settled by the table it ends with and the global
table of the whole program. -/
theorem lookup?_or_globals {a : Assembler} {f : SourceFile} {files : List SourceFile}
    (h : ((a.stepAll f.steps).stepAll (files.flatMap SourceFile.steps)).Clean) (name : String) :
    ((a.stepAll f.steps).lookup? f.name name).or
        (((a.stepAll f.steps).stepAll (files.flatMap SourceFile.steps)).globals.lookup? name) =
      meaning? ((a.stepAll f.steps).stepAll (files.flatMap SourceFile.steps)) (a.openFile f.name) f
        name := by
  rw [lookup?_steps (clean_of_stepAll h), Option.or_assoc, meaning?]
  congr 1
  cases hglobal : (a.stepAll f.steps).globals.lookup? name with
  | none => rfl
  | some s =>
    rw [globals_files h hglobal]
    rfl

/-- The table kept under a file name is in the end that of the last source of this name. -/
theorem lookup?_programSteps {sources : List (String × String)} {files₁ files₂ : List SourceFile}
    {f : SourceFile} (hfiles : sourceFiles sources = files₁ ++ f :: files₂)
    (hlast : ∀ g ∈ files₂, g.name ≠ f.name) {a : Assembler}
    (h : (a.stepAll (programSteps sources)).Clean) (name : String) :
    (a.stepAll (programSteps sources)).lookup? f.name name =
      (a.stepAll (programSteps sources)).meaning? (a.opening files₁ f) f name := by
  rw [stepAll_programSteps hfiles] at h ⊢
  rw [(keepsFile_files hlast h).lookup?_eq]
  exact lookup?_or_globals h name

theorem parsed_programSteps {sources : List (String × String)} {files₁ files₂ : List SourceFile}
    {f : SourceFile} (hfiles : sourceFiles sources = files₁ ++ f :: files₂)
    {xs ys : List Item.Outcome} {s : ParsedStatement}
    (hitems : Item.ofFile f = xs ++ .item (.statement s) :: ys) {a : Assembler}
    (h : (a.stepAll (programSteps sources)).Clean) :
    (a.stepAll (programSteps sources)).parsed[
      ((a.opening files₁ f).actAll (xs.flatMap Item.Outcome.actions)).segments.cursor]? =
        some s := by
  have hactions : f.actions = xs.flatMap Item.Outcome.actions ++
      .statement s :: ys.flatMap Item.Outcome.actions := by
    rw [SourceFile.actions, hitems, List.flatMap_append, List.flatMap_cons]
    rfl
  rw [stepAll_programSteps_act hfiles hactions] at h ⊢
  exact parsed_stepAll h (parsed_act_statement (clean_of_stepAll h))

/-- What the first pass leaves in the tables is what a run ends with. -/
theorem assembleSources_tables {settings : AssemblerSettings} {ms : MemorySettings}
    {sources : List (String × String)} {a : Assembler}
    (h : (start settings (.ofSettings ms)).assembleSources sources = (none, a)) :
    let last := (start settings (.ofSettings ms)).stepAll (programSteps sources)
    last.finishAll.Clean ∧ a.parsed = last.parsed ∧ a.globals = last.globals ∧
      a.locals = last.locals := by
  obtain ⟨-, hfirst, -, -⟩ := assembleSources_eq_none h
  obtain ⟨⟨memory, resolved, assembled, rfl⟩, -⟩ := assembleSources_passes h
  exact ⟨hfirst, rfl, rfl, rfl⟩

/-- The label operands of the statements of `f` are resolved as names in the source `g`.
The state of the whole run is `a`, and it began with `fresh`. -/
def ResolvesOperands (fresh a : Assembler) (files₁ : List SourceFile) (f : SourceFile)
    (files₃ : List SourceFile) (g : SourceFile) : Prop :=
  ∀ (xs ys : List Item.Outcome) (s : ParsedStatement),
    Item.ofFile f = xs ++ .item (.statement s) :: ys →
    let here := (fresh.opening files₁ f).actAll (xs.flatMap Item.Outcome.actions)
    ∃ r, a.resolved[here.segments.cursor]? = some r ∧ r.source = s ∧
      ∀ (n : Nat) (token : Token) (offset : Word), s.operands[n]? = some (.label token offset) →
        ∃ symbol, a.meaning? (fresh.opening files₃ g) g token.literal = some symbol ∧
          r.operands[n]? = some (symbol.address + offset)

/-- The references of `f` whose labels are not known when they are read are filled in as
names in `f`, which shows in memory where nothing else is stored. -/
def FillsReferences (fresh a : Assembler) (files₁ : List SourceFile) (f : SourceFile)
    (files₂ : List SourceFile) : Prop :=
  ∀ (xs ys : List Action) (token : Token) (width : Width),
    f.actions = xs ++ .reference token width :: ys →
    let here := (fresh.opening files₁ f).actAll xs
    here.known? token.literal = none →
    ∃ symbol, a.meaning? (fresh.opening files₁ f) f token.literal = some symbol ∧
      ((∀ z ∈ collect storedSpans
            (files₁.flatMap SourceFile.steps ++ .openFile f.name :: xs.map Step.act) fresh ++
          collect storedSpans (stepsFrom ys files₂) (here.act (.reference token width)),
        Apart here.segments.cursor width.bytes z.address z.length) →
      a.assembled[Word.containing here.segments.cursor]? = none →
      ∀ notify, (a.memory.fetch here.segments.cursor width.bytes notify).1 =
        .ok (Word.truncate symbol.address width.bytes))

section

variable {settings : AssemblerSettings} {ms : MemorySettings} {sources : List (String × String)}
  {a : Assembler} {files₁ files₂ files₃ files₄ : List SourceFile} {f g : SourceFile}

theorem resolvesOperands
    (h : (start settings (.ofSettings ms)).assembleSources sources = (none, a))
    (hfiles : sourceFiles sources = files₁ ++ f :: files₂)
    (hfiles' : sourceFiles sources = files₃ ++ g :: files₄) (hname : g.name = f.name)
    (hlast : ∀ k ∈ files₄, k.name ≠ f.name) :
    ResolvesOperands (start settings (.ofSettings ms)) a files₁ f files₃ g := by
  intro xs ys s hitems here
  obtain ⟨hclean, hparsed, hglobals, hlocals⟩ := assembleSources_tables h
  obtain ⟨-, hresolved, -, -⟩ := assembleSources_passes h
  have hall := clean_of_finishAll hclean
  have hs := parsed_programSteps hfiles hitems hall
  rw [← hparsed] at hs
  obtain ⟨r, hr, hresolves⟩ := hresolved _ s hs
  have hfile : s.location.file = g.name := by
    have hf : f ∈ sourceFiles sources := by
      rw [hfiles]
      exact List.mem_append_right _ List.mem_cons_self
    rw [hname]
    refine SourceFile.file_of_statement hf ?_
    rw [hitems]
    exact List.mem_append_right _ List.mem_cons_self
  refine ⟨r, hr, hresolves.source, fun n token offset hn => ?_⟩
  obtain ⟨symbol, hsymbol, hvalue⟩ := hresolves.operand_label hn
  have hlookup := lookup?_programSteps hfiles' (hname ▸ hlast) hall token.literal
  refine ⟨symbol, ?_, hvalue⟩
  rw [hfile, lookup?_eq, hlocals, hglobals, ← lookup?_eq, hlookup] at hsymbol
  rw [meaning?, hglobals]
  exact hsymbol

theorem fillsReferences
    (h : (start settings (.ofSettings ms)).assembleSources sources = (none, a))
    (hfiles : sourceFiles sources = files₁ ++ f :: files₂) :
    FillsReferences (start settings (.ofSettings ms)) a files₁ f files₂ := by
  intro xs ys token width hactions here hunknown
  obtain ⟨hclean, -, hglobals, -⟩ := assembleSources_tables h
  have hall := clean_of_finishAll hclean
  have hrun := stepAll_programSteps_act hfiles hactions (start settings (.ofSettings ms))
  have hhere : here = (start settings (.ofSettings ms)).stepAll
      (files₁.flatMap SourceFile.steps ++ .openFile f.name :: xs.map Step.act) := by
    rw [stepAll_append, stepAll_cons, stepAll_map_act]
    rfl
  have hreached : here.Clean := by
    rw [hrun] at hall
    exact clean_of_act (clean_of_stepAll hall)
  obtain ⟨⟨t, ht⟩, hfile⟩ : (∃ t, Open t here) ∧ here.currentFile = f.name := by
    rw [hhere] at hreached ⊢
    exact open_inside hreached
  -- What the file and the program end with is what it means by the name.
  have hmeaning : ((((here.act (.reference token width)).actAll ys).step .closeFile).lookup?
        here.currentFile token.literal).or
      (((here.act (.reference token width)).stepAll (stepsFrom ys files₂)).globals.lookup?
        token.literal) =
      a.meaning? ((start settings (.ofSettings ms)).opening files₁ f) f token.literal := by
    have hclosed : ((start settings (.ofSettings ms)).stepAll
        (files₁.flatMap SourceFile.steps)).stepAll f.steps =
          ((here.act (.reference token width)).actAll ys).step .closeFile := by
      rw [stepAll_steps, hactions, actAll_append, actAll_cons]
      rfl
    have hlast := stepAll_programSteps hfiles (start settings (.ofSettings ms))
    rw [meaning?, hglobals, ← hclosed, ← hrun, hfile, hlast]
    rw [hlast] at hall
    exact lookup?_or_globals hall token.literal
  rw [hrun] at hclean
  obtain ⟨symbol, hsymbol, hholds⟩ := reference_settled ht hunknown hclean
  refine ⟨symbol, hmeaning ▸ hsymbol, fun happart hfree notify => ?_⟩
  obtain ⟨hapart₁, hapart₂⟩ := List.forall_mem_append.mp happart
  have hstart := allClear_start here.segments.cursor width.bytes settings (.ofSettings ms)
  rw [hhere] at hreached
  have hspares := stepAll_spares (Memory.passive_ofSettings ms) hreached hstart.current hapart₁
  rw [← hhere] at hspares
  obtain ⟨-, -, -, hplaced⟩ := assembleSources_passes h
  rw [firstPass, hrun] at hplaced
  rw [hplaced.fetch (hholds hspares.passive (hspares.allClear hstart) hapart₂) notify, hfree]

/-- Labels are scoped by source.  References in data mean the label that their own source
defines, or else the global symbol, and a global symbol is a label of a source that
declares it global, or external data.  Operands mean the same in the last source that has
the name of theirs, which is their own if no other has it. -/
theorem assembleSources_scoped
    (h : (start settings (.ofSettings ms)).assembleSources sources = (none, a)) :
    let fresh := start settings (.ofSettings ms)
    (∀ files₁ f files₂, sourceFiles sources = files₁ ++ f :: files₂ →
      FillsReferences fresh a files₁ f files₂ ∧
      ∀ files₃ g files₄, sourceFiles sources = files₃ ++ g :: files₄ → g.name = f.name →
        (∀ k ∈ files₄, k.name ≠ f.name) → ResolvesOperands fresh a files₁ f files₃ g) ∧
    ∀ name symbol, a.globals.lookup? name = some symbol →
      (∃ f ∈ sourceFiles sources, ReservesExternal name f.actions) ∨
      ∃ files₁ f files₂, sourceFiles sources = files₁ ++ f :: files₂ ∧
        DeclaresGlobal name f.actions ∧
        defined? name f.actions (fresh.opening files₁ f) = some symbol := by
  intro fresh
  refine ⟨fun files₁ f files₂ hfiles => ⟨fillsReferences h hfiles, ?_⟩, fun name symbol hs => ?_⟩
  · intro files₃ g files₄ hfiles' hname hlast
    exact resolvesOperands h hfiles hfiles' hname hlast
  · obtain ⟨hclean, -, hglobals, -⟩ := assembleSources_tables h
    rw [hglobals] at hs
    rcases globals_origin (clean_of_finishAll hclean) hs with hnone | horigin
    · rw [start, SymbolTable.lookup?_empty] at hnone
      cases hnone
    · exact horigin

end

set_option maxRecDepth 10000 in
/-- Two sources of one name with a label each.  The reference in the first means its own
label, and the jump beside it the other. -/
theorem assembleSources_scoped_same_name :
    let ms : MemorySettings := ⟨Layout.standard, .little, false⟩
    let sources := [("a.s", ".data\n.word x\n.text\nx: nop\nj x\n"), ("a.s", "x: nop\n")]
    let run := (start ⟨none, false⟩ (.ofSettings ms)).assembleSources sources
    run.1 = none ∧
    (∀ notify, (run.2.memory.fetch 0x10010000 4 notify).1 = .ok 0x00400000) ∧
    ∃ r, run.2.resolved[(0x00400004 : Address)]? = some r ∧ r.operands[0]? = some 0x00400008 := by
  intro ms sources run
  let fresh := start ⟨none, false⟩ (.ofSettings ms)
  let f := (SourceFile.ofText "a.s" ".data\n.word x\n.text\nx: nop\nj x\n").1
  let g := (SourceFile.ofText "a.s" "x: nop\n").1
  let datum : Token := ⟨.identifier, "x", ⟨"a.s", 2, 7⟩⟩
  let target : Token := ⟨.identifier, "x", ⟨"a.s", 5, 3⟩⟩
  let jump : ParsedStatement :=
    ⟨⟨.identifier, "j", ⟨"a.s", 5, 1⟩⟩, .basic BasicInstruction.j, [.label target 0], "j x"⟩
  have hitems : Item.ofFile f =
      (Item.ofFile f).take 5 ++ .item (.statement jump) :: (Item.ofFile f).drop 6 := by
    decide +kernel
  have hactions : f.actions =
      f.actions.take 2 ++ .reference datum .word :: f.actions.drop 3 := by
    decide +kernel
  obtain ⟨hrun, hfree⟩ : run.1 = none ∧
      run.2.assembled[Word.containing 0x10010000]? = none := by
    decide +kernel
  obtain ⟨hscoped, -⟩ := assembleSources_scoped (eq_of_fst_eq_none hrun)
  obtain ⟨hfills, hresolves⟩ := hscoped [] f [g] rfl
  refine ⟨hrun, ?_, ?_⟩
  · let here := (fresh.opening [] f).actAll (f.actions.take 2)
    obtain ⟨hcursor, hunknown, hmeaning, hapart⟩ : here.segments.cursor = 0x10010000 ∧
        here.known? datum.literal = none ∧
        run.2.meaning? (fresh.opening [] f) f datum.literal = some ⟨"x", 0x00400000, false⟩ ∧
        ∀ z ∈ collect storedSpans
            (List.flatMap SourceFile.steps [] ++
              .openFile f.name :: (f.actions.take 2).map Step.act) fresh ++
          collect storedSpans (stepsFrom (f.actions.drop 3) [g])
            (here.act (.reference datum .word)),
          Apart here.segments.cursor Width.word.bytes z.address z.length := by
      decide +kernel
    obtain ⟨symbol, hsymbol, hfetch⟩ := hfills _ _ datum .word hactions hunknown
    cases hmeaning.symm.trans hsymbol
    intro notify
    have hword := hfetch hapart (by rw [hcursor]; exact hfree) notify
    rw [hcursor] at hword
    exact hword
  · obtain ⟨hcursor, hmeaning⟩ :
        ((fresh.opening [] f).actAll
          (((Item.ofFile f).take 5).flatMap Item.Outcome.actions)).segments.cursor = 0x00400004 ∧
        run.2.meaning? (fresh.opening [f] g) g target.literal =
          some ⟨"x", 0x00400008, false⟩ := by
      decide +kernel
    obtain ⟨r, hr, -, hoperands⟩ := hresolves [f] g [] rfl rfl
      (fun k hk => absurd hk List.not_mem_nil) _ _ jump hitems
    obtain ⟨symbol, hsymbol, hvalue⟩ := hoperands 0 target 0 rfl
    cases hmeaning.symm.trans hsymbol
    rw [hcursor] at hr
    exact ⟨r, hr, hvalue⟩

end Assembler
end MipsImage
