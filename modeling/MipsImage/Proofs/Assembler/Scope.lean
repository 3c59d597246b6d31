/-
What the symbol tables do while a program is read.

A file changes its own table and adds to the global one.  So once a file is closed,
what a label means in it is settled: its table is left alone until another file of
that name is opened, and a global symbol is never moved or taken away.  While the
file is open, a label it has defined can still be moved by an alignment that skips
over its address.
-/
import MipsImage.Proofs.Assembler.Program
import MipsImage.Proofs.Symbol

namespace MipsImage

/-! ## Steps by files -/

theorem SourceFile.split_own_steps {f : SourceFile} {before after : List Step} {x : Action}
    (h : f.steps = before ++ .act x :: after) :
    ∃ xs ys, f.actions = xs ++ x :: ys ∧ before = .openFile f.name :: xs.map Step.act ∧
      after = ys.map Step.act ++ [.closeFile] := by
  cases before with
  | nil => cases h
  | cons first before =>
    rw [steps, List.cons_append] at h
    obtain ⟨rfl, hrest⟩ := List.cons.inj h
    rcases List.append_eq_append_iff.mp hrest with ⟨between, -, hclose⟩ |
      ⟨between, hactions, hclose⟩
    · cases between with
      | nil => cases hclose
      | cons y between =>
        have hlength := congrArg List.length (List.cons.inj hclose).2
        simp at hlength
    · cases between with
      | nil => cases hclose
      | cons y between =>
        obtain ⟨rfl, rfl⟩ := List.cons.inj hclose
        obtain ⟨xs, tail, hsplit, rfl, htail⟩ := List.map_eq_append_iff.mp hactions
        obtain ⟨x', ys, rfl, hx, rfl⟩ := List.map_eq_cons_iff.mp htail
        cases hx
        exact ⟨xs, ys, hsplit, rfl, rfl⟩

/-- An action of a program is one of the actions of a file in it. -/
theorem SourceFile.split_steps {files : List SourceFile} {before after : List Step} {x : Action}
    (h : files.flatMap steps = before ++ .act x :: after) :
    ∃ files₁ f files₂ xs ys, files = files₁ ++ f :: files₂ ∧ f.actions = xs ++ x :: ys ∧
      before = files₁.flatMap steps ++ .openFile f.name :: xs.map Step.act ∧
      after = ys.map Step.act ++ .closeFile :: files₂.flatMap steps := by
  induction files generalizing before with
  | nil => simp at h
  | cons f rest ih =>
    rw [List.flatMap_cons, List.append_eq_append_iff] at h
    rcases h with ⟨between, hbefore, hrest⟩ | ⟨tail, hsteps, htail⟩
    · obtain ⟨files₁, g, files₂, xs, ys, rfl, hactions, rfl, rfl⟩ := ih hrest
      refine ⟨f :: files₁, g, files₂, xs, ys, rfl, hactions, ?_, rfl⟩
      rw [hbefore, List.flatMap_cons, List.append_assoc]
    · cases tail with
      | nil =>
        -- The next file would have to begin with the action.
        have hnext : rest.flatMap steps = [] ++ .act x :: after := htail.symm
        obtain ⟨files₁, g, files₂, xs, ys, -, -, hnil, -⟩ := ih hnext
        simp at hnil
      | cons y tail =>
        obtain ⟨rfl, rfl⟩ := List.cons.inj htail
        obtain ⟨xs, ys, hactions, rfl, rfl⟩ := split_own_steps hsteps
        exact ⟨[], f, rest, xs, ys, rfl, hactions, rfl, by simp⟩

namespace Assembler

/-! ## One step -/

/-- From `a` to `b` only the table of the current file changes, and the global one
only grows. -/
structure Extends (a b : Assembler) : Prop where
  file : b.currentFile = a.currentFile
  locals : ∀ {g}, g ≠ a.currentFile → b.locals[g]? = a.locals[g]?
  globals : ∀ {name s}, a.globals.lookup? name = some s → b.globals.lookup? name = some s

theorem Extends.refl (a : Assembler) : Extends a a :=
  ⟨rfl, fun _ => rfl, fun h => h⟩

theorem Extends.trans {a b c : Assembler} (hab : Extends a b) (hbc : Extends b c) :
    Extends a c where
  file := hbc.file.trans hab.file
  locals hg := (hbc.locals (by rwa [hab.file])).trans (hab.locals hg)
  globals h := hbc.globals (hab.globals h)

/-- A file is open and `t` is its table. -/
structure Open (t : SymbolTable) (a : Assembler) : Prop where
  table : a.currentTable? = some t
  indexed : t.Indexed

theorem currentTable?_setCurrentTable (a : Assembler) (t : SymbolTable) :
    (a.setCurrentTable t).currentTable? = some t :=
  Std.TreeMap.getElem?_insert_self

theorem extends_setCurrentTable (a : Assembler) (t : SymbolTable) :
    Extends a (a.setCurrentTable t) := by
  refine ⟨rfl, fun {g} hg => ?_, fun h => h⟩
  rw [setCurrentTable, getElem?_insert_eq_ite, if_neg hg]

/-- Where an action takes a label of the current file that stands at `address`.  Only
alignment moves labels, those in the padding it skips. -/
def carry (a : Assembler) (x : Action) (address : Address) : Address :=
  match x with
  | .align _ | .autoAlign _ =>
    if a.segments.cursor ≤ address ∧ address < (a.act x).segments.cursor then
      (a.act x).segments.cursor
    else address
  | _ => address

/-- The symbol that an action enters into the table of the current file. -/
def entered? (a : Assembler) (x : Action) (name : String) : Option Symbol :=
  match x with
  | .label token =>
    if name = token.literal then
      some { identifier := token.literal, address := a.segments.cursor,
             isData := a.segments.active.isData }
    else none
  | _ => none

/-- `t'` is what `x` makes of the table `t`. -/
def Carried (a : Assembler) (x : Action) (t t' : SymbolTable) : Prop :=
  ∀ name, t'.lookup? name =
    ((t.lookup? name).map fun s => { s with address := a.carry x s.address }).or
      (a.entered? x name)

theorem Carried.of_some {a : Assembler} {x : Action} {t t' : SymbolTable} (h : Carried a x t t')
    {name : String} {s : Symbol} (hs : t.lookup? name = some s) :
    t'.lookup? name = some { s with address := a.carry x s.address } := by
  rw [h, hs]
  rfl

/-- An action that carries no label and enters none leaves a table as it is. -/
theorem carried_self {a : Assembler} {x : Action} (hcarry : ∀ address, a.carry x address = address)
    (hentered : ∀ name, a.entered? x name = none) (t : SymbolTable) : Carried a x t t := by
  intro name
  simp only [hcarry, hentered, Option.or_none, Option.map_id']

theorem alignCursor_scope {a : Assembler} {t : SymbolTable} (ht : Open t a) (alignment : Word) :
    Extends a (a.alignCursor alignment) ∧ ∃ t', Open t' (a.alignCursor alignment) ∧
      ∀ name, t'.lookup? name = (t.lookup? name).map fun s =>
        { s with address :=
          if a.segments.cursor ≤ s.address ∧
              s.address < (a.alignCursor alignment).segments.cursor then
            (a.alignCursor alignment).segments.cursor
          else s.address } := by
  have heq : a.alignCursor alignment =
      { a.setCurrentTable (t.realign a.segments.cursor (a.segments.alignTo alignment).cursor) with
        segments := a.segments.alignTo alignment } := by
    simp only [alignCursor, ht.table]
  rw [heq]
  refine ⟨⟨rfl, (extends_setCurrentTable a _).locals, fun hs => hs⟩, _,
    ⟨currentTable?_setCurrentTable a _, ht.indexed.realign _ _⟩, fun name => ?_⟩
  rw [ht.indexed.lookup?_realign]
  congr 1
  funext s
  dsimp only
  split_ifs
  · rfl
  · rfl

theorem act_scope {a : Assembler} {t : SymbolTable} (ht : Open t a) {x : Action}
    (h : (a.act x).Clean) :
    Extends a (a.act x) ∧ ∃ t', Open t' (a.act x) ∧ Carried a x t t' := by
  -- Most actions leave the tables alone.
  have hsame : ∀ b : Assembler, b.currentFile = a.currentFile → b.locals = a.locals →
      b.globals = a.globals → Carried a x t t → Extends a b ∧ ∃ t', Open t' b ∧ Carried a x t t' := by
    intro b hfile hlocals hglobals hcarried
    refine ⟨⟨hfile, fun _ => by rw [hlocals], fun hs => by rw [hglobals]; exact hs⟩, t,
      ⟨?_, ht.indexed⟩, hcarried⟩
    rw [currentTable?, hlocals, hfile]
    exact ht.table
  cases x with
  | label token =>
    rw [act] at h ⊢
    rcases defineLabel_cases h with ⟨hnone, -⟩ | ⟨t₁, t', ht₁, hdefine, heq⟩
    · rw [ht.table] at hnone
      cases hnone
    · rw [ht.table] at ht₁
      cases ht₁
      rw [heq]
      refine ⟨extends_setCurrentTable a t', t', ⟨currentTable?_setCurrentTable a t',
        ht.indexed.define hdefine⟩, fun name => ?_⟩
      obtain ⟨hnew, hlookup⟩ := SymbolTable.lookup?_define hdefine name
      rw [hlookup, entered?]
      dsimp only at hnew ⊢
      split_ifs with hname
      · rw [hname, hnew]
        rfl
      · simp only [carry, Option.map_id', Option.or_none]
  | statement s =>
    rw [act] at h ⊢
    obtain ⟨-, -, heq⟩ := addStatement_cases h
    rw [heq]
    exact hsame _ rfl rfl rfl (carried_self (fun _ => rfl) (fun _ => rfl) t)
  | align power =>
    obtain ⟨hextends, t', ht', hcarried⟩ := alignCursor_scope ht (Action.alignment power)
    exact ⟨hextends, t', ht', fun name => (hcarried name).trans Option.or_none.symm⟩
  | autoAlign power =>
    rcases a.autoAlign_eq (Action.alignment power) with heq | heq
    · obtain ⟨hextends, t', ht', hcarried⟩ := alignCursor_scope ht (Action.alignment power)
      rw [← heq] at hextends ht' hcarried
      exact ⟨hextends, t', ht', fun name => (hcarried name).trans Option.or_none.symm⟩
    · have hact : a.act (.autoAlign power) = a := heq
      rw [hact]
      refine ⟨Extends.refl a, t, ht, carried_self (fun address => ?_) (fun _ => rfl) t⟩
      rw [carry, hact, if_neg]
      rintro ⟨hle, hlt⟩
      exact absurd hlt (UInt32.not_lt.mpr hle)
  | integer location value width =>
    rw [act] at h ⊢
    obtain ⟨old, memory, -, heq⟩ := writeData_cases h
    rw [heq]
    exact hsame _ rfl rfl rfl (carried_self (fun _ => rfl) (fun _ => rfl) t)
  | reference token width =>
    obtain ⟨value, old, memory, fixups, -, heq, -⟩ := act_reference_cases h
    rw [heq]
    exact hsame _ rfl rfl rfl (carried_self (fun _ => rfl) (fun _ => rfl) t)
  | double location bits =>
    rw [act] at h ⊢
    obtain ⟨old, memory, -, heq⟩ := writeDoubleword_cases h
    rw [heq]
    exact hsame _ rfl rfl rfl (carried_self (fun _ => rfl) (fun _ => rfl) t)
  | external token size =>
    rw [act] at h ⊢
    rcases defineExternal_cases h with ⟨-, heq⟩ | ⟨hfree, globals, hdefine, heq⟩
    · rw [heq]
      exact hsame _ rfl rfl rfl (carried_self (fun _ => rfl) (fun _ => rfl) t)
    · rw [heq]
      exact ⟨⟨rfl, fun _ => rfl, SymbolTable.lookup?_define_of_some hdefine⟩, t,
        ⟨ht.table, ht.indexed⟩, carried_self (fun _ => rfl) (fun _ => rfl) t⟩
  | global token =>
    rw [act] at h ⊢
    obtain ⟨-, log, heq⟩ := declareGlobal_cases h
    rw [heq]
    exact hsame _ rfl rfl rfl (carried_self (fun _ => rfl) (fun _ => rfl) t)
  | _ => exact hsame _ rfl rfl rfl (carried_self (fun _ => rfl) (fun _ => rfl) t)

theorem lookup?_eq (a : Assembler) (file name : String) :
    a.lookup? file name =
      ((a.locals[file]?).bind (·.lookup? name)).or (a.globals.lookup? name) := by
  rw [lookup?, SymbolScope.lookup?]
  show _ = ((a.scopeOf file).localTable.bind (·.lookup? name)).or (a.globals.lookup? name)
  cases (a.scopeOf file).localTable.bind (·.lookup? name) with
  | none => rfl
  | some s => rfl

theorem Open.lookup? {t : SymbolTable} {a : Assembler} (ht : Open t a) (name : String) :
    a.lookup? a.currentFile name = (t.lookup? name).or (a.globals.lookup? name) := by
  have htable : a.locals[a.currentFile]? = some t := ht.table
  rw [lookup?_eq, htable, Option.bind_some]

/-- Making a label global changes where it is found and not what is found. -/
theorem promote_scope {a : Assembler} {t : SymbolTable} (ht : Open t a) {token : Token}
    (h : (a.promote token).Clean) :
    Extends a (a.promote token) ∧
      (∃ t', Open t' (a.promote token) ∧
        ∀ {name s}, t'.lookup? name = some s → t.lookup? name = some s) ∧
      ∀ {name s}, a.lookup? a.currentFile name = some s →
        (a.promote token).lookup? a.currentFile name = some s := by
  rcases promote_cases h with ⟨hnone, -⟩ |
    ⟨t₁, t', symbol, globals, ht₁, htaken, hremove, hdefine, heq⟩
  · rw [ht.table] at hnone
    cases hnone
  · rw [ht.table] at ht₁
    cases ht₁
    rw [heq]
    have hopen : Open t' { a.setCurrentTable t' with globals } :=
      ⟨currentTable?_setCurrentTable a t', ht.indexed.remove? hremove⟩
    refine ⟨⟨rfl, (extends_setCurrentTable a t').locals,
      SymbolTable.lookup?_define_of_some hdefine⟩, ⟨t', hopen, ?_⟩, ?_⟩
    · intro name s hs
      rw [(SymbolTable.lookup?_remove? hremove name).2] at hs
      split_ifs at hs
      exact hs
    intro name s hs
    obtain ⟨hsymbol, hremoved⟩ := SymbolTable.lookup?_remove? hremove name
    rw [ht.lookup?] at hs
    refine (hopen.lookup? name).trans ?_
    show (t'.lookup? name).or (globals.lookup? name) = some s
    rw [hremoved]
    by_cases hname : name = token.literal
    · subst hname
      rw [hsymbol, Option.some_or] at hs
      have hglobal := (SymbolTable.lookup?_define hdefine token.literal).2
      rw [ht.indexed.identifier hsymbol, if_pos rfl] at hglobal
      rw [if_pos rfl, Option.none_or, hglobal, hs]
    · rw [if_neg hname]
      cases hlocal : t.lookup? name with
      | some s' =>
        rw [hlocal] at hs
        exact hs
      | none =>
        rw [hlocal, Option.none_or] at hs
        exact SymbolTable.lookup?_define_of_some hdefine hs

theorem foldl_promote_scope {tokens : List Token} {a : Assembler} {t : SymbolTable} (ht : Open t a)
    (h : (tokens.foldl promote a).Clean) :
    Extends a (tokens.foldl promote a) ∧
      (∃ t', Open t' (tokens.foldl promote a) ∧
        ∀ {name s}, t'.lookup? name = some s → t.lookup? name = some s) ∧
      ∀ {name s}, a.lookup? a.currentFile name = some s →
        (tokens.foldl promote a).lookup? a.currentFile name = some s := by
  induction tokens generalizing a t with
  | nil => exact ⟨Extends.refl a, ⟨t, ht, fun hs => hs⟩, fun hs => hs⟩
  | cons token rest ih =>
    obtain ⟨hone, ⟨t₁, ht₁, hsub₁⟩, hlookup⟩ := promote_scope ht (clean_of_foldl_promote h)
    obtain ⟨hrest, ⟨t', ht', hsub'⟩, hlookup'⟩ := ih ht₁ h
    refine ⟨hone.trans hrest, ⟨t', ht', fun hs => hsub₁ (hsub' hs)⟩, fun hs => ?_⟩
    rw [hone.file] at hlookup'
    exact hlookup' (hlookup hs)

/-- At the end of a file every label keeps its meaning. -/
theorem closeFile_scope {a : Assembler} {t : SymbolTable} (ht : Open t a)
    (h : (a.step .closeFile).Clean) :
    Extends a (a.step .closeFile) ∧
      ∀ name, (a.step .closeFile).lookup? a.currentFile name =
        (t.lookup? name).or ((a.step .closeFile).globals.lookup? name) := by
  have hopen : Open t { a with pendingGlobals := [] } := ⟨ht.table, ht.indexed⟩
  obtain ⟨hextends, ⟨t', ht', hsub⟩, hlookup⟩ := foldl_promote_scope hopen (clean_of_finishFile h)
  have hclosed : Open t' (a.step .closeFile) := ⟨ht'.table, ht'.indexed⟩
  refine ⟨⟨hextends.file, hextends.locals, hextends.globals⟩, fun name => ?_⟩
  cases hlocal : t.lookup? name with
  | some s =>
    have hfound : a.lookup? a.currentFile name = some s := by
      rw [ht.lookup?, hlocal]
      rfl
    exact hlookup hfound
  | none =>
    have hnone : t'.lookup? name = none := by
      refine Option.eq_none_iff_forall_ne_some.mpr fun s hs => ?_
      rw [hsub hs] at hlocal
      cases hlocal
    have hfile : (a.step .closeFile).currentFile = a.currentFile := hextends.file
    rw [← hfile, hclosed.lookup?, hnone]

/-! ## Runs -/

/-- Where a label of the open file that stands at `address` is once `xs` are done. -/
def carryAll : List Action → Assembler → Address → Address
  | [], _, address => address
  | x :: xs, a, address => carryAll xs (a.act x) (a.carry x address)

/-- The symbol of a label that `xs` define, as it stands once they are done. -/
def defined? (name : String) : List Action → Assembler → Option Symbol
  | [], _ => none
  | x :: xs, a =>
    ((a.entered? x name).map fun s => { s with address := carryAll xs (a.act x) s.address }).or
      (defined? name xs (a.act x))

theorem actAll_scope {xs : List Action} {a : Assembler} {t : SymbolTable} (ht : Open t a)
    (h : (a.actAll xs).Clean) :
    Extends a (a.actAll xs) ∧ ∃ t', Open t' (a.actAll xs) ∧
      ∀ name, t'.lookup? name =
        ((t.lookup? name).map fun s => { s with address := carryAll xs a s.address }).or
          (defined? name xs a) := by
  induction xs generalizing a t with
  | nil => exact ⟨Extends.refl a, t, ht, fun name => by simp [carryAll, defined?]⟩
  | cons x rest ih =>
    obtain ⟨hone, t₁, ht₁, hcarried⟩ := act_scope ht (clean_of_actAll h)
    obtain ⟨hrest, t', ht', hall⟩ := ih ht₁ h
    refine ⟨hone.trans hrest, t', ht', fun name => ?_⟩
    rw [hall, hcarried, Option.map_or, Option.map_map, Option.or_assoc]
    rfl

theorem open_openFile (a : Assembler) (name : String) :
    Open (.empty name) (a.openFile name) :=
  ⟨Std.TreeMap.getElem?_insert_self, SymbolTable.indexed_empty name⟩

/-- From `a` to `b` the table of `file` stays, and the global one only grows. -/
structure KeepsFile (file : String) (a b : Assembler) : Prop where
  locals : b.locals[file]? = a.locals[file]?
  globals : ∀ {name s}, a.globals.lookup? name = some s → b.globals.lookup? name = some s

theorem KeepsFile.trans {file : String} {a b c : Assembler} (hab : KeepsFile file a b)
    (hbc : KeepsFile file b c) : KeepsFile file a c :=
  ⟨hbc.locals.trans hab.locals, fun hs => hbc.globals (hab.globals hs)⟩

theorem KeepsFile.lookup?_eq {file : String} {a b : Assembler} (hab : KeepsFile file a b)
    (name : String) :
    b.lookup? file name = (a.lookup? file name).or (b.globals.lookup? name) := by
  rw [Assembler.lookup?_eq, Assembler.lookup?_eq, hab.locals, Option.or_assoc]
  congr 1
  cases hglobal : a.globals.lookup? name with
  | none => rfl
  | some s =>
    rw [hab.globals hglobal]
    rfl

theorem KeepsFile.lookup? {file : String} {a b : Assembler} (hab : KeepsFile file a b)
    {name : String} {s : Symbol} (hs : a.lookup? file name = some s) :
    b.lookup? file name = some s := by
  rw [hab.lookup?_eq, hs]
  rfl

theorem extends_steps {f : SourceFile} {a : Assembler} (h : (a.stepAll f.steps).Clean) :
    Extends (a.openFile f.name) (a.stepAll f.steps) := by
  rw [SourceFile.steps, stepAll_cons, stepAll_append, stepAll_map_act] at h ⊢
  obtain ⟨hactions, t', ht', -⟩ := actAll_scope (open_openFile a f.name) (clean_of_stepAll h)
  exact hactions.trans (closeFile_scope ht' h).1

/-- Once a file is closed, a name means in it the label that the file defines, or else the
global symbol. -/
theorem lookup?_steps {f : SourceFile} {a : Assembler} (h : (a.stepAll f.steps).Clean)
    (name : String) :
    (a.stepAll f.steps).lookup? f.name name =
      (defined? name f.actions (a.openFile f.name)).or
        ((a.stepAll f.steps).globals.lookup? name) := by
  rw [SourceFile.steps, stepAll_cons, stepAll_append, stepAll_map_act] at h ⊢
  obtain ⟨hactions, t', ht', htable⟩ := actAll_scope (open_openFile a f.name) (clean_of_stepAll h)
  obtain ⟨-, hlookup⟩ := closeFile_scope ht' h
  have hname : ((a.openFile f.name).actAll f.actions).currentFile = f.name := hactions.file
  have hclosed := hlookup name
  rw [hname, htable, SymbolTable.lookup?_empty] at hclosed
  exact hclosed

theorem keepsFile_steps {f : SourceFile} {file : String} (hname : f.name ≠ file) {a : Assembler}
    (h : (a.stepAll f.steps).Clean) : KeepsFile file a (a.stepAll f.steps) := by
  have hextends := extends_steps h
  refine ⟨(hextends.locals hname.symm).trans ?_, hextends.globals⟩
  show (a.locals.insert f.name (.empty f.name))[file]? = a.locals[file]?
  rw [getElem?_insert_eq_ite, if_neg hname.symm]

/-- Files of other names do not change what a closed file means by a label. -/
theorem keepsFile_files {files : List SourceFile} {file : String}
    (hnames : ∀ f ∈ files, f.name ≠ file) {a : Assembler}
    (h : (a.stepAll (files.flatMap SourceFile.steps)).Clean) :
    KeepsFile file a (a.stepAll (files.flatMap SourceFile.steps)) := by
  induction files generalizing a with
  | nil => exact ⟨rfl, fun hs => hs⟩
  | cons f rest ih =>
    rw [List.flatMap_cons, stepAll_append] at h ⊢
    obtain ⟨hf, hrest⟩ := List.forall_mem_cons.mp hnames
    exact (keepsFile_steps hf (clean_of_stepAll h)).trans (ih hrest h)

/-- A global symbol stays, whatever files follow. -/
theorem globals_files {files : List SourceFile} {a : Assembler}
    (h : (a.stepAll (files.flatMap SourceFile.steps)).Clean) {name : String} {s : Symbol}
    (hs : a.globals.lookup? name = some s) :
    (a.stepAll (files.flatMap SourceFile.steps)).globals.lookup? name = some s := by
  induction files generalizing a with
  | nil => exact hs
  | cons f rest ih =>
    rw [List.flatMap_cons, stepAll_append] at h ⊢
    exact ih h ((extends_steps (clean_of_stepAll h)).globals hs)

end Assembler
end MipsImage
