/-
Disassembled code assembles again.

A decoded statement is written as a mnemonic and its operands.  Read as source, this is
cut into tokens, the tokens into operands, and the mnemonic with the operands picks an
instruction.  Each of these steps gives back what was written, so the statement that comes
out has the instruction and the operand values that were decoded, whatever labels there
may be, and these encode to the word.
-/
import MipsImage.Assembler.Passes
import MipsImage.Proofs.Instruction.RoundTrip
import MipsImage.Proofs.Source.Grammar
import MipsImage.Proofs.Source.Lexing

namespace MipsImage

open Lexer (Lexes Stops)

/-! ## Text to tokens -/

/-- An operand that is written by its value alone. -/
def OperandKind.Plain (kind : OperandKind) (value : Word) : Prop :=
  kind ≠ .label ∧ kind.InRange value

theorem OperandKind.forall₂_plain {kinds : List OperandKind} {values : List Word}
    (hlabel : label ∉ kinds) (hrange : List.Forall₂ InRange kinds values) :
    List.Forall₂ Plain kinds values := by
  induction hrange with
  | nil => exact .nil
  | cons hone _ ih =>
    obtain ⟨hkind, hkinds⟩ := not_or.mp (mt List.mem_cons.mpr hlabel)
    exact .cons ⟨Ne.symm hkind, hone⟩ (ih hkinds)

namespace EncodedStatement

open OperandKind (Plain)

/-- The kinds of the tokens that an operand is written with. -/
def operandTokens (kind : OperandKind) (value : Word) : List TokenKind :=
  match kind with
  | .register => [.register (Register.ofWord value)]
  | .parenRegister => [.leftParen, .register (Register.ofWord value), .rightParen]
  | _ => [.integer value]

/-- The kinds of the tokens of the operands after the first. -/
def moreTokens (previous : OperandKind) : List OperandKind → List Word → List TokenKind
  | kind :: kinds, value :: values =>
    (if kind = .parenRegister ∧ previous = .signed16 then [] else [.comma]) ++
      operandTokens kind value ++ moreTokens kind kinds values
  | _, _ => []

theorem lexes_operand {kind : OperandKind} {value : Word} (hplain : kind.Plain value)
    {previous : Option TokenKind}
    (hprevious : previous.any TokenKind.endsOperand = false ∨ kind ∈ [.register, .parenRegister])
    {cs : List Char} (hcs : Stops cs) {kinds : List TokenKind} (h : ∀ p, Lexes p cs kinds) :
    Lexes previous ((renderOperand kind value).toList ++ cs)
      (operandTokens kind value ++ kinds) := by
  cases kind with
  | register =>
    rw [renderOperand, ← Register.val_ofWord hplain.2]
    exact Lexer.lexes_register _ hcs (h _)
  | parenRegister =>
    have htext : (renderOperand .parenRegister value).toList ++ cs =
        '(' :: ((Register.render (Register.ofWord value).val).toList ++ ')' :: cs) := by
      rw [renderOperand, ← Register.val_ofWord hplain.2]
      simp
    rw [htext]
    refine Lexer.lexes_symbol rfl (Lexer.lexes_register _ ?_ (Lexer.lexes_symbol rfl (h _)))
    intro c hc
    cases hc
    rfl
  | label => exact absurd rfl hplain.1
  | unsigned5 | signed16 | unsigned16 | integer32 =>
    exact Lexer.lexes_integer (hprevious.resolve_right (by decide)) value hcs (h _)

/-- What follows an operand begins with a comma or a parenthesis, if there is anything. -/
theorem lexes_more (previous : OperandKind) {kinds : List OperandKind} {values : List Word}
    (hplain : List.Forall₂ Plain kinds values) :
    Stops (renderMore previous kinds values).toList ∧
      ∀ p, Lexes p (renderMore previous kinds values).toList
        (moreTokens previous kinds values) := by
  induction hplain generalizing previous with
  | nil => exact ⟨fun c hc => absurd hc (by simp [renderMore]), fun p => Lexer.lexes_nil p⟩
  | cons hone hrest ih =>
    rename_i kind value kinds values
    obtain ⟨hstops, hmore⟩ := ih kind
    rw [renderMore, moreTokens, String.toList_append, String.toList_append]
    split_ifs with hjoined
    · obtain ⟨rfl, -⟩ := hjoined
      refine ⟨?_, fun p => ?_⟩
      · intro c hc
        have hparen : c = '(' := by simpa [renderOperand] using hc.symm
        rw [hparen]
        rfl
      · exact lexes_operand hone (.inr (by decide)) hstops hmore
    · refine ⟨?_, fun p => ?_⟩
      · intro c hc
        have hcomma : c = ',' := by simpa using hc.symm
        rw [hcomma]
        rfl
      · exact Lexer.lexes_symbol rfl (Lexer.lexes_blank
          (lexes_operand hone (.inl rfl) hstops hmore))

/-- The kinds of the tokens after the mnemonic. -/
def tokensAfter : List OperandKind → List Word → List TokenKind
  | kind :: kinds, value :: values => operandTokens kind value ++ moreTokens kind kinds values
  | _, _ => []

set_option maxRecDepth 10000 in
theorem isName_mnemonic : ∀ i ∈ BasicInstruction.table, Lexer.isName i.mnemonic = true := by
  decide +kernel

/-- After a mnemonic a minus sign would subtract, but no operand begins with one there. -/
theorem first_register_or_label : ∀ i ∈ BasicInstruction.table,
    ∀ kind ∈ i.operandKinds.head?, kind = .register ∨ kind = .label := by
  decide +kernel

theorem newline_not_mem_operand {kind : OperandKind} {value : Word} (hplain : kind.Plain value) :
    '\n' ∉ (renderOperand kind value).toList := by
  cases kind with
  | register =>
    rw [renderOperand, ← Register.val_ofWord hplain.2]
    exact Lexer.newline_not_mem_register _
  | parenRegister =>
    have hregister := Lexer.newline_not_mem_register (Register.ofWord value)
    rw [renderOperand, ← Register.val_ofWord hplain.2]
    simpa using hregister
  | label => exact absurd rfl hplain.1
  | unsigned5 | signed16 | unsigned16 | integer32 => exact Lexer.newline_not_mem_integer _

theorem newline_not_mem_more (previous : OperandKind) {kinds : List OperandKind}
    {values : List Word} (hplain : List.Forall₂ Plain kinds values) :
    '\n' ∉ (renderMore previous kinds values).toList := by
  induction hplain generalizing previous with
  | nil => simp [renderMore]
  | cons hone hrest ih =>
    rename_i kind value kinds values
    rw [renderMore, String.toList_append, String.toList_append, List.mem_append, List.mem_append]
    have hseparator : '\n' ∉ (if kind = .parenRegister ∧ previous = .signed16 then ""
        else ", ").toList := by
      split_ifs <;> decide
    rintro ((hmem | hmem) | hmem)
    · exact hseparator hmem
    · exact newline_not_mem_operand hone hmem
    · exact ih kind hmem

/-- A statement is written as its mnemonic and the operands after a blank. -/
theorem exists_after {s : EncodedStatement} (hknown : s.instruction ∈ BasicInstruction.table)
    (hplain : List.Forall₂ Plain s.instruction.operandKinds s.operands) :
    ∃ cs, s.render.toList = s.instruction.mnemonic.toList ++ cs ∧ Stops cs ∧ '\n' ∉ cs ∧
      Lexes (some .identifier) cs (tokensAfter s.instruction.operandKinds s.operands) := by
  have hfirst := first_register_or_label _ hknown
  rw [render]
  -- Kinds and values are fields of `s`, so they are made variables before the case split.
  revert hplain hfirst
  generalize s.instruction.operandKinds = kinds
  generalize s.operands = values
  intro hplain hfirst
  cases hplain with
  | nil => exact ⟨[], by simp, by simp [Stops], by simp, Lexer.lexes_nil _⟩
  | cons hone hrest =>
    rename_i kind value kinds values
    have hregister : kind = .register := (hfirst kind rfl).resolve_right hone.1
    obtain ⟨hstops, hmore⟩ := lexes_more kind hrest
    refine ⟨' ' :: (renderOperand kind value).toList ++ (renderMore kind kinds values).toList,
      by simp, ?_, ?_, Lexer.lexes_blank ?_⟩
    · intro c hc
      cases hc
      rfl
    · have hoperand := newline_not_mem_operand hone
      have hmore := newline_not_mem_more kind hrest
      simp [hoperand, hmore]
    · exact lexes_operand hone (.inr (by simp [hregister])) hstops hmore

theorem tokens_render {s : EncodedStatement} (hknown : s.instruction ∈ BasicInstruction.table)
    (hplain : List.Forall₂ Plain s.instruction.operandKinds s.operands) (file : String)
    (line : Nat) :
    ∃ t ts, Lexer.tokens file line s.render = .ok (t :: ts) ∧ t.kind = .identifier ∧
      t.literal = s.instruction.mnemonic ∧
      ts.map Token.kind = tokensAfter s.instruction.operandKinds s.operands := by
  obtain ⟨cs, htext, hstops, -, hlexes⟩ := exists_after hknown hplain
  exact Lexer.tokens_of_isName (isName_mnemonic _ hknown) htext hstops hlexes file line

theorem newline_not_mem_render {s : EncodedStatement}
    (hknown : s.instruction ∈ BasicInstruction.table)
    (hplain : List.Forall₂ Plain s.instruction.operandKinds s.operands) :
    '\n' ∉ s.render.toList := by
  obtain ⟨cs, htext, -, hline, -⟩ := exists_after hknown hplain
  rw [htext, List.mem_append, not_or]
  exact ⟨Lexer.newline_not_mem_name (isName_mnemonic _ hknown), hline⟩

end EncodedStatement

/-! ## Tokens to operands -/

namespace Operand

/-- An operand as it was written: one that may stand in the place and has the value, whatever
the labels are. -/
structure Spells (op : Operand) (kind : OperandKind) (value : Word) : Prop where
  accepts : kind.accepts op = true
  resolve : ∀ scope log, Assembler.resolveOperand scope log op = (value, log)

/-- Operands as they were written, one for one. -/
structure SpellAll (ops : List Operand) (kinds : List OperandKind) (values : List Word) :
    Prop where
  accepts : OperandKind.acceptsAll kinds ops = true
  resolve : ∀ scope log, Assembler.resolveOperands scope log ops = (values, log)

theorem SpellAll.nil : SpellAll [] [] [] :=
  ⟨rfl, fun _ _ => rfl⟩

theorem SpellAll.cons {op : Operand} {kind : OperandKind} {value : Word} {ops : List Operand}
    {kinds : List OperandKind} {values : List Word} (hop : op.Spells kind value)
    (hops : SpellAll ops kinds values) :
    SpellAll (op :: ops) (kind :: kinds) (value :: values) := by
  constructor
  · rw [OperandKind.acceptsAll, hop.accepts, hops.accepts]
    rfl
  · intro scope log
    rw [Assembler.resolveOperands, hop.resolve]
    simp [hops.resolve]

theorem SpellAll.resolveStatement {s : ParsedStatement} {i : BasicInstruction}
    {kinds : List OperandKind} {values : List Word} (h : SpellAll s.operands kinds values)
    (hi : s.instruction = .basic i) (a : Assembler) :
    a.resolveStatement s =
      ({ source := s, operands := values, parts := [(i, values)] }, a.log) := by
  rw [Assembler.resolveStatement, h.resolve, hi]
  rfl

theorem Spells.isInteger {op : Operand} {value : Word} (h : op.Spells .signed16 value) :
    op.isInteger = true := by
  have haccepts := h.accepts
  cases op with
  | integer t v => rfl
  | register t r | parenRegister t r | label t v => cases haccepts

theorem take_integer {kind : OperandKind} {value : Word} (haccepts : kind.acceptsValue value = true)
    {tokens : List Token} {kinds : List TokenKind}
    (htokens : tokens.map Token.kind = .integer value :: kinds) :
    ∃ t rest op after, tokens = t :: rest ∧ take t rest = .ok (op, after) ∧
      op.Spells kind value ∧ after.map Token.kind = kinds := by
  obtain ⟨t, rest, rfl, hkind, hrest⟩ := List.map_eq_cons_iff.mp htokens
  refine ⟨t, rest, integer t value, rest, rfl, by rw [take, hkind], ⟨?_, fun _ _ => rfl⟩, hrest⟩
  cases kind <;> exact haccepts

/-- An operand is read off the front of the tokens, whatever comes after it. -/
theorem take_operand {kind : OperandKind} {value : Word} (hplain : kind.Plain value)
    {tokens : List Token} {kinds : List TokenKind}
    (htokens : tokens.map Token.kind = EncodedStatement.operandTokens kind value ++ kinds) :
    ∃ t rest op after, tokens = t :: rest ∧ take t rest = .ok (op, after) ∧
      op.Spells kind value ∧ after.map Token.kind = kinds := by
  cases kind with
  | register =>
    obtain ⟨t, rest, rfl, hregister, hrest⟩ := List.map_eq_cons_iff.mp htokens
    refine ⟨t, rest, _, rest, rfl, by rw [take, hregister], ⟨rfl, fun scope log => ?_⟩, hrest⟩
    rw [Assembler.resolveOperand, Register.ofNat_ofWord hplain.2]
  | parenRegister =>
    obtain ⟨opening, rest, rfl, hopening, hinner⟩ := List.map_eq_cons_iff.mp htokens
    obtain ⟨inner, rest, rfl, hregister, hclose⟩ := List.map_eq_cons_iff.mp hinner
    obtain ⟨closing, rest, rfl, hclosing, hrest⟩ := List.map_eq_cons_iff.mp hclose
    refine ⟨opening, _, parenRegister inner (Register.ofWord value), rest, rfl, ?_,
      ⟨rfl, fun scope log => ?_⟩, hrest⟩
    · rw [take, hopening]
      dsimp only
      rw [takeParenthesis, hregister]
      exact if_pos hclosing
    · rw [Assembler.resolveOperand, Register.ofNat_ofWord hplain.2]
  | label => exact absurd rfl hplain.1
  | unsigned5 | signed16 | unsigned16 | integer32 => exact take_integer hplain.2 htokens

theorem parse_operands {kind : OperandKind} {value : Word} {kinds : List OperandKind}
    {values : List Word} (hone : kind.Plain value)
    (hplain : List.Forall₂ OperandKind.Plain kinds values) {tokens : List Token}
    (htokens : tokens.map Token.kind =
      EncodedStatement.operandTokens kind value ++ EncodedStatement.moreTokens kind kinds values) :
    ∃ ops, parse tokens = .ok ops ∧ SpellAll ops (kind :: kinds) (value :: values) := by
  induction hplain generalizing kind value tokens with
  | nil =>
    obtain ⟨t, rest, op, after, rfl, htake, hop, hafter⟩ := take_operand hone htokens
    have hnil : after = [] := List.map_eq_nil_iff.mp hafter
    rw [hnil] at htake
    exact ⟨[op], parse_last htake, .cons hop .nil⟩
  | cons hnext hrest ih =>
    rename_i next nextValue kinds values
    obtain ⟨t, rest, op, after, rfl, htake, hop, hafter⟩ := take_operand hone htokens
    rw [EncodedStatement.moreTokens] at hafter
    -- The next operand is joined to an offset, or else a comma comes first.
    split_ifs at hafter with hjoined
    · obtain ⟨ops, hparse, hops⟩ := ih hnext hafter
      obtain ⟨rfl, rfl⟩ := hjoined
      obtain ⟨opening, more, rfl, hopening, -⟩ := List.map_eq_cons_iff.mp hafter
      exact ⟨op :: ops, parse_offset htake hopening hop.isInteger hparse, .cons hop hops⟩
    · obtain ⟨comma, more, rfl, hcomma, hmore⟩ := List.map_eq_cons_iff.mp hafter
      obtain ⟨ops, hparse, hops⟩ := ih hnext hmore
      have hne : more ≠ [] := by
        rintro rfl
        rw [parse] at hparse
        cases hparse
        cases hops.accepts
      exact ⟨op :: ops, parse_comma htake hcomma hne hparse, .cons hop hops⟩

end Operand

/-! ## Operands to instruction -/

theorem OperandKind.length_eq_of_acceptsAll {kinds : List OperandKind} {ops : List Operand}
    (h : acceptsAll kinds ops = true) : ops.length = kinds.length := by
  fun_induction acceptsAll kinds ops with
  | case1 => rfl
  | case2 kind kinds op ops ih =>
    rw [Bool.and_eq_true] at h
    rw [List.length_cons, List.length_cons, ih h.2]
  | case3 => cases h

namespace Instruction

/-- The first candidate with as many operands as a basic instruction is that instruction. -/
theorem first_candidate : ∀ i ∈ BasicInstruction.table,
    (candidates i.mnemonic).find? (·.operandKinds.length == i.operandKinds.length) =
      some (.basic i) := by
  decide +kernel

theorem isMnemonic_of_mem {i : BasicInstruction} (hi : i ∈ BasicInstruction.table) :
    isMnemonic i.mnemonic = true := by
  have hmem := List.mem_of_find?_eq_some (first_candidate i hi)
  rw [isMnemonic, List.isEmpty_eq_false_iff.mpr (List.ne_nil_of_mem hmem)]
  rfl

theorem select?_of_acceptsAll {i : BasicInstruction} (hi : i ∈ BasicInstruction.table)
    {ops : List Operand} (h : OperandKind.acceptsAll i.operandKinds ops = true) :
    select? i.mnemonic ops = some (.basic i) := by
  obtain ⟨-, before, after, hcandidates, hbefore⟩ :=
    List.find?_eq_some_iff_append.mp (first_candidate i hi)
  rw [select?, List.find?_eq_some_iff_append]
  refine ⟨h, before, after, hcandidates, fun j hj => ?_⟩
  -- A candidate that stands earlier has another number of operands.
  have hlength := hbefore j hj
  rw [Bool.not_eq_true', beq_eq_false_iff_ne] at hlength
  rw [Bool.not_eq_true', ← Bool.not_eq_true]
  intro haccepts
  apply hlength
  rw [← OperandKind.length_eq_of_acceptsAll haccepts, OperandKind.length_eq_of_acceptsAll h]

end Instruction

/-! ## A file of one line -/

theorem SourceFile.ofText_line {name text : String} {t : Token} {ts : List Token}
    (hline : '\n' ∉ text.toList) (h : Lexer.tokens name 1 text = .ok (t :: ts)) :
    ofText name text = ({ name, lines := [{ number := 1, text, tokens := t :: ts }] }, []) := by
  have hne : text ≠ "" := by
    rintro rfl
    rw [Lexer.tokens, String.toList_empty, Lexer.scan] at h
    cases h
  have hsplit : splitLines text = [text] := by
    simp [splitLines, List.splitOn_eq_singleton hline, hne]
  simp [ofText, hsplit, readLine, h]

namespace Item

theorem takeLabels_of_head? {t : Token} {ts : List Token} (h : ∀ u ∈ ts.head?, u.kind ≠ .colon) :
    takeLabels (t :: ts) = ([], t :: ts) := by
  cases ts with
  | nil => rfl
  | cons u us => rw [takeLabels, if_neg fun hboth => h u rfl hboth.2]

theorem parseLines_statement {line : SourceLine} {t : Token} {ts : List Token}
    (hline : line.tokens = t :: ts) (hkind : t.kind = .identifier)
    (hhead : ∀ u ∈ ts.head?, u.kind ≠ .colon) (hknown : Instruction.isMnemonic t.literal = true) :
    parseLines [line] = [parseStatement line.text t ts] := by
  rw [parseLines, hline, takeLabels_of_head? hhead]
  simp [hkind, hknown, parseLines]

end Item

namespace EncodedStatement

/-- No operand begins with a colon, so a mnemonic is not taken for a label. -/
theorem head?_ne_colon {kinds : List OperandKind} {values : List Word} {ts : List Token}
    (hts : ts.map Token.kind = tokensAfter kinds values) : ∀ u ∈ ts.head?, u.kind ≠ .colon := by
  have hafter : (tokensAfter kinds values).head? ≠ some .colon := by
    rcases kinds with _ | ⟨kind, kinds⟩
    · simp [tokensAfter]
    · rcases values with _ | ⟨value, values⟩
      · simp [tokensAfter]
      · cases kind <;> simp [tokensAfter, operandTokens]
  intro u hu hcolon
  apply hafter
  rw [← hts, List.head?_map, Option.mem_def.mp hu, Option.map_some, hcolon]

theorem parse_after {kinds : List OperandKind} {values : List Word}
    (hplain : List.Forall₂ OperandKind.Plain kinds values) {ts : List Token}
    (hts : ts.map Token.kind = tokensAfter kinds values) :
    ∃ ops, Operand.parse ts = .ok ops ∧ Operand.SpellAll ops kinds values := by
  cases hplain with
  | nil =>
    have hnil : ts = [] := List.map_eq_nil_iff.mp hts
    exact ⟨[], by rw [hnil, Operand.parse], .nil⟩
  | cons hone hrest => exact Operand.parse_operands hone hrest hts

/-- What a word decodes to can be assembled again: unless there is a label in it, the
statement as it is written is read without complaint as one statement, and with any labels
defined this has one part, which encodes to the word. -/
theorem reassemble_render {w : Word} {address : Address} {st : EncodedStatement}
    (h : decode? w address = some st) (hlabel : .label ∉ st.instruction.operandKinds)
    (name : String) :
    ∃ file s, SourceFile.ofText name st.render = (file, []) ∧
      Item.ofFile file = [.item (.statement s)] ∧
      ∀ a : Assembler, ∃ resolved, a.resolveStatement s = (resolved, a.log) ∧
        resolved.parts = [(st.instruction, st.operands)] ∧
        st.instruction.encode st.operands address = .ok w := by
  have hcode : st.instruction ∈ BasicInstruction.table ∧
      List.Forall₂ OperandKind.InRange st.instruction.operandKinds st.operands ∧
      st.instruction.encode st.operands address = .ok w := by
    obtain ⟨i, hi, rfl⟩ := Option.map_eq_some_iff.mp h
    exact BasicInstruction.encode_of_ofWord? hi address
  obtain ⟨hknown, hrange, hencode⟩ := hcode
  have hplain := OperandKind.forall₂_plain hlabel hrange
  obtain ⟨t, ts, htokens, hkind, hliteral, hts⟩ := tokens_render hknown hplain name 1
  obtain ⟨ops, hparse, hops⟩ := parse_after hplain hts
  have hmnemonic : Instruction.isMnemonic t.literal = true := by
    rw [hliteral]
    exact Instruction.isMnemonic_of_mem hknown
  refine ⟨_, ⟨t, .basic st.instruction, ops, Text.trim st.render⟩,
    SourceFile.ofText_line (newline_not_mem_render hknown hplain) htokens, ?_,
    fun a => ⟨_, hops.resolveStatement rfl a, rfl, hencode⟩⟩
  rw [Item.ofFile, Item.parseLines_statement rfl hkind (head?_ne_colon hts) hmnemonic,
    Item.parseStatement, hparse]
  simp only [hliteral, Instruction.select?_of_acceptsAll hknown hops.accepts]

/-- A load from below the stack pointer: the minus sign is read after a comma, the
parenthesis right after the offset. -/
theorem reassemble_render_load :
    ∃ st, decode? 0x8fa8fffc 0x00400000 = some st ∧ st.render = "lw $t0, -4($sp)" ∧
      ∃ file s, SourceFile.ofText "line" st.render = (file, []) ∧
        Item.ofFile file = [.item (.statement s)] ∧
        ∀ a : Assembler, ∃ resolved, a.resolveStatement s = (resolved, a.log) ∧
          resolved.parts = [(st.instruction, st.operands)] ∧
          st.instruction.encode st.operands 0x00400000 = .ok 0x8fa8fffc := by
  have hdecode : decode? 0x8fa8fffc 0x00400000 =
      some ⟨BasicInstruction.lw, [8, 0xfffffffc, 29], 0x8fa8fffc, none⟩ := by
    decide +kernel
  exact ⟨_, hdecode, by decide +kernel, reassemble_render hdecode (by decide) "line"⟩

end EncodedStatement
end MipsImage
