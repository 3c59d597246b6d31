/-
Every token of a file is accounted for once.

An item or a report stands for some of the tokens of a file: a label for its name and its
colon, a directive for the rest of its line and the lines that carry on its list, a
statement for the rest of its line, and a report for the rest of a line, with a token in it
to blame.  `Takes` says so by places, since a token may well be repeated.  What one line
comes to is said once, in `parseLines_cases`: labels, and then nothing, or one item or
report and perhaps some lines more.  Put one after the other, the places taken are all the
places of the file in order, so nothing is lost and nothing is taken twice.
-/
import MipsImage.Proofs.Log
import MipsImage.Proofs.Source.Grammar
import MipsImage.Source.Item

namespace MipsImage

/-! ## Places -/

/-- A token at its place: the number of its line in the file and its number in the line. -/
structure Occurrence where
  line : Nat
  index : Nat
  token : Token
  deriving DecidableEq, Repr

namespace Occurrence

/-- Tokens in a row on one line, from the place `index` on. -/
def row (line index : Nat) (ts : List Token) : List Occurrence :=
  (ts.zipIdx index).map fun e => ⟨line, e.2, e.1⟩

/-- The tokens of lines in a row, from the line `n` on. -/
def page (n : Nat) (lines : List SourceLine) : List Occurrence :=
  (lines.zipIdx n).flatMap fun e => row e.2 0 e.1.tokens

theorem row_cons (line index : Nat) (t : Token) (ts : List Token) :
    row line index (t :: ts) = ⟨line, index, t⟩ :: row line (index + 1) ts := rfl

theorem page_cons (n : Nat) (line : SourceLine) (lines : List SourceLine) :
    page n (line :: lines) = row n 0 line.tokens ++ page (n + 1) lines := rfl

theorem page_append (n : Nat) (lines more : List SourceLine) :
    page n (lines ++ more) = page n lines ++ page (n + lines.length) more := by
  rw [page, List.zipIdx_append, List.flatMap_append, Nat.add_comm n]
  rfl

theorem map_token_row (line index : Nat) (ts : List Token) :
    (row line index ts).map token = ts := by
  rw [row, List.map_map]
  exact List.zipIdx_map_fst index ts

theorem map_token_page (n : Nat) (lines : List SourceLine) :
    (page n lines).map token = lines.flatMap (·.tokens) := by
  induction lines generalizing n with
  | nil => rfl
  | cons line rest ih => rw [page_cons, List.map_append, map_token_row, ih, List.flatMap_cons]

theorem place_of_mem_row {line index : Nat} {ts : List Token} {o : Occurrence}
    (h : o ∈ row line index ts) : o.line = line ∧ index ≤ o.index := by
  obtain ⟨e, he, rfl⟩ := List.mem_map.mp h
  exact ⟨rfl, (List.mem_zipIdx he).1⟩

theorem le_of_mem_page {n : Nat} {lines : List SourceLine} {o : Occurrence}
    (h : o ∈ page n lines) : n ≤ o.line := by
  obtain ⟨e, he, ho⟩ := List.mem_flatMap.mp h
  rw [(place_of_mem_row ho).1]
  exact (List.mem_zipIdx he).1

theorem nodup_row (line index : Nat) (ts : List Token) : (row line index ts).Nodup := by
  induction ts generalizing index with
  | nil => exact List.nodup_nil
  | cons t rest ih =>
    rw [row_cons]
    refine List.nodup_cons.mpr ⟨fun h => ?_, ih (index + 1)⟩
    exact Nat.not_succ_le_self index (place_of_mem_row h).2

/-- A place is met once in a file. -/
theorem nodup_page (n : Nat) (lines : List SourceLine) : (page n lines).Nodup := by
  induction lines generalizing n with
  | nil => exact List.nodup_nil
  | cons line rest ih =>
    rw [page_cons]
    refine List.nodup_append'.mpr ⟨nodup_row n 0 line.tokens, ih (n + 1), fun o ho ho' => ?_⟩
    have hline := (place_of_mem_row ho).1
    have hlater := le_of_mem_page ho'
    omega

end Occurrence

theorem ItemError.level_cases (e : ItemError) : e.level = .error ∨ e.level = .warning := by
  cases e with
  | unsupportedDirective name => exact .inr rfl
  | _ => exact .inl rfl

namespace Item

open Occurrence (row page row_cons page_cons page_append)

/-- The places that an item or a report accounts for. -/
inductive Takes (lines : List SourceLine) : Outcome → List Occurrence → Prop where
  /-- The name and the colon of a label. -/
  | label {n i : Nat} {line : SourceLine} {name colon : Token} {rest : List Token}
      (here : lines[n]? = some line) (tokens : line.tokens.drop i = name :: colon :: rest)
      (named : name.kind = .identifier) (ended : colon.kind = .colon) :
      Takes lines (.item (.label name)) (row n i [name, colon])
  /-- The line from the directive on, and the lines after it that carry on its list. -/
  | directive {n i : Nat} {line : SourceLine} {d : Directive} {token : Token} {rest : List Token}
      {more : List SourceLine} (here : lines[n]? = some line)
      (tokens : line.tokens.drop i = token :: rest) (kind : token.kind = .directive)
      (known : Directive.ofName? token.literal = some d)
      (carried : more = continuation d (lines.drop (n + 1))) :
      Takes lines (.item (.directive d token (rest ++ more.flatMap (·.tokens))))
        (row n i (token :: rest) ++ page (n + 1) more)
  /-- The line from the mnemonic on. -/
  | statement {n i : Nat} {line : SourceLine} {s : ParsedStatement} {operands : List Token}
      (here : lines[n]? = some line) (tokens : line.tokens.drop i = s.mnemonic :: operands)
      (read : Operand.parse operands = .ok s.operands) :
      Takes lines (.item (.statement s)) (row n i (s.mnemonic :: operands))
  /-- The line from some token on, with a token in it that the report is about. -/
  | skipped {n i : Nat} {line : SourceLine} {d : Diagnostic} {suffix : List Token} {t : Token}
      (here : lines[n]? = some line) (tokens : line.tokens.drop i = suffix)
      (blamed : t ∈ suffix) (located : d.location = some t.location)
      (level : d.level = .error ∨ d.level = .warning) :
      Takes lines (.problem d) (row n i suffix)

/-! ## One line -/

section Line

variable {lines : List SourceLine} {n i : Nat} {line : SourceLine}

theorem takes_refuse (here : lines[n]? = some line) {suffix : List Token}
    (tokens : line.tokens.drop i = suffix) (e : ItemError) {t : Token} (ht : t ∈ suffix) :
    Takes lines (refuse e t) (row n i suffix) :=
  .skipped here tokens ht rfl (ItemError.level_cases e)

/-- Statement or not, the tokens from the mnemonic on are taken. -/
theorem takes_parseStatement (here : lines[n]? = some line) {t : Token} {ts : List Token}
    (tokens : line.tokens.drop i = t :: ts) (lineText : String) :
    Takes lines (parseStatement lineText t ts) (row n i (t :: ts)) := by
  rw [parseStatement]
  cases hread : Operand.parse ts with
  | error fault =>
    have hmem := Operand.mem_of_parse_eq_error hread
    exact takes_refuse here tokens _ (List.mem_cons_of_mem t hmem)
  | ok ops =>
    dsimp only
    cases Instruction.select? t.literal ops with
    | none => exact takes_refuse here tokens _ List.mem_cons_self
    | some instruction => exact .statement here tokens hread

/-- The labels at the front are taken one by one. -/
theorem takes_takeLabels (here : lines[n]? = some line) {ts : List Token}
    (tokens : line.tokens.drop i = ts) :
    ∃ taken j, List.Forall₂ (Takes lines)
        ((takeLabels ts).1.map fun t => .item (.label t)) taken ∧
      line.tokens.drop j = (takeLabels ts).2 ∧
      row n i ts = taken.flatten ++ row n j (takeLabels ts).2 := by
  fun_induction takeLabels ts generalizing i with
  | case1 name colon rest hlabel ih =>
    have hrest : line.tokens.drop (i + 2) = rest := by
      rw [← List.drop_drop, tokens]
      rfl
    obtain ⟨taken, j, htakes, hdrop, hrow⟩ := ih hrest
    refine ⟨row n i [name, colon] :: taken, j, .cons ?_ htakes, hdrop, ?_⟩
    · exact .label here tokens hlabel.1 hlabel.2
    · rw [row_cons, row_cons, hrow]
      rfl
  | case2 name colon rest hlabel => exact ⟨[], i, .nil, tokens, rfl⟩
  | case3 ts => exact ⟨[], i, .nil, tokens, rfl⟩

end Line

/-- What a line comes to after its labels: nothing if there is nothing left, and otherwise an
item or a report, which for a directive may use up some of the lines after it. -/
theorem parseLines_cases (line : SourceLine) (rest : List SourceLine) :
    let labels : List Outcome := (takeLabels line.tokens).1.map fun t => .item (.label t)
    ((takeLabels line.tokens).2 = [] ∧ parseLines (line :: rest) = labels ++ parseLines rest) ∨
    ∃ t ts, (takeLabels line.tokens).2 = t :: ts ∧
      ((∃ e, parseLines (line :: rest) = labels ++ refuse e t :: parseLines rest) ∨
        parseLines (line :: rest) =
          labels ++ parseStatement line.text t ts :: parseLines rest ∨
        ∃ d more, t.kind = .directive ∧ Directive.ofName? t.literal = some d ∧
          more = continuation d rest ∧
          parseLines (line :: rest) =
            labels ++ .item (.directive d t (ts ++ more.flatMap (·.tokens))) ::
              parseLines (rest.drop more.length)) := by
  intro labels
  rw [parseLines]
  dsimp only
  cases htail : (takeLabels line.tokens).2 with
  | nil => exact .inl ⟨rfl, rfl⟩
  | cons t ts =>
    refine .inr ⟨t, ts, rfl, ?_⟩
    dsimp only
    cases hkind : t.kind with
    | directive =>
      cases hname : Directive.ofName? t.literal with
      | none => exact .inl ⟨_, rfl⟩
      | some d => exact .inr (.inr ⟨d, _, rfl, rfl, rfl, rfl⟩)
    | identifier =>
      dsimp only
      split_ifs with hmnemonic
      · exact .inr (.inl rfl)
      · exact .inl ⟨_, rfl⟩
    | _ => exact .inl ⟨_, rfl⟩

/-! ## Where statements come from -/

theorem mem_of_mem_takeLabels {ts : List Token} {t : Token} (h : t ∈ (takeLabels ts).2) :
    t ∈ ts := by
  fun_induction takeLabels ts with
  | case1 name colon rest hlabel ih => exact List.mem_cons_of_mem _ (List.mem_cons_of_mem _ (ih h))
  | case2 => exact h
  | case3 => exact h

theorem eq_of_parseStatement {lineText : String} {mnemonic : Token} {operands : List Token}
    {s : ParsedStatement} (h : parseStatement lineText mnemonic operands = .item (.statement s)) :
    s.mnemonic = mnemonic := by
  rw [parseStatement] at h
  split at h
  · cases h
  · split at h
    · cases h
    · cases h
      rfl

theorem known_of_parseStatement {lineText : String} {mnemonic : Token} {operands : List Token}
    {s : ParsedStatement} (h : parseStatement lineText mnemonic operands = .item (.statement s)) :
    s.instruction ∈ Instruction.all := by
  rw [parseStatement] at h
  split at h
  · cases h
  · split at h
    · cases h
    · rename_i hselect
      cases h
      exact (List.mem_filter.mp (List.mem_of_find?_eq_some hselect)).1

/-- A statement is made by a mnemonic on some line. -/
theorem parseStatement_of_mem_parseLines {lines : List SourceLine} {s : ParsedStatement}
    (h : .item (.statement s) ∈ parseLines lines) :
    ∃ line ∈ lines, ∃ t ∈ line.tokens, ∃ ts,
      parseStatement line.text t ts = .item (.statement s) := by
  have hrefuse (e : ItemError) (token : Token) : Outcome.item (.statement s) ≠ refuse e token := by
    intro heq
    cases heq
  induction hlength : lines.length using Nat.strong_induction_on generalizing lines with
  | _ length ih =>
    cases lines with
    | nil =>
      rw [parseLines] at h
      cases h
    | cons line rest =>
      have hlabel (tail : List Outcome)
          (hmem : .item (.statement s) ∈
            (takeLabels line.tokens).1.map (fun t => Outcome.item (.label t)) ++ tail) :
          .item (.statement s) ∈ tail := by
        rcases List.mem_append.mp hmem with hlabel | htail
        · obtain ⟨t, -, heq⟩ := List.mem_map.mp hlabel
          cases heq
        · exact htail
      have hlater (n : Nat) (hmem : .item (.statement s) ∈ parseLines (rest.drop n)) :
          ∃ l ∈ line :: rest, ∃ t ∈ l.tokens, ∃ ts,
            parseStatement l.text t ts = .item (.statement s) := by
        have hshorter : (rest.drop n).length < length := by
          rw [← hlength, List.length_drop, List.length_cons]
          omega
        obtain ⟨l, hl, hmade⟩ := ih _ hshorter hmem rfl
        exact ⟨l, List.mem_cons_of_mem line (List.mem_of_mem_drop hl), hmade⟩
      -- Only a line with a mnemonic makes a statement, and the others are skipped.
      rcases parseLines_cases line rest with ⟨-, heq⟩ | ⟨t, ts, hcons, hcase⟩
      · rw [heq] at h
        exact hlater 0 (hlabel _ h)
      · rcases hcase with ⟨e, heq⟩ | heq | ⟨d, more, -, -, -, heq⟩
        · rw [heq] at h
          rcases List.mem_cons.mp (hlabel _ h) with hthis | hrest
          · exact absurd hthis (hrefuse e t)
          · exact hlater 0 hrest
        · rw [heq] at h
          rcases List.mem_cons.mp (hlabel _ h) with hthis | hrest
          · have ht : t ∈ line.tokens :=
              mem_of_mem_takeLabels (hcons ▸ List.mem_cons_self)
            exact ⟨line, List.mem_cons_self, t, ht, ts, hthis.symm⟩
          · exact hlater 0 hrest
        · rw [heq] at h
          rcases List.mem_cons.mp (hlabel _ h) with hthis | hrest
          · cases hthis
          · exact hlater more.length hrest

theorem known_of_statement {f : SourceFile} {s : ParsedStatement}
    (hs : .item (.statement s) ∈ Item.ofFile f) : s.instruction ∈ Instruction.all := by
  obtain ⟨line, -, t, -, ts, hparse⟩ := parseStatement_of_mem_parseLines hs
  exact known_of_parseStatement hparse

/-! ## A whole file -/

theorem continuation_prefix (d : Directive) (rest : List SourceLine) :
    continuation d rest <+: rest := by
  rw [continuation]
  split_ifs
  · exact List.takeWhile_prefix _
  · exact List.nil_prefix

/-- From any line on, the outcomes take the places in order and leave none out. -/
theorem takes_parseLines (lines : List SourceLine) (n : Nat) :
    ∃ taken, List.Forall₂ (Takes lines) (parseLines (lines.drop n)) taken ∧
      taken.flatten = page n (lines.drop n) := by
  -- The lines after the one at hand are fewer, also where a directive has used some up.
  induction hleft : lines.length - n using Nat.strong_induction_on generalizing n with
  | _ left ih =>
    cases hdrop : lines.drop n with
    | nil => exact ⟨[], by rw [parseLines]; exact .nil, rfl⟩
    | cons line rest =>
      have here : lines[n]? = some line := by
        rw [← List.head?_drop, hdrop]
        rfl
      have hrest : lines.drop (n + 1) = rest := by
        rw [← List.drop_drop, hdrop]
        rfl
      have hlt : n < lines.length := (List.getElem?_eq_some_iff.mp here).1
      obtain ⟨labels, j, hlabels, htail, hrow⟩ :=
        takes_takeLabels (i := 0) here (List.drop_zero (l := line.tokens))
      obtain ⟨after, hafter, hpage⟩ := ih (lines.length - (n + 1)) (by omega) (n + 1) rfl
      rw [hrest] at hafter hpage
      rw [page_cons, hrow]
      rcases parseLines_cases line rest with ⟨hnil, heq⟩ | ⟨t, ts, hcons, hcase⟩
      · refine ⟨labels ++ after, ?_, ?_⟩
        · rw [heq]
          exact List.rel_append hlabels hafter
        · rw [List.flatten_append, hpage, hnil]
          simp [row]
      · rw [hcons] at htail ⊢
        rcases hcase with ⟨e, heq⟩ | heq | ⟨d, more, hkind, hname, hmore, heq⟩
        · refine ⟨labels ++ row n j (t :: ts) :: after, ?_, ?_⟩
          · rw [heq]
            exact List.rel_append hlabels
              (.cons (takes_refuse here htail e List.mem_cons_self) hafter)
          · simp [hpage]
        · refine ⟨labels ++ row n j (t :: ts) :: after, ?_, ?_⟩
          · rw [heq]
            exact List.rel_append hlabels (.cons (takes_parseStatement here htail _) hafter)
          · simp [hpage]
        · obtain ⟨after', hafter', hpage'⟩ :=
            ih (lines.length - (n + 1 + more.length)) (by omega) (n + 1 + more.length) rfl
          rw [← List.drop_drop, hrest] at hafter' hpage'
          have hsplit : page (n + 1) rest =
              page (n + 1) more ++ page (n + 1 + more.length) (rest.drop more.length) := by
            rw [← page_append, ← List.prefix_append_drop (hmore ▸ continuation_prefix d rest)]
          refine ⟨labels ++ (row n j (t :: ts) ++ page (n + 1) more) :: after', ?_, ?_⟩
          · rw [heq]
            exact List.rel_append hlabels
              (.cons (.directive here htail hkind hname (hrest ▸ hmore)) hafter')
          · simp [hpage', hsplit]

theorem Takes.length_pos {lines : List SourceLine} {o : Outcome} {taken : List Occurrence}
    (h : Takes lines o taken) : 0 < taken.length := by
  cases h with
  | label => exact Nat.succ_pos _
  | directive => exact Nat.succ_pos _
  | statement => exact Nat.succ_pos _
  | skipped here tokens blamed =>
    rw [row, List.length_map, List.length_zipIdx]
    exact List.length_pos_of_mem blamed

theorem length_le_of_takes {lines : List SourceLine} {outcomes : List Outcome}
    {taken : List (List Occurrence)} (h : List.Forall₂ (Takes lines) outcomes taken) :
    outcomes.length ≤ taken.flatten.length := by
  induction h with
  | nil => exact Nat.le_refl 0
  | cons hone _ ih =>
    have hpos := hone.length_pos
    rw [List.flatten_cons, List.length_append, List.length_cons]
    omega

/-- A file is read to its end in at most as many steps as it has tokens.  Its items and the
reports take all of its tokens in order, no two of them take the same, and the log ends with
the reports, one for each part of a line that was skipped. -/
theorem readAll_accounts (f : SourceFile) (log : Log) (hlog : log.limit = none) :
    ∃ taken, List.Forall₂ (Takes f.lines) (ofFile f) taken ∧
      taken.flatten = page 0 f.lines ∧
      (page 0 f.lines).map Occurrence.token = f.lines.flatMap (·.tokens) ∧
      taken.Pairwise List.Disjoint ∧
      (ofFile f).length ≤ (f.lines.flatMap (·.tokens)).length ∧
      (readAll f log).1 = (ofFile f).filterMap Outcome.item? ∧
      (readAll f log).2.messages.toList =
        log.messages.toList ++ (ofFile f).filterMap Outcome.problem? := by
  obtain ⟨taken, htakes, hplaces⟩ := takes_parseLines f.lines 0
  rw [List.drop_zero] at htakes hplaces
  have htokens := Occurrence.map_token_page 0 f.lines
  have hnodup : taken.flatten.Nodup := hplaces ▸ Occurrence.nodup_page 0 f.lines
  refine ⟨taken, htakes, hplaces, htokens, (List.nodup_flatten.mp hnodup).2, ?_, rfl,
    (Log.addAll_of_unlimited hlog _).2⟩
  calc (ofFile f).length ≤ taken.flatten.length := length_le_of_takes htakes
    _ = (f.lines.flatMap (·.tokens)).length := by rw [hplaces, ← htokens, List.length_map]

set_option maxRecDepth 10000 in
/-- A list that goes on over two lines and stops at a label, and two lines that are skipped from
the middle and from the start. -/
theorem readAll_accounts_skipped :
    let f := (SourceFile.ofText "skip.s"
      "x: .word 1, 2\n  3\n  y, 4\nz: frob 5\n.nothing 6\nnop\n").1
    ∃ taken, List.Forall₂ (Takes f.lines) (ofFile f) taken ∧
      taken.flatten.length = 17 ∧ (readAll f (.empty none)).1.length = 4 ∧
      (readAll f (.empty none)).2.messages.toList = (ofFile f).filterMap Outcome.problem? ∧
      ((ofFile f).filterMap Outcome.problem?).length = 2 := by
  intro f
  obtain ⟨taken, htakes, hplaces, -, -, -, -, hlog⟩ := readAll_accounts f (.empty none) rfl
  obtain ⟨hcount, hitems, hreports⟩ : (page 0 f.lines).length = 17 ∧
      (readAll f (.empty none)).1.length = 4 ∧
      ((ofFile f).filterMap Outcome.problem?).length = 2 := by
    decide +kernel
  exact ⟨taken, htakes, hplaces ▸ hcount, hitems, hlog, hreports⟩

end Item
end MipsImage
