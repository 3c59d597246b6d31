/-
How written tokens are read back.

The lexer reads as far as a token can go, so a token that was written is read as itself
when what comes after cannot carry it on.  A minus sign belongs to a number unless an
operand has just ended.  The statements are about the kinds of the tokens, since the place
of a token on its line says nothing about the line.
-/
import Mathlib
import MipsImage.Source.Lexer

namespace MipsImage

/-! ## Digits -/

theorem Text.ofDigits_toDigits (n : Nat) : ofDigits 10 (Nat.toDigits 10 n) = n := by
  have hfold : ∀ (cs : List Char) (m : Nat), (∀ c ∈ cs, c.isDigit = true) →
      cs.foldl (fun n c => 10 * n + digitValue c) m = Nat.ofDigitChars 10 cs m := by
    intro cs
    induction cs with
    | nil =>
      intro m _
      rfl
    | cons c rest ih =>
      intro m hcs
      obtain ⟨hc, hrest⟩ := List.forall_mem_cons.mp hcs
      rw [List.foldl_cons, ih _ hrest, digitValue, if_pos hc]
      rfl
  have hdigits : ∀ c ∈ Nat.toDigits 10 n, c.isDigit = true :=
    fun c hc => Nat.isDigit_of_mem_toDigits (by decide) (by decide) hc
  rw [ofDigits, hfold _ _ hdigits]
  exact Nat.ofDigitChars_ten_toDigits

namespace Lexer

/-! ## One token -/

/-- What cannot carry on a name or a number. -/
def Stops (rest : List Char) : Prop :=
  ∀ c ∈ rest.head?, isNameChar c = false

theorem takeWhile_append_of_stops {p : Char → Bool} (hp : ∀ c, p c = true → isNameChar c = true)
    {cs rest : List Char} (hcs : ∀ c ∈ cs, p c = true) (hrest : Stops rest) :
    (cs ++ rest).takeWhile p = cs := by
  rw [List.takeWhile_append_of_pos hcs]
  cases rest with
  | nil => simp
  | cons c tail =>
    have hc : ¬ p c = true := by
      intro hc
      have hname := hrest c rfl
      rw [hp c hc] at hname
      cases hname
    rw [List.takeWhile_cons_of_neg hc, List.append_nil]

theorem isNameChar_of_isDigit {c : Char} (h : c.isDigit = true) : isNameChar c = true := by
  have hascii : c.toNat < 128 := by
    rw [Char.isDigit, Bool.and_eq_true, decide_eq_true_iff, decide_eq_true_iff] at h
    have hle : c.toNat ≤ 57 := UInt32.le_iff_toNat_le.mp h.2
    omega
  have hnumber : Text.isNumber c = true := by
    rw [Text.isNumber, if_pos hascii]
    exact h
  rw [isNameChar, hnumber]
  simp

/-- A mark that is no digit does not stand after the first of some digits. -/
theorem append_ne_mark {cs rest tail : List Char} {first mark : Char}
    (hcs : ∀ c ∈ cs, c.isDigit = true) (hne : cs ≠ []) (hrest : Stops rest)
    (hmark : mark.isDigit = false) (hname : isNameChar mark = true) :
    cs ++ rest ≠ first :: mark :: tail := by
  intro heq
  rcases cs with _ | ⟨c, _ | ⟨d, more⟩⟩
  · exact hne rfl
  · have hafter : rest = mark :: tail := (List.cons.inj heq).2
    have hstop := hrest mark (by rw [hafter]; rfl)
    rw [hname] at hstop
    cases hstop
  · have hd := hcs d (by simp)
    rw [(List.cons.inj (List.cons.inj heq).2).1, hmark] at hd
    cases hd

theorem takeFraction_of_stops {rest : List Char} (hrest : Stops rest) : takeFraction rest = [] := by
  rw [takeFraction.eq_def]
  split
  · have hpoint := hrest '.' rfl
    cases hpoint
  · rfl

theorem takeExponent_of_stops {rest : List Char} (hrest : Stops rest) : takeExponent rest = [] := by
  cases rest with
  | nil => rfl
  | cons c tail =>
    have hc := hrest c rfl
    show (if c == 'e' || c == 'E' then _ else []) = []
    rw [if_neg]
    intro hletter
    rw [Bool.or_eq_true, beq_iff_eq, beq_iff_eq] at hletter
    rcases hletter with rfl | rfl
    · cases hc
    · cases hc

theorem takeNumeral_digits {cs rest : List Char} (hne : cs ≠ []) (hcs : ∀ c ∈ cs, c.isDigit = true)
    (hrest : Stops rest) : takeNumeral (cs ++ rest) = .whole 10 cs := by
  rw [takeNumeral.eq_def]
  split
  -- the four marks of a base
  iterate 4
    · rename_i tail heq
      exact absurd heq (append_ne_mark hcs hne hrest rfl rfl)
  · have hdigits : (cs ++ rest).takeWhile Char.isDigit = cs :=
      takeWhile_append_of_stops (fun _ => isNameChar_of_isDigit) hcs hrest
    simp [hdigits, takeFraction_of_stops hrest, takeExponent_of_stops hrest]

/-! ## Lines -/

/-- The rest of a line, after a token of kind `previous`, is cut into tokens of these kinds. -/
def Lexes (previous : Option TokenKind) (cs : List Char) (kinds : List TokenKind) : Prop :=
  ∀ file line column, ∃ tokens, scan file line previous column cs = .ok tokens ∧
    tokens.map Token.kind = kinds

theorem lexes_nil (previous : Option TokenKind) : Lexes previous [] [] := by
  intro file line column
  exact ⟨[], by rw [scan], rfl⟩

theorem lexes_blank {previous : Option TokenKind} {cs : List Char} {kinds : List TokenKind}
    (h : Lexes previous cs kinds) : Lexes previous (' ' :: cs) kinds := by
  intro file line column
  obtain ⟨tokens, hscan, hkinds⟩ := h file line (column + 1)
  refine ⟨tokens, ?_, hkinds⟩
  have hfront : front previous ' ' cs = .blank := rfl
  rw [scan, hfront]
  exact hscan

/-- The front of a line makes one token, and the rest is read after it. -/
theorem scan_of_front {file : String} {line column : Nat} {previous : Option TokenKind} {c : Char}
    {tail : List Char} {l : Lexeme} {tokens : List Token}
    (hfront : front previous c tail = .lexeme l)
    (hrest : scan file line (some l.kind) (column + 1 + l.more) (tail.drop l.more) = .ok tokens) :
    scan file line previous column (c :: tail) =
      .ok ({ kind := l.kind, literal := l.literal, location := { file, line, column } } ::
        tokens) := by
  rw [scan, hfront]
  dsimp only
  rw [hrest]

theorem lexes_of_front {previous : Option TokenKind} {c : Char} {tail : List Char} {l : Lexeme}
    {kinds : List TokenKind} (hfront : front previous c tail = .lexeme l)
    (h : Lexes (some l.kind) (tail.drop l.more) kinds) :
    Lexes previous (c :: tail) (l.kind :: kinds) := by
  intro file line column
  obtain ⟨tokens, hscan, hkinds⟩ := h file line (column + 1 + l.more)
  exact ⟨_, scan_of_front hfront hscan, by rw [List.map_cons, hkinds]⟩

theorem lexes_symbol {previous : Option TokenKind} {kind : TokenKind} {c : Char} {cs : List Char}
    {kinds : List TokenKind} (hfront : front previous c cs = symbol kind c)
    (h : Lexes (some kind) cs kinds) : Lexes previous (c :: cs) (kind :: kinds) :=
  lexes_of_front hfront h

/-- The characters that settle by themselves what begins with them. -/
def marks : List Char :=
  [' ', '\t', '\r', '\n', '#', ':', ',', '(', ')', '+', '-', '\'', '"', '.', '$']

theorem front_of_not_mem_marks {c : Char} (hc : c ∉ marks) (previous : Option TokenKind)
    (tail : List Char) :
    front previous c tail =
      if c.isDigit then .ofScan (scanNumber false (c :: tail))
      else if isNameStart c then .lexeme (nameLexeme .identifier c tail)
      else .fault { offset := 0, error := .unexpectedCharacter c } := by
  have hne : ∀ m ∈ marks, (c == m) = false := by
    intro m hm
    rw [beq_eq_false_iff_ne]
    rintro rfl
    exact hc hm
  simp only [marks, List.forall_mem_cons] at hne
  obtain ⟨h₁, h₂, h₃, h₄, h₅, h₆, h₇, h₈, h₉, h₁₀, h₁₁, h₁₂, h₁₃, h₁₄, h₁₅, -⟩ := hne
  simp only [front, h₁, h₂, h₃, h₄, h₅, h₆, h₇, h₈, h₉, h₁₀, h₁₁, h₁₂, h₁₃, h₁₄, h₁₅, Bool.or_self,
    Bool.false_and, Bool.false_eq_true, if_false]

theorem front_of_isDigit {c : Char} (hc : c.isDigit = true) (previous : Option TokenKind)
    (tail : List Char) : front previous c tail = .ofScan (scanNumber false (c :: tail)) := by
  have hmarks : c ∉ marks := by
    intro hmem
    have hnone : marks.all (!·.isDigit) = true := rfl
    have hfalse := List.all_eq_true.mp hnone c hmem
    rw [hc] at hfalse
    cases hfalse
  rw [front_of_not_mem_marks hmarks, if_pos hc]

set_option maxRecDepth 10000 in
theorem spells_names (r : Register) :
    (Register.render r.val).toList = '$' :: (Register.names.get r).toList ∧
      (Register.names.get r).toList.all isNameChar = true ∧
      Register.ofString? (Register.names.get r) = some r := by
  revert r
  decide +kernel

/-- Registers are written by names that are read back. -/
theorem exists_name (r : Register) : ∃ name : String,
    (Register.render r.val).toList = '$' :: name.toList ∧
      (∀ c ∈ name.toList, isNameChar c = true) ∧ Register.ofString? name = some r := by
  obtain ⟨htext, hname, hread⟩ := spells_names r
  exact ⟨_, htext, List.all_eq_true.mp hname, hread⟩

theorem scanRegister_of_takeWhile {tail : List Char} {name : String} {r : Register}
    (htake : tail.takeWhile isNameChar = name.toList) (hread : Register.ofString? name = some r) :
    scanRegister tail =
      .ok { kind := .register r, literal := "$" ++ name, more := name.length } := by
  unfold scanRegister
  simp only [htake, String.ofList_toList, hread]

theorem lexes_register {previous : Option TokenKind} (r : Register) {cs : List Char}
    (hcs : Stops cs) {kinds : List TokenKind} (h : Lexes (some (.register r)) cs kinds) :
    Lexes previous ((Register.render r.val).toList ++ cs) (.register r :: kinds) := by
  obtain ⟨name, htext, hname, hread⟩ := exists_name r
  have htake : (name.toList ++ cs).takeWhile isNameChar = name.toList :=
    takeWhile_append_of_stops (fun _ hc => hc) hname hcs
  have hfront : front previous '$' (name.toList ++ cs) =
      .ofScan (scanRegister (name.toList ++ cs)) := rfl
  rw [scanRegister_of_takeWhile htake hread] at hfront
  rw [htext]
  refine lexes_of_front hfront ?_
  show Lexes _ (List.drop name.length (name.toList ++ cs)) kinds
  rw [← String.length_toList, List.drop_left]
  exact h

theorem kind_digits (negative : Bool) {n : Nat} (hn : n < 0x80000000 + negative.toNat)
    (literal : String) :
    (Numeral.whole 10 (Nat.toDigits 10 n)).kind negative literal =
      .ok (.integer (Word.ofInt (if negative then -n else n))) := by
  have hsign := negative.toNat_le
  have hempty : (Nat.toDigits 10 n).isEmpty = false := by
    rw [List.isEmpty_eq_false_iff]
    exact Nat.toDigits_ne_nil
  have hsmall : decide (0x10000000000000000 ≤ n) = false := decide_eq_false (by omega)
  simp only [Numeral.kind, Text.ofDigits_toDigits, hempty, hsmall, Bool.or_self,
    Bool.false_eq_true, if_false]
  cases negative with
  | true =>
    have hfits : ¬ 0x80000000 < n := by
      rw [Bool.toNat_true] at hn
      omega
    simp only [if_true, if_neg hfits]
  | false =>
    have hfits : ¬ 0x100000000 ≤ n := by omega
    have hword : Word.ofInt n = UInt32.ofNat n := by
      rw [Word.ofInt]
      congr 1
      omega
    simp only [Bool.false_eq_true, if_false, if_neg hfits, hword]

/-- The digits of a number are read back, with its sign before them or without. -/
theorem scanNumber_digits (negative : Bool) {n : Nat} (hn : n < 0x80000000 + negative.toNat)
    {cs : List Char} (hcs : Stops cs) :
    let quoted := if negative then '-' :: Nat.toDigits 10 n else Nat.toDigits 10 n
    scanNumber negative (Nat.toDigits 10 n ++ cs) = .ok {
      kind := .integer (Word.ofInt (if negative then -n else n))
      literal := String.ofList quoted
      more := quoted.length - 1 } := by
  have hdigits : ∀ c ∈ Nat.toDigits 10 n, c.isDigit = true :=
    fun c hc => Nat.isDigit_of_mem_toDigits (by decide) (by decide) hc
  have hliteral : (Numeral.whole 10 (Nat.toDigits 10 n)).literal = Nat.toDigits 10 n := rfl
  rw [scanNumber, takeNumeral_digits Nat.toDigits_ne_nil hdigits hcs]
  simp only [hliteral, kind_digits negative hn]

theorem exists_toDigits (n : Nat) : ∃ c digits, Nat.toDigits 10 n = c :: digits ∧
    c.isDigit = true := by
  obtain ⟨c, digits, hdigits⟩ := List.exists_cons_of_ne_nil (Nat.toDigits_ne_nil (n := n) (b := 10))
  have hc : c ∈ Nat.toDigits 10 n := by
    rw [hdigits]
    exact List.mem_cons_self
  exact ⟨c, digits, hdigits, Nat.isDigit_of_mem_toDigits (by decide) (by decide) hc⟩

theorem lexes_natural {previous : Option TokenKind} {n : Nat} (hn : n < 0x80000000)
    {cs : List Char} (hcs : Stops cs) {kinds : List TokenKind}
    (h : Lexes (some (.integer (Word.ofInt n))) cs kinds) :
    Lexes previous (Nat.toDigits 10 n ++ cs) (.integer (Word.ofInt n) :: kinds) := by
  have hscan := scanNumber_digits false hn hcs
  obtain ⟨c, digits, hdigits, hc⟩ := exists_toDigits n
  rw [hdigits, List.cons_append] at hscan ⊢
  have hfront := front_of_isDigit hc previous (digits ++ cs)
  rw [hscan] at hfront
  refine lexes_of_front hfront ?_
  show Lexes _ (List.drop digits.length (digits ++ cs)) kinds
  rw [List.drop_left]
  exact h

/-- A minus sign is part of a number unless an operand has just ended. -/
theorem lexes_negative {previous : Option TokenKind}
    (hprevious : previous.any TokenKind.endsOperand = false) {n : Nat} (hn : n ≤ 0x80000000)
    {cs : List Char} (hcs : Stops cs) {kinds : List TokenKind}
    (h : Lexes (some (.integer (Word.ofInt (-n)))) cs kinds) :
    Lexes previous ('-' :: Nat.toDigits 10 n ++ cs) (.integer (Word.ofInt (-n)) :: kinds) := by
  have hscan := scanNumber_digits true (Nat.lt_succ_of_le hn) hcs
  have hfront : front previous '-' (Nat.toDigits 10 n ++ cs) =
      .ofScan (scanNumber true (Nat.toDigits 10 n ++ cs)) := by
    obtain ⟨c, digits, hdigits, hc⟩ := exists_toDigits n
    show (if !(previous.any TokenKind.endsOperand) &&
      startsWith Char.isDigit (Nat.toDigits 10 n ++ cs) then _ else _) = _
    rw [hprevious, hdigits]
    exact if_pos hc
  rw [hscan] at hfront
  refine lexes_of_front hfront ?_
  show Lexes _ (List.drop (Nat.toDigits 10 n).length (Nat.toDigits 10 n ++ cs)) kinds
  rw [List.drop_left]
  exact h

theorem lexes_integer {previous : Option TokenKind}
    (hprevious : previous.any TokenKind.endsOperand = false) (value : Word) {cs : List Char}
    (hcs : Stops cs) {kinds : List TokenKind} (h : Lexes (some (.integer value)) cs kinds) :
    Lexes previous ((Text.integer (Word.signed value)).toList ++ cs) (.integer value :: kinds) := by
  have hvalue := Word.ofInt_signed value
  have hrange : -0x80000000 ≤ Word.signed value ∧ Word.signed value < 0x80000000 := by
    have hword := value.toNat_lt
    unfold Word.signed
    split <;> omega
  by_cases hsign : Word.signed value < 0
  · have htext : (Text.integer (Word.signed value)).toList =
        '-' :: Nat.toDigits 10 (Word.signed value).natAbs := by
      simp [Text.integer, hsign, Text.decimal]
    have hsame : -((Word.signed value).natAbs : Int) = Word.signed value := by omega
    have hrest : Lexes (some (.integer (Word.ofInt (-((Word.signed value).natAbs : Int))))) cs
        kinds := by
      rw [hsame, hvalue]
      exact h
    have hread := lexes_negative hprevious (by omega) hcs hrest
    rw [hsame, hvalue] at hread
    rw [htext]
    exact hread
  · have htext : (Text.integer (Word.signed value)).toList =
        Nat.toDigits 10 (Word.signed value).natAbs := by
      simp [Text.integer, hsign, Text.decimal]
    have hsame : ((Word.signed value).natAbs : Int) = Word.signed value := by omega
    have hrest : Lexes (some (.integer (Word.ofInt ((Word.signed value).natAbs : Int)))) cs
        kinds := by
      rw [hsame, hvalue]
      exact h
    have hread : Lexes previous _ _ := lexes_natural (by omega) hcs hrest
    rw [hsame, hvalue] at hread
    rw [htext]
    exact hread

theorem scan_identifier {file : String} {line column : Nat} {previous : Option TokenKind} {c : Char}
    {name cs : List Char} {tokens : List Token} (hc : c ∉ marks) (hdigit : c.isDigit = false)
    (hstart : isNameStart c = true) (hname : ∀ d ∈ name, isNameChar d = true) (hcs : Stops cs)
    (h : scan file line (some .identifier) (column + 1 + name.length) cs = .ok tokens) :
    scan file line previous column (c :: name ++ cs) =
      .ok ({ kind := .identifier, literal := String.ofList (c :: name),
             location := { file, line, column } } :: tokens) := by
  have htake : (name ++ cs).takeWhile isNameChar = name :=
    takeWhile_append_of_stops (fun _ hd => hd) hname hcs
  have hfront : front previous c (name ++ cs) =
      .lexeme
        { kind := .identifier, literal := String.ofList (c :: name), more := name.length } := by
    rw [front_of_not_mem_marks hc, hdigit, if_neg Bool.false_ne_true, if_pos hstart, nameLexeme,
      htake]
  refine scan_of_front hfront ?_
  rw [List.drop_left]
  exact h

/-- Whether a text is one name. -/
def isName (s : String) : Bool :=
  match s.toList with
  | [] => false
  | c :: name => !marks.contains c && !c.isDigit && isNameStart c && name.all isNameChar

theorem chars_of_isName {name : String} (hname : isName name = true) :
    ∃ c more, name.toList = c :: more ∧ c ∉ marks ∧ c.isDigit = false ∧ isNameStart c = true ∧
      ∀ d ∈ more, isNameChar d = true := by
  rw [isName] at hname
  split at hname
  · cases hname
  · rename_i c more hmore
    simp only [Bool.and_eq_true, Bool.not_eq_true', List.contains_eq_mem, decide_eq_false_iff_not,
      List.all_eq_true] at hname
    obtain ⟨⟨⟨hmark, hdigit⟩, hstart⟩, hchars⟩ := hname
    exact ⟨c, more, hmore, hmark, hdigit, hstart, hchars⟩

theorem tokens_of_isName {name text : String} (hname : isName name = true) {cs : List Char}
    (htext : text.toList = name.toList ++ cs) (hcs : Stops cs) {kinds : List TokenKind}
    (h : Lexes (some .identifier) cs kinds) (file : String) (line : Nat) :
    ∃ t ts, tokens file line text = .ok (t :: ts) ∧ t.kind = .identifier ∧ t.literal = name ∧
      ts.map Token.kind = kinds := by
  obtain ⟨c, more, hmore, hmark, hdigit, hstart, hchars⟩ := chars_of_isName hname
  obtain ⟨ts, hscan, hkinds⟩ := h file line (1 + 1 + more.length)
  have hliteral : String.ofList (c :: more) = name := by
    rw [← hmore, String.ofList_toList]
  rw [tokens, htext, hmore, scan_identifier hmark hdigit hstart hchars hcs hscan]
  exact ⟨_, ts, rfl, rfl, hliteral, hkinds⟩

/-! ## Line breaks -/

theorem newline_not_mem {p : Char → Bool} (hp : p '\n' = false) {cs : List Char}
    (hcs : ∀ c ∈ cs, p c = true) : '\n' ∉ cs := by
  intro hmem
  rw [hcs _ hmem] at hp
  cases hp

theorem newline_not_mem_name {name : String} (hname : isName name = true) :
    '\n' ∉ name.toList := by
  obtain ⟨c, more, hmore, hmark, -, -, hchars⟩ := chars_of_isName hname
  rw [hmore, List.mem_cons, not_or]
  refine ⟨?_, newline_not_mem rfl hchars⟩
  rintro rfl
  exact hmark (by decide)

theorem newline_not_mem_register (r : Register) : '\n' ∉ (Register.render r.val).toList := by
  obtain ⟨name, htext, hname, -⟩ := exists_name r
  rw [htext, List.mem_cons, not_or]
  exact ⟨by decide, newline_not_mem rfl hname⟩

theorem newline_not_mem_integer (value : Int) : '\n' ∉ (Text.integer value).toList := by
  have hdigits : '\n' ∉ Nat.toDigits 10 value.natAbs :=
    newline_not_mem rfl fun c hc => Nat.isDigit_of_mem_toDigits (by decide) (by decide) hc
  by_cases hsign : value < 0
  · simp [Text.integer, hsign, Text.decimal, hdigits]
  · simp [Text.integer, hsign, Text.decimal, hdigits]

end Lexer
end MipsImage
