/-
What the lexer makes of the characters of a line.

A line that is cut into tokens is made up of blanks and of one slice for each token, in the
order of the tokens, and a comment may end it.  Nothing is lost and nothing is read twice.  A
token stands at the column of the first character of its slice, and it is quoted by the
slice itself, but for two things: the mark of a base is put in lower case, and a character
literal is escaped anew from the character it stands for.
-/
import Mathlib
import MipsImage.Proofs.Source.Lexing

namespace MipsImage
namespace Lexer

/-! ## Parts of a line -/

/-- The characters that may stand between tokens. -/
def isGap (c : Char) : Bool :=
  c == ' ' || c == '\t' || c == '\r' || c == '\n'

inductive Part where
  | gap (c : Char)
  /-- The characters of one token. -/
  | slice (chars : List Char)

namespace Part

def chars : Part → List Char
  | gap c => [c]
  | slice cs => cs

/-- Gaps are blank and no slice is empty. -/
def Valid : Part → Prop
  | gap c => isGap c = true
  | slice cs => cs ≠ []

end Part

/-- The characters of a token and the column of the first of them. -/
structure Slice where
  column : Nat
  chars : List Char
  deriving DecidableEq, Repr

/-- The slices among parts that begin at `column`. -/
def slices (column : Nat) : List Part → List Slice
  | [] => []
  | .gap _ :: parts => slices (column + 1) parts
  | .slice cs :: parts => { column, chars := cs } :: slices (column + cs.length) parts

/-- A slice lies in the line where its column says. -/
theorem slice_at {parts : List Part} {column : Nat} {s : Slice} (hs : s ∈ slices column parts)
    (rest : List Char) :
    column ≤ s.column ∧
      ((parts.flatMap Part.chars ++ rest).drop (s.column - column)).take s.chars.length =
        s.chars := by
  induction parts generalizing column with
  | nil => cases hs
  | cons part parts ih =>
    cases part with
    | gap c =>
      obtain ⟨hle, htake⟩ := ih hs
      have hshift : s.column - column = s.column - (column + 1) + 1 := by omega
      refine ⟨by omega, ?_⟩
      rw [hshift]
      exact htake
    | slice cs =>
      rcases List.mem_cons.mp hs with rfl | hlater
      · refine ⟨Nat.le_refl _, ?_⟩
        rw [Nat.sub_self, List.drop_zero, List.flatMap_cons, List.append_assoc]
        exact List.take_left
      · obtain ⟨hle, htake⟩ := ih hlater
        have hshift : s.column - column = cs.length + (s.column - (column + cs.length)) := by omega
        refine ⟨by omega, ?_⟩
        rw [hshift, List.flatMap_cons, List.append_assoc]
        show ((cs ++ (parts.flatMap Part.chars ++ rest)).drop _).take _ = _
        rw [← List.drop_drop, List.drop_left]
        exact htake

theorem pairwise_slices {parts : List Part} (hparts : ∀ p ∈ parts, p.Valid) (column : Nat) :
    (slices column parts).Pairwise fun s t => s.column < t.column := by
  induction parts generalizing column with
  | nil => exact .nil
  | cons part parts ih =>
    obtain ⟨hpart, hrest⟩ := List.forall_mem_cons.mp hparts
    cases part with
    | gap c => exact ih hrest (column + 1)
    | slice cs =>
      refine List.pairwise_cons.mpr ⟨fun t ht => ?_, ih hrest _⟩
      have hwidth : 0 < cs.length := List.length_pos_iff.mpr hpart
      have hle := (slice_at ht []).1
      show column < t.column
      omega

/-! ## Quoting -/

/-- The character that a literal stands for, by what is between its quotes. -/
def characterOf? : List Char → Option Char
  | [c] => some c
  | ['\\', e] => Text.unescape? e
  | _ => none

/-- A numeral with the mark of its base in lower case. -/
def lowerMark : List Char → List Char
  | '0' :: 'X' :: digits => '0' :: 'x' :: digits
  | '0' :: 'B' :: digits => '0' :: 'b' :: digits
  | cs => cs

/-- How a token is quoted, given its slice. -/
def quoted : List Char → List Char
  | '\'' :: body =>
    match characterOf? body.dropLast with
    | some c => '\'' :: (Text.escape c).toList ++ ['\'']
    | none => '\'' :: body
  | '-' :: numeral => '-' :: lowerMark numeral
  | slice => lowerMark slice

theorem lowerMark_of_ne {c : Char} (hc : c ≠ '0') (cs : List Char) :
    lowerMark (c :: cs) = c :: cs := by
  unfold lowerMark
  split
  · rename_i heq
    exact absurd (List.cons.inj heq).1 hc
  · rename_i heq
    exact absurd (List.cons.inj heq).1 hc
  · rfl

theorem quoted_character {body : List Char} {c : Char} (h : characterOf? body = some c) :
    quoted ('\'' :: body ++ ['\'']) = '\'' :: (Text.escape c).toList ++ ['\''] := by
  rw [List.cons_append, quoted, List.dropLast_concat, h]

theorem quoted_unsigned {c : Char} (hquote : c ≠ '\'') (hminus : c ≠ '-') (cs : List Char) :
    quoted (c :: cs) = lowerMark (c :: cs) := by
  unfold quoted
  split
  · rename_i heq
    exact absurd (List.cons.inj heq).1 hquote
  · rename_i heq
    exact absurd (List.cons.inj heq).1 hminus
  · rfl

/-- What begins with neither a quote, a minus sign nor a zero is quoted as it stands. -/
theorem quoted_of_ne {c : Char} (hquote : c ≠ '\'') (hminus : c ≠ '-') (hzero : c ≠ '0')
    (cs : List Char) : quoted (c :: cs) = c :: cs := by
  rw [quoted_unsigned hquote hminus, lowerMark_of_ne hzero]

/-! ## One token -/

/-- A token made of these characters: what it is quoted by, and what its value is if it is
a character. -/
structure Quotes (chars : List Char) (kind : TokenKind) (text : List Char) : Prop where
  literal : text = quoted chars
  verbatim : ∀ value, kind = .string value → text = chars
  character : ∀ body, chars = '\'' :: body →
    ∃ inner c, body = inner ++ ['\''] ∧ characterOf? inner = some c ∧ kind = .integer c.val

/-- A token that takes a character and `l.more` of the characters after it. -/
structure Covers (l : Lexeme) (c : Char) (tail : List Char) : Prop where
  within : l.more ≤ tail.length
  quotes : Quotes (c :: tail.take l.more) l.kind l.literal.toList

/-- Only what begins with a quote is a character. -/
theorem covers_of_ne {l : Lexeme} {c : Char} {tail : List Char} (hc : c ≠ '\'')
    (hwithin : l.more ≤ tail.length) (hliteral : l.literal.toList = quoted (c :: tail.take l.more))
    (hverbatim : ∀ value, l.kind = .string value → l.literal.toList = c :: tail.take l.more) :
    Covers l c tail :=
  ⟨hwithin, hliteral, hverbatim, fun _ h => absurd (List.cons.inj h).1 hc⟩

theorem length_takeWhile_le (p : Char → Bool) (cs : List Char) :
    (cs.takeWhile p).length ≤ cs.length :=
  (List.takeWhile_prefix p).length_le

theorem take_length_takeWhile (p : Char → Bool) (cs : List Char) :
    cs.take (cs.takeWhile p).length = cs.takeWhile p :=
  (List.prefix_iff_eq_take.mp (List.takeWhile_prefix p)).symm

theorem covers_name (kind : TokenKind) (hkind : ∀ value, kind ≠ .string value) {c : Char}
    (hquote : c ≠ '\'') (hminus : c ≠ '-') (hzero : c ≠ '0') (tail : List Char) :
    Covers (nameLexeme kind c tail) c tail := by
  refine covers_of_ne hquote (length_takeWhile_le isNameChar tail) ?_
    fun value h => absurd h (hkind value)
  rw [quoted_of_ne hquote hminus hzero]
  simp only [nameLexeme, String.toList_ofList, take_length_takeWhile]

theorem covers_register {tail : List Char} {l : Lexeme} (h : scanRegister tail = .ok l) :
    Covers l '$' tail := by
  unfold scanRegister at h
  dsimp only at h
  split at h
  · cases h
    refine covers_of_ne (by decide) ?_ ?_ fun value hkind => TokenKind.noConfusion hkind
    · simpa using length_takeWhile_le isNameChar tail
    · rw [quoted_of_ne (by decide) (by decide) (by decide)]
      simp [take_length_takeWhile]
  · cases h

/-! ### Numbers -/

theorem takeFraction_isPrefix (cs : List Char) :
    (if (takeFraction cs).isEmpty then [] else '.' :: takeFraction cs) <+: cs := by
  unfold takeFraction
  split
  · rename_i d rest
    split
    · split
      · exact List.nil_prefix
      · exact List.cons_prefix_cons.mpr ⟨rfl, List.takeWhile_prefix _⟩
    · exact List.nil_prefix
  · exact List.nil_prefix

theorem takeExponent_isPrefix (cs : List Char) : takeExponent cs <+: cs := by
  unfold takeExponent
  split
  · rename_i c rest
    split
    · split
      · exact List.cons_prefix_cons.mpr
          ⟨rfl, List.cons_prefix_cons.mpr ⟨rfl, List.takeWhile_prefix _⟩⟩
      · exact List.cons_prefix_cons.mpr
          ⟨rfl, List.cons_prefix_cons.mpr ⟨rfl, List.takeWhile_prefix _⟩⟩
      · exact List.cons_prefix_cons.mpr ⟨rfl, List.takeWhile_prefix _⟩
    · exact List.nil_prefix
  · exact List.nil_prefix

/-- Two runs of characters follow each other at the front. -/
theorem append_isPrefix {xs ys cs : List Char} (hx : xs <+: cs) (hy : ys <+: cs.drop xs.length) :
    xs ++ ys <+: cs := by
  obtain ⟨rest, rfl⟩ := hx
  rw [List.drop_left] at hy
  exact (List.prefix_append_right_inj xs).mpr hy

theorem real_isPrefix (cs : List Char) :
    let digits := cs.takeWhile Char.isDigit
    let after := cs.drop digits.length
    let fraction := takeFraction after
    let exponent :=
      takeExponent (if fraction.isEmpty then after else after.drop (fraction.length + 1))
    (Numeral.real digits fraction exponent).literal <+: cs := by
  intro digits after fraction exponent
  have hfraction : (if fraction.isEmpty then [] else '.' :: fraction) <+: after :=
    takeFraction_isPrefix after
  have hexponent : exponent <+:
      after.drop (if fraction.isEmpty then [] else '.' :: fraction).length := by
    have hprefix := takeExponent_isPrefix
      (if fraction.isEmpty then after else after.drop (fraction.length + 1))
    by_cases hempty : fraction.isEmpty = true
    · rw [if_pos hempty] at hprefix
      rw [if_pos hempty]
      simpa [exponent, hempty] using hprefix
    · rw [if_neg hempty] at hprefix
      rw [if_neg hempty]
      simpa [exponent, hempty] using hprefix
  rw [Numeral.literal, List.append_assoc]
  exact append_isPrefix (List.takeWhile_prefix _) (append_isPrefix hfraction hexponent)

/-- The characters of a numeral are at the front, with the mark of the base in either case. -/
theorem exists_numeral (cs : List Char) :
    ∃ slice, slice <+: cs ∧ (takeNumeral cs).literal = lowerMark slice := by
  have hmarked : ∀ (mark : Char) (p : Char → Bool) (rest : List Char),
      '0' :: mark :: rest.takeWhile p <+: '0' :: mark :: rest := fun mark p rest =>
    List.cons_prefix_cons.mpr ⟨rfl, List.cons_prefix_cons.mpr ⟨rfl, List.takeWhile_prefix p⟩⟩
  unfold takeNumeral
  split
  · exact ⟨_, hmarked 'x' isHexDigit _, rfl⟩
  · exact ⟨_, hmarked 'X' isHexDigit _, rfl⟩
  · exact ⟨_, hmarked 'b' isBinaryDigit _, rfl⟩
  · exact ⟨_, hmarked 'B' isBinaryDigit _, rfl⟩
  · rename_i _ hX _ hB
    -- what has no mark in front has none in any part of it
    have hplain : ∀ {slice : List Char}, slice <+: cs → lowerMark slice = slice := by
      rintro slice ⟨rest, rfl⟩
      unfold lowerMark
      split
      · exact absurd rfl (hX _)
      · exact absurd rfl (hB _)
      · rfl
    have hwhole := List.takeWhile_prefix Char.isDigit (l := cs)
    have hreal := real_isPrefix cs
    dsimp only at hreal ⊢
    generalize takeExponent _ = exponent at hreal ⊢
    split
    · exact ⟨_, hwhole, (hplain hwhole).symm⟩
    · exact ⟨_, hreal, (hplain hreal).symm⟩

theorem length_lowerMark (cs : List Char) : (lowerMark cs).length = cs.length := by
  unfold lowerMark
  split <;> rfl

theorem literal_ne_nil {c : Char} (hc : c.isDigit = true) (tail : List Char) :
    (takeNumeral (c :: tail)).literal ≠ [] := by
  unfold takeNumeral
  split
  iterate 4
    · exact List.cons_ne_nil _ _
  · have hdigits : (c :: tail).takeWhile Char.isDigit ≠ [] := by
      rw [List.takeWhile_cons_of_pos hc]
      exact List.cons_ne_nil _ _
    dsimp only
    generalize takeExponent _ = exponent
    split
    · exact hdigits
    · simp [Numeral.literal, hdigits]

theorem kind_ne_string {n : Numeral} {negative : Bool} {literal : String} {kind : TokenKind}
    (h : n.kind negative literal = .ok kind) (value : String) : kind ≠ .string value := by
  rintro rfl
  cases n with
  | real digits fraction exponent =>
    simp only [Numeral.kind] at h
    cases hexponent : Numeral.exponentValue? exponent with
    | none =>
      rw [hexponent] at h
      cases h
    | some e =>
      rw [hexponent] at h
      cases h
  | whole base digits =>
    unfold Numeral.kind at h
    dsimp only at h
    repeat' split at h
    all_goals cases h

/-- A scanned number covers as many characters as are quoted. -/
theorem scanNumber_eq_ok {negative : Bool} {cs : List Char} {l : Lexeme}
    (h : scanNumber negative cs = .ok l) :
    let quoted := if negative then '-' :: (takeNumeral cs).literal else (takeNumeral cs).literal
    l.literal.toList = quoted ∧ l.more = quoted.length - 1 ∧ ∀ value, l.kind ≠ .string value := by
  simp only [scanNumber] at h
  cases hkind : (takeNumeral cs).kind negative (String.ofList
      (if negative = true then '-' :: (takeNumeral cs).literal else (takeNumeral cs).literal)) with
  | error e =>
    rw [hkind] at h
    cases h
  | ok kind =>
    rw [hkind] at h
    cases h
    exact ⟨String.toList_ofList, rfl, kind_ne_string hkind⟩

theorem covers_negative {tail : List Char} {l : Lexeme} (h : scanNumber true tail = .ok l) :
    Covers l '-' tail := by
  obtain ⟨hliteral, hmore, hkind⟩ := scanNumber_eq_ok h
  obtain ⟨slice, hslice, hmark⟩ := exists_numeral tail
  have hwidth : l.more = slice.length := by
    rw [hmore, if_pos rfl, hmark, List.length_cons, length_lowerMark, Nat.add_sub_cancel]
  have htake : tail.take l.more = slice := by
    rw [hwidth]
    exact (List.prefix_iff_eq_take.mp hslice).symm
  refine covers_of_ne (by decide) ?_ ?_ fun value hstring => absurd hstring (hkind value)
  · rw [hwidth]
    exact hslice.length_le
  · rw [hliteral, htake, if_pos rfl, hmark, quoted]

theorem covers_unsigned {c : Char} (hc : c.isDigit = true) {tail : List Char} {l : Lexeme}
    (h : scanNumber false (c :: tail) = .ok l) : Covers l c tail := by
  obtain ⟨hliteral, hmore, hkind⟩ := scanNumber_eq_ok h
  obtain ⟨slice, hslice, hmark⟩ := exists_numeral (c :: tail)
  have hne : slice.length ≠ 0 := by
    rw [← length_lowerMark, ← hmark, Ne, List.length_eq_zero_iff]
    exact literal_ne_nil hc tail
  have hwidth : l.more + 1 = slice.length := by
    rw [hmore, if_neg (by decide), hmark, length_lowerMark]
    omega
  have htake : c :: tail.take l.more = slice := by
    rw [← List.take_succ_cons, hwidth]
    exact (List.prefix_iff_eq_take.mp hslice).symm
  have hlength := hslice.length_le
  rw [← hwidth, List.length_cons] at hlength
  have hquote : c ≠ '\'' := by
    rintro rfl
    cases hc
  have hminus : c ≠ '-' := by
    rintro rfl
    cases hc
  refine covers_of_ne hquote (by omega) ?_ fun value hstring => absurd hstring (hkind value)
  rw [hliteral, htake, if_neg (by decide), hmark, ← htake, quoted_unsigned hquote hminus]

/-! ### Literals -/

theorem covers_character {tail : List Char} {l : Lexeme} (h : scanCharacter tail = .ok l) :
    Covers l '\'' tail := by
  have hclose : ∀ (body : List Char) {rest : List Char} {c : Char}, tail = body ++ '\'' :: rest →
      characterOf? body = some c →
      Covers { kind := .integer c.val, literal := "'" ++ Text.escape c ++ "'",
               more := body.length + 1 } '\'' tail := by
    rintro body rest c rfl hc
    have htake : (body ++ '\'' :: rest).take (body.length + 1) = body ++ ['\''] := by
      simp [List.take_append]
    refine ⟨by simp, ?_, fun value hkind => TokenKind.noConfusion hkind, fun inside hbody => ?_⟩
    · rw [htake, ← List.cons_append, quoted_character hc]
      simp
    · rw [htake] at hbody
      exact ⟨body, c, (List.cons.inj hbody).2.symm, hc, rfl⟩
  unfold scanCharacter at h
  dsimp only at h
  split at h
  · cases h
  · cases h
  · cases h
  · rename_i e rest
    cases hescape : Text.unescape? e with
    | none =>
      rw [hescape] at h
      cases h
    | some c =>
      rw [hescape] at h
      dsimp only at h
      split at h
      · cases h
        exact hclose ['\\', e] rfl hescape
      · cases h
      · cases h
  · rename_i c rest hquote hslash _
    split at h
    · cases h
      exact hclose [c] rfl rfl
    · cases h
    · cases h

theorem scanStringBody_width {used : Nat} {cs value : List Char} {width : Nat}
    (h : scanStringBody used cs = .ok (value, width)) :
    used < width ∧ width ≤ used + cs.length := by
  fun_induction scanStringBody used cs generalizing value width with
  | case1 => cases h
  | case2 =>
    cases h
    simp only [List.length_cons]
    omega
  | case3 => cases h
  | case4 => cases h
  | case5 => cases h
  | case6 used e rest c _ body width' hrest ih =>
    cases h
    have hbounds := ih hrest
    simp only [List.length_cons]
    omega
  | case7 => cases h
  | case8 used c rest _ _ _ body width' hrest ih =>
    cases h
    have hbounds := ih hrest
    simp only [List.length_cons]
    omega

theorem covers_string {tail : List Char} {l : Lexeme} (h : scanString tail = .ok l) :
    Covers l '"' tail := by
  simp only [scanString] at h
  cases hbody : scanStringBody 1 tail with
  | error fault =>
    rw [hbody] at h
    cases h
  | ok result =>
    obtain ⟨value, width⟩ := result
    rw [hbody] at h
    cases h
    obtain ⟨hlower, hupper⟩ := scanStringBody_width hbody
    refine covers_of_ne (by decide) ?_ ?_ fun _ _ => String.toList_ofList
    · show width - 1 ≤ tail.length
      omega
    · rw [quoted_of_ne (by decide) (by decide) (by decide)]
      exact String.toList_ofList

/-! ## Lines -/

theorem covers_symbol {kind : TokenKind} (hkind : ∀ value, kind ≠ .string value) {c : Char}
    (hquote : c ≠ '\'') (hquoted : quoted [c] = [c]) (tail : List Char) :
    Covers { kind, literal := String.singleton c, more := 0 } c tail := by
  refine covers_of_ne hquote (Nat.zero_le _) ?_ fun value h => absurd h (hkind value)
  rw [List.take_zero, hquoted]
  simp

theorem ofScan_eq_lexeme {result : Except Fault Lexeme} {l : Lexeme}
    (h : Front.ofScan result = .lexeme l) : result = .ok l := by
  cases result with
  | error fault => cases h
  | ok found =>
    cases h
    rfl

theorem covers_minus {previous : Option TokenKind} {tail : List Char} {l : Lexeme}
    (h : front previous '-' tail = .lexeme l) : Covers l '-' tail := by
  have hfront : front previous '-' tail =
      if !(previous.any TokenKind.endsOperand) && startsWith Char.isDigit tail then
        .ofScan (scanNumber true tail)
      else symbol .minus '-' := rfl
  rw [hfront] at h
  split at h
  · exact covers_negative (ofScan_eq_lexeme h)
  · cases h
    exact covers_symbol (fun _ => TokenKind.noConfusion) (by decide) rfl tail

theorem covers_directive {previous : Option TokenKind} {tail : List Char} {l : Lexeme}
    (h : front previous '.' tail = .lexeme l) : Covers l '.' tail := by
  have hfront : front previous '.' tail =
      if startsWith Char.isAlpha tail then .lexeme (nameLexeme .directive '.' tail)
      else .fault { offset := 0, error := .unexpectedCharacter '.' } := rfl
  rw [hfront] at h
  split at h
  · cases h
    exact covers_name .directive (fun _ => TokenKind.noConfusion) (by decide) (by decide)
      (by decide) tail
  · cases h

/-- A token at the front of a line covers what the lexer passes over. -/
theorem covers_front {previous : Option TokenKind} {c : Char} {tail : List Char} {l : Lexeme}
    (h : front previous c tail = .lexeme l) : Covers l c tail := by
  by_cases hmark : c ∈ marks
  · simp only [marks, List.mem_cons, List.not_mem_nil, or_false] at hmark
    rcases hmark with rfl | rfl | rfl | rfl | rfl | rfl | rfl | rfl | rfl | rfl | rfl | rfl | rfl |
      rfl | rfl
    -- blanks and the comment
    iterate 5
      · cases h
    -- `:`, `,`, `(`, `)` and `+`
    iterate 5
      · cases h
        exact covers_symbol (fun _ => TokenKind.noConfusion) (by decide) rfl tail
    · exact covers_minus h
    · exact covers_character (ofScan_eq_lexeme h)
    · exact covers_string (ofScan_eq_lexeme h)
    · exact covers_directive h
    · exact covers_register (ofScan_eq_lexeme h)
  · rw [front_of_not_mem_marks hmark] at h
    split at h
    · rename_i hdigit
      exact covers_unsigned hdigit (ofScan_eq_lexeme h)
    · rename_i hdigit
      split at h
      · cases h
        refine covers_name .identifier (fun _ => TokenKind.noConfusion) ?_ ?_ ?_ tail
        · rintro rfl
          exact hmark (by decide)
        · rintro rfl
          exact hmark (by decide)
        · rintro rfl
          exact hdigit rfl
      · cases h

/-- A front that is neither a gap nor a comment. -/
def Front.Scanned (f : Front) : Prop :=
  f ≠ .blank ∧ f ≠ .comment

theorem scanned_ite {p : Prop} [Decidable p] {f g : Front} (hf : f.Scanned) (hg : g.Scanned) :
    (if p then f else g).Scanned := by
  split
  · exact hf
  · exact hg

theorem scanned_ofScan (result : Except Fault Lexeme) : (Front.ofScan result).Scanned := by
  cases result <;> exact ⟨Front.noConfusion, Front.noConfusion⟩

theorem scanned_front {c : Char} (hgap : isGap c = false) (hcomment : c ≠ '#')
    (previous : Option TokenKind) (tail : List Char) : (front previous c tail).Scanned := by
  have hlexeme : ∀ l, (Front.lexeme l).Scanned := fun l => scanned_ofScan (.ok l)
  have hfault : ∀ f, (Front.fault f).Scanned := fun f => scanned_ofScan (.error f)
  unfold isGap at hgap
  unfold front
  rw [if_neg (by rw [hgap]; decide), if_neg (by rwa [beq_iff_eq])]
  repeat' refine scanned_ite ?_ ?_
  all_goals first
    | exact scanned_ofScan _
    | exact hlexeme _
    | exact hfault _

theorem isGap_of_front {previous : Option TokenKind} {c : Char} {tail : List Char}
    (h : front previous c tail = .blank) : isGap c = true := by
  by_contra hgap
  by_cases hcomment : c = '#'
  · subst hcomment
    cases h
  · exact (scanned_front (Bool.eq_false_iff.mpr hgap) hcomment previous tail).1 h

theorem eq_of_front {previous : Option TokenKind} {c : Char} {tail : List Char}
    (h : front previous c tail = .comment) : c = '#' := by
  by_contra hcomment
  by_cases hgap : isGap c = true
  · unfold isGap at hgap
    unfold front at h
    rw [if_pos hgap] at h
    cases h
  · exact (scanned_front (Bool.eq_false_iff.mpr hgap) hcomment previous tail).2 h

/-- A token is made of a slice and stands where it begins. -/
structure Slice.Makes (file : String) (line : Nat) (s : Slice) (t : Token) : Prop where
  location : t.location = { file, line, column := s.column }
  quotes : Quotes s.chars t.kind t.literal.toList

theorem columns_of_makes {file : String} {line : Nat} {ss : List Slice} {ts : List Token}
    (h : List.Forall₂ (Slice.Makes file line) ss ts) :
    ts.map (·.location.column) = ss.map Slice.column := by
  induction h with
  | nil => rfl
  | cons hmakes _ ih => rw [List.map_cons, List.map_cons, ih, hmakes.location]

/-- What the lexer has read of a line is blanks and the slices of its tokens.  A comment may be
left. -/
theorem exists_parts {file : String} {line : Nat} {previous : Option TokenKind} {column : Nat}
    {cs : List Char} {ts : List Token} (h : scan file line previous column cs = .ok ts) :
    ∃ parts comment, cs = parts.flatMap Part.chars ++ comment ∧ (∀ p ∈ parts, p.Valid) ∧
      (∀ c ∈ comment.head?, c = '#') ∧
      List.Forall₂ (Slice.Makes file line) (slices column parts) ts := by
  -- on the number of characters, since a token may take any number of them
  induction hn : cs.length using Nat.strong_induction_on generalizing previous column cs ts with
  | h n ih =>
    cases cs with
    | nil =>
      rw [scan] at h
      cases h
      exact ⟨[], [], rfl, by simp, by simp, .nil⟩
    | cons c tail =>
      subst hn
      rw [scan] at h
      cases hfront : front previous c tail with
      | blank =>
        rw [hfront] at h
        obtain ⟨parts, comment, rfl, hparts, hcomment, hmakes⟩ := ih _ (by simp) h rfl
        exact ⟨.gap c :: parts, comment, rfl,
          List.forall_mem_cons.mpr ⟨isGap_of_front hfront, hparts⟩, hcomment, hmakes⟩
      | comment =>
        rw [hfront] at h
        cases h
        obtain rfl := eq_of_front hfront
        exact ⟨[], '#' :: tail, rfl, by simp, by simp, .nil⟩
      | fault f =>
        rw [hfront] at h
        cases h
      | lexeme l =>
        rw [hfront] at h
        obtain ⟨hwithin, hquotes⟩ := covers_front hfront
        cases hrest : scan file line (some l.kind) (column + 1 + l.more) (tail.drop l.more) with
        | error e =>
          simp only [hrest] at h
          cases h
        | ok later =>
          simp only [hrest] at h
          cases h
          have hshort : (tail.drop l.more).length < (c :: tail).length := by
            rw [List.length_drop, List.length_cons]
            omega
          obtain ⟨parts, comment, hchars, hparts, hcomment, hmakes⟩ := ih _ hshort hrest rfl
          have hwidth : column + (c :: tail.take l.more).length = column + 1 + l.more := by
            rw [List.length_cons, List.length_take, Nat.min_eq_left hwithin]
            omega
          refine ⟨.slice (c :: tail.take l.more) :: parts, comment, ?_,
            List.forall_mem_cons.mpr ⟨List.cons_ne_nil _ _, hparts⟩, hcomment, ?_⟩
          · rw [List.flatMap_cons, List.append_assoc, ← hchars]
            show c :: tail = c :: (tail.take l.more ++ tail.drop l.more)
            rw [List.take_append_drop]
          · rw [slices, hwidth]
            exact .cons ⟨rfl, hquotes⟩ hmakes

/-- How a line is made up of parts and of a comment that may end it, and where its tokens come
from. -/
structure Sliced (file : String) (line : Nat) (cs : List Char) (ts : List Token)
    (parts : List Part) (comment : List Char) : Prop where
  chars : cs = parts.flatMap Part.chars ++ comment
  valid : ∀ p ∈ parts, p.Valid
  comment : ∀ c ∈ comment.head?, c = '#'
  /-- Each slice makes the token in its place. -/
  makes : List.Forall₂ (Slice.Makes file line) (slices 1 parts) ts
  /-- The column of a slice is the place of its first character. -/
  places : ∀ s ∈ slices 1 parts,
    1 ≤ s.column ∧ (cs.drop (s.column - 1)).take s.chars.length = s.chars
  increasing : ts.Pairwise fun t u => t.location.column < u.location.column

/-- Nothing of a line is lost between its characters and its tokens. -/
theorem tokens_sliced {file : String} {line : Nat} {text : String} {ts : List Token}
    (h : tokens file line text = .ok ts) :
    ∃ parts comment, Sliced file line text.toList ts parts comment := by
  obtain ⟨parts, comment, hchars, hparts, hcomment, hmakes⟩ := exists_parts h
  have hcolumns := pairwise_slices hparts 1
  refine ⟨parts, comment, hchars, hparts, hcomment, hmakes, fun s hs => ?_, ?_⟩
  · rw [hchars]
    exact slice_at hs comment
  · rw [← List.pairwise_map (f := fun t : Token => t.location.column), columns_of_makes hmakes,
      List.pairwise_map]
    exact hcolumns

set_option maxRecDepth 10000 in
/-- A label and a directive with its values: a negative number with a mark in upper case, an
escaped quote and a string that holds a `#`, and a comment after them. -/
theorem tokens_sliced_values :
    let text := "x:\t.byte -0X1f,'\\'' \"#\" # end"
    let ts : List Token :=
      [⟨.identifier, "x", ⟨"a.s", 3, 1⟩⟩, ⟨.colon, ":", ⟨"a.s", 3, 2⟩⟩,
        ⟨.directive, ".byte", ⟨"a.s", 3, 4⟩⟩, ⟨.integer 0xffffffe1, "-0x1f", ⟨"a.s", 3, 10⟩⟩,
        ⟨.comma, ",", ⟨"a.s", 3, 15⟩⟩, ⟨.integer 39, "'\\''", ⟨"a.s", 3, 16⟩⟩,
        ⟨.string "#", "\"#\"", ⟨"a.s", 3, 21⟩⟩]
    tokens "a.s" 3 text = .ok ts ∧
      ∃ parts comment, Sliced "a.s" 3 text.toList ts parts comment := by
  intro text ts
  have hread : tokens "a.s" 3 text = .ok ts := by decide +kernel
  exact ⟨hread, tokens_sliced hread⟩

end Lexer
end MipsImage
