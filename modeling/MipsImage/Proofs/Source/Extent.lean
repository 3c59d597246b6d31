/-
How far a number on a line goes.

What a number may look like is said by its spelling alone (`Spelled`), and the lexer takes the
longest such text that the rest of the line begins with.  Nothing is asked of the character
after it.  A letter or a digit that the number cannot take begins the next token, so a
malformed numeral is split and not refused.  A number is refused only for what it is itself:
digits are missing right after the mark of its base or in its exponent, or its value is too
large.
-/
import Mathlib
import MipsImage.Proofs.Source.Numerals
import MipsImage.Proofs.Source.Slices

namespace MipsImage
namespace Lexer

/-! ## Spelling -/

/-- A point and digits after it, or nothing. -/
def Fraction (cs : List Char) : Prop :=
  cs = [] ∨ ∃ digits, cs = '.' :: digits ∧ digits ≠ [] ∧ ∀ c ∈ digits, c.isDigit = true

/-- The letter of an exponent, a sign or none, and digits, or nothing at all. -/
def Exponent (least : Nat) (cs : List Char) : Prop :=
  cs = [] ∨ ∃ letter sign digits, cs = letter :: (sign ++ digits) ∧ letter ∈ ['e', 'E'] ∧
    sign ∈ [[], ['+'], ['-']] ∧ (∀ c ∈ digits, c.isDigit = true) ∧ least ≤ digits.length

/-- What a number without its sign may look like, with at least so many digits after the mark of
a base and in an exponent.  A number has one there; without any it has only been begun. -/
inductive Spelled (least : Nat) : List Char → Prop
  | marked {b : Base} {mark digits : List Char} (hb : b ≠ .decimal) (hmark : mark ∈ b.marks)
      (hdigits : ∀ c ∈ digits, b.isDigit c = true) (hleast : least ≤ digits.length) :
      Spelled least (mark ++ digits)
  | decimal {digits fraction exponent : List Char} (hne : digits ≠ [])
      (hdigits : ∀ c ∈ digits, c.isDigit = true) (hfraction : Fraction fraction)
      (hexponent : Exponent least exponent) : Spelled least (digits ++ (fraction ++ exponent))

/-- The longest text with a property that another text begins with. -/
structure Longest (P : List Char → Prop) (cs text : List Char) : Prop where
  isPrefix : cs <+: text
  has : P cs
  longest : ∀ other, other <+: text → P other → other.length ≤ cs.length

/-! ## Runs of digits -/

theorem takeWhile_append_of_head {p : Char → Bool} {xs ys : List Char}
    (hxs : ∀ c ∈ xs, p c = true) (hys : ∀ c ∈ ys.head?, p c = false) :
    (xs ++ ys).takeWhile p = xs := by
  rw [List.takeWhile_append_of_pos hxs]
  cases ys with
  | nil => simp
  | cons y ys => rw [List.takeWhile_cons_of_neg (by simp [hys y rfl]), List.append_nil]

/-- A run and what ends it, as far as they go, are at most what is taken greedily. -/
theorem takeWhile_greedy {p : Char → Bool} {xs ys cs : List Char} (hxs : ∀ c ∈ xs, p c = true)
    (hys : ∀ c ∈ ys.head?, p c = false) (h : xs ++ ys <+: cs) :
    xs.length ≤ (cs.takeWhile p).length ∧
      (ys ≠ [] → cs.takeWhile p = xs ∧ ys <+: cs.drop xs.length) := by
  obtain ⟨rest, rfl⟩ := h
  rw [List.append_assoc, List.drop_left]
  refine ⟨?_, fun hne => ⟨takeWhile_append_of_head hxs ?_, List.prefix_append ys rest⟩⟩
  · rw [List.takeWhile_append_of_pos hxs]
    simp
  · rwa [List.head?_append_of_ne_nil ys hne]

/-! ## Exponents -/

theorem isDigit_letter {letter : Char} (h : letter ∈ ['e', 'E']) : letter.isDigit = false := by
  rcases List.mem_pair.mp h with rfl | rfl <;> rfl

theorem Exponent.head {least : Nat} {cs : List Char} (h : Exponent least cs) :
    ∀ c ∈ cs.head?, c ∈ ['e', 'E'] := by
  rcases h with rfl | ⟨letter, sign, digits, rfl, hletter, -⟩
  · simp
  · intro c hc
    cases hc
    exact hletter

/-- The sign that a text begins with, if it does. -/
def takeSign (cs : List Char) : List Char :=
  (cs.take 1).filter fun c => c == '+' || c == '-'

theorem takeSign_mem (cs : List Char) : takeSign cs ∈ [[], ['+'], ['-']] := by
  cases cs with
  | nil => simp [takeSign]
  | cons c rest =>
    by_cases hplus : c = '+'
    · simp [takeSign, hplus]
    · by_cases hminus : c = '-'
      · simp [takeSign, hminus]
      · simp [takeSign, hplus, hminus]

theorem takeSign_of_ne {cs : List Char} (hplus : ∀ rest, cs ≠ '+' :: rest)
    (hminus : ∀ rest, cs ≠ '-' :: rest) : takeSign cs = [] := by
  cases cs with
  | nil => rfl
  | cons c rest =>
    have hc : c ≠ '+' ∧ c ≠ '-' :=
      ⟨fun h => hplus rest (h ▸ rfl), fun h => hminus rest (h ▸ rfl)⟩
    simp [takeSign, hc]

/-- An exponent is its letter, the sign after it and the digits after that. -/
theorem takeExponent_letter {letter : Char} (h : letter ∈ ['e', 'E']) (rest : List Char) :
    takeExponent (letter :: rest) =
      letter :: (takeSign rest ++ (rest.drop (takeSign rest).length).takeWhile Char.isDigit) := by
  have hif : (letter == 'e' || letter == 'E') = true := by
    rcases List.mem_pair.mp h with rfl | rfl <;> rfl
  by_cases hplus : ∃ digits, rest = '+' :: digits
  · obtain ⟨digits, rfl⟩ := hplus
    rw [takeExponent, if_pos hif]
    rfl
  · by_cases hminus : ∃ digits, rest = '-' :: digits
    · obtain ⟨digits, rfl⟩ := hminus
      rw [takeExponent, if_pos hif]
      rfl
    · have hplus := not_exists.mp hplus
      have hminus := not_exists.mp hminus
      rw [takeSign_of_ne hplus hminus, takeExponent, if_pos hif]
      · rfl
      · exact hplus
      · exact hminus

theorem takeExponent_of_ne {cs : List Char} (h : ∀ c ∈ cs.head?, c ∉ ['e', 'E']) :
    takeExponent cs = [] := by
  cases cs with
  | nil => rfl
  | cons c rest =>
    have hif : ¬ (c == 'e' || c == 'E') = true := by
      rw [Bool.or_eq_true, beq_iff_eq, beq_iff_eq]
      exact fun hc => h c rfl (List.mem_pair.mpr hc)
    show (if c == 'e' || c == 'E' then _ else []) = []
    rw [if_neg hif]

theorem exponent_takeExponent (cs : List Char) : Exponent 0 (takeExponent cs) := by
  by_cases h : ∀ c ∈ cs.head?, c ∉ ['e', 'E']
  · exact .inl (takeExponent_of_ne h)
  · cases cs with
    | nil => exact absurd (by simp) h
    | cons c rest =>
      have hc : c ∈ ['e', 'E'] := by
        by_contra hc
        exact h fun d hd => by cases hd; exact hc
      exact .inr ⟨c, takeSign rest, _, takeExponent_letter hc rest, hc, takeSign_mem rest,
        fun _ => List.mem_takeWhile_imp, Nat.zero_le _⟩

/-- Where a sign stands, or digits without one, there is no other sign. -/
theorem takeSign_append {sign digits : List Char} (hsign : sign ∈ [[], ['+'], ['-']])
    (hdigits : ∀ c ∈ digits, c.isDigit = true) (hne : digits ≠ [] ∨ sign ≠ []) (rest : List Char) :
    takeSign (sign ++ (digits ++ rest)) = sign := by
  simp only [List.mem_cons, List.not_mem_nil, or_false] at hsign
  rcases hsign with rfl | rfl | rfl
  · obtain ⟨d, more, rfl⟩ := List.exists_cons_of_ne_nil (hne.resolve_right fun h => h rfl)
    have hd := hdigits d List.mem_cons_self
    refine takeSign_of_ne (fun tail heq => ?_) fun tail heq => ?_
    · rw [(List.cons.inj heq).1] at hd
      cases hd
    · rw [(List.cons.inj heq).1] at hd
      cases hd
  · rfl
  · rfl

/-- No exponent at the front is longer than the one that is taken. -/
theorem length_exponent_le {least : Nat} {e cs : List Char} (he : Exponent least e)
    (h : e <+: cs) : e.length ≤ (takeExponent cs).length := by
  rcases he with rfl | ⟨letter, sign, digits, rfl, hletter, hsign, hdigits, -⟩
  · exact Nat.zero_le _
  · obtain ⟨rest, rfl⟩ := h
    rw [List.cons_append, List.append_assoc, takeExponent_letter hletter]
    by_cases hne : digits ≠ [] ∨ sign ≠ []
    · rw [takeSign_append hsign hdigits hne, List.drop_left,
        List.takeWhile_append_of_pos hdigits]
      simp
    · obtain ⟨rfl, rfl⟩ : digits = [] ∧ sign = [] := by simpa using hne
      simp

/-- An exponent that stands alone is taken whole. -/
theorem takeExponent_self {e : List Char} (he : Exponent 0 e) : takeExponent e = e := by
  have hstart := takeExponent_isPrefix e
  exact hstart.eq_of_length_le (length_exponent_le he (List.prefix_refl e))

/-- An exponent has a value if it has digits. -/
theorem exponent_of_value {e : List Char} {v : Int} (he : Exponent 0 e)
    (hv : Numeral.exponentValue? e = some v) : Exponent 1 e := by
  rcases he with rfl | ⟨letter, sign, digits, rfl, hletter, hsign, hdigits, -⟩
  · exact .inl rfl
  · refine .inr ⟨letter, sign, digits, rfl, hletter, hsign, hdigits, ?_⟩
    cases digits with
    | cons d digits => simp
    | nil =>
      simp only [List.mem_cons, List.not_mem_nil, or_false] at hsign
      rcases hsign with rfl | rfl | rfl
      · cases hv
      · cases hv
      · cases hv

/-! ## Fractions -/

/-- A fraction with its point, if there is one. -/
def pointed (fraction : List Char) : List Char :=
  if fraction.isEmpty then [] else '.' :: fraction

theorem Fraction.head {f : List Char} (h : Fraction f) : ∀ c ∈ f.head?, c = '.' := by
  rcases h with rfl | ⟨digits, rfl, -⟩
  · simp
  · intro c hc
    cases hc
    rfl

theorem takeFraction_point {d : Char} (hd : d.isDigit = true) (rest : List Char) :
    takeFraction ('.' :: d :: rest) = (d :: rest).takeWhile Char.isDigit := by
  rw [takeFraction, if_pos hd]

theorem takeFraction_of_ne {cs : List Char} (h : ∀ c ∈ cs.head?, c ≠ '.') :
    takeFraction cs = [] := by
  rw [takeFraction.eq_def]
  split
  · exact absurd rfl (h '.' rfl)
  · rfl

theorem isDigit_of_mem_takeFraction (cs : List Char) :
    ∀ c ∈ takeFraction cs, c.isDigit = true := by
  rw [takeFraction.eq_def]
  split
  · split
    · exact fun _ => List.mem_takeWhile_imp
    · simp
  · simp

theorem fraction_pointed {f : List Char} (h : ∀ c ∈ f, c.isDigit = true) :
    Fraction (pointed f) := by
  cases f with
  | nil => exact .inl rfl
  | cons d more => exact .inr ⟨d :: more, rfl, List.cons_ne_nil _ _, h⟩

/-! ## Decimal numbers -/

/-- What is taken after the digits of a number: a fraction and an exponent. -/
def takeTail (cs : List Char) : List Char :=
  pointed (takeFraction cs) ++ takeExponent (cs.drop (pointed (takeFraction cs)).length)

theorem Exponent.not_isDigit {least : Nat} {e : List Char} (h : Exponent least e) :
    ∀ c ∈ e.head?, c.isDigit = false :=
  fun c hc => isDigit_letter (h.head c hc)

theorem tail_not_isDigit {least : Nat} {f e : List Char} (hf : Fraction f) (he : Exponent least e) :
    ∀ c ∈ (f ++ e).head?, c.isDigit = false := by
  intro c hc
  cases f with
  | nil => exact he.not_isDigit c hc
  | cons d more =>
    have hpoint := hf.head d rfl
    cases hc
    rw [hpoint]
    rfl

/-- No fraction and exponent at the front are longer than those that are taken. -/
theorem length_tail_le {least : Nat} {f e cs : List Char} (hf : Fraction f)
    (he : Exponent least e) (h : f ++ e <+: cs) : (f ++ e).length ≤ (takeTail cs).length := by
  rcases hf with rfl | ⟨digits, rfl, hne, hdigits⟩
  · cases e with
    | nil => exact Nat.zero_le _
    | cons letter more =>
      obtain ⟨rest, rfl⟩ := h
      have hletter := he.head letter rfl
      have hnone : takeFraction (letter :: more ++ rest) = [] := by
        refine takeFraction_of_ne fun c hc => ?_
        cases hc
        rintro rfl
        exact absurd hletter (by decide)
      rw [takeTail, List.nil_append, hnone]
      exact length_exponent_le he (List.prefix_append _ rest)
  · obtain ⟨rest, rfl⟩ := h
    obtain ⟨d, more, rfl⟩ := List.exists_cons_of_ne_nil hne
    have htake : takeFraction ('.' :: (d :: more) ++ e ++ rest) =
        (d :: more ++ e ++ rest).takeWhile Char.isDigit :=
      takeFraction_point (hdigits d List.mem_cons_self) _
    obtain ⟨hlength, hexact⟩ :=
      takeWhile_greedy hdigits he.not_isDigit (List.prefix_append (d :: more ++ e) rest)
    rw [takeTail, htake]
    -- an exponent can only come after all the digits there are
    generalize (d :: more ++ e ++ rest).takeWhile Char.isDigit = taken at hlength hexact ⊢
    have hpointed : pointed taken = '.' :: taken := by
      cases taken with
      | nil => simp at hlength
      | cons _ _ => rfl
    rw [hpointed]
    by_cases hempty : e = []
    · subst hempty
      simp only [List.append_nil, List.length_append, List.length_cons] at hlength ⊢
      omega
    · obtain ⟨rfl, hexponent⟩ := hexact hempty
      have hle := length_exponent_le he hexponent
      rw [List.length_append, List.length_append]
      exact Nat.add_le_add_left hle _

/-- The fraction and the exponent of a number, if they stand alone, are taken as they are. -/
theorem takeTail_self {f e : List Char} (hf : ∀ c ∈ f, c.isDigit = true) (he : Exponent 0 e) :
    takeFraction (pointed f ++ e) = f ∧
      takeExponent ((pointed f ++ e).drop (pointed f).length) = e := by
  rw [List.drop_left]
  refine ⟨?_, takeExponent_self he⟩
  cases f with
  | nil =>
    refine takeFraction_of_ne fun c hc => ?_
    rintro rfl
    exact absurd (he.head '.' hc) (by decide)
  | cons d more =>
    have htake : takeFraction (pointed (d :: more) ++ e) =
        (d :: more ++ e).takeWhile Char.isDigit :=
      takeFraction_point (hf d List.mem_cons_self) _
    rw [htake, takeWhile_append_of_head hf he.not_isDigit]

/-! ## Numbers -/

/-- No mark of a base is at the front. -/
def Unmarked (cs : List Char) : Prop :=
  ∀ b : Base, b ≠ .decimal → ∀ mark ∈ b.marks, ¬ mark <+: cs

theorem Unmarked.mono {slice cs : List Char} (h : Unmarked cs) (hslice : slice <+: cs) :
    Unmarked slice :=
  fun b hb mark hmark hstart => h b hb mark hmark (hstart.trans hslice)

theorem takeNumeral_mark {b : Base} (hb : b ≠ .decimal) {mark : List Char} (hmark : mark ∈ b.marks)
    (rest : List Char) :
    takeNumeral (mark ++ rest) = .whole b.radix (rest.takeWhile b.isDigit) := by
  cases b with
  | decimal => exact absurd rfl hb
  | hexadecimal => rcases List.mem_pair.mp hmark with rfl | rfl <;> rfl
  | binary => rcases List.mem_pair.mp hmark with rfl | rfl <;> rfl

/-- A number by its digits and what comes after them. -/
def decimalNumeral (digits fraction exponent : List Char) : Numeral :=
  if fraction.isEmpty && exponent.isEmpty then .whole 10 digits
  else .real digits fraction exponent

theorem literal_decimalNumeral (digits fraction exponent : List Char) :
    (decimalNumeral digits fraction exponent).literal =
      digits ++ (pointed fraction ++ exponent) := by
  rw [decimalNumeral]
  split_ifs with h
  · rw [Bool.and_eq_true, List.isEmpty_iff, List.isEmpty_iff] at h
    obtain ⟨rfl, rfl⟩ := h
    simp [Numeral.literal, pointed]
  · rw [Numeral.literal, List.append_assoc, pointed]

theorem takeNumeral_unmarked {cs : List Char} (h : Unmarked cs) :
    takeNumeral cs =
      let after := cs.drop (cs.takeWhile Char.isDigit).length
      decimalNumeral (cs.takeWhile Char.isDigit) (takeFraction after)
        (takeExponent (after.drop (pointed (takeFraction after)).length)) := by
  have hmark : ∀ (b : Base) (mark rest : List Char), b ≠ .decimal → mark ∈ b.marks →
      cs ≠ mark ++ rest := by
    rintro b mark rest hb hmark rfl
    exact h b hb mark hmark (List.prefix_append mark rest)
  rw [takeNumeral.eq_def]
  split
  · exact absurd rfl (hmark .hexadecimal ['0', 'x'] _ (by decide) (by decide))
  · exact absurd rfl (hmark .hexadecimal ['0', 'X'] _ (by decide) (by decide))
  · exact absurd rfl (hmark .binary ['0', 'b'] _ (by decide) (by decide))
  · exact absurd rfl (hmark .binary ['0', 'B'] _ (by decide) (by decide))
  · dsimp only
    have hdrop : ∀ f after : List Char, (if f.isEmpty then after else after.drop (f.length + 1)) =
        after.drop (pointed f).length := by
      intro f after
      cases f <;> rfl
    rw [hdrop]
    rfl

theorem ne_nil_of_kind_whole {base : Nat} {digits : List Char} {negative : Bool} {literal : String}
    {kind : TokenKind} (h : (Numeral.whole base digits).kind negative literal = .ok kind) :
    digits ≠ [] := by
  rintro rfl
  simp [Numeral.kind] at h

theorem exists_value_of_kind_real {digits fraction exponent : List Char} {negative : Bool}
    {literal : String} {kind : TokenKind}
    (h : (Numeral.real digits fraction exponent).kind negative literal = .ok kind) :
    ∃ v, Numeral.exponentValue? exponent = some v := by
  simp only [Numeral.kind] at h
  cases hvalue : Numeral.exponentValue? exponent with
  | none =>
    rw [hvalue] at h
    cases h
  | some v => exact ⟨v, rfl⟩

/-- What the lexer takes for a number, and that it would be taken alone for the same.  It is
whole if it makes a token. -/
structure Taken (cs slice : List Char) : Prop where
  longest : Longest (Spelled 0) slice cs
  width : (takeNumeral cs).literal.length = slice.length
  alone : takeNumeral slice = takeNumeral cs
  whole : ∀ {negative literal kind}, (takeNumeral cs).kind negative literal = .ok kind →
    Spelled 1 slice

theorem exists_mark {b : Base} (hb : b ≠ .decimal) {mark : List Char} (hmark : mark ∈ b.marks) :
    ∃ m, mark = ['0', m] ∧ m.isDigit = false ∧ m ≠ '.' ∧ m ∉ ['e', 'E'] := by
  cases b with
  | decimal => exact absurd rfl hb
  | hexadecimal =>
    rcases List.mem_pair.mp hmark with rfl | rfl
    · exact ⟨'x', rfl, by decide⟩
    · exact ⟨'X', rfl, by decide⟩
  | binary =>
    rcases List.mem_pair.mp hmark with rfl | rfl
    · exact ⟨'b', rfl, by decide⟩
    · exact ⟨'B', rfl, by decide⟩

theorem base_unique {b b' : Base} (hb : b ≠ .decimal) (hb' : b' ≠ .decimal) {mark : List Char}
    (hmark : mark ∈ b.marks) (hmark' : mark ∈ b'.marks) : b = b' := by
  cases b with
  | decimal => exact absurd rfl hb
  | hexadecimal =>
    cases b' with
    | decimal => exact absurd rfl hb'
    | hexadecimal => rfl
    | binary => rcases List.mem_pair.mp hmark with rfl | rfl <;> exact absurd hmark' (by decide)
  | binary =>
    cases b' with
    | decimal => exact absurd rfl hb'
    | hexadecimal =>
      rcases List.mem_pair.mp hmark with rfl | rfl <;> exact absurd hmark' (by decide)
    | binary => rfl

/-- After the mark of a base, no number at the front is longer than the mark with the digits of
that base. -/
theorem length_le_of_mark {b : Base} (hb : b ≠ .decimal) {mark : List Char} (hmark : mark ∈ b.marks)
    {rest other : List Char} (hother : other <+: mark ++ rest) (hspelled : Spelled 0 other) :
    other.length ≤ (mark ++ rest.takeWhile b.isDigit).length := by
  obtain ⟨m, rfl, hdigit, hpoint, hletter⟩ := exists_mark hb hmark
  cases hspelled with
  | @marked b' mark' digits hb' hmark' hdigits _ =>
    obtain ⟨m', rfl, -⟩ := exists_mark hb' hmark'
    obtain ⟨-, htail⟩ := List.cons_prefix_cons.mp hother
    obtain ⟨rfl, hrest⟩ := List.cons_prefix_cons.mp htail
    obtain rfl := base_unique hb hb' hmark hmark'
    have hrun : digits ++ [] <+: rest := by rwa [List.append_nil]
    simpa using (takeWhile_greedy hdigits (by simp) hrun).1
  | @decimal digits f e hne hdigits hf he =>
    -- the digits end with the zero of the mark, and the mark itself goes on with no number
    have hrun : (['0', m] ++ rest).takeWhile Char.isDigit = ['0'] := by simp [hdigit]
    obtain ⟨hlength, hexact⟩ := takeWhile_greedy hdigits (tail_not_isDigit hf he) hother
    rw [hrun] at hlength hexact
    by_cases hempty : f ++ e = []
    · rw [hempty, List.append_nil]
      simp only [List.length_append, List.length_cons, List.length_nil] at hlength ⊢
      omega
    · obtain ⟨rfl, hafter⟩ := hexact hempty
      exfalso
      cases f with
      | nil =>
        obtain ⟨letter, more, rfl⟩ := List.exists_cons_of_ne_nil hempty
        obtain ⟨rfl, -⟩ := List.cons_prefix_cons.mp hafter
        exact hletter (he.head letter rfl)
      | cons point more =>
        obtain ⟨rfl, -⟩ := List.cons_prefix_cons.mp hafter
        exact hpoint (hf.head point rfl)

theorem taken_mark {b : Base} (hb : b ≠ .decimal) {mark : List Char} (hmark : mark ∈ b.marks)
    (rest : List Char) : Taken (mark ++ rest) (mark ++ rest.takeWhile b.isDigit) := by
  have hdigits : ∀ c ∈ rest.takeWhile b.isDigit, b.isDigit c = true :=
    fun _ hc => List.mem_takeWhile_imp hc
  have hsame : (rest.takeWhile b.isDigit).takeWhile b.isDigit = rest.takeWhile b.isDigit :=
    List.takeWhile_eq_self_iff.mpr hdigits
  refine ⟨⟨?_, .marked hb hmark hdigits (Nat.zero_le _), ?_⟩, ?_, ?_, ?_⟩
  · exact (List.prefix_append_right_inj mark).mpr (List.takeWhile_prefix _)
  · exact fun other hother hspelled => length_le_of_mark hb hmark hother hspelled
  · rw [takeNumeral_mark hb hmark, length_literal hmark]
  · rw [takeNumeral_mark hb hmark, takeNumeral_mark hb hmark, hsame]
  · intro negative literal kind hkind
    rw [takeNumeral_mark hb hmark] at hkind
    exact .marked hb hmark hdigits (List.length_pos_iff.mpr (ne_nil_of_kind_whole hkind))

/-- Without a mark, no number at the front is longer than what is taken. -/
theorem length_le_of_unmarked {cs other : List Char} (h : Unmarked cs) (hother : other <+: cs)
    (hspelled : Spelled 0 other) :
    other.length ≤ (cs.takeWhile Char.isDigit ++
      takeTail (cs.drop (cs.takeWhile Char.isDigit).length)).length := by
  cases hspelled with
  | marked hb hmark _ _ =>
    exact absurd ((List.prefix_append _ _).trans hother) (h _ hb _ hmark)
  | @decimal digits f e hne hdigits hf he =>
    obtain ⟨hlength, hexact⟩ := takeWhile_greedy hdigits (tail_not_isDigit hf he) hother
    by_cases hempty : f ++ e = []
    · rw [hempty, List.append_nil, List.length_append]
      exact Nat.le_add_right_of_le hlength
    · obtain ⟨hrun, hafter⟩ := hexact hempty
      have hle := length_tail_le hf he hafter
      rw [hrun, List.length_append]
      simp only [List.length_append] at hle ⊢
      omega

theorem exponent_of_kind {digits fraction exponent : List Char} {negative : Bool}
    {literal : String} {kind : TokenKind} (he : Exponent 0 exponent)
    (h : (decimalNumeral digits fraction exponent).kind negative literal = .ok kind) :
    Exponent 1 exponent := by
  rw [decimalNumeral] at h
  split_ifs at h with hwhole
  · rw [Bool.and_eq_true, List.isEmpty_iff, List.isEmpty_iff] at hwhole
    exact .inl hwhole.2
  · obtain ⟨v, hv⟩ := exists_value_of_kind_real h
    exact exponent_of_value he hv

theorem takeTail_isPrefix (cs : List Char) : takeTail cs <+: cs :=
  append_isPrefix (takeFraction_isPrefix cs) (takeExponent_isPrefix _)

/-- A number that stands alone is taken by its parts. -/
theorem takeNumeral_parts {digits fraction exponent : List Char}
    (h : Unmarked (digits ++ (pointed fraction ++ exponent)))
    (hdigits : ∀ c ∈ digits, c.isDigit = true) (hfraction : ∀ c ∈ fraction, c.isDigit = true)
    (hexponent : Exponent 0 exponent) :
    takeNumeral (digits ++ (pointed fraction ++ exponent)) =
      decimalNumeral digits fraction exponent := by
  have hrun := takeWhile_append_of_head hdigits
    (tail_not_isDigit (fraction_pointed hfraction) hexponent)
  obtain ⟨hf, he⟩ := takeTail_self hfraction hexponent
  rw [takeNumeral_unmarked h, hrun, List.drop_left]
  dsimp only
  rw [hf, he]

theorem taken_unmarked {cs : List Char} (h : Unmarked cs)
    (hfirst : startsWith Char.isDigit cs = true) :
    Taken cs (cs.takeWhile Char.isDigit ++
      takeTail (cs.drop (cs.takeWhile Char.isDigit).length)) := by
  have hne : cs.takeWhile Char.isDigit ≠ [] := by
    cases cs with
    | nil => cases hfirst
    | cons c rest =>
      have hc : c.isDigit = true := hfirst
      rw [List.takeWhile_cons_of_pos hc]
      exact List.cons_ne_nil _ _
  have hslice : cs.takeWhile Char.isDigit ++
      takeTail (cs.drop (cs.takeWhile Char.isDigit).length) <+: cs :=
    append_isPrefix (List.takeWhile_prefix _) (takeTail_isPrefix _)
  have hdigits : ∀ c ∈ cs.takeWhile Char.isDigit, c.isDigit = true :=
    fun _ => List.mem_takeWhile_imp
  have hcs := takeNumeral_unmarked h
  have hlongest : ∀ other, other <+: cs → Spelled 0 other → other.length ≤ _ :=
    fun _ => length_le_of_unmarked h
  rw [takeTail] at hslice hlongest ⊢
  dsimp only at hcs
  -- from here on only what kind of characters each part has matters
  generalize cs.takeWhile Char.isDigit = digits at hcs hne hslice hdigits hlongest ⊢
  have hf := isDigit_of_mem_takeFraction (cs.drop digits.length)
  generalize takeFraction (cs.drop digits.length) = fraction at hcs hslice hf hlongest ⊢
  have he := exponent_takeExponent ((cs.drop digits.length).drop (pointed fraction).length)
  generalize takeExponent _ = exponent at hcs hslice he hlongest ⊢
  refine ⟨⟨hslice, .decimal hne hdigits (fraction_pointed hf) he, hlongest⟩, ?_, ?_, ?_⟩
  · rw [hcs, literal_decimalNumeral]
  · rw [hcs, takeNumeral_parts (h.mono hslice) hdigits hf he]
  · intro negative literal kind hkind
    rw [hcs] at hkind
    exact .decimal hne hdigits (fraction_pointed hf) (exponent_of_kind he hkind)

theorem exists_taken {cs : List Char} (hfirst : startsWith Char.isDigit cs = true) :
    ∃ slice, Taken cs slice := by
  by_cases h : Unmarked cs
  · exact ⟨_, taken_unmarked h hfirst⟩
  · unfold Unmarked at h
    push Not at h
    obtain ⟨b, hb, mark, hmark, rest, rfl⟩ := h
    exact ⟨_, taken_mark hb hmark rest⟩

/-! ## Lines -/

/-- A number with its sign. -/
def signed (negative : Bool) (number : List Char) : List Char :=
  if negative then '-' :: number else number

/-- Whether a text is that of a number: it begins with a digit, behind a minus sign or not. -/
def isNumeric (cs : List Char) : Bool :=
  startsWith Char.isDigit cs || (startsWith (· == '-') cs && startsWith Char.isDigit cs.tail)

/-- A letter, a digit or an underscore. -/
def isWordChar (c : Char) : Bool :=
  Text.isLetter c || Text.isNumber c || c == '_'

theorem startsWith_of_spelled {least : Nat} {cs : List Char} (h : Spelled least cs) :
    startsWith Char.isDigit cs = true := by
  cases h with
  | marked hb hmark _ _ =>
    obtain ⟨m, rfl, -⟩ := exists_mark hb hmark
    rfl
  | @decimal digits _ _ hne hdigits _ _ =>
    obtain ⟨d, more, rfl⟩ := List.exists_cons_of_ne_nil hne
    exact hdigits d List.mem_cons_self

/-- The characters of a number, and what is left after them. -/
structure NumberFront (cs : List Char) (l : Lexeme) (negative : Bool) (number rest : List Char) :
    Prop where
  chars : cs = signed negative number ++ rest
  width : l.more + 1 = (signed negative number).length
  whole : Spelled 1 number
  longest : Longest (Spelled 0) number (number ++ rest)

theorem exists_kind {negative : Bool} {cs : List Char} {l : Lexeme}
    (h : scanNumber negative cs = .ok l) :
    ∃ literal, (takeNumeral cs).kind negative literal = .ok l.kind := by
  simp only [scanNumber] at h
  cases hkind : (takeNumeral cs).kind negative (String.ofList
      (if negative = true then '-' :: (takeNumeral cs).literal else (takeNumeral cs).literal)) with
  | error e =>
    rw [hkind] at h
    cases h
  | ok kind =>
    rw [hkind] at h
    cases h
    exact ⟨_, hkind⟩

theorem numberFront_of_scanNumber {negative : Bool} {cs : List Char} {l : Lexeme}
    (hfirst : startsWith Char.isDigit cs = true) (h : scanNumber negative cs = .ok l) :
    ∃ number rest, NumberFront (signed negative cs) l negative number rest := by
  obtain ⟨slice, htaken⟩ := exists_taken hfirst
  obtain ⟨literal, hkind⟩ := exists_kind h
  obtain ⟨-, hmore, -⟩ := scanNumber_eq_ok h
  obtain ⟨rest, hrest⟩ := htaken.longest.isPrefix
  have hlongest := htaken.longest
  rw [← hrest] at hlongest
  have hpos : 0 < slice.length := by
    cases slice with
    | nil => cases startsWith_of_spelled hlongest.has
    | cons c more => exact Nat.succ_pos _
  refine ⟨slice, rest, ?_, ?_, htaken.whole hkind, hlongest⟩
  · rw [← hrest]
    cases negative <;> rfl
  · rw [hmore]
    cases negative with
    | true => simp [signed, htaken.width]
    | false => simp [signed, htaken.width]; omega

/-- Only numbers are quoted like numbers. -/
theorem scanNumber_of_isNumeric {previous : Option TokenKind} {c : Char} {tail : List Char}
    {l : Lexeme} (h : front previous c tail = .lexeme l)
    (hnumeric : isNumeric l.literal.toList = true) :
    ∃ negative cs, c :: tail = signed negative cs ∧ startsWith Char.isDigit cs = true ∧
      scanNumber negative cs = .ok l := by
  by_cases hdigit : c.isDigit = true
  · rw [front_of_isDigit hdigit] at h
    exact ⟨false, c :: tail, rfl, hdigit, ofScan_eq_lexeme h⟩
  by_cases hminus : c = '-'
  · subst hminus
    have hfront : front previous '-' tail =
        if !(previous.any TokenKind.endsOperand) && startsWith Char.isDigit tail then
          .ofScan (scanNumber true tail)
        else symbol .minus '-' := rfl
    rw [hfront] at h
    split_ifs at h with hsign
    · rw [Bool.and_eq_true] at hsign
      exact ⟨true, tail, rfl, hsign.2, ofScan_eq_lexeme h⟩
    · cases h
      cases hnumeric
  · obtain ⟨-, hliteral, -, hcharacter⟩ := covers_front h
    by_cases hquote : c = '\''
    · subst hquote
      obtain ⟨inner, d, hbody, hd, -⟩ := hcharacter _ rfl
      rw [hliteral, hbody, ← List.cons_append, quoted_character hd] at hnumeric
      cases hnumeric
    · have hzero : c ≠ '0' := by
        rintro rfl
        exact hdigit rfl
      rw [hliteral, quoted_of_ne hquote hminus hzero] at hnumeric
      simp [isNumeric, startsWith, hdigit, hminus] at hnumeric

/-- A letter, a digit or an underscore begins a token, if the line can be read. -/
theorem exists_token_of_isWordChar {file : String} {line column : Nat}
    {previous : Option TokenKind} {cs : List Char} {ts : List Token}
    (h : scan file line previous column cs = .ok ts) (hword : startsWith isWordChar cs = true) :
    ∃ u later, ts = u :: later ∧ u.location.column = column := by
  cases cs with
  | nil => cases hword
  | cons c tail =>
    have hc : isWordChar c = true := hword
    rw [scan] at h
    cases hfront : front previous c tail with
    | blank =>
      have hgap := isGap_of_front hfront
      simp only [isGap, Bool.or_eq_true, beq_iff_eq] at hgap
      rcases hgap with ((rfl | rfl) | rfl) | rfl
      iterate 4
        · cases hc
    | comment =>
      obtain rfl := eq_of_front hfront
      cases hc
    | fault f =>
      rw [hfront] at h
      cases h
    | lexeme l =>
      rw [hfront] at h
      cases hrest : scan file line (some l.kind) (column + 1 + l.more) (tail.drop l.more) with
      | error e =>
        simp only [hrest] at h
        cases h
      | ok later =>
        simp only [hrest] at h
        cases h
        exact ⟨_, later, rfl, rfl⟩

/-- Where a number stands among the characters from `column` on, how it is spelled and what
comes after it: on the line, and among the tokens if it is a letter, a digit or an
underscore. -/
structure NumberAt (column : Nat) (cs : List Char) (t : Token) (after : List Token)
    (skipped : List Char) (negative : Bool) (number rest : List Char) : Prop where
  chars : cs = skipped ++ (signed negative number ++ rest)
  column : t.location.column = column + skipped.length
  literal : t.literal.toList = quoted (signed negative number)
  whole : Spelled 1 number
  longest : Longest (Spelled 0) number (number ++ rest)
  next : startsWith isWordChar rest = true → ∃ u later, after = u :: later ∧
    u.location.column = t.location.column + (signed negative number).length

theorem NumberAt.shift {column : Nat} {cs skipped : List Char} {t : Token} {after : List Token}
    {negative : Bool} {number rest : List Char} (before : List Char)
    (h : NumberAt (column + before.length) cs t after skipped negative number rest) :
    NumberAt column (before ++ cs) t after (before ++ skipped) negative number rest where
  chars := by rw [h.chars, List.append_assoc]
  column := by rw [h.column, List.length_append, Nat.add_assoc]
  literal := h.literal
  whole := h.whole
  longest := h.longest
  next := h.next

theorem numberAt_front {file : String} {line column : Nat} {previous : Option TokenKind} {c : Char}
    {tail : List Char} {l : Lexeme} {later : List Token}
    (hfront : front previous c tail = .lexeme l)
    (hrest : scan file line (some l.kind) (column + 1 + l.more) (tail.drop l.more) = .ok later)
    (hnumeric : isNumeric l.literal.toList = true) :
    ∃ negative number rest, NumberAt column (c :: tail)
      { kind := l.kind, literal := l.literal, location := { file, line, column } } later
      [] negative number rest := by
  obtain ⟨negative, cs, hcs, hfirst, hscan⟩ := scanNumber_of_isNumeric hfront hnumeric
  obtain ⟨number, rest, hchars, hwidth, hwhole, hlongest⟩ := numberFront_of_scanNumber hfirst hscan
  rw [← hcs] at hchars
  have htake : c :: tail.take l.more = signed negative number := by
    rw [← List.take_succ_cons, hchars, hwidth, List.take_left]
  have hdrop : tail.drop l.more = rest := by
    have hrest := congrArg (List.drop (l.more + 1)) hchars
    rwa [List.drop_succ_cons, hwidth, List.drop_left] at hrest
  refine ⟨negative, number, rest, hchars, rfl, ?_, hwhole, hlongest, fun hword => ?_⟩
  · rw [← htake]
    exact (covers_front hfront).quotes.literal
  · rw [hdrop] at hrest
    obtain ⟨u, more, rfl, hu⟩ := exists_token_of_isWordChar hrest hword
    refine ⟨u, more, rfl, ?_⟩
    rw [hu, ← hwidth]
    show column + 1 + l.more = column + (l.more + 1)
    omega

/-- Every number of a line is the longest that begins where it does. -/
theorem exists_numberAt {file : String} {line : Nat} {previous : Option TokenKind} {column : Nat}
    {cs : List Char} {before after : List Token} {t : Token}
    (h : scan file line previous column cs = .ok (before ++ t :: after))
    (hnumeric : isNumeric t.literal.toList = true) :
    ∃ skipped negative number rest, NumberAt column cs t after skipped negative number rest := by
  -- on the number of characters, since a token may take any number of them
  induction hn : cs.length using Nat.strong_induction_on generalizing previous column cs before with
  | h n ih =>
    cases cs with
    | nil =>
      rw [scan] at h
      exact absurd (Except.ok.inj h) (by simp)
    | cons c tail =>
      subst hn
      rw [scan] at h
      cases hfront : front previous c tail with
      | blank =>
        rw [hfront] at h
        obtain ⟨skipped, negative, number, rest, hat⟩ := ih _ (by simp) h rfl
        exact ⟨c :: skipped, negative, number, rest, hat.shift [c]⟩
      | comment =>
        rw [hfront] at h
        exact absurd (Except.ok.inj h) (by simp)
      | fault f =>
        rw [hfront] at h
        cases h
      | lexeme l =>
        rw [hfront] at h
        have hwithin := (covers_front hfront).within
        cases hrest : scan file line (some l.kind) (column + 1 + l.more) (tail.drop l.more) with
        | error e =>
          simp only [hrest] at h
          cases h
        | ok later =>
          simp only [hrest] at h
          cases before with
          | nil =>
            obtain ⟨rfl, rfl⟩ := List.cons.inj (Except.ok.inj h)
            exact ⟨[], numberAt_front hfront hrest hnumeric⟩
          | cons b before =>
            obtain ⟨-, rfl⟩ := List.cons.inj (Except.ok.inj h)
            have hshort : (tail.drop l.more).length < (c :: tail).length := by
              rw [List.length_drop, List.length_cons]
              omega
            obtain ⟨skipped, negative, number, rest, hat⟩ := ih _ hshort hrest rfl
            have hwidth : column + 1 + l.more = column + (c :: tail.take l.more).length := by
              rw [List.length_cons, List.length_take, Nat.min_eq_left hwithin]
              omega
            rw [hwidth] at hat
            have hshift := hat.shift (c :: tail.take l.more)
            rw [List.cons_append, List.take_append_drop] at hshift
            exact ⟨_, negative, number, rest, hshift⟩

/-! ## What comes after a number -/

theorem Longest.unique {P : List Char → Prop} {cs cs' text : List Char} (h : Longest P cs text)
    (h' : Longest P cs' text) : cs = cs' := by
  have hlength : cs.length = cs'.length :=
    Nat.le_antisymm (h'.longest cs h.isPrefix h.has) (h.longest cs' h'.isPrefix h'.has)
  rw [List.prefix_iff_eq_take.mp h.isPrefix, hlength, ← List.prefix_iff_eq_take.mp h'.isPrefix]

theorem Longest.refl {P : List Char → Prop} {cs : List Char} (h : P cs) : Longest P cs cs :=
  ⟨List.prefix_refl cs, h, fun _ hother _ => hother.length_le⟩

/-- A number alone is taken whole if it makes a token. -/
theorem scanNumber_alone {number : List Char} (h : Spelled 0 number) {negative : Bool} {l : Lexeme}
    (hscan : scanNumber negative number = .ok l) :
    l.more + 1 = (signed negative number).length ∧ Spelled 1 number := by
  obtain ⟨slice, rest, hchars, hwidth, hwhole, hlongest⟩ :=
    numberFront_of_scanNumber (startsWith_of_spelled h) hscan
  have hnumber : number = slice ++ rest := by
    cases negative with
    | true => exact (List.cons.inj hchars).2
    | false => exact hchars
  rw [← hnumber] at hlongest
  obtain rfl := hlongest.unique (.refl h)
  exact ⟨hwidth, hwhole⟩

/-- What comes after the longest number does not change how it is read. -/
theorem scanNumber_append {number rest : List Char}
    (h : Longest (Spelled 0) number (number ++ rest)) (negative : Bool) :
    scanNumber negative (number ++ rest) = scanNumber negative number := by
  have hfirst : startsWith Char.isDigit (number ++ rest) = true := by
    have hnumber := startsWith_of_spelled h.has
    cases number with
    | nil => cases hnumber
    | cons c more => exact hnumber
  obtain ⟨slice, htaken⟩ := exists_taken hfirst
  have halone := htaken.alone
  rw [htaken.longest.unique h] at halone
  rw [scanNumber, scanNumber, halone]

theorem exists_front_signed {number : List Char} (hfirst : startsWith Char.isDigit number = true)
    {previous : Option TokenKind} {negative : Bool}
    (hprevious : negative = true → previous.any TokenKind.endsOperand = false) :
    ∃ c tail, signed negative number = c :: tail ∧ ∀ rest,
      front previous c (tail ++ rest) = .ofScan (scanNumber negative (number ++ rest)) := by
  obtain ⟨c, more, rfl⟩ : ∃ c more, number = c :: more := by
    cases number with
    | nil => cases hfirst
    | cons c more => exact ⟨c, more, rfl⟩
  cases negative with
  | true =>
    refine ⟨'-', c :: more, rfl, fun rest => ?_⟩
    show (if !(previous.any TokenKind.endsOperand) && startsWith Char.isDigit (c :: more ++ rest)
      then _ else _) = _
    rw [hprevious rfl]
    exact if_pos hfirst
  | false => exact ⟨c, more, rfl, fun rest => front_of_isDigit hfirst previous (more ++ rest)⟩

/-- A number is refused whatever comes after it, or it is one token and what comes after it is
read on its own. -/
theorem scan_signed_append {number rest : List Char}
    (h : Longest (Spelled 0) number (number ++ rest)) {previous : Option TokenKind}
    {negative : Bool} (hprevious : negative = true → previous.any TokenKind.endsOperand = false)
    (file : String) (line column : Nat) :
    (∃ e, scan file line previous column (signed negative number) = .error e ∧
      scan file line previous column (signed negative number ++ rest) = .error e) ∨
    Spelled 1 number ∧ ∃ t, scan file line previous column (signed negative number) = .ok [t] ∧
      scan file line previous column (signed negative number ++ rest) =
        (scan file line (some t.kind) (column + (signed negative number).length) rest).map
          (t :: ·) := by
  have hfirst := startsWith_of_spelled h.has
  obtain ⟨c, tail, hsigned, hfront⟩ := exists_front_signed hfirst hprevious
  have halone := hfront []
  have hwith := hfront rest
  rw [List.append_nil, List.append_nil] at halone
  rw [scanNumber_append h] at hwith
  rw [hsigned, List.cons_append, scan, halone, scan, hwith]
  cases hscan : scanNumber negative number with
  | error f => exact .inl ⟨_, rfl, rfl⟩
  | ok l =>
    obtain ⟨hwidth, hwhole⟩ := scanNumber_alone h.has hscan
    rw [hsigned, List.length_cons, Nat.add_right_cancel_iff] at hwidth
    refine .inr ⟨hwhole,
      { kind := l.kind, literal := l.literal, location := { file, line, column } }, ?_⟩
    dsimp only [Front.ofScan]
    rw [hwidth, List.drop_length, List.drop_left, scan, List.length_cons, Nat.add_assoc,
      Nat.add_comm 1]
    refine ⟨rfl, ?_⟩
    cases scan file line (some l.kind) (column + (tail.length + 1)) rest <;> rfl

/-- How far numbers go.  In a line that is cut into tokens every number is the longest that
begins at its place, and a letter, a digit or an underscore right after it begins the next token.
Wherever the longest number is, what comes after it has no part in whether it is refused. -/
theorem tokens_numbers_longest (file : String) (line : Nat) :
    (∀ text before t after, tokens file line text = .ok (before ++ t :: after) →
      isNumeric t.literal.toList = true → ∃ skipped negative number rest,
        NumberAt 1 text.toList t after skipped negative number rest) ∧
    ∀ previous column negative number rest, Longest (Spelled 0) number (number ++ rest) →
      (negative = true → previous.any TokenKind.endsOperand = false) →
      (∃ e, scan file line previous column (signed negative number) = .error e ∧
        scan file line previous column (signed negative number ++ rest) = .error e) ∨
      Spelled 1 number ∧ ∃ t, scan file line previous column (signed negative number) = .ok [t] ∧
        scan file line previous column (signed negative number ++ rest) =
          (scan file line (some t.kind) (column + (signed negative number).length) rest).map
            (t :: ·) :=
  ⟨fun _ _ _ _ h hnumeric => exists_numberAt h hnumeric,
    fun _ column _ _ _ h hprevious => scan_signed_append h hprevious file line column⟩

/-- A digit that is not binary, right after a binary number. -/
theorem tokens_numbers_longest_binary :
    let t : Token := ⟨.integer 0xffffffff, "-0b1", ⟨"a.s", 1, 1⟩⟩
    let u : Token := ⟨.integer 2, "2", ⟨"a.s", 1, 5⟩⟩
    tokens "a.s" 1 "-0B12" = .ok [t, u] ∧
      (∃ skipped negative number rest,
        NumberAt 1 "-0B12".toList t [u] skipped negative number rest) ∧
      Longest (Spelled 0) ['0', 'B', '1'] ['0', 'B', '1', '2'] ∧ Spelled 1 ['0', 'B', '1'] ∧
      tokens "a.s" 1 "-0B12" = (scan "a.s" 1 (some t.kind) 5 ['2']).map (t :: ·) := by
  intro t u
  obtain ⟨hnumeric, halone, hread⟩ : isNumeric t.literal.toList = true ∧
      scan "a.s" 1 none 1 "-0B1".toList = .ok [t] ∧
      tokens "a.s" 1 "-0B12" = .ok ([] ++ t :: [u]) := by decide +kernel
  have hmark : ['0', 'B'] ∈ Base.binary.marks := by decide
  have hlongest : Longest (Spelled 0) ['0', 'B', '1'] ['0', 'B', '1', '2'] :=
    (taken_mark (by decide) hmark ['1', '2']).longest
  obtain ⟨hnumbers, hafter⟩ := tokens_numbers_longest "a.s" 1
  refine ⟨hread, hnumbers _ [] t [u] hread hnumeric, hlongest, ?_⟩
  rcases hafter none 1 true _ ['2'] hlongest fun _ => rfl with ⟨e, he, -⟩ | ⟨hwhole, t', ht', htext⟩
  · exact absurd (halone.symm.trans he) (by simp)
  · obtain ⟨rfl⟩ : t' = t := by simpa using ht'.symm.trans halone
    exact ⟨hwhole, htext⟩

/-- A malformed numeral is split. -/
theorem tokens_malformed_split :
    tokens "a.s" 1 "0b12" =
        .ok [⟨.integer 1, "0b1", ⟨"a.s", 1, 1⟩⟩, ⟨.integer 2, "2", ⟨"a.s", 1, 4⟩⟩] ∧
      isNumeric "0b1".toList = true ∧ startsWith isWordChar ("0b12".toList.drop 3) = true := by
  decide +kernel

end Lexer
end MipsImage
