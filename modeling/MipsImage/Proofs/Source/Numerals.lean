/-
What integer literals denote.

A numeral is a run of digits of some base after the mark of that base, with or without a
minus sign.  Its value is that of positional notation, whatever its length.  Alone on a line
it makes one integer token, congruent to the value modulo the size of a word, if the value
fits a word: as an unsigned number, or behind a minus sign as a signed one.  If the value
does not fit, the line is refused.
-/
import Mathlib
import MipsImage.Proofs.Source.Lexing

namespace MipsImage

theorem Text.ofDigits_eq (base : Nat) (digits : List Char) :
    ofDigits base digits = Nat.ofDigits base (digits.reverse.map digitValue) := by
  have hfold : (fun (n : Nat) (c : Char) => base * n + digitValue c) =
      fun n c => digitValue c + base * n := by
    funext n c
    exact Nat.add_comm _ _
  rw [ofDigits, hfold, Nat.ofDigits_eq_foldr, List.map_reverse, List.foldr_reverse,
    List.foldl_map]
  rfl

namespace Lexer

inductive Base where
  | decimal
  | hexadecimal
  | binary
  deriving DecidableEq, Repr

namespace Base

def radix : Base → Nat
  | decimal => 10
  | hexadecimal => 16
  | binary => 2

def isDigit : Base → Char → Bool
  | decimal => Char.isDigit
  | hexadecimal => isHexDigit
  | binary => isBinaryDigit

/-- What may announce a base in front of its digits. -/
def marks : Base → List (List Char)
  | decimal => [[]]
  | hexadecimal => [['0', 'x'], ['0', 'X']]
  | binary => [['0', 'b'], ['0', 'B']]

/-- The number that digits denote in positional notation, the last of them being the units. -/
def value (b : Base) (digits : List Char) : Nat :=
  Nat.ofDigits b.radix (digits.reverse.map Text.digitValue)

end Base

/-! ## Numerals -/

variable {b : Base} {mark digits : List Char}

theorem takeNumeral_marked (hmark : mark ∈ b.marks) (hne : digits ≠ [])
    (hdigits : ∀ c ∈ digits, b.isDigit c = true) :
    takeNumeral (mark ++ digits) = .whole b.radix digits := by
  have htake := List.takeWhile_eq_self_iff.mpr hdigits
  cases b with
  | decimal =>
    obtain rfl := List.mem_singleton.mp hmark
    have hstops : Stops [] := fun _ hc => by cases hc
    have hread := takeNumeral_digits hne hdigits hstops
    rwa [List.append_nil] at hread
  | hexadecimal =>
    rcases List.mem_pair.mp hmark with rfl | rfl
    · exact congrArg (Numeral.whole 16) htake
    · exact congrArg (Numeral.whole 16) htake
  | binary =>
    rcases List.mem_pair.mp hmark with rfl | rfl
    · exact congrArg (Numeral.whole 2) htake
    · exact congrArg (Numeral.whole 2) htake

theorem length_literal (hmark : mark ∈ b.marks) :
    (Numeral.whole b.radix digits).literal.length = (mark ++ digits).length := by
  cases b with
  | decimal =>
    obtain rfl := List.mem_singleton.mp hmark
    rfl
  | hexadecimal =>
    rcases List.mem_pair.mp hmark with rfl | rfl
    · rfl
    · rfl
  | binary =>
    rcases List.mem_pair.mp hmark with rfl | rfl
    · rfl
    · rfl

/-- A numeral begins with a digit, be it the zero of the mark. -/
theorem exists_first (hmark : mark ∈ b.marks) (hne : digits ≠ [])
    (hdigits : ∀ c ∈ digits, b.isDigit c = true) :
    ∃ c rest, mark ++ digits = c :: rest ∧ c.isDigit = true := by
  cases b with
  | decimal =>
    obtain rfl := List.mem_singleton.mp hmark
    obtain ⟨c, rest, rfl⟩ := List.exists_cons_of_ne_nil hne
    exact ⟨c, rest, rfl, hdigits c List.mem_cons_self⟩
  | hexadecimal =>
    rcases List.mem_pair.mp hmark with rfl | rfl
    · exact ⟨'0', _, rfl, rfl⟩
    · exact ⟨'0', _, rfl, rfl⟩
  | binary =>
    rcases List.mem_pair.mp hmark with rfl | rfl
    · exact ⟨'0', _, rfl, rfl⟩
    · exact ⟨'0', _, rfl, rfl⟩

/-- The largest value that fits, behind a minus sign or not. -/
def limit (negative : Bool) : Nat :=
  if negative then 2 ^ 31 else 2 ^ 32 - 1

theorem signed_ofInt (i : Int) : Word.signed (Word.ofInt i) ≡ i [ZMOD 2 ^ 32] := by
  unfold Word.signed Word.ofInt Int.ModEq
  rw [UInt32.toNat_ofNat']
  split <;> omega

theorem kind_fits (hne : digits ≠ []) (negative : Bool) (literal : String)
    (h : b.value digits ≤ limit negative) :
    (Numeral.whole b.radix digits).kind negative literal =
      .ok (.integer (Word.ofInt
        (if negative then -(b.value digits : Int) else b.value digits))) := by
  have hempty : digits.isEmpty = false := List.isEmpty_eq_false_iff.mpr hne
  have hvalue : Text.ofDigits b.radix digits = b.value digits := Text.ofDigits_eq _ _
  simp only [Numeral.kind, hvalue, hempty, Bool.false_or, decide_eq_true_eq]
  cases negative with
  | true =>
    have hlimit : b.value digits ≤ 0x80000000 := h
    rw [if_neg (by omega), if_pos rfl, if_neg (by omega)]
    rfl
  | false =>
    have hlimit : b.value digits ≤ 0xffffffff := h
    have hword : Word.ofInt (b.value digits) = UInt32.ofNat (b.value digits) := by
      rw [Word.ofInt]
      congr 1
      omega
    rw [if_neg (by omega), if_neg (by decide), if_neg (by omega), if_neg (by decide), hword]

theorem kind_exceeds (negative : Bool) (literal : String) (h : limit negative < b.value digits) :
    ∃ e, (Numeral.whole b.radix digits).kind negative literal = .error e := by
  have hvalue : Text.ofDigits b.radix digits = b.value digits := Text.ofDigits_eq _ _
  simp only [Numeral.kind, hvalue]
  split
  · exact ⟨_, rfl⟩
  · cases negative with
    | true =>
      have hlimit : 0x80000000 < b.value digits := h
      rw [if_pos rfl, if_pos hlimit]
      exact ⟨_, rfl⟩
    | false =>
      have hlimit : 0xffffffff < b.value digits := h
      rw [if_neg (by decide), if_pos (by omega)]
      exact ⟨_, rfl⟩

/-! ## Lines -/

/-- The characters of a numeral, with its sign. -/
def numeral (negative : Bool) (mark digits : List Char) : List Char :=
  if negative then '-' :: (mark ++ digits) else mark ++ digits

theorem length_numeral (hmark : mark ∈ b.marks) (negative : Bool) :
    (numeral negative mark digits).length =
      (if negative then '-' :: (Numeral.whole b.radix digits).literal
        else (Numeral.whole b.radix digits).literal).length := by
  cases negative with
  | true => exact congrArg (· + 1) (length_literal hmark).symm
  | false => exact (length_literal hmark).symm

/-- A line that begins with a numeral is scanned for a number. -/
theorem exists_front (hmark : mark ∈ b.marks) (hne : digits ≠ [])
    (hdigits : ∀ c ∈ digits, b.isDigit c = true) (negative : Bool) :
    ∃ c tail, numeral negative mark digits = c :: tail ∧
      front none c tail = .ofScan (scanNumber negative (mark ++ digits)) := by
  obtain ⟨c, rest, hchars, hc⟩ := exists_first hmark hne hdigits
  cases negative with
  | true =>
    refine ⟨'-', mark ++ digits, rfl, ?_⟩
    show (if startsWith Char.isDigit (mark ++ digits) then _ else _) = _
    rw [hchars]
    exact if_pos hc
  | false =>
    refine ⟨c, rest, hchars, ?_⟩
    rw [front_of_isDigit hc, hchars]

/-- A numeral alone on a line denotes its value if that fits a word. -/
theorem tokens_numeral (hmark : mark ∈ b.marks) (hne : digits ≠ [])
    (hdigits : ∀ c ∈ digits, b.isDigit c = true) (negative : Bool) (file : String) (line : Nat) :
    let value : Int := if negative then -(b.value digits : Int) else b.value digits
    let read := tokens file line (String.ofList (numeral negative mark digits))
    (b.value digits ≤ limit negative → ∃ t v, read = .ok [t] ∧ t.kind = .integer v ∧
      Word.signed v ≡ value [ZMOD 2 ^ 32]) ∧
    (limit negative < b.value digits → ∃ e, read = .error e) := by
  intro value read
  obtain ⟨c, tail, hchars, hfront⟩ := exists_front hmark hne hdigits negative
  have hread : read = scan file line none 1 (c :: tail) := by
    rw [← hchars]
    exact congrArg _ String.toList_ofList
  rw [hread]
  rw [scanNumber, takeNumeral_marked hmark hne hdigits] at hfront
  refine ⟨fun hfits => ?_, fun hexceeds => ?_⟩
  · rw [kind_fits hne negative _ hfits] at hfront
    refine ⟨_, _, scan_of_front hfront ?_, rfl, signed_ofInt value⟩
    rw [List.drop_eq_nil_of_le, scan]
    -- as many characters are quoted as there are
    have hlength := congrArg List.length hchars
    rw [length_numeral hmark, List.length_cons] at hlength
    exact Nat.le_of_eq (Nat.eq_sub_of_add_eq hlength.symm)
  · obtain ⟨e, he⟩ := kind_exceeds negative _ hexceeds
    rw [he] at hfront
    rw [scan, hfront]
    exact ⟨_, rfl⟩

/-- The least number that fits behind a minus sign, and one that is past a doubleword. -/
theorem tokens_numeral_bounds :
    (Base.hexadecimal.value ('8' :: List.replicate 7 '0') ≤ limit true ∧
      ∃ t v, tokens "a.s" 1 "-0X80000000" = .ok [t] ∧ t.kind = .integer v ∧
        Word.signed v ≡ -2147483648 [ZMOD 2 ^ 32]) ∧
    (limit false < Base.decimal.value (List.replicate 20 '9') ∧
      ∃ e, tokens "a.s" 1 "99999999999999999999" = .error e) := by
  have hmark : ['0', 'X'] ∈ Base.hexadecimal.marks := by decide
  have hfits : Base.hexadecimal.value ('8' :: List.replicate 7 '0') ≤ limit true := by
    decide +kernel
  have hdigits : ('8' :: List.replicate 7 '0').all Base.hexadecimal.isDigit = true := rfl
  have hplain : [] ∈ Base.decimal.marks := by decide
  have hnines : (List.replicate 20 '9').all Base.decimal.isDigit = true := rfl
  have hexceeds : limit false < Base.decimal.value (List.replicate 20 '9') := by decide +kernel
  have hleast := tokens_numeral hmark (by decide) (List.all_eq_true.mp hdigits) true "a.s" 1
  have hlarge := tokens_numeral hplain (by decide) (List.all_eq_true.mp hnines) false "a.s" 1
  exact ⟨⟨hfits, hleast.1 hfits⟩, hexceeds, hlarge.2 hexceeds⟩

end Lexer
end MipsImage
