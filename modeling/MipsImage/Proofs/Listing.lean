/-
What the listing of data shows.

The listing of a range goes four words to a row up to the first word that was never written,
and a short row is filled up with blanks.  The addresses within a row are added up without a
look at the end of the address space.  So a last row that would reach past it goes on with the
words from address 0 on, where blanks should be, or fails if there are none.  `Wraps` says when
that happens; any other listing is exact.
-/
import MipsImage.Listing
import MipsImage.Proofs.Memory.Unwritten

namespace MipsImage

/-- The addresses of the words of a range. -/
def AddressRange.words (r : AddressRange) : List Address :=
  wordsFrom r.first ((r.last.toNat + 1 - r.first.toNat) / 4)

namespace Listing

open Memory (candidates)

/-! ## Rows -/

/-- Consecutive words and the address of the first of them. -/
structure Row where
  address : Address
  words : List Word
  deriving DecidableEq, Repr

namespace Row

def cell (w : Word) : String :=
  " " ++ Text.hexWord w

/-- What fills the place of a word. -/
def blank : String :=
  "           "

def chars (order : ByteOrder) (w : Word) : String :=
  String.ofList ((order.bytes w).map byteChar)

/-- The words of a row with their addresses. -/
def cells (r : Row) : List (Address × Word) :=
  (wordsFrom r.address r.words.length).zip r.words

/-- A line with the given cells and characters. -/
def line (address : Address) (cells chars : String) : String :=
  Text.hexWord address ++ " " ++ cells ++ "  " ++ chars ++ "\n"

def render (order : ByteOrder) (r : Row) : String :=
  line r.address
    (String.join (r.words.map cell) ++ String.join (List.replicate (4 - r.words.length) blank))
    (String.join (r.words.map (chars order)))

end Row

/-- The words at some addresses, four to a row. -/
def rows (value : Address → Word) : List Address → List Row
  | [] => []
  | a :: rest =>
    { address := a, words := ((a :: rest).take 4).map value } :: rows value (rest.drop 3)
termination_by as => as.length
decreasing_by
  rw [List.length_drop, List.length_cons]
  omega

def dataText (order : ByteOrder) (rs : List Row) : String :=
  "========== DATA ==========\n\n" ++ String.join (rs.map (Row.render order))

/-- The row of the first words, and the rows of the others. -/
theorem rows_wordsFrom (value : Address → Word) (row : Address) (n : Nat) :
    rows value (wordsFrom row (n + 1)) =
      { address := row, words := (wordsFrom row (min 4 (n + 1))).map value } ::
        rows value (wordsFrom (row + 16) (n - 3)) := by
  have hrest : (wordsFrom (row + 4) n).drop 3 = wordsFrom (row + 16) (n - 3) := by
    rw [drop_wordsFrom, UInt32.add_assoc]
    rfl
  rw [wordsFrom_succ, rows, ← wordsFrom_succ, take_wordsFrom, hrest]

/-! ## Cells -/

variable {m : Memory} {limit : Address}

/-- The place of a word in a row: blank from the limit on. -/
def place (m : Memory) (limit a : Address) : String × String :=
  if limit ≤ a then (Row.blank, "") else (Row.cell (m.word a), Row.chars m.order (m.word a))

/-- Words below the limit are shown if they are there, and what comes after them does not
matter to them. -/
theorem dataCells_append {as : List Address}
    (h : ∀ a ∈ as, a < limit → (m.present? a).isSome = true) (bs : List Address) :
    dataCells m limit (as ++ bs) =
      (dataCells m limit bs).map fun rest =>
        (String.join (as.map fun a => (place m limit a).1) ++ rest.1,
          String.join (as.map fun a => (place m limit a).2) ++ rest.2) := by
  induction as with
  | nil =>
    simp only [List.nil_append, List.map_nil, String.join_nil, String.empty_append]
    cases dataCells m limit bs <;> rfl
  | cons a as ih =>
    obtain ⟨ha, has⟩ := List.forall_mem_cons.mp h
    rw [List.cons_append, dataCells, ih has]
    by_cases hlimit : limit ≤ a
    · rw [if_pos hlimit]
      cases dataCells m limit bs with
      | error e => rfl
      | ok rest =>
        simp [Except.map, place, hlimit, String.join_cons, Row.blank, String.append_assoc]
    · obtain ⟨w, hw⟩ := Option.isSome_iff_exists.mp (ha (UInt32.not_le.mp hlimit))
      rw [if_neg hlimit, Memory.peek_of_present hw]
      cases dataCells m limit bs with
      | error e => rfl
      | ok rest =>
        simp [Except.map, place, hlimit, String.join_cons, Row.cell, Row.chars, Memory.word, hw,
          Memory.wordAccess, String.append_assoc]

/-- The limit stands after the first of the last of `n` words from `row` on, and not after
them all. -/
structure Ends (row limit : Address) (n : Nat) : Prop where
  low : 0 < n → row.toNat + 4 * n < limit.toNat + 4
  high : limit.toNat ≤ row.toNat + 4 * n

/-- Places of a row that do not wrap: words, and then blanks. -/
theorem map_place {row : Address} {n : Nat} (hends : Ends row limit n) {p : Nat}
    (hspace : row.toNat + 4 * p ≤ 2 ^ 32) :
    (wordsFrom row p).map (place m limit) =
      (wordsFrom row (min n p)).map
          (fun a => (Row.cell (m.word a), Row.chars m.order (m.word a))) ++
        List.replicate (p - n) (Row.blank, "") := by
  obtain ⟨hlow, hhigh⟩ := hends
  have hsplit : wordsFrom row p =
      wordsFrom row (min n p) ++ wordsFrom (row + 4 * UInt32.ofNat n) (p - n) := by
    rw [← take_wordsFrom, ← drop_wordsFrom, List.take_append_drop]
  rw [hsplit, List.map_append]
  congr 1
  · refine List.map_congr_left fun a ha => ?_
    have hcount : 0 < min n p := by
      rw [← length_wordsFrom row (min n p)]
      exact List.length_pos_of_mem ha
    have hlast := (bounds_of_mem_wordsFrom (by omega) ha).2.1
    have hbelow : ¬ limit ≤ a := by
      rw [UInt32.le_iff_toNat_le]
      have := hlow (by omega)
      omega
    rw [place, if_neg hbelow]
  · refine List.eq_replicate_iff.mpr ⟨by rw [List.length_map, length_wordsFrom], fun x hx => ?_⟩
    obtain ⟨a, ha, rfl⟩ := List.mem_map.mp hx
    have hpast : limit ≤ a := by
      have hcount : 0 < p - n := by
        rw [← length_wordsFrom (row + 4 * UInt32.ofNat n) (p - n)]
        exact List.length_pos_of_mem ha
      have hstart := toNat_add_words row n
      have hfirst := (bounds_of_mem_wordsFrom (by omega) ha).1
      rw [UInt32.le_iff_toNat_le]
      omega
    rw [place, if_pos hpast]

theorem join_replicate_empty (n : Nat) : String.join (List.replicate n "") = "" := by
  induction n with
  | zero => rfl
  | succ n ih => rw [List.replicate_succ, String.join_cons, ih, String.append_empty]

/-- The words of a row and its blanks, as far as it does not wrap, whatever comes after. -/
theorem dataCells_places {row : Address} {n : Nat} (hends : Ends row limit n) {p : Nat}
    (hspace : row.toNat + 4 * p ≤ 2 ^ 32)
    (hpresent : ∀ a ∈ wordsFrom row n, (m.present? a).isSome = true) (bs : List Address) :
    dataCells m limit (wordsFrom row p ++ bs) =
      (dataCells m limit bs).map fun rest =>
        (String.join (((wordsFrom row (min n p)).map m.word).map Row.cell) ++
            String.join (List.replicate (p - n) Row.blank) ++ rest.1,
          String.join (((wordsFrom row (min n p)).map m.word).map (Row.chars m.order)) ++
            rest.2) := by
  have hread : ∀ a ∈ wordsFrom row p, a < limit → (m.present? a).isSome = true := by
    intro a ha hbelow
    refine hpresent a ?_
    obtain ⟨i, hi, rfl⟩ := mem_wordsFrom.mp ha
    have hnat := toNat_add_words row i
    have hlt := UInt32.lt_iff_toNat_lt.mp hbelow
    have hhigh := hends.high
    exact mem_wordsFrom.mpr ⟨i, by omega, rfl⟩
  have hplaces := map_place (m := m) hends hspace
  have hfirst : (wordsFrom row p).map (fun a => (place m limit a).1) =
      ((wordsFrom row (min n p)).map m.word).map Row.cell ++
        List.replicate (p - n) Row.blank := by
    have hfst := congrArg (List.map Prod.fst) hplaces
    rw [List.map_append, List.map_replicate, List.map_map, List.map_map] at hfst
    rw [List.map_map]
    exact hfst
  have hsecond : (wordsFrom row p).map (fun a => (place m limit a).2) =
      ((wordsFrom row (min n p)).map m.word).map (Row.chars m.order) ++
        List.replicate (p - n) "" := by
    have hsnd := congrArg (List.map Prod.snd) hplaces
    rw [List.map_append, List.map_replicate, List.map_map, List.map_map] at hsnd
    rw [List.map_map]
    exact hsnd
  rw [dataCells_append hread, hfirst, hsecond, String.join_append, String.join_append,
    join_replicate_empty, String.append_empty]

theorem wordsFrom_four (row : Address) : wordsFrom row 4 = [row, row + 4, row + 8, row + 12] := by
  have hadd (i : UInt32) : row + 4 + i = row + (4 + i) := UInt32.add_assoc row 4 i
  rw [wordsFrom_succ, wordsFrom_succ, wordsFrom_succ, wordsFrom_succ, hadd, UInt32.add_assoc,
    UInt32.add_assoc]
  rfl

/-! ## Lines -/

theorem dataRows_of_le {row : Address} (h : limit ≤ row) : dataRows m limit row = .ok [] := by
  rw [dataRows, if_neg (UInt32.not_lt.mpr h)]

theorem dataRows_of_lt {row : Address} (h : row < limit) {cells chars : String}
    (hcells : dataCells m limit (wordsFrom row 4) = .ok (cells, chars)) :
    dataRows m limit row =
      if row.toNat + 16 < 0x100000000 then
        (dataRows m limit (row + 16)).map (Row.line row cells chars :: ·)
      else .ok [Row.line row cells chars] := by
  rw [wordsFrom_four] at hcells
  rw [dataRows, if_pos h, hcells]
  dsimp only
  split_ifs
  · cases dataRows m limit (row + 16) <;> rfl
  · rfl

theorem toNat_next {row : Address} (h : row.toNat + 16 < 0x100000000) :
    (row + 16).toNat = row.toNat + 16 := by
  rw [UInt32.toNat_add]
  exact Nat.mod_eq_of_lt h

theorem Ends.lt {row : Address} {n : Nat} (hends : Ends row limit n) (hn : 0 < n) :
    row < limit := by
  have hlow := hends.low hn
  rw [UInt32.lt_iff_toNat_lt]
  omega

/-- After a row there are up to four words less to show. -/
theorem Ends.next {row : Address} {n : Nat} (hends : Ends row limit n)
    (h : row.toNat + 16 < 0x100000000) : Ends (row + 16) limit (n - 4) := by
  have hadd := toNat_next h
  have hlow := hends.low
  have hhigh := hends.high
  exact ⟨fun hn => by have := hlow (by omega); omega, by omega⟩

/-- The last row is the last line. -/
theorem dataRows_last {row : Address} {n : Nat} (hends : Ends row limit n) (hn : 0 < n)
    (hfour : n ≤ 4) :
    dataRows m limit row =
      (dataCells m limit (wordsFrom row 4)).map fun c => [Row.line row c.1 c.2] := by
  have hrow := hends.lt hn
  cases hcells : dataCells m limit (wordsFrom row 4) with
  | error e =>
    rw [wordsFrom_four] at hcells
    rw [dataRows, if_pos hrow, hcells]
    rfl
  | ok c =>
    rw [dataRows_of_lt hrow hcells]
    split_ifs with hnext
    · have hdone : limit ≤ row + 16 := by
        have hhigh := (hends.next hnext).high
        rw [UInt32.le_iff_toNat_le]
        omega
      rw [dataRows_of_le hdone]
      rfl
    · rfl

/-- The first row of `n` words. -/
def firstRow (m : Memory) (row : Address) (n : Nat) : Row :=
  { address := row, words := (wordsFrom row (min n 4)).map m.word }

theorem dataCells_firstRow {row : Address} {n : Nat} (hends : Ends row limit n)
    (hspace : row.toNat + 16 ≤ 2 ^ 32)
    (hpresent : ∀ a ∈ wordsFrom row n, (m.present? a).isSome = true) :
    ∃ cells chars, dataCells m limit (wordsFrom row 4) = .ok (cells, chars) ∧
      Row.line row cells chars = (firstRow m row n).render m.order := by
  have hcells := dataCells_places hends (p := 4) hspace hpresent []
  rw [List.append_nil] at hcells
  refine ⟨_, _, hcells, ?_⟩
  have hblanks : 4 - min n 4 = 4 - n := by omega
  rw [Row.render, firstRow, List.length_map, length_wordsFrom, hblanks, String.append_empty,
    String.append_empty]

theorem drop_row (row : Address) (n : Nat) :
    (wordsFrom row n).drop 4 = wordsFrom (row + 16) (n - 4) :=
  drop_wordsFrom row 4 n

theorem mem_next {row a : Address} {n : Nat} (ha : a ∈ wordsFrom (row + 16) (n - 4)) :
    a ∈ wordsFrom row n := by
  rw [← drop_row] at ha
  exact List.mem_of_mem_drop ha

/-- Every row that is followed by another is shown as it is. -/
theorem dataRows_next {row : Address} {n : Nat} (hends : Ends row limit n) (hn : 0 < n)
    (hnext : row.toNat + 16 < 0x100000000)
    (hpresent : ∀ a ∈ wordsFrom row n, (m.present? a).isSome = true) :
    dataRows m limit row =
      (dataRows m limit (row + 16)).map ((firstRow m row n).render m.order :: ·) := by
  obtain ⟨cells, chars, hcells, hline⟩ := dataCells_firstRow hends (by omega) hpresent
  rw [dataRows_of_lt (hends.lt hn) hcells, if_pos hnext, hline]

theorem rows_succ (row : Address) {n : Nat} (hn : 0 < n) :
    rows m.word (wordsFrom row n) =
      firstRow m row n :: rows m.word (wordsFrom (row + 16) (n - 4)) := by
  obtain ⟨n, rfl⟩ : ∃ k, n = k + 1 := ⟨n - 1, by omega⟩
  rw [rows_wordsFrom, firstRow, Nat.min_comm]
  congr 1

/-- Rows that do not wrap are shown as they are. -/
theorem dataRows_eq {row : Address} {n : Nat} (hends : Ends row limit n)
    (hspace : row.toNat + 16 * ((n + 3) / 4) ≤ 2 ^ 32)
    (hpresent : ∀ a ∈ wordsFrom row n, (m.present? a).isSome = true) :
    dataRows m limit row = .ok ((rows m.word (wordsFrom row n)).map (Row.render m.order)) := by
  induction n using Nat.strong_induction_on generalizing row with
  | h n ih =>
    rcases Nat.eq_zero_or_pos n with rfl | hn
    · have hdone : limit ≤ row := UInt32.le_iff_toNat_le.mpr hends.high
      rw [dataRows_of_le hdone]
      simp [wordsFrom, rows]
    · rw [rows_succ row hn, List.map_cons]
      by_cases hnext : row.toNat + 16 < 0x100000000
      · rw [dataRows_next hends hn hnext hpresent,
          ih (n - 4) (by omega) (hends.next hnext) (by rw [toNat_next hnext]; omega)
            fun a ha => hpresent a (mem_next ha)]
        rfl
      · -- the row ends with the address space
        have hlast : n - 4 = 0 := by omega
        obtain ⟨cells, chars, hcells, hline⟩ := dataCells_firstRow hends (by omega) hpresent
        rw [dataRows_of_lt (hends.lt hn) hcells, if_neg hnext, hline, hlast]
        simp [wordsFrom, rows]

/-! ## The end of the address space -/

/-- How a listing ends: all but its last row is shown as it is, and the last row as its cells
come out. -/
structure LastRow (m : Memory) (limit row : Address) (n : Nat) (before : List String)
    (last : Address) (k : Nat) : Prop where
  lines : (rows m.word (wordsFrom row n)).map (Row.render m.order) =
    before ++ [(firstRow m last k).render m.order]
  shown : dataRows m limit row = (dataCells m limit (wordsFrom last 4)).map fun c =>
    before ++ [Row.line last c.1 c.2]
  ends : Ends last limit k
  count : k = n - 4 * ((n - 1) / 4)
  address : last.toNat = row.toNat + 16 * ((n - 1) / 4)
  present : ∀ a ∈ wordsFrom last k, (m.present? a).isSome = true

theorem exists_lastRow {row : Address} {n : Nat} (hends : Ends row limit n) (hn : 0 < n)
    (hspace : row.toNat + 4 * n ≤ 2 ^ 32)
    (hpresent : ∀ a ∈ wordsFrom row n, (m.present? a).isSome = true) :
    ∃ before last k, LastRow m limit row n before last k := by
  induction n using Nat.strong_induction_on generalizing row with
  | h n ih =>
    by_cases hfour : n ≤ 4
    · have hrest : n - 4 = 0 := by omega
      refine ⟨[], row, n, ?_, ?_, hends, by omega, by omega, hpresent⟩
      · rw [rows_succ row hn, hrest]
        simp [wordsFrom, rows]
      · rw [dataRows_last hends hn hfour]
        rfl
    · have hnext : row.toNat + 16 < 0x100000000 := by omega
      have hadd := toNat_next hnext
      obtain ⟨before, last, k, hlast⟩ := ih (n - 4) (by omega) (hends.next hnext) (by omega)
        (by omega) fun a ha => hpresent a (mem_next ha)
      have hcount := hlast.count
      have haddress := hlast.address
      refine ⟨(firstRow m row n).render m.order :: before, last, k, ?_, ?_, hlast.ends, by omega,
        by omega, hlast.present⟩
      · rw [rows_succ row hn, List.map_cons, hlast.lines, List.cons_append]
      · rw [dataRows_next hends hn hnext hpresent, hlast.shown]
        cases dataCells m limit (wordsFrom last 4) <;> rfl

/-- A row that reaches past the end of the address space goes on at address 0. -/
theorem wordsFrom_wraps {row : Address} (haligned : row.toNat % 4 = 0)
    (hwraps : 2 ^ 32 < row.toNat + 16) :
    ∃ p q, row.toNat + 4 * p = 2 ^ 32 ∧ p + (q + 1) = 4 ∧
      wordsFrom row 4 = wordsFrom row p ++ 0 :: wordsFrom 4 q := by
  have hlt := row.toNat_lt
  refine ⟨(2 ^ 32 - row.toNat) / 4, 3 - (2 ^ 32 - row.toNat) / 4, by omega, by omega, ?_⟩
  generalize hp : (2 ^ 32 - row.toNat) / 4 = p
  have hzero : row + 4 * UInt32.ofNat p = 0 := by
    apply UInt32.toNat_inj.mp
    rw [toNat_add_words, UInt32.toNat_zero]
    omega
  have hrest : 4 - p = (3 - p) + 1 := by omega
  rw [← List.take_append_drop p (wordsFrom row 4), take_wordsFrom, drop_wordsFrom, hzero, hrest,
    wordsFrom_succ, Nat.min_eq_left (by omega)]
  rfl

theorem dataCells_zero_of_error {e : AddressError} (h : m.peek 0 4 = .error e)
    (hlimit : 0 < limit) (bs : List Address) : dataCells m limit (0 :: bs) = .error e := by
  rw [dataCells, if_neg (UInt32.not_le.mpr hlimit), h]

theorem exists_cell_zero {bs : List Address} {c : String × String} (hlimit : 0 < limit)
    (h : dataCells m limit (0 :: bs) = .ok c) : ∃ w rest, c.1 = Row.cell w ++ rest := by
  rw [dataCells, if_neg (UInt32.not_le.mpr hlimit)] at h
  cases hpeek : m.peek 0 4 with
  | error e =>
    rw [hpeek] at h
    cases h
  | ok access =>
    rw [hpeek] at h
    dsimp only at h
    cases hrest : dataCells m limit bs with
    | error e =>
      rw [hrest] at h
      cases h
    | ok rest =>
      rw [hrest] at h
      cases h
      exact ⟨access.value, rest.1, rfl⟩

/-- A word is not shown as a blank. -/
theorem cell_append_ne (w : Word) (s t : String) : Row.cell w ++ s ≠ Row.blank ++ t := by
  intro h
  have hchars := congrArg String.toList h
  simp [Row.cell, Row.blank, Text.hexWord] at hchars

/-- A last row that reaches past the end of the address space is not shown as it is, if it is
shown at all. -/
theorem LastRow.wraps {row last : Address} {n k : Nat} {before : List String}
    (h : LastRow m limit row n before last k) (hn : 0 < n) (haligned : row.toNat % 4 = 0)
    (hspace : row.toNat + 4 * n ≤ 2 ^ 32) (hwraps : 2 ^ 32 < row.toNat + 16 * ((n + 3) / 4)) :
    (∀ e, m.peek 0 4 = .error e → dataRows m limit row = .error e) ∧
    ∀ lines, dataRows m limit row = .ok lines → String.join lines ≠
      String.join ((rows m.word (wordsFrom row n)).map (Row.render m.order)) := by
  have hcount := h.count
  have haddress := h.address
  have halast : last.toNat % 4 = 0 := by omega
  obtain ⟨p, q, hp, hpq, hwords⟩ := wordsFrom_wraps halast (by omega)
  have hlimit : 0 < limit := by
    have hlow := h.ends.low (by omega)
    rw [UInt32.lt_iff_toNat_lt, UInt32.toNat_zero]
    omega
  have hcells := dataCells_places h.ends (Nat.le_of_eq hp) h.present (0 :: wordsFrom 4 q)
  rw [← hwords] at hcells
  refine ⟨fun e he => ?_, fun lines hlines => ?_⟩
  · rw [h.shown, hcells, dataCells_zero_of_error he hlimit]
    rfl
  · rw [h.shown, hcells] at hlines
    cases hzero : dataCells m limit (0 :: wordsFrom 4 q) with
    | error e =>
      rw [hzero] at hlines
      cases hlines
    | ok c =>
      rw [hzero] at hlines
      cases hlines
      obtain ⟨w, rest, hcell⟩ := exists_cell_zero hlimit hzero
      rw [h.lines, String.join_append, String.join_append, Ne, String.append_right_inj]
      -- both lines have the same words and blanks up to the end of the address space
      have hblanks : 4 - (firstRow m last k).words.length = (p - k) + (q + 1) := by
        rw [firstRow, List.length_map, length_wordsFrom]
        omega
      have hmin : min k 4 = min k p := by omega
      rw [Row.render, hblanks, List.replicate_add, List.replicate_succ, firstRow, hmin]
      simp only [Row.line, hcell, String.join_append, String.join_cons, String.join_nil,
        String.append_assoc, String.append_right_inj]
      exact cell_append_ne w _ _

/-! ## Listings -/

/-- The words of a range that ends with a word are those that a search of it comes to. -/
theorem candidates_range {range : AddressRange} (hfirst : range.first.toNat % 4 = 0)
    (hlast : range.last.toNat % 4 = 3) : candidates range.first range.last = range.words := by
  rw [candidates, AddressRange.words]
  congr 1
  omega

theorem mem_words {range : AddressRange} {a : Address} (hfirst : range.first.toNat % 4 = 0)
    (ha : a ∈ range.words) : range.contains a = true ∧ a.toNat % 4 = 0 := by
  have hcount := List.length_pos_of_mem ha
  rw [AddressRange.words, length_wordsFrom] at hcount
  have hlast := range.last.toNat_lt
  have hmem := bounds_of_mem_wordsFrom (by omega) ha
  rw [AddressRange.contains, Bool.and_eq_true, decide_eq_true_iff, decide_eq_true_iff,
    UInt32.le_iff_toNat_le, UInt32.le_iff_toNat_le]
  omega

/-- A search of the words of a range stops after the last of the words that come before, or
with the end of the range. -/
theorem exists_limit {range : AddressRange} (hfirst : range.first.toNat % 4 = 0)
    (hlast : range.last.toNat % 4 = 3) (written : Address → Bool) :
    ∃ n, range.words.takeWhile written = wordsFrom range.first n ∧
      (0 < n → range.first.toNat + 4 * n ≤ range.last.toNat + 1) ∧
      Ends range.first ((range.words.dropWhile written).head?.getD range.last) n := by
  generalize hcount : (range.last.toNat + 1 - range.first.toNat) / 4 = count
  have hwords : range.words = wordsFrom range.first count := by rw [AddressRange.words, hcount]
  have hend := range.last.toNat_lt
  generalize hn : (range.words.takeWhile written).length = n
  have hle : n ≤ count := by
    rw [← hn, ← length_wordsFrom range.first count, ← hwords]
    exact (List.takeWhile_prefix written).length_le
  have htake : range.words.takeWhile written = wordsFrom range.first n := by
    rw [List.prefix_iff_eq_take.mp (List.takeWhile_prefix written), hn, hwords, take_wordsFrom,
      Nat.min_eq_left hle]
  have hdrop : range.words.dropWhile written =
      wordsFrom (range.first + 4 * UInt32.ofNat n) (count - n) := by
    have hall := List.takeWhile_append_dropWhile (p := written) (l := range.words)
    rw [← drop_wordsFrom, ← hwords, ← hall, List.drop_left' hn, hall]
  refine ⟨n, htake, by omega, ?_⟩
  rw [hdrop]
  rcases Nat.eq_or_lt_of_le hle with rfl | hlt
  · rw [Nat.sub_self]
    exact ⟨fun hpos => by simp [wordsFrom]; omega, by simp [wordsFrom]; omega⟩
  · obtain ⟨k, hk⟩ : ∃ k, count - n = k + 1 := ⟨count - n - 1, by omega⟩
    rw [hk, wordsFrom_succ, List.head?_cons, Option.getD_some]
    have hnat := toNat_add_words range.first n
    exact ⟨fun _ => by omega, by omega⟩

/-- A range of whole words, of each of which can be told whether it is there. -/
structure Surveyed (m : Memory) (range : AddressRange) (written : Address → Bool) : Prop where
  first : range.first.toNat % 4 = 0
  last : range.last.toNat % 4 = 3
  read : ∀ a ∈ range.words, m.Readable a ∧ (m.present? a).isSome = written a

/-- A listing has the rows up to a limit, which comes after the first words that are there. -/
theorem Surveyed.exists_dataRows {range : AddressRange} {written : Address → Bool}
    (h : Surveyed m range written) :
    ∃ n limit, range.words.takeWhile written = wordsFrom range.first n ∧
      range.first.toNat + 4 * n ≤ 2 ^ 32 ∧ Ends range.first limit n ∧
      (∀ a ∈ wordsFrom range.first n, (m.present? a).isSome = true) ∧
      data m range = (dataRows m limit range.first).map fun lines =>
        "========== DATA ==========\n\n" ++ String.join lines := by
  obtain ⟨n, htake, hspace, hends⟩ := exists_limit h.first h.last written
  have hfirst := range.first.toNat_lt
  have hlast := range.last.toNat_lt
  refine ⟨n, _, htake, by omega, hends, fun a ha => ?_, ?_⟩
  · rw [← htake] at ha
    rw [(h.read a ((List.takeWhile_prefix written).subset ha)).2]
    exact List.mem_takeWhile_imp ha
  · rw [data, Memory.firstUnwritten_eq, candidates_range h.first h.last,
      Memory.firstAbsent_of_readable h.read]
    dsimp only
    cases dataRows m _ range.first <;> rfl

/-- Whether the rows of some words from an address on reach past the end of the address
space. -/
def Wraps (first : Address) (words : Nat) : Prop :=
  2 ^ 32 < first.toNat + 16 * ((words + 3) / 4)

/-- A listing wraps only at the very end of the address space, and only if its rows do not
start at multiples of 16. -/
theorem Wraps.bounds {first : Address} {n : Nat} (h : Wraps first n)
    (hfirst : first.toNat % 4 = 0) (hspace : first.toNat + 4 * n ≤ 2 ^ 32) :
    0 < n ∧ 2 ^ 32 < first.toNat + 4 * n + 12 ∧ first.toNat % 16 ≠ 0 := by
  rw [Wraps] at h
  have := first.toNat_lt
  omega

/-- A listing that does not wrap is exact. -/
theorem Surveyed.data_of_not_wraps {range : AddressRange} {written : Address → Bool}
    (h : Surveyed m range written)
    (hwraps : ¬ Wraps range.first (range.words.takeWhile written).length) :
    data m range = .ok (dataText m.order (rows m.word (range.words.takeWhile written))) := by
  obtain ⟨n, limit, htake, -, hends, hpresent, hdata⟩ := h.exists_dataRows
  rw [htake] at hwraps ⊢
  rw [Wraps, length_wordsFrom, Nat.not_lt] at hwraps
  rw [hdata, dataRows_eq hends hwraps hpresent]
  rfl

/-- A listing that wraps is not exact, and it fails if there is nothing at address 0. -/
theorem Surveyed.data_of_wraps {range : AddressRange} {written : Address → Bool}
    (h : Surveyed m range written)
    (hwraps : Wraps range.first (range.words.takeWhile written).length) :
    data m range ≠ .ok (dataText m.order (rows m.word (range.words.takeWhile written))) ∧
    ∀ e, m.peek 0 4 = .error e → data m range = .error e := by
  obtain ⟨n, limit, htake, hspace, hends, hpresent, hdata⟩ := h.exists_dataRows
  rw [htake] at hwraps ⊢
  rw [length_wordsFrom] at hwraps
  have hpos := (Wraps.bounds hwraps h.first hspace).1
  obtain ⟨before, last, k, hrow⟩ := exists_lastRow hends hpos hspace hpresent
  obtain ⟨herror, hok⟩ := hrow.wraps hpos h.first hspace hwraps
  refine ⟨fun hexact => ?_, fun e he => by rw [hdata, herror e he]; rfl⟩
  rw [hdata] at hexact
  cases hlines : dataRows m limit range.first with
  | error e =>
    rw [hlines] at hexact
    cases hexact
  | ok lines =>
    rw [hlines] at hexact
    exact hok lines hlines ((String.append_right_inj _).mp (Except.ok.inj hexact))

/-! ## Exactness -/

theorem rows_congr {value value' : Address → Word} {as : List Address}
    (h : ∀ a ∈ as, value a = value' a) : rows value as = rows value' as := by
  fun_induction rows value as with
  | case1 => rw [rows]
  | case2 a rest ih =>
    have hrow : ∀ b ∈ (a :: rest).take 4, value b = value' b :=
      fun b hb => h b (List.mem_of_mem_take hb)
    rw [rows, List.map_congr_left hrow,
      ih fun b hb => h b (List.mem_cons_of_mem a (List.mem_of_mem_drop hb))]

theorem cells_firstRow (m : Memory) (row : Address) (n : Nat) :
    (firstRow m row n).cells = (wordsFrom row (min n 4)).map fun a => (a, m.word a) := by
  rw [Row.cells, firstRow, List.length_map, length_wordsFrom, List.map_prod_left_eq_zip]

theorem wordsFrom_split (row : Address) (n : Nat) :
    wordsFrom row (min n 4) ++ wordsFrom (row + 16) (n - 4) = wordsFrom row n := by
  rw [Nat.min_comm, ← take_wordsFrom, ← drop_row, List.take_append_drop]

/-- Rows of four words, and a last row of one to four, that have the given words in order. -/
structure Tile (value : Address → Word) (as : List Address) (rs : List Row) : Prop where
  cells : rs.flatMap Row.cells = as.map fun a => (a, value a)
  full : ∀ r ∈ rs.dropLast, r.words.length = 4
  sized : ∀ r ∈ rs, 0 < r.words.length ∧ r.words.length ≤ 4

theorem tile_rows (m : Memory) (row : Address) (n : Nat) :
    Tile m.word (wordsFrom row n) (rows m.word (wordsFrom row n)) := by
  induction n using Nat.strong_induction_on generalizing row with
  | h n ih =>
    rcases Nat.eq_zero_or_pos n with rfl | hn
    · constructor <;> simp [wordsFrom, rows]
    · obtain ⟨hcells, hfull, hsized⟩ := ih (n - 4) (by omega) (row + 16)
      have hlength : (firstRow m row n).words.length = min n 4 := by
        rw [firstRow, List.length_map, length_wordsFrom]
      rw [rows_succ row hn]
      refine ⟨?_, ?_, ?_⟩
      · rw [List.flatMap_cons, cells_firstRow, hcells, ← List.map_append, wordsFrom_split]
      · rcases Nat.eq_zero_or_pos (n - 4) with hlast | hmore
        · simp [hlast, wordsFrom, rows]
        · rw [List.dropLast_cons_of_ne_nil (by rw [rows_succ _ hmore]; simp)]
          exact List.forall_mem_cons.mpr ⟨by omega, hfull⟩
      · exact List.forall_mem_cons.mpr ⟨by omega, hsized⟩

/-- The words of a range up to the first whose block was never written. -/
def listed (m : Memory) (range : AddressRange) : List Address :=
  range.words.takeWhile m.isWritten

/-- Memories that have the same words in a range, whatever they have elsewhere. -/
structure AgreeIn (range : AddressRange) (m m' : Memory) : Prop where
  order : m'.order = m.order
  words : ∀ a, range.contains a = true → m'.fetchWordOrAbsent a = m.fetchWordOrAbsent a

theorem AgreeIn.present {range : AddressRange} {m' : Memory} (h : AgreeIn range m m') {a : Address}
    (ha : range.contains a = true) : m'.present? a = m.present? a := by
  rw [Memory.present?, h.words a ha, Memory.present?]

/-- Nothing outside the range matters to a listing that does not wrap. -/
theorem AgreeIn.data_eq {range : AddressRange} {m' : Memory} (h : AgreeIn range m m')
    (hm : Surveyed m range m.isWritten) (hwraps : ¬ Wraps range.first (listed m range).length) :
    data m' range = data m range := by
  have hm' : Surveyed m' range m.isWritten := by
    refine ⟨hm.first, hm.last, fun a ha => ?_⟩
    have hcontains := (mem_words hm.first ha).1
    rw [Memory.Readable, h.words a hcontains, h.present hcontains]
    exact hm.read a ha
  have hvalues : ∀ a ∈ listed m range, m'.word a = m.word a := by
    intro a ha
    have hmem := (List.takeWhile_prefix m.isWritten).subset ha
    rw [Memory.word, h.present (mem_words hm.first hmem).1, Memory.word]
  rw [hm'.data_of_not_wraps hwraps, hm.data_of_not_wraps hwraps, h.order]
  exact congrArg (fun rs => Except.ok (dataText m.order rs)) (rows_congr hvalues)

/-- A listing of data, in rows of four words up to the first that was never written.  It is
exact, and depends on nothing outside its range, unless its last row would reach past the end of
the address space. -/
theorem data_exact_iff {m : Memory} (hm : m.Reachable) {range : AddressRange} {which : DataArea}
    (hfirst : range.first.toNat % 4 = 0) (hlast : range.last.toNat % 4 = 3)
    (hinside : ∀ a, range.contains a = true → (m.layout.dataRange which).contains a = true) :
    (∀ a ∈ listed m range, (m.fetch a 4 false).1 = .ok (m.word a)) ∧
    ∃ rs, Tile m.word (listed m range) rs ∧
      (data m range = .ok (dataText m.order rs) ↔ ¬ Wraps range.first (listed m range).length) ∧
      (¬ Wraps range.first (listed m range).length →
        ∀ m', AgreeIn range m m' → data m' range = data m range) ∧
      (Wraps range.first (listed m range).length →
        0xfffffff7 ≤ range.last ∧ range.first.toNat % 16 ≠ 0 ∧
        (m.areaOf? 0 = none → data m range = .error (.load 0 .outOfRange))) := by
  have hrange : Surveyed m range m.isWritten := by
    refine ⟨hfirst, hlast, fun a ha => ?_⟩
    obtain ⟨hcontains, haligned⟩ := mem_words hfirst ha
    have hregion : (m.dataRegion which).contains a = true := by
      rw [Region.contains, hm.situated which]
      exact hinside a hcontains
    exact Memory.readable_of_data haligned hregion
  refine ⟨fun a ha => ?_, rows m.word (listed m range), ?_, ?_, ?_, ?_⟩
  · have hwritten := (hrange.read a ((List.takeWhile_prefix _).subset ha)).2
    exact Memory.fetch_of_present (hwritten.trans (List.mem_takeWhile_imp ha))
  · obtain ⟨n, htake, -⟩ := exists_limit hfirst hlast m.isWritten
    rw [listed, htake]
    exact tile_rows m range.first n
  · exact ⟨fun hdata hwraps => (hrange.data_of_wraps hwraps).1 hdata, hrange.data_of_not_wraps⟩
  · exact fun hwraps m' hagree => hagree.data_eq hrange hwraps
  · intro hwraps
    obtain ⟨n, htake, hspace, -⟩ := exists_limit hfirst hlast m.isWritten
    have hcount : (listed m range).length = n := by rw [listed, htake, length_wordsFrom]
    have hfirst_lt := range.first.toNat_lt
    have hlast_lt := range.last.toNat_lt
    obtain ⟨hpos, hend, hsixteen⟩ := (hcount ▸ hwraps).bounds hfirst (by omega)
    refine ⟨?_, hsixteen, fun hzero =>
      (hrange.data_of_wraps hwraps).2 _ (Memory.peek_outside rfl hzero)⟩
    rw [UInt32.le_iff_toNat_le]
    change 0xfffffff7 ≤ range.last.toNat
    omega

/-- The last four words of the address space are listed as they are. -/
theorem data_exact_iff_last_words :
    let m := ((Memory.Request.store 0xfffffff0 0x64636261 .word).run
      (.ofSettings ⟨Layout.standard, .little, false⟩) false).2
    let range : AddressRange := ⟨0xfffffff0, 0xffffffff⟩
    listed m range = [0xfffffff0, 0xfffffff4, 0xfffffff8, 0xfffffffc] ∧
      ¬ Wraps range.first (listed m range).length ∧
      ∃ rs, Tile m.word (listed m range) rs ∧ data m range = .ok (dataText m.order rs) := by
  intro m range
  obtain ⟨hlayout, hlisted⟩ : m.layout = Layout.standard ∧
      listed m range = [0xfffffff0, 0xfffffff4, 0xfffffff8, 0xfffffffc] := by decide +kernel
  have hwraps : ¬ Wraps range.first (listed m range).length := by
    rw [hlisted, Wraps]
    decide
  have hinside : ∀ a, range.contains a = true →
      (m.layout.dataRange .mmio).contains a = true := by
    intro a ha
    rw [AddressRange.contains, Bool.and_eq_true, decide_eq_true_iff, decide_eq_true_iff] at ha
    rw [hlayout, AddressRange.contains, Bool.and_eq_true, decide_eq_true_iff, decide_eq_true_iff]
    exact ⟨UInt32.le_trans (by decide) ha.1, ha.2⟩
  have hm : m.Reachable :=
    ⟨⟨Layout.standard, .little, false⟩, [.request (.store 0xfffffff0 0x64636261 .word) false], rfl⟩
  obtain ⟨-, rs, htile, hexact, -⟩ := data_exact_iff hm (by decide) (by decide) hinside
  exact ⟨hlisted, hwraps, rs, htile, hexact.mpr hwraps⟩

/-- Three words up to the end of the address space cannot be listed. -/
theorem data_last_three_words :
    let m := ((Memory.Request.store 0xfffffff4 1 .word).run
      (.ofSettings ⟨Layout.standard, .little, false⟩) false).2
    listed m ⟨0xfffffff4, 0xffffffff⟩ = [0xfffffff4, 0xfffffff8, 0xfffffffc] ∧
      Memory.refusal? (data m ⟨0xfffffff4, 0xffffffff⟩) = some (.load 0 .outOfRange) := by
  decide +kernel

end Listing
end MipsImage
