/-
Listings of an assembled program: symbols, text and data.
-/
import MipsImage.Assembler
import MipsImage.Memory.Inspect

namespace MipsImage
namespace Listing

/-! ## Symbols -/

def symbolLine (s : Symbol) : String :=
  "  " ++ Text.hexWord s.address ++ "  " ++ (if s.isData then "data" else "text") ++ "  "
    ++ s.identifier ++ "\n"

def table (t : SymbolTable) : String :=
  t.name ++ "\n" ++ String.ofList (List.replicate 60 '=') ++ "\n"
    ++ (if t.isEmpty then "  (empty)\n" else "")
    ++ String.join (t.all.map symbolLine) ++ "\n"

/-- The global table, then the files' own by file name. -/
def symbols (a : Assembler) : String :=
  "========== SYMBOLS ==========\n\n" ++ table a.globals
    ++ String.join (a.locals.toList.map fun entry => table entry.2)

/-! ## Text -/

/-- One line for each word: address, encoding, basic form, and the source line
unless the word before came from the same one. -/
def textLines (previous : Option (String × Nat)) :
    List (Address × EncodedStatement) → List String
  | [] => []
  | (address, s) :: rest =>
    let code :=
      Text.hexWord address ++ "  " ++ Text.hexWord s.binary ++ "  " ++ Text.padRight 28 s.render
    match s.source with
    | none => (code ++ "\n") :: textLines previous rest
    | some source =>
      let line := (source.location.file, source.location.line)
      if previous = some line then (code ++ "\n") :: textLines previous rest
      else
        (code ++ "  " ++ Text.padLeft 4 ' ' (Text.decimal line.2) ++ ": " ++ source.sourceText
          ++ "\n") :: textLines (some line) rest

def text (a : Assembler) : String :=
  "========== TEXT ==========\n\n" ++ String.join (textLines none a.assembled.toList)

/-! ## Data -/

/-- How a byte is shown: itself if it is printable ASCII. -/
def byteChar (b : UInt8) : Char :=
  if 0x20 ≤ b ∧ b ≤ 0x7e then Char.ofNat b.toNat else '.'

/-- The words at the given addresses and the characters of their bytes.  A word
at or past `limit` is left blank. -/
def dataCells (m : Memory) (limit : Address) :
    List Address → Except AddressError (String × String)
  | [] => .ok ("", "")
  | address :: rest =>
    if limit ≤ address then
      match dataCells m limit rest with
      | .error e => .error e
      | .ok (cells, chars) => .ok ("           " ++ cells, chars)
    else
      match m.peek address 4 with
      | .error e => .error e
      | .ok access =>
        match dataCells m limit rest with
        | .error e => .error e
        | .ok (cells, chars) =>
          .ok (" " ++ Text.hexWord access.value ++ cells,
            String.ofList ((m.order.bytes access.value).map byteChar) ++ chars)

/-- Rows of four words from `row` on, up to `limit`. -/
def dataRows (m : Memory) (limit row : Address) : Except AddressError (List String) :=
  if row < limit then
    match dataCells m limit [row, row + 4, row + 8, row + 12] with
    | .error e => .error e
    | .ok (cells, chars) =>
      let line := Text.hexWord row ++ " " ++ cells ++ "  " ++ chars ++ "\n"
      if _h : row.toNat + 16 < 0x100000000 then
        match dataRows m limit (row + 16) with
        | .error e => .error e
        | .ok lines => .ok (line :: lines)
      else .ok [line]
  else .ok []
termination_by 0x100000000 - row.toNat
decreasing_by
  have : (row + 16).toNat = row.toNat + 16 := by
    rw [UInt32.toNat_add]
    exact Nat.mod_eq_of_lt _h
  omega

/-- The words of a range up to the first that was never written. -/
def data (m : Memory) (range : AddressRange) : Except AddressError String :=
  match m.firstUnwritten range.first range.last with
  | .error e => .error e
  | .ok unwritten =>
    match dataRows m (unwritten.getD range.last) range.first with
    | .error e => .error e
    | .ok lines => .ok ("========== DATA ==========\n\n" ++ String.join lines)

end Listing
end MipsImage
