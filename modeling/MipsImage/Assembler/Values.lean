/-
The values of a data directive.  Commas between them are optional, and a value
may be repeated by a colon and a count.
-/
import MipsImage.Assembler
import MipsImage.Text.Utf8

namespace MipsImage

/-- How often a value is written. -/
inductive Repetition where
  | times (count : Nat)
  /-- The token after the colon is no positive integer. -/
  | invalid (token : Token)
  /-- Nothing follows the colon. -/
  | missing (colon : Token)
  deriving DecidableEq, Repr

namespace Repetition

/-- A value with a bad count is not written at all. -/
def count : Repetition → Nat
  | times n => n
  | invalid _ | missing _ => 0

def report (r : Repetition) (a : Assembler) : Assembler :=
  match r with
  | times _ => a
  | invalid t => a.reportAt t (.invalidRepeat t.literal)
  | missing colon => a.reportAt colon .missingRepeat

/-- The count that `token` gives. -/
def ofToken (token : Token) : Repetition :=
  match token.kind with
  | .integer n => if 0 < Word.signed n then times n.toNat else invalid token
  | _ => invalid token

/-- Read a count off the front, if a colon stands there. -/
def take : List Token → Repetition × List Token
  | [] => (times 1, [])
  | colon :: rest =>
    if colon.kind = .colon then
      match rest with
      | [] => (missing colon, [])
      | t :: rest => (ofToken t, rest)
    else (times 1, colon :: rest)

theorem length_take_le (ts : List Token) : (take ts).2.length ≤ ts.length := by
  unfold take
  repeat' split
  all_goals simp <;> omega

end Repetition

/-- One entry in the content of a data directive. -/
inductive DataEntry where
  | value (token : Token) (repetition : Repetition)
  /-- A token that cannot stand in this directive. -/
  | invalid (token : Token)
  deriving DecidableEq, Repr

namespace DataEntry

/-- The entries of a directive whose values are tokens of certain kinds.  Only a
value can take a count. -/
def parse (isValue : TokenKind → Bool) : List Token → List DataEntry
  | [] => []
  | t :: rest =>
    if isValue t.kind then
      value t (Repetition.take rest).1 :: parse isValue (Repetition.take rest).2
    else invalid t :: parse isValue rest
termination_by ts => ts.length
decreasing_by
  · have := Repetition.length_take_le rest
    simp only [List.length_cons]
    omega
  · simp

/-- The content of a directive without its commas. -/
def withoutCommas (content : List Token) : List Token :=
  content.filter (·.kind != .comma)

end DataEntry

namespace Assembler

/-- Store entries in order until one cannot be stored. -/
def storeEntries (storeOne : DataEntry → Assembler → Bool × Assembler) :
    List DataEntry → Assembler → Assembler
  | [], a => a
  | e :: rest, a =>
    match storeOne e a with
    | (true, a) => storeEntries storeOne rest a
    | (false, a) => a

/-! ## Integers -/

/-- Whether a value fits `length` bytes, read as signed or as unsigned. -/
def fits (value : Word) (length : Nat) : Bool :=
  let v := Word.signed value
  match length with
  | 1 => -0x80 ≤ v && v < 0x100
  | 2 => -0x8000 ≤ v && v < 0x10000
  | _ => true

/-- Warn about a value that is stored without its high bits. -/
def reportTruncation (directive token : Token) (value : Word) (length : Nat) (a : Assembler) :
    Assembler :=
  if fits value length then a
  else
    a.reportAt token
      (.integerTruncated token.literal directive.literal (value.toNat % (1 <<< (8 * length))))

/-- Store an integer or the address of a label as often as asked. -/
def storeInteger (directive : Token) (length : Nat) : DataEntry → Assembler → Bool × Assembler
  | .invalid t, a => (true, a.reportAt t (.invalidValue t.literal directive.literal))
  | .value t repetition, a =>
    let a := repetition.report a
    match t.kind with
    | .integer value =>
      writeRepeatedly (writeData t.location value length) repetition.count
        (reportTruncation directive t value length a)
    | _ =>
      match a.currentTable?.bind (·.lookup? t.literal) with
      | some symbol =>
        writeRepeatedly (writeData t.location symbol.address length) repetition.count a
      | none => writeRepeatedly (writeForward t length) repetition.count a

def isIntegerValue : TokenKind → Bool
  | .integer _ | .identifier => true
  | _ => false

/-! ## Reals -/

/-- The binary64 bits of a token that can stand for a real. -/
def realBits? : TokenKind → Option UInt64
  | .real bits => some bits
  | .integer value => some (Ieee.ofInt (Word.signed value))
  | _ => none

/-- Warn about a finite value that a single cannot hold. -/
def reportOverflow (token : Token) (bits : UInt64) (a : Assembler) : Assembler :=
  if Ieee.isInfiniteSingle (Ieee.toSingle bits) && Ieee.isFinite bits then
    a.reportAt token (.floatOutOfRange token.literal)
  else a

/-- Store a real as often as asked, as a double or a single. -/
def storeReal (directive : Token) (double : Bool) : DataEntry → Assembler → Bool × Assembler
  | .invalid t, a => (true, a.reportAt t (.invalidValue t.literal directive.literal))
  | .value t repetition, a =>
    let a := repetition.report a
    let bits := (realBits? t.kind).getD 0
    if double then writeRepeatedly (writeDoubleword t.location bits) repetition.count a
    else
      writeRepeatedly (writeData t.location (Ieee.toSingle bits) 4) repetition.count
        (reportOverflow t bits a)

/-! ## Strings -/

/-- Store strings in order until one cannot be stored. -/
def storeStrings (directive : Token) (terminated : Bool) : List Token → Assembler → Assembler
  | [], a => a
  | t :: rest, a =>
    match t.kind with
    | .string value =>
      match writeBytes t.location (Text.Utf8.encode value ++ if terminated then [0] else []) a with
      | (true, a) => storeStrings directive terminated rest a
      | (false, a) => a
    | _ =>
      storeStrings directive terminated rest
        (a.reportAt t (.invalidValue t.literal directive.literal))

end Assembler
end MipsImage
