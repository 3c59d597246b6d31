/-
Cutting one line into tokens.

A line is read from left to right.  At each position the first character decides
what kind of token begins there, and a scanner for that kind says how many
further characters belong to it.  Keeping the count rather than the rest of the
line makes the position of everything a sum of widths.
-/
import MipsImage.Ieee
import MipsImage.Source.Token
import MipsImage.Text.Alphabetic
import MipsImage.Text.Escape
import MipsImage.Text.Numeric

namespace MipsImage

/-- Why no token can be read at some position. -/
inductive LexError where
  | emptyCharacter
  | unclosedCharacter
  | unclosedString
  | escapeAtEnd
  | unknownEscape (escape : Char)
  | unexpectedCharacter (found : Char)
  | unknownRegister (literal : String)
  | invalidNumber (literal : String)
  | numberOutOfRange (literal : String)
  deriving DecidableEq, Repr

namespace LexError

def message : LexError → String
  | emptyCharacter => "Empty or unclosed character literal"
  | unclosedCharacter => "Unclosed character literal"
  | unclosedString => "Unclosed string literal"
  | escapeAtEnd => "Unexpected end in escape sequence"
  | unknownEscape c => "Unknown escape sequence \\" ++ String.singleton c
  | unexpectedCharacter c => "Unexpected character '" ++ String.singleton c ++ "'"
  | unknownRegister literal => "Unknown register '" ++ literal ++ "'"
  | invalidNumber literal => "Invalid number " ++ literal
  | numberOutOfRange literal => "Number " ++ literal ++ " is out of range"

end LexError

namespace Lexer

/-- A failed scan.  The offset counts characters from the first of the token up
to where reading stopped. -/
structure Fault where
  offset : Nat
  error : LexError
  deriving DecidableEq, Repr

/-- A token at the front of the rest of a line, and how many characters it spans
after its first. -/
structure Lexeme where
  kind : TokenKind
  literal : String
  more : Nat
  deriving DecidableEq, Repr

/-! ## Identifiers -/

/-- Characters that may continue a name. -/
def isNameChar (c : Char) : Bool :=
  Text.isLetter c || Text.isNumber c || c == '_' || c == '.' || c == '$'

/-- Characters that may begin an identifier. -/
def isNameStart (c : Char) : Bool :=
  Text.isLetter c || c == '_'

/-- A token made of `first` and the name characters after it. -/
def nameLexeme (kind : TokenKind) (first : Char) (tail : List Char) : Lexeme :=
  let name := tail.takeWhile isNameChar
  { kind, literal := String.ofList (first :: name), more := name.length }

def scanRegister (tail : List Char) : Except Fault Lexeme :=
  let name := String.ofList (tail.takeWhile isNameChar)
  let literal := "$" ++ name
  match Register.ofString? name with
  | some number => .ok { kind := .register number, literal, more := name.length }
  | none => .error { offset := 0, error := .unknownRegister literal }

/-! ## Numbers -/

/-- The characters of a numeral after its sign and base mark. -/
inductive Numeral where
  /-- Digits of an integer in base 2, 10 or 16. -/
  | whole (base : Nat) (digits : List Char)
  /-- Digits before the point, digits after it, and the exponent part from the
  letter on. -/
  | real (whole fraction exponent : List Char)
  deriving DecidableEq, Repr

def isHexDigit (c : Char) : Bool :=
  c.isDigit || ('a' ≤ c && c ≤ 'f') || ('A' ≤ c && c ≤ 'F')

def isBinaryDigit (c : Char) : Bool :=
  c == '0' || c == '1'

/-- A fraction: a point is part of a number only if a digit follows it. -/
def takeFraction : List Char → List Char
  | '.' :: d :: rest => if d.isDigit then (d :: rest).takeWhile Char.isDigit else []
  | _ => []

/-- An exponent part: the letter, at most one sign right after it, and digits.
The digits may be missing, which makes the number invalid rather than shorter. -/
def takeExponent : List Char → List Char
  | c :: rest =>
    if c == 'e' || c == 'E' then
      match rest with
      | '+' :: digits => c :: '+' :: digits.takeWhile Char.isDigit
      | '-' :: digits => c :: '-' :: digits.takeWhile Char.isDigit
      | digits => c :: digits.takeWhile Char.isDigit
    else []
  | [] => []

/-- The longest numeral at the front of `cs`. -/
def takeNumeral (cs : List Char) : Numeral :=
  match cs with
  | '0' :: 'x' :: rest => .whole 16 (rest.takeWhile isHexDigit)
  | '0' :: 'X' :: rest => .whole 16 (rest.takeWhile isHexDigit)
  | '0' :: 'b' :: rest => .whole 2 (rest.takeWhile isBinaryDigit)
  | '0' :: 'B' :: rest => .whole 2 (rest.takeWhile isBinaryDigit)
  | _ =>
    let digits := cs.takeWhile Char.isDigit
    let afterDigits := cs.drop digits.length
    let fraction := takeFraction afterDigits
    let exponent :=
      takeExponent (if fraction.isEmpty then afterDigits else afterDigits.drop (fraction.length + 1))
    if fraction.isEmpty && exponent.isEmpty then .whole 10 digits
    else .real digits fraction exponent

namespace Numeral

/-- How a numeral is quoted: the base mark is always in lower case. -/
def literal : Numeral → List Char
  | whole 16 digits => '0' :: 'x' :: digits
  | whole 2 digits => '0' :: 'b' :: digits
  | whole _ digits => digits
  | real digits fraction exponent =>
    digits ++ (if fraction.isEmpty then [] else '.' :: fraction) ++ exponent

/-- The value of an exponent part, or nothing if it has no digits. -/
def exponentValue? : List Char → Option Int
  | [] => some 0
  | _ :: '+' :: digits => if digits.isEmpty then none else some (Text.ofDigits 10 digits)
  | _ :: '-' :: digits => if digits.isEmpty then none else some (-(Text.ofDigits 10 digits))
  | _ :: digits => if digits.isEmpty then none else some (Text.ofDigits 10 digits)

/-- The kind of token a numeral makes, or what is wrong with it.  An integer
must fit a word, read as unsigned or, behind a minus sign, as signed. -/
def kind (negative : Bool) (quoted : String) : Numeral → Except LexError TokenKind
  | real digits fraction exponent =>
    match exponentValue? exponent with
    | none => .error (.invalidNumber quoted)
    | some e =>
      .ok (.real (Ieee.ofDecimal negative (Text.ofDigits 10 (digits ++ fraction))
        (e - fraction.length)))
  | whole base digits =>
    let magnitude := Text.ofDigits base digits
    if digits.isEmpty || 0x10000000000000000 ≤ magnitude then .error (.invalidNumber quoted)
    else if negative then
      if 0x80000000 < magnitude then .error (.numberOutOfRange quoted)
      else .ok (.integer (Word.ofInt (-magnitude)))
    else
      if 0x100000000 ≤ magnitude then .error (.numberOutOfRange quoted)
      else .ok (.integer (UInt32.ofNat magnitude))

end Numeral

/-- The number at the front of `cs`, whose minus sign, if it has one, has been
read already.  Quoting keeps the number of characters, so the quoted text gives
the width. -/
def scanNumber (negative : Bool) (cs : List Char) : Except Fault Lexeme :=
  let numeral := takeNumeral cs
  let quoted := if negative then '-' :: numeral.literal else numeral.literal
  let literal := String.ofList quoted
  match numeral.kind negative literal with
  | .ok kind => .ok { kind, literal, more := quoted.length - 1 }
  | .error error => .error { offset := quoted.length, error }

/-! ## Literals -/

/-- A character literal after its opening quote. -/
def scanCharacter (tail : List Char) : Except Fault Lexeme :=
  let close (c : Char) (used : Nat) (rest : List Char) : Except Fault Lexeme :=
    match rest with
    | '\'' :: _ =>
      .ok { kind := .integer c.val, literal := "'" ++ Text.escape c ++ "'",
            more := used + 1 }
    | [] => .error { offset := used + 1, error := .unclosedCharacter }
    | _ :: _ => .error { offset := used + 2, error := .unclosedCharacter }
  match tail with
  | [] => .error { offset := 1, error := .emptyCharacter }
  | '\'' :: _ => .error { offset := 2, error := .emptyCharacter }
  | '\\' :: [] => .error { offset := 2, error := .escapeAtEnd }
  | '\\' :: e :: rest =>
    match Text.unescape? e with
    | some c => close c 2 rest
    | none => .error { offset := 3, error := .unknownEscape e }
  | c :: rest => close c 1 rest

/-- The value of a string literal after its opening quote, and how many
characters it takes up to and with the closing one.  `used` counts the
characters read so far. -/
def scanStringBody (used : Nat) : List Char → Except Fault (List Char × Nat)
  | [] => .error { offset := used, error := .unclosedString }
  | '"' :: _ => .ok ([], used + 1)
  | '\\' :: [] => .error { offset := used + 1, error := .escapeAtEnd }
  | '\\' :: e :: rest =>
    match Text.unescape? e with
    | none => .error { offset := used + 2, error := .unknownEscape e }
    | some c =>
      match scanStringBody (used + 2) rest with
      | .error fault => .error fault
      | .ok (value, width) => .ok (c :: value, width)
  | c :: rest =>
    match scanStringBody (used + 1) rest with
    | .error fault => .error fault
    | .ok (value, width) => .ok (c :: value, width)

def scanString (tail : List Char) : Except Fault Lexeme :=
  match scanStringBody 1 tail with
  | .error fault => .error fault
  | .ok (value, width) =>
    .ok { kind := .string (String.ofList value),
          literal := String.ofList ('"' :: tail.take (width - 1)), more := width - 1 }

/-! ## Lines -/

/-- What stands at the front of the rest of a line. -/
inductive Front where
  | blank
  /-- Nothing after this point is read. -/
  | comment
  | lexeme (l : Lexeme)
  | fault (f : Fault)
  deriving DecidableEq, Repr

def Front.ofScan : Except Fault Lexeme → Front
  | .ok l => .lexeme l
  | .error f => .fault f

/-- Whether the first of `cs` satisfies `p`. -/
def startsWith (p : Char → Bool) : List Char → Bool
  | c :: _ => p c
  | [] => false

def symbol (kind : TokenKind) (c : Char) : Front :=
  .lexeme { kind, literal := String.singleton c, more := 0 }

/-- Read the front of `c :: tail`.  `previous` is the kind of the token before
it on the line. -/
def front (previous : Option TokenKind) (c : Char) (tail : List Char) : Front :=
  if c == ' ' || c == '\t' || c == '\r' || c == '\n' then .blank
  else if c == '#' then .comment
  else if c == ':' then symbol .colon c
  else if c == ',' then symbol .comma c
  else if c == '(' then symbol .leftParen c
  else if c == ')' then symbol .rightParen c
  else if c == '+' then symbol .plus c
  else if c == '-' then
    if !(previous.any TokenKind.endsOperand) && startsWith Char.isDigit tail then
      .ofScan (scanNumber true tail)
    else symbol .minus c
  else if c == '\'' then .ofScan (scanCharacter tail)
  else if c == '"' then .ofScan (scanString tail)
  else if c == '.' && startsWith Char.isAlpha tail then .lexeme (nameLexeme .directive c tail)
  else if c == '$' then .ofScan (scanRegister tail)
  else if c.isDigit then .ofScan (scanNumber false (c :: tail))
  else if isNameStart c then .lexeme (nameLexeme .identifier c tail)
  else .fault { offset := 0, error := .unexpectedCharacter c }

/-- A line that cannot be cut into tokens: where reading stopped and why. -/
structure LineError where
  column : Nat
  error : LexError
  deriving DecidableEq, Repr

/-- The tokens of the rest of a line that starts at `column`. -/
def scan (file : String) (line : Nat) (previous : Option TokenKind) (column : Nat) :
    List Char → Except LineError (List Token)
  | [] => .ok []
  | c :: tail =>
    match front previous c tail with
    | .blank => scan file line previous (column + 1) tail
    | .comment => .ok []
    | .fault f => .error { column := column + f.offset, error := f.error }
    | .lexeme l =>
      match scan file line (some l.kind) (column + 1 + l.more) (tail.drop l.more) with
      | .error e => .error e
      | .ok tokens =>
        .ok ({ kind := l.kind, literal := l.literal, location := { file, line, column } } :: tokens)
termination_by cs => cs.length
decreasing_by
  · simp
  · simp only [List.length_drop, List.length_cons]; omega

/-- The tokens of a whole line. -/
def tokens (file : String) (line : Nat) (text : String) : Except LineError (List Token) :=
  scan file line none 1 text.toList

end Lexer
end MipsImage
