/-
Tokens: the smallest units of assembly source, each with the text it is reported
by and the place it was found at.
-/
import MipsImage.Register
import MipsImage.Source.Location

namespace MipsImage

/-- What a token is, with its value where it has one.  Character literals are
integers: they are interchangeable with integers wherever an operand may stand.
A real number is kept as its binary64 bits. -/
inductive TokenKind where
  | identifier
  | directive
  | register (number : Register)
  | integer (value : Word)
  | real (bits : UInt64)
  | string (value : String)
  | colon
  | comma
  | leftParen
  | rightParen
  | plus
  | minus
  deriving DecidableEq, Repr

namespace TokenKind

/-- Whether an operand can end with such a token.  A minus sign right after one
subtracts; anywhere else it may be the sign of a number. -/
def endsOperand : TokenKind → Bool
  | identifier | register _ | integer _ | real _ | rightParen => true
  | _ => false

end TokenKind

structure Token where
  kind : TokenKind
  /-- The text that diagnostics quote. -/
  literal : String
  location : Location
  deriving DecidableEq, Repr

namespace Token

def isIdentifier (t : Token) : Bool :=
  t.kind == .identifier

/-- The value of an integer token. -/
def integer? (t : Token) : Option Word :=
  match t.kind with
  | .integer value => some value
  | _ => none

end Token
end MipsImage
