/-
Backslash escapes: the seven that a literal may use, and the spelling of a
character in a diagnostic, which has to be printable ASCII.
-/
import MipsImage.Text.Numeral

namespace MipsImage
namespace Text

/-- The character that a backslash and `c` stand for in a literal. -/
def unescape? (c : Char) : Option Char :=
  match c with
  | 'n' => some '\n'
  | 't' => some '\t'
  | 'r' => some '\r'
  | '\\' => some '\\'
  | '\'' => some '\''
  | '"' => some '"'
  | '0' => some '\x00'
  | _ => none

/-- Printable ASCII stands for itself, quotes and backslashes are escaped, and
anything else is written by its code point. -/
def escape (c : Char) : String :=
  match c with
  | '\t' => "\\t"
  | '\r' => "\\r"
  | '\n' => "\\n"
  | '\'' => "\\'"
  | '"' => "\\\""
  | '\\' => "\\\\"
  | c =>
    if 0x20 ≤ c.toNat ∧ c.toNat ≤ 0x7e then String.singleton c
    else "\\u\x7b" ++ hex c.toNat ++ "\x7d"

end Text
end MipsImage
