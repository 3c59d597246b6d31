/-
Positions in source files.
-/
import MipsImage.Text.Numeral

namespace MipsImage

/-- A position in a source file.  Lines and columns count from one, and columns
count characters. -/
structure Location where
  file : String
  line : Nat
  column : Nat
  deriving DecidableEq, Repr

namespace Location

def render (l : Location) : String :=
  l.file ++ ", line " ++ Text.decimal l.line ++ ", column " ++ Text.decimal l.column

end Location
end MipsImage
