/-
Mnemonics and directive names are matched without regard to the case of ASCII
letters.
-/
namespace MipsImage
namespace Text

/-- Equality up to the case of ASCII letters. -/
def sameIgnoringCase (a b : String) : Bool :=
  a.toList.map Char.toLower == b.toList.map Char.toLower

end Text
end MipsImage
