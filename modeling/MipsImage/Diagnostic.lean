/-
Diagnostics: what the assembler has to say about a program.
-/
import MipsImage.Source.Location

namespace MipsImage

inductive Level where
  | info
  | warning
  | error
  deriving DecidableEq, Repr

namespace Level

def render : Level → String
  | info => "Info"
  | warning => "Warning"
  | error => "Error"

end Level

/-- One message, attributed to a place in the source where there is one. -/
structure Diagnostic where
  level : Level
  location : Option Location
  text : String
  deriving DecidableEq, Repr

namespace Diagnostic

def render (d : Diagnostic) : String :=
  match d.location with
  | some l => d.level.render ++ " in " ++ l.render ++ ": " ++ d.text
  | none => d.level.render ++ ": " ++ d.text

end Diagnostic
end MipsImage
