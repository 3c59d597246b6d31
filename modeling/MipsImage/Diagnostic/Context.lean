/-
A diagnostic together with the source lines around it.
-/
import MipsImage.Source.File

namespace MipsImage
namespace Diagnostic

/-- The lines up to three before and after `line`, each with its number, and the
line itself marked.  Numbers past the last 32-bit line number name lines from
zero on again. -/
def contextLines (source : SourceFile) (line : Nat) : List String :=
  let first := max 1 (line - 3)
  (List.range' first (line + 4 - first)).filterMap fun n =>
    (source.lineText? (n % 0x100000000)).map fun text =>
      (if n = line then ">>> " else "    ") ++ Text.padLeft 4 ' ' (Text.decimal n) ++ ": " ++ text
        ++ "\n"

/-- The message, a line feed and the surrounding source.  A message without a
location has no surroundings. -/
def withContext (d : Diagnostic) (source : SourceFile) : String :=
  match d.location with
  | some l => d.render ++ "\n" ++ String.join (contextLines source l.line)
  | none => d.render

end Diagnostic
end MipsImage
