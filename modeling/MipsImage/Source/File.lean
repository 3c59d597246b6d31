/-
Source files as lists of lines, each already cut into tokens.
-/
import MipsImage.Diagnostic
import MipsImage.Source.Lexer

namespace MipsImage

/-- A line: its number, its text for listings and context, and its tokens. -/
structure SourceLine where
  number : Nat
  text : String
  tokens : List Token
  deriving DecidableEq, Repr

structure SourceFile where
  name : String
  lines : List SourceLine
  deriving DecidableEq, Repr

namespace SourceFile

/-- The text of the line with this number. -/
def lineText? (f : SourceFile) (number : Nat) : Option String :=
  (f.lines.find? (·.number == number)).map (·.text)

/-- Drop one carriage return from the end of a line. -/
def dropReturn (line : String) : String :=
  match line.toList.reverse with
  | '\r' :: rest => String.ofList rest.reverse
  | _ => line

/-- The lines of a text.  A line feed ends a line, together with one carriage
return before it.  What follows the last line feed is a line unless it is
empty, and keeps its carriage return. -/
def splitLines (text : String) : List String :=
  let pieces := (text.toList.splitOn '\n').map String.ofList
  let last := (pieces.getLast?).getD ""
  pieces.dropLast.map dropReturn ++ (if last = "" then [] else [last])

/-- Read one line.  A malformed line is reported and kept without tokens, so that
the rest of the file can still be checked. -/
def readLine (file : String) (number : Nat) (text : String) : SourceLine × List Diagnostic :=
  match Lexer.tokens file number text with
  | .ok tokens => ({ number, text, tokens }, [])
  | .error e =>
    ({ number, text, tokens := [] },
     [{ level := .error, location := some { file, line := number, column := e.column },
        text := e.error.message }])

/-- Read a whole file: its lines, numbered from one, and the diagnostics of the
malformed ones. -/
def ofText (name text : String) : SourceFile × List Diagnostic :=
  let read := ((splitLines text).zipIdx 1).map fun (line, number) => readLine name number line
  ({ name, lines := read.map (·.1) }, read.flatMap (·.2))

end SourceFile
end MipsImage
