/-
Items: the labels, directives and statements of a file.

A line is any number of labels and then at most one directive or statement.  A
line that makes no sense is reported once and skipped from there on, so the
items of a file and its diagnostics form one list in source order.
-/
import MipsImage.Diagnostic.Log
import MipsImage.Directive
import MipsImage.Source.File
import MipsImage.Statement
import MipsImage.Text.Blank

namespace MipsImage

inductive Item where
  | label (token : Token)
  /-- A directive, its token, and the tokens that follow it. -/
  | directive (directive : Directive) (token : Token) (content : List Token)
  | statement (s : ParsedStatement)
  deriving DecidableEq, Repr

/-- Why a line, or the rest of it, is no item. -/
inductive ItemError where
  | unsupportedDirective (name : String)
  | unknownMnemonic (name : String)
  | unexpectedToken (found : String)
  | operands (error : OperandError)
  | noMatch (mnemonic : String) (operands : List Operand)
  deriving DecidableEq, Repr

namespace ItemError

def message : ItemError → String
  | unsupportedDirective name => "Directive '" ++ name ++ "' is not supported; ignored"
  | unknownMnemonic name => "Mnemonic '" ++ name ++ "' does not correspond to any known instruction"
  | unexpectedToken found => "Unexpected token '" ++ found ++ "'"
  | operands error => error.message
  | noMatch mnemonic ops =>
    "No instruction '" ++ mnemonic ++ "' found matching operands ["
      ++ String.intercalate ", " (ops.map Operand.render) ++ "]"

/-- A directive that is not supported only draws a warning. -/
def level : ItemError → Level
  | unsupportedDirective _ => .warning
  | _ => .error

def toDiagnostic (e : ItemError) (token : Token) : Diagnostic :=
  { level := e.level, location := some token.location, text := e.message }

end ItemError

namespace Item

/-- An item, or the report on something that is none. -/
inductive Outcome where
  | item (i : Item)
  | problem (d : Diagnostic)
  deriving DecidableEq, Repr

namespace Outcome

def item? : Outcome → Option Item
  | item i => some i
  | problem _ => none

def problem? : Outcome → Option Diagnostic
  | item _ => none
  | problem d => some d

end Outcome

/-- Report `e` at `token`. -/
def refuse (e : ItemError) (token : Token) : Outcome :=
  .problem (e.toDiagnostic token)

/-- Split the labels off the front of a line. -/
def takeLabels : List Token → List Token × List Token
  | name :: colon :: rest =>
    if name.kind = .identifier ∧ colon.kind = .colon then
      (name :: (takeLabels rest).1, (takeLabels rest).2)
    else ([], name :: colon :: rest)
  | ts => ([], ts)

/-- Whether a line carries on the values of a list directive above it: it begins
with a value, or with a name that is neither a label nor a mnemonic. -/
def continuesList (line : SourceLine) : Bool :=
  match line.tokens with
  | [] => false
  | first :: rest =>
    match first.kind with
    | .integer _ | .real _ | .string _ => true
    | .identifier =>
      !Instruction.isMnemonic first.literal && !(rest.head?.any (·.kind == .colon))
    | _ => false

/-- The statement made by a mnemonic and the tokens after it. -/
def parseStatement (lineText : String) (mnemonic : Token) (operands : List Token) : Outcome :=
  match Operand.parse operands with
  | .error fault => refuse (.operands fault.error) fault.token
  | .ok ops =>
    match Instruction.select? mnemonic.literal ops with
    | none => refuse (.noMatch mnemonic.literal ops) mnemonic
    | some instruction =>
      .item (.statement
        { mnemonic, instruction, operands := ops, sourceText := Text.trim lineText })

/-- The lines after a directive that belong to it. -/
def continuation (d : Directive) (lines : List SourceLine) : List SourceLine :=
  if d.isList then lines.takeWhile continuesList else []

/-- The outcomes of a list of lines, in order. -/
def parseLines : List SourceLine → List Outcome
  | [] => []
  | line :: rest =>
    let (labels, tail) := takeLabels line.tokens
    labels.map (fun t => .item (.label t)) ++
      match tail with
      | [] => parseLines rest
      | t :: ts =>
        match t.kind with
        | .directive =>
          match Directive.ofName? t.literal with
          | some d =>
            let more := continuation d rest
            .item (.directive d t (ts ++ more.flatMap (·.tokens))) ::
              parseLines (rest.drop more.length)
          | none => refuse (.unsupportedDirective t.literal) t :: parseLines rest
        | .identifier =>
          if Instruction.isMnemonic t.literal then
            parseStatement line.text t ts :: parseLines rest
          else refuse (.unknownMnemonic t.literal) t :: parseLines rest
        | _ => refuse (.unexpectedToken t.literal) t :: parseLines rest
termination_by lines => lines.length
decreasing_by
  all_goals simp only [List.length_cons, List.length_drop]; omega

/-- The items of a file and the reports on the rest of it, in source order. -/
def ofFile (f : SourceFile) : List Outcome :=
  parseLines f.lines

/-- Read a file to its end: its items, and a log with the reports on the rest of it. -/
def readAll (f : SourceFile) (log : Log) : List Item × Log :=
  ((ofFile f).filterMap Outcome.item?, log.addAll ((ofFile f).filterMap Outcome.problem?))

end Item
end MipsImage
