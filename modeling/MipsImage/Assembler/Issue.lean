/-
What can go wrong while a program is assembled, and how it is worded.
-/
import MipsImage.Diagnostic
import MipsImage.Instruction.Format
import MipsImage.Memory.Fault
import MipsImage.Segment
import MipsImage.Symbol

namespace MipsImage

/-- A problem met while assembling.  Directive names are quoted as they were
written. -/
inductive Issue where
  | noFiles
  | noStatements
  -- Symbols
  | duplicate (d : DuplicateSymbol)
  | symbolNotFound (identifier : String)
  | alreadyGlobal (identifier : String)
  | globalNotDefined (identifier : String)
  | globalRepeated (identifier : String)
  -- Statements
  | codeInData (mnemonic : String) (segment : SegmentKind)
  | occupied (address : Address) (occupant : String)
  | encode (e : EncodeError)
  | access (e : AddressError)
  -- Directives
  | needsDataSegment (directive : String)
  | invalidAddress (found directive : String)
  | unexpectedAfter (found directive : String)
  | valuesRequired (directive what : String)
  | invalidValue (found directive : String)
  | invalidRepeat (found : String)
  | missingRepeat
  | integerTruncated (literal directive : String) (kept : Nat)
  | floatOutOfRange (literal : String)
  | invalidSpace
  | invalidAlignment
  | invalidExternal
  | globalRequired
  | invalidGlobal (found : String)
  | unsupported (directive : String)
  | preprocessed (directive : String)
  deriving DecidableEq, Repr

namespace Issue

def message : Issue → String
  | noFiles => "No source files to assemble"
  | noStatements => "No statements found to assemble"
  | duplicate d => d.message
  | symbolNotFound s => "Symbol '" ++ s ++ "' not found in symbol table"
  | alreadyGlobal s => "Symbol '" ++ s ++ "' is already defined in the global symbol table"
  | globalNotDefined s => "Symbol '" ++ s ++ "' is declared global but not defined in this file"
  | globalRepeated s => "Symbol '" ++ s ++ "' is already declared global"
  | codeInData mnemonic segment =>
    "Instruction '" ++ mnemonic ++ "' cannot be placed in segment " ++ segment.name
  | occupied address occupant =>
    "Address " ++ Text.hexWord address ++ " is already occupied by " ++ occupant
  | encode e => e.message
  | access e => e.message
  | needsDataSegment d => "Directive '" ++ d ++ "' can only be used in a data segment"
  | invalidAddress found d => "Invalid address '" ++ found ++ "' for directive '" ++ d ++ "'"
  | unexpectedAfter found d => "Unexpected '" ++ found ++ "' after directive '" ++ d ++ "'"
  | valuesRequired d what => "Directive '" ++ d ++ "' requires one or more " ++ what
  | invalidValue found d => "Invalid value '" ++ found ++ "' for directive '" ++ d ++ "'"
  | invalidRepeat found => "Invalid repeat count '" ++ found ++ "'; expected a positive integer"
  | missingRepeat => "Expected a repeat count after ':'"
  | integerTruncated literal d kept =>
    "Value " ++ literal ++ " is out of range for directive '" ++ d ++ "'; truncated to 0x"
      ++ Text.hex kept
  | floatOutOfRange literal => "Value " ++ literal ++ " is out of range for directive '.float'"
  | invalidSpace => "Directive '.space' requires one non-negative integer size"
  | invalidAlignment => "Directive '.align' requires an alignment value between 0 and 3"
  | invalidExternal => "Directive '.extern' requires a label and a non-negative size"
  | globalRequired => "Directive '.globl' requires at least one label"
  | invalidGlobal found => "Invalid label '" ++ found ++ "' for directive '.globl'"
  | unsupported d => "Directive '" ++ d ++ "' is not supported; ignored"
  | preprocessed d => "Directive '" ++ d ++ "' is handled by the preprocessor; ignored"

def level : Issue → Level
  | globalRepeated _ | integerTruncated _ _ _ | floatOutOfRange _ | unsupported _
  | preprocessed _ => .warning
  | _ => .error

end Issue
end MipsImage
