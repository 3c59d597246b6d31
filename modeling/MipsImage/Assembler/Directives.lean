/-
What each directive does while a file is read.
-/
import MipsImage.Assembler.Values

namespace MipsImage
namespace Assembler

/-- Make a segment active, and move its cursor if an address is given. -/
def switchSegment (kind : SegmentKind) (directive : Token) (content : List Token) (a : Assembler) :
    Assembler :=
  let switched := { a with segments := a.segments.switchTo kind }
  match content with
  | [] => switched
  | [t] =>
    match t.kind with
    | .integer address => { switched with segments := switched.segments.setCursor address }
    | _ => switched.reportAt t (.invalidAddress t.literal directive.literal)
  | _ :: extra :: _ =>
    switched.reportAt extra (.unexpectedAfter extra.literal directive.literal)

/-- Run a directive that only makes sense in a data segment. -/
def inDataSegment (directive : Token) (run : Assembler → Assembler) (a : Assembler) : Assembler :=
  if a.segments.active.isData then run a
  else a.reportAt directive (.needsDataSegment directive.literal)

/-- Run a directive that needs at least one value. -/
def withValues (directive : Token) (content : List Token) (what : String)
    (run : Assembler → Assembler) (a : Assembler) : Assembler :=
  if content.isEmpty then a.reportAt directive (.valuesRequired directive.literal what) else run a

/-- Align the cursor unless automatic alignment is off. -/
def autoAlign (alignment : Word) (a : Assembler) : Assembler :=
  if a.segments.autoAlign then a.alignCursor alignment else a

def integers (length : Nat) (directive : Token) (content : List Token) : Assembler → Assembler :=
  withValues directive content "values" fun a =>
    storeEntries (storeInteger directive length)
      (DataEntry.parse isIntegerValue (DataEntry.withoutCommas content))
      (autoAlign (UInt32.ofNat length) a)

def reals (double : Bool) (directive : Token) (content : List Token) : Assembler → Assembler :=
  withValues directive content "values" fun a =>
    storeEntries (storeReal directive double)
      (DataEntry.parse (fun kind => (realBits? kind).isSome) (DataEntry.withoutCommas content))
      (autoAlign (if double then 8 else 4) a)

def strings (terminated : Bool) (directive : Token) (content : List Token) :
    Assembler → Assembler :=
  withValues directive content "strings"
    (storeStrings directive terminated (DataEntry.withoutCommas content))

/-- The only token of a content, if it is an integer. -/
def soleInteger? : List Token → Option Word
  | [t] => t.integer?
  | _ => none

/-- The only token of a content, if it is an integer that is not negative. -/
def soleSize? (content : List Token) : Option Word :=
  (soleInteger? content).filter fun size => 0 ≤ Word.signed size

def reserveSpace (directive : Token) (content : List Token) (a : Assembler) : Assembler :=
  match soleSize? content with
  | some size => a.skip size
  | none => a.reportAt directive .invalidSpace

/-- Align to a power of two; the zeroth turns automatic alignment off. -/
def align (directive : Token) (content : List Token) (a : Assembler) : Assembler :=
  match soleInteger? content with
  | some 0 => { a with segments := { a.segments with autoAlign := false } }
  | some 1 => a.alignCursor 2
  | some 2 => a.alignCursor 4
  | some 3 => a.alignCursor 8
  | _ => a.reportAt directive .invalidAlignment

def external (directive : Token) (content : List Token) (a : Assembler) : Assembler :=
  match content with
  | label :: rest =>
    match soleSize? (DataEntry.withoutCommas rest) with
    | some size =>
      if label.isIdentifier then a.defineExternal label size
      else a.reportAt directive .invalidExternal
    | none => a.reportAt directive .invalidExternal
  | [] => a.reportAt directive .invalidExternal

/-- Declare one label global. -/
def globalLabel (a : Assembler) (t : Token) : Assembler :=
  if t.isIdentifier then a.declareGlobal t else a.reportAt t (.invalidGlobal t.literal)

def global (directive : Token) (content : List Token) (a : Assembler) : Assembler :=
  if content.isEmpty then a.reportAt directive .globalRequired
  else (DataEntry.withoutCommas content).foldl globalLabel a

/-- Carry out a directive, given its token and what follows it. -/
def runDirective (d : Directive) (token : Token) (content : List Token) : Assembler → Assembler :=
  match d with
  | .text => switchSegment .text token content
  | .data => switchSegment .data token content
  | .kernelText => switchSegment .kernelText token content
  | .kernelData => switchSegment .kernelData token content
  | .byte => inDataSegment token (integers 1 token content)
  | .half => inDataSegment token (integers 2 token content)
  | .word => inDataSegment token (integers 4 token content)
  | .float => inDataSegment token (reals false token content)
  | .double => inDataSegment token (reals true token content)
  | .ascii => inDataSegment token (strings false token content)
  | .asciiz => inDataSegment token (strings true token content)
  | .space => inDataSegment token (reserveSpace token content)
  | .align => inDataSegment token (align token content)
  | .external => external token content
  | .global => global token content
  | .set => fun a => a.reportAt token (.unsupported token.literal)
  | .constant | .macroStart | .macroEnd | .inclusion =>
    fun a => a.reportAt token (.preprocessed token.literal)

end Assembler
end MipsImage
