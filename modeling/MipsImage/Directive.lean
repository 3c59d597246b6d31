/-
Directives by name.
-/
import MipsImage.Text.Caseless

namespace MipsImage

inductive Directive where
  | text
  | data
  | kernelText
  | kernelData
  | byte
  | half
  | word
  | float
  | double
  | ascii
  | asciiz
  | space
  | align
  | external
  | global
  | set
  | constant
  | macroStart
  | macroEnd
  | inclusion
  deriving DecidableEq, Repr

namespace Directive

def name : Directive → String
  | text => ".text"
  | data => ".data"
  | kernelText => ".ktext"
  | kernelData => ".kdata"
  | byte => ".byte"
  | half => ".half"
  | word => ".word"
  | float => ".float"
  | double => ".double"
  | ascii => ".ascii"
  | asciiz => ".asciiz"
  | space => ".space"
  | align => ".align"
  | external => ".extern"
  | global => ".globl"
  | set => ".set"
  | constant => ".eqv"
  | macroStart => ".macro"
  | macroEnd => ".end_macro"
  | inclusion => ".include"

def all : List Directive :=
  [text, data, kernelText, kernelData, byte, half, word, float, double, ascii, asciiz, space, align,
   external, global, set, constant, macroStart, macroEnd, inclusion]

/-- The directive of this name.  Case does not matter. -/
def ofName? (s : String) : Option Directive :=
  all.find? fun d => Text.sameIgnoringCase d.name s

/-- Whether the values of a directive may run on over the following lines. -/
def isList : Directive → Bool
  | byte | half | word | float | double | ascii | asciiz => true
  | _ => false

end Directive
end MipsImage
