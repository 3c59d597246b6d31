/-
Refused memory accesses.
-/
import MipsImage.Text.Numeral

namespace MipsImage

inductive AccessKind where
  | load
  | store
  deriving DecidableEq, Repr

namespace AccessKind

def render : AccessKind → String
  | load => "load"
  | store => "store"

end AccessKind

/-- Why an access is refused. -/
inductive AddressFault where
  | misaligned (alignment : Nat)
  | outOfRange
  | textWriteProtected
  | codeOutsideText
  | undecodable (word : Word)
  deriving DecidableEq, Repr

namespace AddressFault

def message : AddressFault → String
  | misaligned n => "address not aligned on " ++ Text.decimal n ++ "-byte boundary"
  | outOfRange => "segmentation fault (address out of range)"
  | textWriteProtected => "cannot write to text segment unless self-modifying code is enabled"
  | codeOutsideText =>
    "cannot access code outside the text segment unless self-modifying code is enabled"
  | undecodable w => "word " ++ Text.hexWord w ++ " does not decode to any instruction"

end AddressFault

structure AddressError where
  address : Address
  kind : AccessKind
  fault : AddressFault
  deriving DecidableEq, Repr

namespace AddressError

def load (address : Address) (fault : AddressFault) : AddressError :=
  { address, kind := .load, fault }

def store (address : Address) (fault : AddressFault) : AddressError :=
  { address, kind := .store, fault }

def message (e : AddressError) : String :=
  e.kind.render ++ " at " ++ Text.hexWord e.address ++ ": " ++ e.fault.message

end AddressError
end MipsImage
