/-
Segments: the five places a program is laid out into, each with a cursor for
what comes next.
-/
import MipsImage.Layout

namespace MipsImage

inductive SegmentKind where
  | text
  | data
  | kernelText
  | kernelData
  | external
  deriving DecidableEq, Repr

namespace SegmentKind

def all : List SegmentKind :=
  [text, data, kernelText, kernelData, external]

def name : SegmentKind → String
  | text => ".text"
  | data => ".data"
  | kernelText => ".ktext"
  | kernelData => ".kdata"
  | external => ".extern"

def isData : SegmentKind → Bool
  | data | kernelData | external => true
  | text | kernelText => false

end SegmentKind

namespace Word

/-- The first multiple of `alignment` that is not below `address`.  Past the end
of the address space it wraps. -/
def alignUp (address : Address) (alignment : Word) : Address :=
  if alignment ≤ 1 then address
  else
    UInt32.ofNat ((address.toNat + alignment.toNat - 1) / alignment.toNat * alignment.toNat)

/-- The last multiple of `alignment` that is not above `address`. -/
def alignDown (address : Address) (alignment : Word) : Address :=
  if alignment ≤ 1 then address
  else UInt32.ofNat (address.toNat / alignment.toNat * alignment.toNat)

end Word

/-- The range set aside for a segment, and where its next byte goes.  The cursor
may be moved anywhere; whether it can be written there is for memory to say. -/
structure Segment where
  range : AddressRange
  cursor : Address
  deriving DecidableEq, Repr

namespace Segment

def start (range : AddressRange) : Segment :=
  { range, cursor := range.first }

def advance (s : Segment) (bytes : Word) : Segment :=
  { s with cursor := s.cursor + bytes }

def rewind (s : Segment) : Segment :=
  start s.range

end Segment

structure Segments where
  text : Segment
  data : Segment
  kernelText : Segment
  kernelData : Segment
  external : Segment
  active : SegmentKind
  /-- Whether data directives align themselves. -/
  autoAlign : Bool
  deriving DecidableEq, Repr

namespace Segments

def ofLayout (l : Layout) : Segments where
  text := .start l.text
  data := .start l.staticData
  kernelText := .start l.kernelText
  kernelData := .start l.kernelData
  external := .start l.externalData
  active := .text
  autoAlign := true

def get (s : Segments) : SegmentKind → Segment
  | .text => s.text
  | .data => s.data
  | .kernelText => s.kernelText
  | .kernelData => s.kernelData
  | .external => s.external

def modify (s : Segments) (kind : SegmentKind) (f : Segment → Segment) : Segments :=
  match kind with
  | .text => { s with text := f s.text }
  | .data => { s with data := f s.data }
  | .kernelText => { s with kernelText := f s.kernelText }
  | .kernelData => { s with kernelData := f s.kernelData }
  | .external => { s with external := f s.external }

/-- The cursors in the order of `SegmentKind.all`. -/
def cursors (s : Segments) : List Address :=
  SegmentKind.all.map fun kind => (s.get kind).cursor

/-- The cursor of the active segment. -/
def cursor (s : Segments) : Address :=
  (s.get s.active).cursor

/-- Make a segment the active one.  Automatic alignment is on again. -/
def switchTo (s : Segments) (kind : SegmentKind) : Segments :=
  { s with active := kind, autoAlign := true }

def setCursor (s : Segments) (address : Address) : Segments :=
  s.modify s.active fun segment => { segment with cursor := address }

def advance (s : Segments) (bytes : Word) : Segments :=
  s.modify s.active (·.advance bytes)

/-- Advance the active cursor to a multiple of `alignment`. -/
def alignTo (s : Segments) (alignment : Word) : Segments :=
  s.setCursor (Word.alignUp s.cursor alignment)

/-- Rewind every cursor and make text active again. -/
def reset (s : Segments) : Segments where
  text := s.text.rewind
  data := s.data.rewind
  kernelText := s.kernelText.rewind
  kernelData := s.kernelData.rewind
  external := s.external.rewind
  active := .text
  autoAlign := true

end Segments
end MipsImage
