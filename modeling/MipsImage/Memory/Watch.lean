/-
Watches: the address ranges that listeners have asked to hear about.

A listener's ranges never touch one another: a new range swallows those of the
same listener that overlap or adjoin it.  The order of the list is the order in
which listeners are called.
-/
import MipsImage.Layout

namespace MipsImage

/-- Listeners are told apart by the order in which they were made known. -/
abbrev ListenerId := Nat

/-- One access to memory: the bytes read or written, and the word around them. -/
structure Access where
  address : Address
  length : Nat
  value : Word
  wordAddress : Address
  wordValue : Word
  deriving DecidableEq, Repr

namespace Access

/-- The last byte of the access, at most the last of the address space. -/
def lastAddress (a : Access) : Address :=
  UInt32.ofNat (min 0xffffffff (a.address.toNat + (a.length - 1)))

end Access

/-- A range with the listener that watches it. -/
structure Watch where
  listener : ListenerId
  range : AddressRange
  deriving DecidableEq, Repr

namespace Watch

/-- Whether a watch overlaps or directly adjoins the addresses from `first` to
`last`. -/
def touches (w : Watch) (first last : Address) : Bool :=
  w.range.intersects first last || w.range.last.toNat + 1 == first.toNat
    || last.toNat + 1 == w.range.first.toNat

end Watch

/-- A range was asked for whose first address is above its last. -/
structure InvalidWatch where
  first : Address
  last : Address
  deriving DecidableEq, Repr

namespace InvalidWatch

def message (e : InvalidWatch) : String :=
  "invalid listener range " ++ Text.hexWord e.first ++ "-" ++ Text.hexWord e.last
    ++ ": first address is above last"

end InvalidWatch

namespace Watch

/-- Take out the entry at `i` and put the last entry in its place. -/
def swapRemove (ws : List Watch) (i : Nat) : List Watch :=
  match ws.getLast? with
  | some last => (ws.set i last).dropLast
  | none => []

theorem length_swapRemove_lt {ws : List Watch} {w : Watch} (h : w ∈ ws) (i : Nat) :
    (swapRemove ws i).length < ws.length := by
  have hpos := List.length_pos_of_mem h
  unfold swapRemove
  split
  · simp only [List.length_dropLast, List.length_set]; omega
  · exact hpos

/-- Whether a watch is `listener`'s and touches the range from `first` to `last`. -/
def joins (listener : ListenerId) (first last : Address) (w : Watch) : Bool :=
  w.listener == listener && w.touches first last

/-- Take the ranges of `listener` that touch the range from `first` to `last` out
of the list one after the other, widening the range by each, and put the result
at the end. -/
def merge (listener : ListenerId) (first last : Address) (ws : List Watch) : List Watch :=
  match _found : ws.find? (joins listener first last) with
  | none => ws ++ [{ listener, range := ⟨first, last⟩ }]
  | some w =>
    merge listener (min first w.range.first) (max last w.range.last)
      (swapRemove ws (ws.findIdx (joins listener first last)))
termination_by ws.length
decreasing_by exact length_swapRemove_lt (List.mem_of_find?_eq_some _found) _

/-- Watch one more range. -/
def add (ws : List Watch) (listener : ListenerId) (first last : Address) :
    Except InvalidWatch (List Watch) :=
  if last < first then .error { first, last } else .ok (merge listener first last ws)

/-- Drop every range of a listener. -/
def remove (ws : List Watch) (listener : ListenerId) : List Watch :=
  ws.filter (·.listener != listener)

/-- The ranges of a listener by address. -/
def rangesOf (ws : List Watch) (listener : ListenerId) : List AddressRange :=
  ((ws.filter (·.listener == listener)).map (·.range)).mergeSort fun a b =>
    a.first < b.first || (a.first == b.first && a.last ≤ b.last)

/-- The listeners of a list of watches, each once, at its first place. -/
def listeners (ws : List Watch) : List ListenerId :=
  ws.foldl (fun ids w => if ids.contains w.listener then ids else ids ++ [w.listener]) []

/-- The listeners with a range that meets the addresses from `first` to `last`. -/
def interested (ws : List Watch) (first last : Address) : List ListenerId :=
  listeners (ws.filter (·.range.intersects first last))

end Watch
end MipsImage
