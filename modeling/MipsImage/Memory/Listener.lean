/-
Listeners: observers of memory, such as debuggers and memory views.

A listener is code of whoever uses the memory, and there is no telling what it does
when it is called.  It has the interface of the memory at its disposal, so in the end
it acts on that memory, in some order.  Which acts these are is left open: a listener
has a list of them for each call of a run.  It may have chosen them by what it was
told, by what it found in memory or by anything else; of that a run shows the outcome
alone.  Results that need to know more of the acts say so in their hypotheses.

A listener goes by a name, and a name may be taken over by a later listener.  The
earlier one then keeps its watches and is still called, but the name no longer
means it.
-/
import MipsImage.Layout
import MipsImage.Memory.Lane
import MipsImage.Memory.Watch
import MipsImage.Statement

namespace MipsImage

/-- What listeners are called by. -/
abbrev ListenerName := Nat

/-- One thing that can be done to a memory, without any call to a listener.  What a
listener does that others are called for is followed among its acts by what these
others do.  Another listener is meant by its name, as the name stands at the time of
the act. -/
inductive Act where
  /-- Store the low `length` bytes of a value. -/
  | store (address : Address) (value : Word) (length : Nat)
  | storeStatement (address : Address) (s : EncodedStatement)
  | setOrder (order : ByteOrder)
  | setSelfModifying (allowed : Bool)
  /-- Discard every stored value and switch to a layout. -/
  | clear (layout : Layout)
  | allocateHeap (bytes : Word)
  /-- Add a watch for a listener. -/
  | watch (listener : ListenerName) (first last : Address)
  /-- Drop every watch of a listener. -/
  | unwatch (listener : ListenerName)
  deriving DecidableEq, Repr

structure Listener where
  name : ListenerName
  /-- What it does if it is called after `n` other calls to listeners. -/
  acts : Nat → List Act

/-- What a listener is told. -/
inductive Notice where
  | read (access : Access)
  | write (access : Access)
  | reset
  deriving DecidableEq, Repr

/-- A notice together with the listener it was given to. -/
structure Delivery where
  listener : ListenerId
  notice : Notice
  deriving DecidableEq, Repr

namespace Notice

/-- The listeners to call: those with a range that meets the bytes of an access,
and all of them on a reset. -/
def recipients (ws : List Watch) : Notice → List ListenerId
  | read a | write a => Watch.interested ws a.address a.lastAddress
  | reset => Watch.listeners ws

end Notice
end MipsImage
