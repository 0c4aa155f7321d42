import Mathlib.Data.Nat.Notation

/-!
# `Reactor::handleEvent`

The dispatch of one poll event on a channel. The bits of `revent` are those of `poll`, which `epoll`
shares. At most one of `handleClose`, `handleError` and `handleRead` is called, and then `handleWrite`.
-/

namespace Hulatang

/-- `Channel::revent`. -/
abbrev Revent := BitVec 32

namespace Revent

def POLLIN : Revent := 0x001
def POLLPRI : Revent := 0x002
def POLLOUT : Revent := 0x004
def POLLERR : Revent := 0x008
def POLLHUP : Revent := 0x010
def POLLNVAL : Revent := 0x020
def POLLRDHUP : Revent := 0x2000

/-- Whether one of the bits of `mask` is set. -/
def has (revent mask : Revent) : Bool := revent &&& mask ≠ 0

end Revent

/-- What `Reactor::handleEvent` does before it looks at `POLLOUT`. -/
inductive ReactorCall
  | handleClose
  | handleError
  | handleRead
  deriving DecidableEq

namespace Reactor

open Revent

/-- The chain of `else if` of `Reactor::handleEvent`. -/
def firstCall (revent : Revent) : Option ReactorCall :=
  if revent.has POLLHUP ∧ ¬ revent.has POLLIN then some .handleClose
  else if revent.has (POLLERR ||| POLLNVAL) then some .handleError
  else if revent.has (POLLIN ||| POLLPRI ||| POLLRDHUP) then some .handleRead
  else none

/-- Whether it calls `handleWrite` at its end. -/
def callsWrite (revent : Revent) : Bool := revent.has POLLOUT

end Reactor

end Hulatang
