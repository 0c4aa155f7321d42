import Mathlib.Data.Nat.Notation
import Mathlib.Tactic.SplitIfs
import Hulatang.Io.Reactor
import Hulatang.Lib.Machine

/-!
# The life of a `TCPConnection` on the epoll loop

One connection of a `TCPServer`, on the base loop or on a worker loop, or of a `TCPClient`: how it is
registered and established, what poll events and queued tasks do to it, and how it is removed and
destroyed. User callbacks run in the middle of these functions, so the loop thread has a stack of what
it has still to do on the connection; `run` takes its top. The user keeps the connection alive, sends and
closes from its callbacks, and from other threads through the loop's queue.

The tasks of the queue run in any order. Only the two that the accepting thread queues first, `add` and
`connectEstablished`, are kept in theirs: everything else is queued after the latter has run.

A failed assertion of the owner or of `Channel::cancel` is recorded and passed over, as in a build
without assertions. The `abort` of `epollCtl` stops the program, and so does a failed read, whose length
of `-1` is used as a size after the close.
-/

namespace Hulatang

/-- Whose connection it is, and on which loop. -/
inductive Owner
  | client
  | serverBase
  | serverWorker
  deriving DecidableEq

/-- `TCPConnection::StateE`. -/
inductive StateE
  | kConnecting
  | kConnected
  | kDisconnecting
  | kDisconnected
  deriving DecidableEq

/-- What the loop thread can have to do on the connection. -/
inductive Frame
  /-- `FdEventManager::add` of the channel. -/
  | add
  | connectEstablished
  | connectDestroyed
  /-- The end of `connectDestroyed`: `channel->cancel()`. -/
  | cancel
  /-- The body of `send`. -/
  | send
  /-- `closeCallback`. -/
  | close
  /-- `Reactor::handleEvent` up to its test of `POLLOUT`. -/
  | firstCall (call : Option ReactorCall)
  /-- Its end, which calls `handleWrite` or not. -/
  | lastCall (writes : Bool)
  /-- A user callback. -/
  | user
  /-- The rest of a failed read. -/
  | crash
  deriving DecidableEq

/-- What `readv` or `write` returns. -/
inductive IoResult
  | again
  | eof
  | error
  | data
  deriving DecidableEq

/-- A connection, its channel and its owner. -/
structure TCPConnection where
  owner : Owner
  state : StateE
  /-- `kReadEvent` and `kWriteEvent` of the channel's flags. -/
  reading : Bool
  writing : Bool
  /-- Whether the channel's descriptor is in the epoll set. -/
  registered : Bool
  /-- Whether the server's map, or the client, has the connection. -/
  owned : Bool
  /-- The first tasks of the accepting thread on the connection's loop. -/
  startup : List Frame
  /-- The other tasks that are queued on the connection's loop. -/
  queue : List Frame
  /-- How many removals are queued on the base loop. -/
  removals : ℕ
  /-- What the loop thread has to do, the next thing first. -/
  frames : List Frame
  /-- Whether the program has stopped. -/
  stopped : Bool
  /-- How often `closeCallback` has been called. -/
  closed : ℕ
  /-- How often the owner has removed the connection. -/
  removed : ℕ
  /-- How often the owner has failed to: `map.erase` returned 0, or `connection == conn` did not hold. -/
  notRemoved : ℕ
  /-- How often `connectDestroyed` has run. -/
  destroyed : ℕ
  /-- Whether `epollCtl` has been called with an illegal operation. -/
  illegalCtl : Bool
  /-- Whether `Channel::cancel` has been called with flags set. -/
  cancelWithFlags : Bool
  deriving DecidableEq

namespace TCPConnection

/-- A connection as its owner has just made it. The base loop and the client go on at once, the client on
the channel that the connector has registered for writing. -/
def initial (owner : Owner) : TCPConnection where
  owner := owner
  state := .kConnecting
  reading := false
  writing := owner = .client
  registered := owner = .client
  owned := true
  startup := if owner = .serverWorker then [.add, .connectEstablished] else []
  queue := []
  removals := 0
  frames :=
    match owner with
    | .client => [.connectEstablished]
    | .serverBase => [.add, .connectEstablished]
    | .serverWorker => []
  stopped := false
  closed := 0
  removed := 0
  notRemoved := 0
  destroyed := 0
  illegalCtl := false
  cancelWithFlags := false

/-- `EPollFdEventManager::add`, whose `epoll_ctl` fails on a registered descriptor. -/
def add (c : TCPConnection) : TCPConnection :=
  if c.registered then { c with illegalCtl := true, stopped := true } else { c with registered := true }

/-- `EPollFdEventManager::update`, whose `epoll_ctl` fails on one that is not registered. -/
def update (c : TCPConnection) : TCPConnection :=
  if c.registered then c else { c with illegalCtl := true, stopped := true }

/-- `EPollFdEventManager::cancel`, likewise. -/
def ctlDel (c : TCPConnection) : TCPConnection :=
  if c.registered then { c with registered := false } else { c with illegalCtl := true, stopped := true }

/-- `Channel::enableReading`. -/
def enableReading (c : TCPConnection) : TCPConnection := { c with reading := true }.update

/-- `Channel::enableWriting`. -/
def enableWriting (c : TCPConnection) : TCPConnection := { c with writing := true }.update

/-- `Channel::disableAll`. -/
def disableAll (c : TCPConnection) : TCPConnection := { c with reading := false, writing := false }.update

/-- `Channel::cancel`. -/
def cancel (c : TCPConnection) : TCPConnection :=
  { c with cancelWithFlags := c.cancelWithFlags || c.reading || c.writing }.ctlDel

/-- The body of `TCPConnection::send`, after the append. -/
def send (c : TCPConnection) : TCPConnection := if c.writing then c else c.enableWriting

/-- The loop thread has something more to do first. -/
def push (c : TCPConnection) (frame : Frame) : TCPConnection := { c with frames := frame :: c.frames }

/-- `EventLoop::queueInLoop` on the connection's loop. -/
def queueTask (c : TCPConnection) (frame : Frame) : TCPConnection := { c with queue := frame :: c.queue }

/-- `TCPConnection::connectEstablished`, up to its `connectionCallback`. -/
def connectEstablished (c : TCPConnection) : TCPConnection :=
  { c with state := .kConnected }.enableReading.push .user

/-- `TCPConnection::connectDestroyed`, up to its `connectionCallback`. -/
def connectDestroyed (c : TCPConnection) : TCPConnection :=
  let c := { c with destroyed := c.destroyed + 1 }
  if c.state = .kConnected then ({ c with state := .kDisconnected }.disableAll.push .cancel).push .user
  else c.push .cancel

/-- The owner takes the connection out, if it has it. -/
def remove (c : TCPConnection) : TCPConnection :=
  if c.owned then { c with owned := false, removed := c.removed + 1 }
  else { c with notRemoved := c.notRemoved + 1 }

/-- `closeCallback`, which is `removeConnection` of the owner. The client queues `connectDestroyed`; the
server on the base loop runs everything at once; on a worker loop it queues the removal. -/
def close (c : TCPConnection) : TCPConnection :=
  let c := { c with closed := c.closed + 1 }
  match c.owner with
  | .client => c.remove.queueTask .connectDestroyed
  | .serverBase => c.remove.push .connectDestroyed
  | .serverWorker => { c with removals := c.removals + 1 }

/-- `UnixReactor::handleRead`. -/
def handleRead (c : TCPConnection) : IoResult → TCPConnection
  | .again => c
  | .eof => c.push .close
  | .error => (c.push .crash).push .close
  | .data => c.push .user

/-- `UnixReactor::handleWrite`. -/
def handleWrite (c : TCPConnection) : IoResult → TCPConnection
  | .error => c.push .close
  | _ => c

/-- The loop thread does what comes next; `io` is what `readv` or `write` returns. -/
def runFrame (c : TCPConnection) (io : IoResult) : Frame → TCPConnection
  | .add => c.add
  | .connectEstablished => c.connectEstablished
  | .connectDestroyed => c.connectDestroyed
  | .cancel => c.cancel
  | .send => c.send
  | .close => c.close
  | .firstCall (some .handleClose) => c.push .close
  -- `errorCallback` logs the error.
  | .firstCall (some .handleError) => c
  | .firstCall (some .handleRead) => c.handleRead io
  | .firstCall none => c
  | .lastCall writes => if writes then c.handleWrite io else c
  | .user => c
  | .crash => { c with stopped := true }

/-- The steps of the connection's loop thread, of its users and of the base loop. -/
inductive Op
  /-- The loop thread does what comes next. -/
  | run (io : IoResult)
  /-- The loop runs the next of the first tasks. -/
  | startup
  /-- The loop runs a queued task. -/
  | task (frame : Frame)
  /-- A poll reports the channel. -/
  | event (revent : Revent)
  /-- A user callback calls `send`. -/
  | userSend
  /-- A user callback calls `shutdown` or `forceClose`. -/
  | userClose
  /-- Another thread calls `send`. -/
  | otherSend
  /-- Another thread calls `shutdown` or `forceClose`. -/
  | otherClose
  /-- A thread calls `TCPClient::disconnect`. -/
  | disconnect
  /-- The base loop runs a queued removal, and queues `connectDestroyed`. -/
  | removal
  deriving DecidableEq

/-- One step. The users have the connection from its first `connectionCallback` on, and a poll reports it
to `handleEvent` from `connectEstablished` on, which sets the channel's handler. -/
def step (c : TCPConnection) (op : Op) : Option TCPConnection :=
  if c.stopped then none
  else
    match op with
    | .run io =>
      match c.frames with
      | [] => none
      | frame :: frames => some ({ c with frames := frames }.runFrame io frame)
    | .startup =>
      match c.frames, c.startup with
      | [], frame :: startup => some ({ c with startup := startup }.push frame)
      | _, _ => none
    | .task frame =>
      if c.frames = [] ∧ frame ∈ c.queue then some ({ c with queue := c.queue.erase frame }.push frame)
      else none
    | .event revent =>
      if c.frames = [] ∧ c.registered ∧ c.state ≠ .kConnecting then
        some ((c.push (.lastCall (Reactor.callsWrite revent))).push (.firstCall (Reactor.firstCall revent)))
      else none
    | .userSend => if c.frames.head? = some .user then some (c.push .send) else none
    | .userClose => if c.frames.head? = some .user then some (c.queueTask .close) else none
    | .otherSend => if c.state ≠ .kConnecting then some (c.queueTask .send) else none
    | .otherClose => if c.state ≠ .kConnecting then some (c.queueTask .close) else none
    | .disconnect => if c.owner = .client ∧ c.owned then some (c.queueTask .close) else none
    | .removal =>
      if 0 < c.removals then
        some ({ c with removals := c.removals - 1 }.remove.queueTask .connectDestroyed)
      else none

/-! ## What one step can do -/

/-- The steps, guards included. -/
inductive Stepped (c : TCPConnection) : Op → TCPConnection → Prop
  | run (io : IoResult) (frame : Frame) (frames : List Frame) (hf : c.frames = frame :: frames) :
      Stepped c (.run io) ({ c with frames := frames }.runFrame io frame)
  | startup (frame : Frame) (startup : List Frame) (hf : c.frames = [])
      (hs : c.startup = frame :: startup) : Stepped c .startup ({ c with startup := startup }.push frame)
  | task (frame : Frame) (hf : c.frames = []) (hq : frame ∈ c.queue) :
      Stepped c (.task frame) ({ c with queue := c.queue.erase frame }.push frame)
  | event (revent : Revent) (hf : c.frames = []) (hr : c.registered = true)
      (hs : c.state ≠ .kConnecting) :
      Stepped c (.event revent)
        ((c.push (.lastCall (Reactor.callsWrite revent))).push (.firstCall (Reactor.firstCall revent)))
  | userSend (hf : c.frames.head? = some .user) : Stepped c .userSend (c.push .send)
  | userClose (hf : c.frames.head? = some .user) : Stepped c .userClose (c.queueTask .close)
  | otherSend (hs : c.state ≠ .kConnecting) : Stepped c .otherSend (c.queueTask .send)
  | otherClose (hs : c.state ≠ .kConnecting) : Stepped c .otherClose (c.queueTask .close)
  | disconnect (ho : c.owner = .client) : Stepped c .disconnect (c.queueTask .close)
  | removal (hq : 0 < c.removals) :
      Stepped c .removal
        ({ c with removals := c.removals - 1 }.remove.queueTask .connectDestroyed)

theorem stepped_of_step {c c' : TCPConnection} {op : Op} (hs : c.step op = some c') :
    Stepped c op c' := by
  unfold step at hs
  rw [if_neg (by rintro hstop; rw [if_pos hstop] at hs; cases hs)] at hs
  cases op with
  | run io =>
    dsimp only at hs
    split at hs
    · cases hs
    · rename_i frame frames hf
      cases hs
      exact .run io frame frames hf
  | startup =>
    dsimp only at hs
    split at hs
    · rename_i frame startup hf hstart
      cases hs
      exact .startup frame startup hf hstart
    · cases hs
  | task frame =>
    dsimp only at hs
    split_ifs at hs with hq
    cases hs
    exact .task frame hq.1 hq.2
  | event revent =>
    dsimp only at hs
    split_ifs at hs with he
    cases hs
    exact .event revent he.1 he.2.1 he.2.2
  | userSend =>
    dsimp only at hs
    split_ifs at hs with hf
    cases hs
    exact .userSend hf
  | userClose =>
    dsimp only at hs
    split_ifs at hs with hf
    cases hs
    exact .userClose hf
  | otherSend =>
    dsimp only at hs
    split_ifs at hs with hstate
    cases hs
    exact .otherSend hstate
  | otherClose =>
    dsimp only at hs
    split_ifs at hs with hstate
    cases hs
    exact .otherClose hstate
  | disconnect =>
    dsimp only at hs
    split_ifs at hs with ho
    cases hs
    exact .disconnect ho.1
  | removal =>
    dsimp only at hs
    split_ifs at hs with hq
    cases hs
    exact .removal hq

end TCPConnection

end Hulatang
