import Mathlib.Tactic.SplitIfs
import Hulatang.Base.Buffer

/-!
# The sending half of a connection on `WSProactor`

A connected `TCPConnection` on the IOCP loop. Posted operations are `Over`s in the channel's list `over`;
a completion moves its `Over` to the list `rover` and calls `Proactor::handleEvent`, and so does every
change of the channel's flags with an `UPDATE`. `handleEvent` takes the whole of `rover`, and its handlers
may change flags themselves. `update` is the inner of the two calls: there anything but an `UPDATE`
would be a `WRITE` or `READ` handled inside of a handler, which `nested` records.

Every `WSARecv` and `WSASend` is accepted. Of the receiving half only the `READ` is kept, which is in no
list while `messageCallback` runs; what `handleRead` does with `recvBuffer` touches nothing here.
-/

namespace Hulatang

/-- `StreamOverlapped`, by its `Type`. -/
inductive Over
  | none
  | read
  /-- A `WRITE` of `len` bytes at the address `data`. -/
  | write (data len : ℕ)
  | update
  deriving DecidableEq

/-- The length of a `WRITE`. -/
def Over.writeLen : Over → Option ℕ
  | .write _ len => some len
  | _ => Option.none

/-- A connected `TCPConnection`, its `WSProactor` and its channel. -/
structure WSProactor where
  sendBuffer : Buffer
  /-- Where the vector of `sendBuffer` is. -/
  begin : ℕ
  /-- `kWriteEvent` of the channel's flags. -/
  writing : Bool
  /-- The channel's `over`: the pending operations, in the order in which they were posted. -/
  overs : List Over
  /-- The channel's `rover`. -/
  rovers : List Over
  /-- Whether `messageCallback` runs. -/
  receiving : Bool
  /-- The contents of the regions that `postSend` has posted, one after the other. -/
  posted : List NoInit
  /-- What `send` has been called with. -/
  sent : List UInt8
  nested : Bool
  /-- How an operation has failed, if one has. -/
  fault : Option Fault
  deriving DecidableEq

namespace WSProactor

/-- A connection that has just been established, whose first `READ` the constructor has posted. -/
def initial (begin : ℕ) : WSProactor where
  sendBuffer := .ofSize Buffer.kInitialSize
  begin := begin
  writing := false
  overs := [.read]
  rovers := []
  receiving := false
  posted := []
  sent := []
  nested := false
  fault := none

/-- `writeBuf->data()`. -/
def data (s : WSProactor) : ℕ := s.begin + s.sendBuffer.readerIndex

/-- `WSProactor::postSend`. The length is a `ULONG`. -/
def postSend (s : WSProactor) : WSProactor :=
  if 0 < s.sendBuffer.readableBytes then
    let len := s.sendBuffer.readableBytes % 2^32
    { s with
      overs := s.overs ++ [.write s.data len]
      posted := s.posted ++ s.sendBuffer.toStringView.take len }
  else { s with fault := some .assertion }

/-- Whether it is a `WRITE` at the address. -/
def isWriteAt (address : ℕ) : Over → Bool
  | .write data _ => data = address
  | _ => false

/-- `WSProactor::updatePost`. -/
def updatePost (s : WSProactor) : WSProactor :=
  if s.writing then
    if s.sendBuffer.readableBytes = 0 then s
    else if s.overs.any (isWriteAt s.data) then s
    else s.postSend
  else s

/-- `Proactor::handleEvent`, by what it does with one `Over`. -/
def handleEvent (func : WSProactor → Over → WSProactor) (s : WSProactor) : WSProactor :=
  s.rovers.foldl func { s with rovers := [] }

/-- `IOCPFdEventManager::update`. -/
def update (s : WSProactor) : WSProactor :=
  { s with rovers := .update :: s.rovers }.handleEvent fun s o =>
    match o with
    | .update => s.updatePost
    | .none => s
    | .read | .write _ _ => { s with nested := true }

/-- `Channel::enableWriting`. -/
def enableWriting (s : WSProactor) : WSProactor := { s with writing := true }.update

/-- `Channel::disableWriting`. -/
def disableWriting (s : WSProactor) : WSProactor := { s with writing := false }.update

/-- `TCPConnection::send` on the loop thread; the append leaves the vector at the address `begin`. -/
def send (s : WSProactor) (buf : Buf) (begin : ℕ) : WSProactor :=
  match s.sendBuffer.append buf.buf with
  | .error fault => { s with fault := some fault }
  | .ok sendBuffer =>
    let s := { s with sendBuffer := sendBuffer, begin := begin, sent := s.sent ++ buf.buf }
    if s.writing then s else s.enableWriting

/-- `WSProactor::handleWrite`. The connection has no `writeCallback`. -/
def handleWrite (s : WSProactor) (len : ℕ) : WSProactor :=
  match s.sendBuffer.retrieve len with
  | .error fault => { s with fault := some fault }
  | .ok sendBuffer =>
    let s := { s with sendBuffer := sendBuffer }
    if 0 < s.sendBuffer.readableBytes then s.postSend else s.disableWriting

/-- `WSProactor::handleRead` of at least one byte, up to its `messageCallback`. -/
def handleRead (s : WSProactor) : WSProactor := { s with receiving := true }

/-- The rest of it: `postRecv`. -/
def postRecv (s : WSProactor) : WSProactor :=
  { s with overs := s.overs ++ [.read], receiving := false }

/-- What `handleEvent` does with one `Over`. -/
def handle (s : WSProactor) : Over → WSProactor
  | .none => s
  | .read => s.handleRead
  | .write _ len => s.handleWrite len
  | .update => s.updatePost

/-- What `IOCPFdEventManager::process` does with the completion of the operation at the place `k` of the
list. -/
def process (s : WSProactor) (k : ℕ) (o : Over) : WSProactor :=
  { s with overs := s.overs.eraseIdx k, rovers := o :: s.rovers }.handleEvent handle

/-- The steps of a run. -/
inductive Op
  /-- A `send` on the loop thread, from `messageCallback` or from elsewhere. -/
  | send (buf : Buf) (begin : ℕ)
  /-- The completion of the operation at the place `k`. -/
  | completion (k bytes : ℕ)
  /-- `messageCallback` returns. -/
  | messageReturn
  deriving DecidableEq

/-- Whether an operation can be completed with so many bytes: a `READ` with at least one, a `WRITE` with
all of its region. -/
def completes (bytes : ℕ) : Over → Bool
  | .read => 0 < bytes
  | .write _ len => bytes = len
  | _ => false

/-- One step. A `send` that throws ends the run, as a failed assertion does. -/
def step (s : WSProactor) (op : Op) : Option WSProactor :=
  if s.fault = none then
    match op with
    | .send buf begin =>
      if (s.send buf begin).fault = some .lengthError then none else some (s.send buf begin)
    | .completion k bytes =>
      match s.overs[k]? with
      | some o =>
        if s.receiving = false ∧ completes bytes o then some (s.process k o) else none
      | none => none
    | .messageReturn => if s.receiving then some s.postRecv else none
  else none

end WSProactor

end Hulatang
