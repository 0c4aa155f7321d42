import Hulatang.Lib.Heap
import Hulatang.Lib.Machine

/-!
# The lists of overlapped operations

A channel on the IOCP loop keeps its pending operations in a list that starts at `over`, and those that
have completed and wait to be handled in a list that starts at `rover`. The lists are linked through
`next` of the `Over`s themselves, so that they share it. Here they are pointers into a heap, and the
functions that follow, rewrite and clear `next` are those of the source: `addOver`, the body of `process`,
`update`, the loop of `handleEvent`, and the handlers of `WSProactor` that call them.

What the handlers find elsewhere is given with each call: the sizes and addresses of the buffers, the flags
of the channel, the results of `WSARecv` and `WSASend`, and what the callbacks of the connection do to the
channel. A callback that changes the flags re-enters through `update`, also out of a failed post.
-/

namespace Hulatang

/-- `Type`. -/
inductive OverType
  | NONE
  | OPEN
  | CLOSE
  | READ
  | WRITE
  | UPDATE
  deriving DecidableEq

/-- `StreamOverlapped`, which is a `WindowsOver`, which is an `Over`. -/
structure StreamOverlapped where
  next : Option ℕ := none
  type : OverType := .NONE
  numberOfBytesTransferred : ℕ := 0
  data : ℕ := 0
  deriving DecidableEq

/-- How a function on the lists does not return. -/
inductive OverFault
  | nullDereference
  /-- An `Over` is used that is not there. -/
  | notAllocated
  | abort
  | assertion
  /-- A loop goes on after as many nodes as there can be. -/
  | endless
  /-- Anything but the `UPDATE` itself is handled inside of `update`. -/
  | nested
  deriving DecidableEq

/-- The two lists of a channel, and what has happened to their nodes. -/
structure OverLists where
  heap : Heap StreamOverlapped
  /-- The channel's `over`. -/
  overPtr : Option ℕ
  rover : Option ℕ
  /-- The `Over`s for which `addFree` has queued a `delete`. -/
  freeing : List ℕ
  /-- The operations that are posted, in order; the callers of `addOver` note them. -/
  added : List ℕ
  /-- The operations that `handleEvent` has handled, in order. -/
  dispatched : List ℕ
  /-- The `UPDATE`s of the calls of `update`, which the callers note, and those that `handleEvent` has
  handled. -/
  pushed : List ℕ
  updated : List ℕ

namespace OverLists

/-- A call that changes the lists. -/
abbrev Action := OverLists → Except OverFault OverLists

/-- A call that is given an `Over`. -/
abbrev Func := ℕ → Action

/-- A channel without operations. -/
def initial : OverLists := ⟨.empty, none, none, [], [], [], [], []⟩

def deref (s : OverLists) (wsOver : ℕ) : Except OverFault StreamOverlapped :=
  match s.heap.cells wsOver with
  | some o => .ok o
  | none => .error .notAllocated

/-- Members of an `Over` are assigned. -/
def modify (s : OverLists) (wsOver : ℕ) (f : StreamOverlapped → StreamOverlapped) :
    Except OverFault OverLists := do
  let o ← s.deref wsOver
  return { s with heap := s.heap.set wsOver (f o) }

/-! ## `Proactor` -/

/-- The loop of `addOver`. -/
def lastOver (s : OverLists) : ℕ → ℕ → Except OverFault ℕ
  | 0, _ => .error .endless
  | fuel + 1, overPtr => do
    let o ← s.deref overPtr
    match o.next with
    | none => return overPtr
    | some next => s.lastOver fuel next

/-- `Proactor::addOver`. -/
def addOver (s : OverLists) (wsOver : ℕ) : Except OverFault OverLists :=
  match s.overPtr with
  | none => return { s with overPtr := some wsOver }
  | some overPtr => do
    let last ← s.lastOver s.heap.bound overPtr
    s.modify last fun o => { o with next := some wsOver }

/-- An operation is about to be posted. -/
def noted (s : OverLists) (wsOver : ℕ) : OverLists := { s with added := s.added ++ [wsOver] }

/-- `Proactor::addFree`. -/
def addFree (s : OverLists) (wsOver : ℕ) : OverLists := { s with freeing := s.freeing ++ [wsOver] }

/-- The functions that a `Proactor` implements. -/
structure Handlers where
  handleRead : Func
  handleWrite : Func
  updatePost : Action

/-- `func` of `handleEvent`. -/
def func (handlers : Handlers) : Func := fun wsOver s => do
  let o ← s.deref wsOver
  match o.type with
  | .NONE => return { s with heap := s.heap.delete wsOver, dispatched := s.dispatched ++ [wsOver] }
  | .READ => handlers.handleRead wsOver { s with dispatched := s.dispatched ++ [wsOver] }
  | .WRITE => handlers.handleWrite wsOver { s with dispatched := s.dispatched ++ [wsOver] }
  | .UPDATE => handlers.updatePost { s with updated := s.updated ++ [wsOver] }
  | .OPEN => .error .abort
  | .CLOSE => .error .abort

/-- The loop of `handleEvent`; `func k` is what handles the node number `k`. -/
def handleAll (func : ℕ → Func) : ℕ → ℕ → Option ℕ → Action
  | _, wsOver, none, s => func 0 wsOver s
  | 0, _, some _, _ => .error .endless
  | fuel + 1, wsOver, some overNext, s => do
    let s ← s.modify wsOver fun o => { o with next := none }
    let s ← func 0 wsOver s
    let o ← s.deref overNext
    handleAll (fun k => func (k + 1)) fuel overNext o.next s

/-- `Proactor::handleEvent`. -/
def handleEvent (func : ℕ → Func) : Action := fun s =>
  match s.rover with
  | none => .error .nullDereference
  | some wsOver => do
    let s := { s with rover := none }
    let o ← s.deref wsOver
    handleAll func s.heap.bound wsOver o.next s

/-! ## `IOCPFdEventManager` -/

/-- The search of `process` after the first node. -/
def unlinkAfter (overlapped : ℕ) : ℕ → ℕ → Option ℕ → Action
  | _, _, none, _ => .error .abort
  | 0, _, some _, _ => .error .endless
  | fuel + 1, prevOver, some wsOver, s => do
    let o ← s.deref wsOver
    if wsOver = overlapped then
      let s ← s.modify prevOver fun prev => { prev with next := o.next }
      let s ← s.modify wsOver fun o => { o with next := s.rover }
      return { s with rover := some overlapped }
    else unlinkAfter overlapped fuel wsOver o.next s

/-- What `process` does to the lists with a completion, up to `channel->handler()`. -/
def unlink (overlapped bytes : ℕ) : Action := fun s => do
  let s ← s.modify overlapped fun o => { o with numberOfBytesTransferred := bytes }
  match s.overPtr with
  | none => .error .nullDereference
  | some wsOver =>
    let o ← s.deref wsOver
    if wsOver = overlapped then
      let s := { s with overPtr := o.next }
      let s ← s.modify wsOver fun o => { o with next := s.rover }
      return { s with rover := some overlapped }
    else unlinkAfter overlapped s.heap.bound wsOver o.next s

/-- `IOCPFdEventManager::process` on one completion. -/
def process (overlapped bytes : ℕ) (func : ℕ → Func) : Action := fun s => do
  let s ← s.unlink overlapped bytes
  s.handleEvent func

/-- `IOCPFdEventManager::update`, whose `Over` is on the stack. -/
def update (stack : ℕ) (handlers : Handlers) : Action := fun s => do
  let wsOver := s.heap.fresh stack
  let s :=
    { s with
      heap := s.heap.set wsOver { next := s.rover, type := .UPDATE }
      rover := some wsOver }
  let s ← s.handleEvent fun _ => func handlers
  return { s with heap := s.heap.delete wsOver }

/-! ## `WSProactor` -/

/-- `new StreamOverlapped{}`. -/
def new (s : OverLists) (hint : ℕ) : ℕ × OverLists :=
  (s.heap.fresh hint, { s with heap := s.heap.set (s.heap.fresh hint) {} })

/-- `WSProactor::postRecv` into the region at `data`; `error` is what a `WSARecv` that fails leads to. -/
def postRecv (data : ℕ) (posted : Bool) (error : Action) : Func := fun wsOver s => do
  let s ← s.modify wsOver fun o => { o with type := .NONE }
  let s ← (s.noted wsOver).addOver wsOver
  if posted then
    s.modify wsOver fun o => { o with type := .READ, numberOfBytesTransferred := 0, data := data }
  else error s

/-- `WSProactor::postSend` of the `size` bytes at `data`. -/
def postSend (size data : ℕ) (posted : Bool) (error : Action) : Func := fun wsOver s => do
  if size = 0 then .error .assertion
  else
    let s ← s.modify wsOver fun o => { o with type := .NONE }
    let s ← (s.noted wsOver).addOver wsOver
    if posted then s.modify wsOver fun o => { o with type := .WRITE, data := data } else error s

/-- Whether a `WRITE` at the address is pending. -/
def hasWrite (s : OverLists) (data : ℕ) : ℕ → Option ℕ → Except OverFault Bool
  | _, none => return false
  | 0, some _ => .error .endless
  | fuel + 1, some wsOver => do
    let o ← s.deref wsOver
    if o.type = .WRITE ∧ o.data = data then return true else s.hasWrite data fuel o.next

/-- What a call of `Channel::update` finds. -/
structure UpdateCall where
  /-- Where the `UPDATE` is on the stack. -/
  stack : ℕ
  writing : Bool
  size : ℕ
  data : ℕ
  /-- Where the `new` would like to allocate. -/
  hint : ℕ
  /-- Whether the `WSASend` is accepted. -/
  posted : Bool
  deriving DecidableEq

/-- `WSProactor::updatePost`. -/
def updatePost (call : UpdateCall) (error : Action) : Action := fun s => do
  if call.writing then
    if call.size = 0 then return s
    else
      let found ← s.hasWrite call.data s.heap.bound s.overPtr
      if found then return s
      else
        let (wsOver, s) := s.new call.hint
        postSend call.size call.data call.posted error wsOver s
  else return s

/-- `Channel::update` from inside of a handler, or from outside of any. -/
def updateChannel (call : UpdateCall) (error : Action) : Action := fun s =>
  let s := { s with pushed := s.pushed ++ [s.heap.fresh call.stack] }
  update call.stack ⟨fun _ _ => .error .nested, fun _ _ => .error .nested, updatePost call error⟩ s

/-- What the callbacks of a connection do to its channel: one change of the flags after the other. Where a
post fails, `error` calls the callbacks of the channel. -/
inductive Callbacks
  | done
  | update (call : UpdateCall) (failed rest : Callbacks)
  deriving DecidableEq

def callbacks : Callbacks → Action
  | .done => fun s => return s
  | .update call failed rest => fun s => do
    let s ← updateChannel call (callbacks failed) s
    callbacks rest s

/-- What `handleRead` finds. -/
structure ReadCall where
  writableBytes : ℕ
  /-- Whether the second `WSARecv` fails, and not with `WSAEWOULDBLOCK`. -/
  refused : Bool
  /-- The callbacks of `handleError` and `handleClose`. -/
  closed : Callbacks
  message : Callbacks
  data : ℕ
  posted : Bool
  failed : Callbacks
  deriving DecidableEq

/-- `WSProactor::handleRead`. -/
def handleRead (call : ReadCall) : Func := fun wsOver s => do
  let o ← s.deref wsOver
  if o.numberOfBytesTransferred = 0 then callbacks call.closed s
  else if o.numberOfBytesTransferred = call.writableBytes ∧ call.refused then callbacks call.closed s
  else
    let s ← callbacks call.message s
    postRecv call.data call.posted (callbacks call.failed) wsOver s

/-- What `handleWrite` finds. -/
structure WriteCall where
  /-- The callbacks of `writeCallback`. -/
  written : Callbacks
  /-- What is left in the write buffer. -/
  size : ℕ
  data : ℕ
  posted : Bool
  failed : Callbacks
  /-- Where the `UPDATE` of `disableWriting` is on the stack. -/
  stack : ℕ
  deriving DecidableEq

/-- `Channel::disableWriting`. -/
def disableWriting (stack : ℕ) : Action :=
  updateChannel { stack := stack, writing := false, size := 0, data := 0, hint := 0, posted := false } .ok

/-- `WSProactor::handleWrite`. -/
def handleWrite (call : WriteCall) : Func := fun wsOver s => do
  let s ← callbacks call.written s
  if 0 < call.size then postSend call.size call.data call.posted (callbacks call.failed) wsOver s
  else disableWriting call.stack (s.addFree wsOver)

/-- What the handlers find when a node is handled. -/
structure Call where
  read : ReadCall
  write : WriteCall
  update : UpdateCall
  failed : Callbacks
  deriving DecidableEq

/-- A `READ` is posted again, unless it closes the channel. -/
def ReadCall.Reposts (call : ReadCall) (o : StreamOverlapped) : Prop :=
  o.numberOfBytesTransferred ≠ 0 ∧ ¬ (o.numberOfBytesTransferred = call.writableBytes ∧ call.refused)

/-- A `WRITE` is posted again where something is left to be written. -/
def Call.Reposts (call : Call) (o : StreamOverlapped) : Prop :=
  o.type = .READ ∧ call.read.Reposts o ∨ o.type = .WRITE ∧ 0 < call.write.size

/-- The functions of `WSProactor`, where they find what the call says. -/
def Call.handlers (call : Call) : Handlers :=
  ⟨handleRead call.read, handleWrite call.write, updatePost call.update (callbacks call.failed)⟩

end OverLists

end Hulatang
