import Mathlib.Logic.Function.Basic
import Mathlib.Tactic.SplitIfs
import Hulatang.Io.EventLoopThreadPool
import Hulatang.Io.TCPConnection

/-!
# A server and all its connections

`TCPServer` over any number of loops: the base loop accepts and removes, each connection is registered,
established and destroyed on the loop that the pool has given it, and the tasks between the loops run in
any order, except that those of one connection on its loop run in the order in which they are queued.

The server finds a connection in its `map` by the address of the `sockaddr` that the connection owns, and a
loop finds a channel by its descriptor. Both come back: `malloc` and the kernel give them out again when
their last owner is gone.
-/

namespace Hulatang

/-- A `TCPConnection` object, known by when it has been constructed. -/
abbrev ConnId := ℕ

/-- What a worker loop has to do on a connection. -/
inductive ServerTask
  /-- The `add` of `acceptInLoop`, which holds the channel's raw pointer. -/
  | add
  | connectEstablished
  | connectDestroyed
  deriving DecidableEq

/-- Whether the task's closure owns the connection. -/
def ServerTask.owns : ServerTask → Bool
  | .add => false
  | .connectEstablished | .connectDestroyed => true

/-- A connection of the server, with the tasks that refer to it. -/
structure Conn where
  /-- The address of `peerAddr`'s `sockaddr`. -/
  sockaddr : ℕ
  fd : ℕ
  /-- Its loop's place in the pool; the base loop is the first. -/
  loop : ℕ
  state : StateE
  /-- Whether the channel's `tie` points to it. -/
  tied : Bool
  /-- The tasks that the base loop has queued on its loop. -/
  tasks : List ServerTask
  /-- How many removals its loop has queued on the base loop. -/
  removals : ℕ
  /-- How many pointers to it the user has. -/
  held : ℕ
  deriving DecidableEq

/-- Whether anything but the server's `map` owns the connection. -/
def Conn.owned (c : Conn) : Bool :=
  c.tied || c.tasks.any ServerTask.owns || decide (0 < c.removals) || decide (0 < c.held)

/-- How the program ends. -/
inductive ServerFault
  /-- The channel of an `add` has been destroyed. -/
  | dangling
  /-- `assert(channels[i] == nullptr)`. -/
  | occupied
  /-- `assert(state == kConnecting)`. -/
  | notConnecting
  /-- An `epoll_ctl` fails, and `epollCtl` aborts. -/
  | ctl
  /-- `assert(n == 1)` of `removeConnection`. -/
  | notRemoved
  /-- `assert(channel->getFd().getFd())` of `newConnection`, where the descriptor is `0`. -/
  | noDescriptor
  deriving DecidableEq

/-- The server, its loops and its connections. -/
structure TCPServer where
  pool : EventLoopThreadPool ℕ
  /-- How many connections have been constructed. -/
  made : ℕ
  conn : ConnId → Conn
  map : List (ℕ × ConnId)
  /-- `channels` of each loop. -/
  channels : ℕ → ℕ → Option ConnId
  /-- The connections whose removal has run, each time that it has. -/
  removed : List ConnId
  fault : Option ServerFault

namespace TCPServer

/-- A started server. -/
def initial (pool : EventLoopThreadPool ℕ) : TCPServer where
  pool := pool
  made := 0
  conn := fun _ => ⟨0, 0, 0, .kConnecting, false, [], 0, 0⟩
  map := []
  channels := fun _ _ => none
  removed := []
  fault := none

/-- Whether the connection has an owner, and so exists. -/
def alive (s : TCPServer) (c : ConnId) : Bool := s.map.any (fun entry => entry.2 == c) || (s.conn c).owned

/-- Whether its loop has its channel. -/
def Registered (s : TCPServer) (c : ConnId) : Prop := s.channels (s.conn c).loop (s.conn c).fd = some c

instance (s : TCPServer) (c : ConnId) : Decidable (s.Registered c) :=
  inferInstanceAs (Decidable (s.channels (s.conn c).loop (s.conn c).fd = some c))

def fail (s : TCPServer) (fault : ServerFault) : TCPServer := { s with fault := some fault }

def setConn (s : TCPServer) (c : ConnId) (conn : Conn) : TCPServer :=
  { s with conn := Function.update s.conn c conn }

/-- `channels[i] = …` of the connection's loop. -/
def setChannel (s : TCPServer) (c : ConnId) (channel : Option ConnId) : TCPServer :=
  { s with
    channels := fun loop fd =>
      if loop = (s.conn c).loop ∧ fd = (s.conn c).fd then channel else s.channels loop fd }

/-- `FdEventManager::add`. -/
def add (s : TCPServer) (c : ConnId) : TCPServer :=
  if s.alive c = false then s.fail .dangling
  else if s.channels (s.conn c).loop (s.conn c).fd ≠ none then s.fail .occupied
  else s.setChannel c (some c)

/-- `TCPConnection::connectEstablished`. -/
def connectEstablished (s : TCPServer) (c : ConnId) : TCPServer :=
  if (s.conn c).state ≠ .kConnecting then s.fail .notConnecting
  else if ¬ s.Registered c then s.fail .ctl
  else s.setConn c { s.conn c with state := .kConnected, tied := true }

/-- `TCPConnection::connectDestroyed`. -/
def connectDestroyed (s : TCPServer) (c : ConnId) : TCPServer :=
  if ¬ s.Registered c then s.fail .ctl
  else
    let state := if (s.conn c).state = .kConnected then .kDisconnected else (s.conn c).state
    (s.setChannel c none).setConn c { s.conn c with state := state, tied := false }

def runTask (s : TCPServer) (c : ConnId) : ServerTask → TCPServer
  | .add => s.add c
  | .connectEstablished => s.connectEstablished c
  | .connectDestroyed => s.connectDestroyed c

/-- `runInLoop` of the connection's loop, called on the base loop. -/
def runInLoop (s : TCPServer) (c : ConnId) (task : ServerTask) : TCPServer :=
  if (s.conn c).loop = 0 then s.runTask c task
  else s.setConn c { s.conn c with tasks := (s.conn c).tasks ++ [task] }

/-- `map.emplace(key, conn)`. -/
def emplace (s : TCPServer) (key : ℕ) (c : ConnId) : TCPServer :=
  if s.map.any fun entry => entry.1 == key then s else { s with map := (key, c) :: s.map }

/-- `Acceptor::acceptInLoop` and `TCPServer::newConnection`; `sockaddr` is what `malloc` has given to the
peer's address. -/
def newConnection (s : TCPServer) (sockaddr fd : ℕ) : Option TCPServer :=
  s.pool.getNextLoop.map fun r =>
    if fd = 0 then s.fail .noDescriptor
    else
      let c := s.made
      let s := { s with pool := r.2, made := c + 1 }
      let s := s.setConn c ⟨sockaddr, fd, r.1, .kConnecting, false, [], 0, 0⟩
      ((s.emplace sockaddr c).runInLoop c .add).runInLoop c .connectEstablished

/-- The body of `TCPServer::removeConnection`, on the base loop. -/
def removeInLoop (s : TCPServer) (c : ConnId) : TCPServer :=
  let key := (s.conn c).sockaddr
  let found := s.map.any fun entry => entry.1 == key
  let s := { s with map := s.map.filter fun entry => entry.1 ≠ key, removed := c :: s.removed }
  if found then s.runInLoop c .connectDestroyed else s.fail .notRemoved

/-- `TCPServer::removeConnection`, called on the connection's loop. -/
def removeConnection (s : TCPServer) (c : ConnId) : TCPServer :=
  if (s.conn c).loop = 0 then s.removeInLoop c
  else s.setConn c { s.conn c with removals := (s.conn c).removals + 1 }

/-- The steps of a run. -/
inductive Op
  /-- The base loop accepts a connection. -/
  | accept (sockaddr fd : ℕ)
  /-- The connection's loop runs the first of its tasks. -/
  | task (c : ConnId)
  /-- Its loop calls `closeCallback`. -/
  | close (c : ConnId)
  /-- The base loop runs one of its removals. -/
  | removal (c : ConnId)
  /-- The user copies a pointer to it, or drops one. -/
  | hold (c : ConnId)
  | drop (c : ConnId)
  deriving DecidableEq

/-- One step. `malloc` and `accept` give out nothing that an existing connection has. -/
def step (s : TCPServer) (op : Op) : Option TCPServer :=
  if s.fault = none then
    match op with
    | .accept sockaddr fd =>
      if ∀ c < s.made, s.alive c = true → (s.conn c).sockaddr ≠ sockaddr ∧ (s.conn c).fd ≠ fd then
        s.newConnection sockaddr fd
      else none
    | .task c =>
      if c < s.made then
        match (s.conn c).tasks with
        | [] => none
        | task :: tasks => some ((s.setConn c { s.conn c with tasks := tasks }).runTask c task)
      else none
    | .close c =>
      if c < s.made ∧ s.alive c = true ∧ (s.conn c).state ≠ .kConnecting then some (s.removeConnection c)
      else none
    | .removal c =>
      if c < s.made ∧ 0 < (s.conn c).removals then
        some ((s.setConn c { s.conn c with removals := (s.conn c).removals - 1 }).removeInLoop c)
      else none
    | .hold c =>
      if c < s.made ∧ s.alive c = true then
        some (s.setConn c { s.conn c with held := (s.conn c).held + 1 })
      else none
    | .drop c =>
      if c < s.made ∧ 0 < (s.conn c).held then
        some (s.setConn c { s.conn c with held := (s.conn c).held - 1 })
      else none
  else none

end TCPServer

end Hulatang
