import Mathlib.Data.Int.Notation
import Hulatang.Io.Reactor
import Hulatang.Lib.Machine

/-!
# `Connector`

A connector starts a connect attempt, waits for its outcome, and retries a failed one after a delay. It
runs on the loop thread, over the reactor on Unix and the proactor on Windows. Everything runs to its
end within one call from the loop: `startInLoop`, the retry timer, and the delivery of an event or a
completion to the channel.

Errors are `std::error_condition`s: a category and a value. The values of the generic category are named
after `std::errc`. Where the program throws, aborts, fails an assertion or touches an object that is
gone, the model records a fault and stops.
-/

namespace Hulatang

/-- The implementation of `SocketModelFactory::createConnect`. -/
inductive Platform
  | unix
  | windows
  deriving DecidableEq

/-- The values of the generic category, `std::errc`, that the connector and its models name. -/
inductive Errc
  | bad_address
  | invalid_argument
  | not_a_socket
  | address_family_not_supported
  | address_in_use
  | network_down
  | address_not_available
  | connection_already_in_progress
  | network_unreachable
  | no_buffer_space
  | already_connected
  | timed_out
  | connection_refused
  | host_unreachable
  | other (value : ℕ)
  deriving DecidableEq

/-- `std::error_condition`; the generic one of value 0 is `generic none`. -/
inductive ErrorCondition
  | generic (ec : Option Errc)
  | system (value : ℕ)
  | win32 (value : ℕ)
  deriving DecidableEq

/-- `needToClose` of `Connector.cpp`: conditions of different categories are different. -/
def needToClose (ec : ErrorCondition) : Bool :=
  !(ec = .generic (some .timed_out) || ec = .generic (some .connection_refused) ||
    ec = .generic (some .network_unreachable))

/-- The errors of `WSAGetLastError` that `WSConnectProactor::handleWrite` tells apart. -/
inductive WsaError
  | WSAEFAULT
  | WSAEINVAL
  | WSAENOTSOCK
  | WSAEAFNOSUPPORT
  | WSAEADDRINUSE
  | WSAENETDOWN
  | WSAEADDRNOTAVAIL
  | WSAEALREADY
  | WSAENETUNREACH
  | WSAENOBUFS
  | WSAEISCONN
  | WSAETIMEDOUT
  | WSAECONNREFUSED
  | WSAEHOSTUNREACH
  | other (value : ℕ)
  deriving DecidableEq

/-- The `switch` of `WSConnectProactor::handleWrite`. -/
def WsaError.condition : WsaError → ErrorCondition
  | .WSAEFAULT => .generic (some .bad_address)
  | .WSAEINVAL => .generic (some .invalid_argument)
  | .WSAENOTSOCK => .generic (some .not_a_socket)
  | .WSAEAFNOSUPPORT => .generic (some .address_family_not_supported)
  | .WSAEADDRINUSE => .generic (some .address_in_use)
  | .WSAENETDOWN => .generic (some .network_down)
  | .WSAEADDRNOTAVAIL => .generic (some .address_not_available)
  | .WSAEALREADY => .generic (some .connection_already_in_progress)
  | .WSAENETUNREACH => .generic (some .network_unreachable)
  | .WSAENOBUFS => .generic (some .no_buffer_space)
  | .WSAEISCONN => .generic (some .already_connected)
  | .WSAETIMEDOUT => .generic (some .timed_out)
  | .WSAECONNREFUSED => .generic (some .connection_refused)
  | .WSAEHOSTUNREACH => .generic (some .host_unreachable)
  | .other value => .win32 value

/-- The immediate result of `connect` or `ConnectEx`: success, or in progress; or any other error. -/
inductive ConnectResult
  | accepted
  | failed (err : ℕ)
  deriving DecidableEq

/-- `Connector::State`. -/
inductive ConnectorState
  | Disconnected
  | Connecting
  | Connected
  deriving DecidableEq

/-- How a run of the connector goes wrong. -/
inductive ConnectorFault
  /-- A callback that is not set is called. -/
  | unsetCallback
  /-- The null `channel` is dereferenced. -/
  | nullChannel
  /-- A channel is used after `channel.reset()`. -/
  | danglingChannel
  /-- `assert(state == State::Disconnected)` fails. -/
  | assertFailed
  | aborted
  deriving DecidableEq

/-- A connector, its socket, and what its attempts have come to. -/
structure Connector where
  platform : Platform
  state : ConnectorState
  /-- Whether `channel` is non-null. -/
  channel : Bool
  /-- In milliseconds. -/
  retryDelay : ℕ
  /-- How many retry timers are pending. -/
  retryTimers : ℕ
  /-- The socket's `SO_ERROR`, on Unix. -/
  soError : Option Errc
  /-- How many accepted `ConnectEx` have not completed, on Windows. -/
  outstanding : ℕ
  /-- How often each attempt has ended, in `connected` or in `handleError`, the latest attempt first. -/
  attempts : List ℕ
  fault : Option ConnectorFault
  deriving DecidableEq

namespace Connector

/-- `kInitRetryDelayMs`. -/
def kInitRetryDelayMs : ℕ := 500

/-- `kMaxRetryDelayMs`. -/
def kMaxRetryDelayMs : ℕ := 30000

/-- A constructed connector. -/
def initial (platform : Platform) : Connector :=
  ⟨platform, .Disconnected, false, kInitRetryDelayMs, 0, none, 0, [], none⟩

/-- The program stops. -/
def fail (c : Connector) (fault : ConnectorFault) : Connector := { c with fault := some fault }

/-- The current attempt ends. -/
def finish (c : Connector) : Connector := { c with attempts := c.attempts.modifyHead (· + 1) }

/-- `Connector::retry`. -/
def retry (c : Connector) : Connector :=
  { c with
    state := .Disconnected
    retryTimers := c.retryTimers + 1
    retryDelay := min (c.retryDelay * 2) kMaxRetryDelayMs }

/-- `Connector::handleError`: closing the socket cancels what is posted on it. -/
def handleError (c : Connector) (ec : ErrorCondition) : Connector :=
  let c := c.finish
  if needToClose ec then { c with channel := false, outstanding := 0 }.retry else c.retry

/-- `Connector::connecting`. -/
def connecting (c : Connector) : Connector :=
  let c := { c with state := .Connecting }
  if c.channel then c else c.fail .nullChannel

/-- `Connector::connected`, which moves the channel to the new connection. -/
def connected (c : Connector) : Connector :=
  let c := { c.finish with state := .Connected }
  if c.channel then { c with channel := false } else c.fail .nullChannel

/-- `SocketModelFactory::createConnect`, and whether the model it returns is non-null. -/
def createConnect (c : Connector) (r : ConnectResult) : Connector × Bool :=
  match c.platform, r with
  | .unix, .accepted => (c, true)
  | .unix, .failed err => (c.handleError (.system err), false)
  | .windows, .accepted => ({ c with outstanding := c.outstanding + 1 }, true)
  -- The constructor of `WSConnectProactor` returns, and the object is there.
  | .windows, .failed err => (c.handleError (.win32 err), true)

/-- `Connector::connect`, a new attempt on the old channel or on a new one. -/
def connect (c : Connector) (r : ConnectResult) : Connector :=
  let c := { c with channel := true, attempts := 0 :: c.attempts }
  match c.createConnect r with
  | (c, true) => c.connecting
  | (c, false) => c

/-- `Connector::startInLoop`. -/
def startInLoop (c : Connector) (r : ConnectResult) : Connector :=
  if c.state = .Disconnected then c.connect r else c.fail .assertFailed

/-- `UnixConnectReactor::handleWrite`; reading `SO_ERROR` clears it. The condition passed on for an error
is a default-constructed one. -/
def unixHandleWrite (c : Connector) : Connector :=
  match c.soError with
  | none => c.connected
  | some _ => { c with soError := none }.handleError (.generic none)

/-- `Reactor::handleEvent` up to its test of `POLLOUT`, with the callbacks of the connector: `closeCallback`
is not set, and `UnixConnectReactor::handleRead` aborts. -/
def firstCall (c : Connector) : Option ReactorCall → Connector
  | none => c
  | some .handleClose => c.fail .unsetCallback
  | some .handleError => { c with soError := none }.handleError (.generic c.soError)
  | some .handleRead => c.fail .aborted

/-- `Reactor::handleEvent` on the connector's channel. -/
def handleEvent (c : Connector) (revent : Revent) : Connector :=
  let c := c.firstCall (Reactor.firstCall revent)
  if c.fault.isSome then c
  -- The test of `POLLOUT` reads the channel.
  else if c.channel = false then c.fail .danglingChannel
  else if Reactor.callsWrite revent then c.unixHandleWrite
  else c

/-- `WSConnectProactor::handleWrite` on a completion, an error or none. -/
def wsHandleWrite (c : Connector) : Option WsaError → Connector
  | none => c.connected
  | some err => c.handleError err.condition

/-- The calls from the loop. -/
inductive Op
  /-- `start`. -/
  | start (r : ConnectResult)
  /-- A retry timer fires. -/
  | timer (r : ConnectResult)
  /-- A poll reports `revent` on the channel, whose socket has the `SO_ERROR`. -/
  | event (revent : Revent) (soError : Option Errc)
  /-- An accepted `ConnectEx` completes. -/
  | completion (err : Option WsaError)
  deriving DecidableEq

/-- One call. -/
def step (c : Connector) (op : Op) : Option Connector :=
  if c.fault.isSome then none
  else
    match op with
    | .start r => some (c.startInLoop r)
    | .timer r =>
      if 0 < c.retryTimers then some ({ c with retryTimers := c.retryTimers - 1 }.startInLoop r)
      else none
    | .event revent soError =>
      if c.platform = .unix ∧ c.channel then some ({ c with soError := soError }.handleEvent revent)
      else none
    | .completion err =>
      if c.platform = .windows ∧ 0 < c.outstanding then
        some ({ c with outstanding := c.outstanding - 1 }.wsHandleWrite err)
      else none

end Connector

end Hulatang
